import StencilPlan.Proofs.Yields

/-!
# Tasks that come to the same

A task reads some parts of its state and leaves others alone, and how much it writes into the
journal is decided by the verbosity. `Task.Follows` says both at once: run from the image of a
state under a map, and under any other verbosity, a task comes to the same result and ends in the
image of where it ended before. With the identity for the map only the verbosity is left, so tasks
that follow themselves under it are the ones whose outcome nobody can change by listening.
-/

namespace StencilPlan.Task

variable {σ τ α β : Type} {g : σ → σ}

/-- Run from the image of a state under `g`, the second task comes to what the first one comes to
from the state itself, and ends in the image of where that ends. -/
def Follows (g : σ → σ) (x y : Task σ α) : Prop :=
  ∀ v w s, (y.run w (g s)).result = (x.run v s).result ∧
    (y.run w (g s)).state = g (x.run v s).state

/-- What a task yields, the task that follows it yields in the image. -/
theorem Follows.yields {x y : Task σ α} (h : Follows g x y) {v : Verbosity} (w : Verbosity)
    {s s' : σ} {a : α} (hy : x.Yields v s a s') : y.Yields w (g s) a (g s') := by
  obtain ⟨hresult, hstate⟩ := h v w s
  exact ⟨hresult.trans hy.1, hstate.trans (congrArg g hy.2)⟩

theorem follows_pure (a : α) : Follows g (pure a : Task σ α) (pure a) := fun _ _ _ => ⟨rfl, rfl⟩

theorem follows_reject (e : PlanError) : Follows g (reject e : Task σ α) (reject e) :=
  fun _ _ _ => ⟨rfl, rfl⟩

theorem follows_outcome (x : Outcome α) : Follows g (liftM x : Task σ α) (liftM x) :=
  fun _ _ _ => ⟨rfl, rfl⟩

theorem follows_checked (x : Checked α) : Follows g (liftM x : Task σ α) (liftM x) :=
  fun _ _ _ => ⟨rfl, rfl⟩

theorem follows_planError (x : Except PlanError α) : Follows g (liftM x : Task σ α) (liftM x) :=
  fun _ _ _ => ⟨rfl, rfl⟩

theorem follows_note (k : Severity) (text : String) :
    Follows g (note k text : Task σ Unit) (note k text) := by
  intro v w s
  obtain ⟨hv, hv'⟩ : (note k text : Task σ Unit).Yields v s () s := yields_note.mpr rfl
  obtain ⟨hw, hw'⟩ : (note k text : Task σ Unit).Yields w (g s) () (g s) := yields_note.mpr rfl
  exact ⟨hw.trans hv.symm, hw'.trans (congrArg g hv'.symm)⟩

theorem follows_modify {k l : σ → σ} (h : ∀ s, l (g s) = g (k s)) :
    Follows g (modify k : Task σ PUnit) (modify l) := fun _ _ s => ⟨rfl, h s⟩

theorem follows_set {t u : σ} (h : u = g t) : Follows g (set t : Task σ PUnit) (set u) :=
  fun _ _ _ => ⟨rfl, h⟩

/-- Work without a state is the same anywhere. -/
theorem follows_stateless {x : Task Unit α} (h : Follows id x x) :
    Follows g (liftM x : Task σ α) (liftM x) := fun v w _ => ⟨(h v w ()).1, rfl⟩

/-- Work on a part that the map leaves alone. -/
theorem follows_zoom {part : σ → τ} {put : τ → σ → σ} {x : Task τ α} (h : Follows id x x)
    (hpart : ∀ s, part (g s) = part s) (hput : ∀ t s, put t (g s) = g (put t s)) :
    Follows g (zoom part put x) (zoom part put x) := by
  intro v w s
  obtain ⟨hresult, hstate⟩ := h v w (part s)
  simp only [id] at hresult hstate
  simp only [run, zoom] at hresult hstate ⊢
  rw [hpart, hresult, hstate, hput]
  exact ⟨rfl, rfl⟩

theorem follows_ite {p : Prop} [Decidable p] {x x' y y' : Task σ α} (hx : Follows g x y)
    (hx' : Follows g x' y') : Follows g (if p then x else x') (if p then y else y') := by
  split
  · exact hx
  · exact hx'

/-- What comes after a guard that rejects. -/
theorem follows_guard {p : Prop} [Decidable p] {e : PlanError} {f k : β → Task σ α}
    {x y : Task σ α} (h : Follows g x y) :
    Follows g (if p then (reject e : Task σ β) >>= f else x)
      (if p then (reject e : Task σ β) >>= k else y) := by
  split
  · exact fun _ _ _ => ⟨rfl, rfl⟩
  · exact h

theorem follows_bind {x y : Task σ α} {f k : α → Task σ β} (hx : Follows g x y)
    (hf : ∀ a, Follows g (f a) (k a)) : Follows g (x >>= f) (y >>= k) := by
  intro v w s
  obtain ⟨hresult, hstate⟩ := hx v w s
  simp only [run] at hresult hstate ⊢
  cases hrun : x v s with
  | mk r t j =>
    cases hrun' : y w (g s) with
    | mk r' t' j' =>
      rw [hrun, hrun'] at hresult hstate
      dsimp only at hresult hstate
      subst hresult hstate
      cases r' with
      | error e => simp [bind, hrun, hrun']
      | ok a => simpa [bind, hrun, hrun', run] using hf a v w t

/-- A mistake that is turned into a value is the same one. -/
theorem follows_attempt {x y : Task σ α} (h : Follows g x y) :
    Follows g (attempt x) (attempt y) := by
  intro v w s
  obtain ⟨hresult, hstate⟩ := h v w s
  simp only [run] at hresult hstate
  cases hrun : x v s with
  | mk r t j =>
    cases hrun' : y w (g s) with
    | mk r' t' j' =>
      rw [hrun, hrun'] at hresult hstate
      dsimp only at hresult hstate
      subst hresult hstate
      cases r' with
      | ok a => simp [run, attempt, hrun, hrun']
      | error e => cases e <;> simp [run, attempt, hrun, hrun']

/-- Work on a value of its own leaves the state alone, so only a success shows where it ends. -/
theorem follows_apart {t : τ} {x : Task τ α}
    (hresult : ∀ v w, (x.run w t).result = (x.run v t).result)
    (hstate : ∀ v w a t', x.Yields v t a t' → x.Yields w t a t') :
    Follows g (apart t x : Task σ (α × τ)) (apart t x) := by
  intro v w s
  have hrun := hresult v w
  refine ⟨?_, rfl⟩
  simp only [run, apart] at hrun ⊢
  cases hx : (x v t).result with
  | error e => rw [hrun, hx]; rfl
  | ok a =>
    obtain ⟨-, hsame⟩ := hstate v w a _ ⟨hx, rfl⟩
    simp only [run] at hsame
    rw [hrun, hx, hsame]

/-- What is read of the state may differ only by the map. -/
theorem follows_bind_get {f k : σ → Task σ β} (h : ∀ s, Follows g (f s) (k (g s))) :
    Follows g ((get : Task σ σ) >>= f) (get >>= k) := fun v w s => h s v w s

/-! ### Tasks that nobody can change by listening -/

/-- The verbosity has no part in what the task comes to. -/
abbrev Quiet (x : Task σ α) : Prop := Follows id x x

/-- In one state the task has the same outcome under two verbosities. -/
def Agrees (x : Task σ α) (v w : Verbosity) (s : σ) : Prop :=
  (x.run w s).result = (x.run v s).result ∧ (x.run w s).state = (x.run v s).state

/-- After a quiet task the outcomes agree if they do where that task leads. -/
theorem Quiet.agrees_bind_iff {x : Task σ α} {f : α → Task σ β} (h : Quiet x) {v w : Verbosity}
    {s : σ} : (x >>= f).Agrees v w s ↔ ∀ a t, x.Yields v s a t → (f a).Agrees v w t := by
  obtain ⟨hresult, hstate⟩ := h v w s
  simp only [Agrees, Yields, run, id] at hresult hstate ⊢
  cases hrun : x v s with
  | mk r t j =>
    cases hrun' : x w s with
    | mk r' t' j' =>
      rw [hrun, hrun'] at hresult hstate
      dsimp only at hresult hstate
      subst hresult hstate
      cases r' with
      | error e => simp [bind, hrun, hrun']
      | ok a => simp [bind, hrun, hrun']

end StencilPlan.Task
