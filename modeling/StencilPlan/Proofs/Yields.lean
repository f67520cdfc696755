import Mathlib.Data.List.Forall2
import StencilPlan.Journal
import StencilPlan.Arith.Checked

/-!
# Computations that succeed

Every theorem about a result starts from a computation that came to one. For `Except` the lemmas
here take a success apart at each `bind`; for a `Task` they do the same through `Task.Yields`,
which keeps the result and the state and forgets the journal. So the text of a record, and whether
it is written, never gets into a proof.
-/

namespace StencilPlan

section Outcomes

variable {ε α β : Type}

theorem bind_eq_ok {x : Except ε α} {f : α → Except ε β} {b : β} :
    (x >>= f) = .ok b ↔ ∃ a, x = .ok a ∧ f a = .ok b := by
  cases x <;> simp [bind, Except.bind]

attribute [simp low] bind_eq_ok

@[simp] theorem pure_bind_eq_ok {a : α} {f : α → Except ε β} {b : β} :
    ((pure a : Except ε α) >>= f) = .ok b ↔ f a = .ok b := by
  simp [bind, pure, Except.bind, Except.pure]

@[simp] theorem pure_eq_ok {a b : α} : (pure a : Except ε α) = .ok b ↔ b = a := by
  simp [pure, Except.pure, eq_comm]

@[simp] theorem throw_ne_ok {e : ε} {a : α} : (throw e : Except ε α) ≠ .ok a := by
  simp [throw, throwThe, MonadExceptOf.throw]

@[simp] theorem map_eq_ok {x : Except ε α} {f : α → β} {b : β} :
    (x.map f) = .ok b ↔ ∃ a, x = .ok a ∧ b = f a := by
  cases x <;> simp [Except.map, eq_comm]

@[simp] theorem fmap_eq_ok {x : Except ε α} {f : α → β} {b : β} :
    (f <$> x) = .ok b ↔ ∃ a, x = .ok a ∧ b = f a := map_eq_ok

@[simp] theorem liftM_checked_eq_ok {x : Checked α} {a : α} :
    (liftM x : Outcome α) = .ok a ↔ x = .ok a := by
  cases x <;> simp [liftM, monadLift, MonadLift.monadLift]

@[simp] theorem liftM_planError_eq_ok {x : Except PlanError α} {a : α} :
    (liftM x : Outcome α) = .ok a ↔ x = .ok a := by
  cases x <;> simp [liftM, monadLift, MonadLift.monadLift]

/-- A guard that throws is passed exactly when its condition does not hold. -/
@[simp] theorem guard_eq_ok {p : Prop} [Decidable p] {e : ε} {f : α → Except ε β}
    {y : Except ε β} {b : β} :
    (if p then (throw e : Except ε α) >>= f else y) = .ok b ↔ ¬ p ∧ y = .ok b := by
  split <;> simp_all

@[simp] theorem guard_not_eq_ok {p : Prop} [Decidable p] {e : ε} {f : α → Except ε β}
    {y : Except ε β} {b : β} :
    (if p then y else (throw e : Except ε α) >>= f) = .ok b ↔ p ∧ y = .ok b := by
  split <;> simp_all

/-- A list of computations succeeds if each of them does. -/
theorem mapM_eq_ok {f : α → Except ε β} {l : List α} {r : List β} :
    l.mapM f = .ok r ↔ List.Forall₂ (fun a b => f a = .ok b) l r := by
  induction l generalizing r with
  | nil => simp [List.mapM_nil]
  | cons a l ih =>
    simp only [List.mapM_cons, bind_eq_ok, pure_eq_ok, ih]
    constructor
    · rintro ⟨b, hb, bs, hbs, rfl⟩
      exact .cons hb hbs
    · intro h
      cases h with
      | cons hb hbs => exact ⟨_, hb, _, hbs, rfl⟩

theorem exists_mapM_eq_ok {f : α → Except ε β} {l : List α} (h : ∀ a ∈ l, ∃ b, f a = .ok b) :
    ∃ r, l.mapM f = .ok r := by
  induction l with
  | nil => exact ⟨[], rfl⟩
  | cons a l ih =>
    obtain ⟨⟨b, hb⟩, hl⟩ := List.forall_mem_cons.mp h
    obtain ⟨bs, hbs⟩ := ih hl
    exact ⟨b :: bs, mapM_eq_ok.mpr (.cons hb (mapM_eq_ok.mp hbs))⟩

theorem forM_eq_ok {f : α → Except ε PUnit} {l : List α} (h : ∀ a ∈ l, f a = .ok ⟨⟩) :
    l.forM f = .ok ⟨⟩ := by
  induction l with
  | nil => rfl
  | cons a l ih =>
    have hrest := ih fun b hb => h b (by simp [hb])
    simp only [List.forM_eq_forM] at hrest ⊢
    rw [List.forM_cons, h a (by simp)]
    exact hrest

/-- A success can be found, and checked, by running the computation. -/
theorem exists_eq_ok_of_any {x : Except ε α} {p : α → Bool} (h : x.toOption.any p = true) :
    ∃ a, x = .ok a ∧ p a = true := by
  cases x with
  | error e => simp [Except.toOption] at h
  | ok a => exact ⟨a, rfl, by simpa [Except.toOption] using h⟩

end Outcomes

namespace Task

variable {σ τ α β : Type} {v : Verbosity} {s s' : σ}

/-- The task succeeds with result `a` and leaves the state `s'`. -/
def Yields (x : Task σ α) (v : Verbosity) (s : σ) (a : α) (s' : σ) : Prop :=
  (x.run v s).result = .ok a ∧ (x.run v s).state = s'

theorem yields_of_result {x : Task σ α} {a : α} (h : (x.run v s).result = .ok a) :
    x.Yields v s a (x.run v s).state := ⟨h, rfl⟩

/-- That a task succeeds can be found by running it. -/
theorem exists_yields_of_isSome {x : Task σ α}
    (h : (x.run v s).result.toOption.isSome = true) : ∃ a, x.Yields v s a (x.run v s).state := by
  cases hresult : (x.run v s).result with
  | ok a => exact ⟨a, hresult, rfl⟩
  | error e =>
    rw [hresult] at h
    cases h

/-- A task comes to one result and one state. -/
theorem Yields.unique {x : Task σ α} {a b : α} {t t' : σ} (h : x.Yields v s a t)
    (h' : x.Yields v s b t') : a = b ∧ t = t' := by
  obtain ⟨hr, rfl⟩ := h
  obtain ⟨hr', rfl⟩ := h'
  exact ⟨Except.ok.inj (hr.symm.trans hr'), rfl⟩

@[simp] theorem yields_pure {a b : α} :
    (pure a : Task σ α).Yields v s b s' ↔ b = a ∧ s' = s := by
  simp [Yields, eq_comm]

theorem yields_bind {x : Task σ α} {f : α → Task σ β} {b : β} :
    (x >>= f).Yields v s b s' ↔ ∃ a t, x.Yields v s a t ∧ (f a).Yields v t b s' := by
  simp only [Yields, run]
  cases hx : x v s with
  | mk r t j =>
    cases r with
    | error e => simp [bind, hx]
    | ok a =>
      simp only [bind, hx, Except.ok.injEq]
      constructor
      · exact fun h => ⟨a, t, ⟨rfl, rfl⟩, h⟩
      · rintro ⟨_, _, ⟨rfl, rfl⟩, h⟩
        exact h

attribute [simp low] yields_bind

@[simp] theorem yields_get {a : σ} : (get : Task σ σ).Yields v s a s' ↔ a = s ∧ s' = s := by
  simp [Yields, run, get, getThe, MonadStateOf.get, eq_comm]

@[simp] theorem yields_set {t : σ} {a : Unit} :
    (set t : Task σ PUnit).Yields v s a s' ↔ s' = t := by
  simp [Yields, run, set, MonadStateOf.set, eq_comm]

@[simp] theorem yields_modify {f : σ → σ} {a : Unit} :
    (modify f : Task σ PUnit).Yields v s a s' ↔ s' = f s := by
  simp [Yields, run, modify, modifyGet, MonadStateOf.modifyGet, eq_comm]

@[simp] theorem not_yields_fail {e : Failure} {a : α} :
    ¬ (fail e : Task σ α).Yields v s a s' := by
  simp [Yields]

@[simp] theorem not_yields_reject {e : PlanError} {a : α} :
    ¬ (reject e : Task σ α).Yields v s a s' := not_yields_fail

@[simp] theorem yields_note {k : Severity} {text : String} {a : Unit} :
    (note k text : Task σ Unit).Yields v s a s' ↔ s' = s := by
  simp only [Yields, run, note, noteWith]
  split <;> simp [eq_comm]

@[simp] theorem yields_outcome {x : Outcome α} {a : α} :
    (liftM x : Task σ α).Yields v s a s' ↔ x = .ok a ∧ s' = s := by
  simp [Yields, run, liftM, monadLift, MonadLift.monadLift, eq_comm]

@[simp] theorem yields_checked {x : Checked α} {a : α} :
    (liftM x : Task σ α).Yields v s a s' ↔ x = .ok a ∧ s' = s := by
  cases x <;> simp [Yields, run, liftM, monadLift, MonadLift.monadLift, eq_comm]

@[simp] theorem yields_planError {x : Except PlanError α} {a : α} :
    (liftM x : Task σ α).Yields v s a s' ↔ x = .ok a ∧ s' = s := by
  cases x <;> simp [Yields, run, liftM, monadLift, MonadLift.monadLift, eq_comm]

@[simp] theorem yields_stateless {x : Task Unit α} {a : α} :
    (liftM x : Task σ α).Yields v s a s' ↔ x.Yields v () a () ∧ s' = s := by
  simp [Yields, run, liftM, monadLift, MonadLift.monadLift, eq_comm]

@[simp] theorem yields_zoom {part : σ → τ} {put : τ → σ → σ} {x : Task τ α} {a : α} :
    (zoom part put x).Yields v s a s' ↔ ∃ t, x.Yields v (part s) a t ∧ s' = put t s := by
  simp only [Yields, run, zoom]
  constructor
  · rintro ⟨hr, rfl⟩
    exact ⟨_, ⟨hr, rfl⟩, rfl⟩
  · rintro ⟨t, ⟨hr, rfl⟩, rfl⟩
    exact ⟨hr, rfl⟩

@[simp] theorem yields_apart {t : τ} {x : Task τ α} {p : α × τ} :
    (apart t x : Task σ (α × τ)).Yields v s p s' ↔ x.Yields v t p.1 p.2 ∧ s' = s := by
  obtain ⟨a, u⟩ := p
  simp only [Yields, run, apart]
  cases x v t with
  | mk r u' j => cases r <;> simp [Except.map, eq_comm]

/-- An attempt that is not stopped by a fault succeeds, with what was found as a value. -/
@[simp] theorem yields_attempt {x : Task σ α} {r : Except PlanError α} :
    (attempt x).Yields v s r s' ↔
      (x.run v s).state = s' ∧
        match r with
        | .ok a => (x.run v s).result = .ok a
        | .error e => (x.run v s).result = .error (.tiling e) := by
  simp only [Yields, run, attempt]
  cases x v s with
  | mk q t j =>
    cases q with
    | ok a => cases r <;> simp [eq_comm, and_comm]
    | error e => cases e <;> cases r <;> simp [eq_comm, and_comm]

/-! ### Binds whose first part leaves the state alone or only changes it -/

variable {f : α → Task σ β} {b : β}

@[simp] theorem yields_bind_pure {a : α} :
    (pure a >>= f).Yields v s b s' ↔ (f a).Yields v s b s' := by
  simp [and_assoc]

@[simp] theorem yields_bind_get {g : σ → Task σ β} :
    ((get : Task σ σ) >>= g).Yields v s b s' ↔ (g s).Yields v s b s' := by
  simp [and_assoc]

@[simp] theorem yields_bind_modify {h : σ → σ} {g : PUnit → Task σ β} :
    ((modify h : Task σ PUnit) >>= g).Yields v s b s' ↔ (g ⟨⟩).Yields v (h s) b s' := by
  simp only [yields_bind, yields_modify]
  exact ⟨fun ⟨_, _, ht, h⟩ => ht ▸ h, fun h => ⟨_, _, rfl, h⟩⟩

@[simp] theorem yields_bind_set {t : σ} {g : PUnit → Task σ β} :
    ((set t : Task σ PUnit) >>= g).Yields v s b s' ↔ (g ⟨⟩).Yields v t b s' := by
  simp only [yields_bind, yields_set]
  exact ⟨fun ⟨_, _, ht, h⟩ => ht ▸ h, fun h => ⟨_, _, rfl, h⟩⟩

@[simp] theorem yields_bind_note {k : Severity} {text : String} {g : Unit → Task σ β} :
    (note k text >>= g).Yields v s b s' ↔ (g ()).Yields v s b s' := by
  simp only [yields_bind, yields_note]
  exact ⟨fun ⟨_, _, ht, h⟩ => ht ▸ h, fun h => ⟨_, _, rfl, h⟩⟩

@[simp] theorem yields_bind_checked {x : Checked α} :
    ((liftM x : Task σ α) >>= f).Yields v s b s' ↔ ∃ a, x = .ok a ∧ (f a).Yields v s b s' := by
  simp [and_assoc]

@[simp] theorem yields_bind_outcome {x : Outcome α} :
    ((liftM x : Task σ α) >>= f).Yields v s b s' ↔ ∃ a, x = .ok a ∧ (f a).Yields v s b s' := by
  simp [and_assoc]

@[simp] theorem yields_bind_planError {x : Except PlanError α} :
    ((liftM x : Task σ α) >>= f).Yields v s b s' ↔ ∃ a, x = .ok a ∧ (f a).Yields v s b s' := by
  simp [and_assoc]

@[simp] theorem yields_bind_stateless {x : Task Unit α} :
    ((liftM x : Task σ α) >>= f).Yields v s b s' ↔
      ∃ a, x.Yields v () a () ∧ (f a).Yields v s b s' := by
  simp [and_assoc]

theorem yields_ite {p : Prop} [Decidable p] {x y : Task σ α} {a : α} :
    (if p then x else y).Yields v s a s' ↔
      if p then x.Yields v s a s' else y.Yields v s a s' := by
  split <;> rfl

/-- A guard that rejects is passed exactly when its condition does not hold. -/
@[simp] theorem yields_guard {p : Prop} [Decidable p] {e : PlanError} {y : Task σ β} :
    (if p then (reject e : Task σ α) >>= f else y).Yields v s b s' ↔
      ¬ p ∧ y.Yields v s b s' := by
  split <;> simp_all

@[simp] theorem yields_guard_not {p : Prop} [Decidable p] {e : PlanError} {y : Task σ β} :
    (if p then y else (reject e : Task σ α) >>= f).Yields v s b s' ↔
      p ∧ y.Yields v s b s' := by
  split <;> simp_all

/-! ### What a task keeps, whether it succeeds or not -/

/-- A property of the state that holds after the task if it held before it. -/
def Keeps (P : σ → Prop) (x : Task σ α) : Prop :=
  ∀ v s, P s → P (x.run v s).state

variable {P : σ → Prop}

theorem keeps_pure (a : α) : Keeps P (pure a : Task σ α) := fun _ _ h => h

theorem keeps_fail (e : Failure) : Keeps P (fail e : Task σ α) := fun _ _ h => h

theorem keeps_reject (e : PlanError) : Keeps P (reject e : Task σ α) := keeps_fail _

theorem keeps_modify {h : σ → σ} (hP : ∀ s, P s → P (h s)) :
    Keeps P (modify h : Task σ PUnit) := fun _ s hs => hP s hs

theorem keeps_planError (x : Except PlanError α) : Keeps P (liftM x : Task σ α) :=
  fun _ _ h => h

theorem keeps_checked (x : Checked α) : Keeps P (liftM x : Task σ α) := fun _ _ h => h

theorem keeps_outcome (x : Outcome α) : Keeps P (liftM x : Task σ α) := fun _ _ h => h

theorem keeps_stateless (x : Task Unit α) : Keeps P (liftM x : Task σ α) := fun _ _ h => h

theorem keeps_apart (t : τ) (x : Task τ α) : Keeps P (apart t x : Task σ (α × τ)) :=
  fun _ _ h => h

theorem keeps_attempt {x : Task σ α} (hx : Keeps P x) : Keeps P (attempt x) := by
  intro v s hs
  have hkept := hx v s hs
  unfold run attempt at *
  split <;> simp_all

theorem keeps_note (k : Severity) (text : String) : Keeps P (note k text : Task σ Unit) :=
  fun v s h => by
    rw [state_note]
    exact h

theorem keeps_ite {p : Prop} [Decidable p] {x y : Task σ α} (hx : Keeps P x) (hy : Keeps P y) :
    Keeps P (if p then x else y) := by
  split
  · exact hx
  · exact hy

/-- The second part only has to keep the property where the first one left it. -/
theorem keeps_bind {x : Task σ α} (hx : Keeps P x) (hf : ∀ a, Keeps P (f a)) :
    Keeps P (x >>= f) := by
  intro v s hs
  have hkept := hx v s hs
  simp only [run] at hkept ⊢
  cases hrun : x v s with
  | mk r t j =>
    rw [hrun] at hkept
    cases r with
    | error e => simpa [bind, hrun] using hkept
    | ok a => simpa [bind, hrun, run] using hf a v t hkept

/-- A task that reads the state first may use that the property holds of what it reads. -/
theorem keeps_get_bind {g : σ → Task σ β}
    (hg : ∀ s, P s → ∀ v, P ((g s).run v s).state) : Keeps P ((get : Task σ σ) >>= g) := by
  intro v s hs
  simpa [run, bind, get, getThe, MonadStateOf.get] using hg s hs v

theorem keeps_bind_get {g : σ → Task σ β} (hg : ∀ s, Keeps P (g s)) :
    Keeps P ((get : Task σ σ) >>= g) := keeps_get_bind fun s hs v => hg s v s hs

/-! ### What a task can fail with -/

/-- The task succeeds or finds a mistake of a certain kind. It comes to no fault. -/
def FailsOnly (E : PlanError → Prop) (x : Task σ α) (v : Verbosity) (s : σ) : Prop :=
  ∀ f, (x.run v s).result = .error f → ∃ e, f = .tiling e ∧ E e

variable {E F : PlanError → Prop}

theorem Yields.failsOnly {x : Task σ α} {a : α} (h : x.Yields v s a s') : x.FailsOnly E v s := by
  intro f hf
  cases h.1.symm.trans hf

theorem failsOnly_pure (a : α) : (pure a : Task σ α).FailsOnly E v s :=
  (yields_pure.mpr ⟨rfl, rfl⟩).failsOnly

theorem failsOnly_set (t : σ) : (set t : Task σ PUnit).FailsOnly E v s :=
  Yields.failsOnly (a := ⟨⟩) (yields_set.mpr rfl)

theorem failsOnly_modify (k : σ → σ) : (modify k : Task σ PUnit).FailsOnly E v s :=
  Yields.failsOnly (a := ⟨⟩) (yields_modify.mpr rfl)

theorem failsOnly_note (k : Severity) (text : String) :
    (note k text : Task σ Unit).FailsOnly E v s :=
  Yields.failsOnly (a := ()) (yields_note.mpr rfl)

theorem failsOnly_reject {e : PlanError} (h : E e) : (reject e : Task σ α).FailsOnly E v s := by
  rintro f hf
  exact ⟨e, (Except.error.inj hf).symm, h⟩

theorem failsOnly_planError {x : Except PlanError α} (h : ∀ e, x = .error e → E e) :
    (liftM x : Task σ α).FailsOnly E v s := by
  intro f hf
  cases x with
  | ok a => cases hf
  | error e => exact ⟨e, (Except.error.inj hf).symm, h e rfl⟩

theorem failsOnly_bind {x : Task σ α} {f : α → Task σ β} (hx : x.FailsOnly E v s)
    (hf : ∀ a t, x.Yields v s a t → (f a).FailsOnly E v t) : (x >>= f).FailsOnly E v s := by
  intro g hg
  simp only [run] at hg
  cases hrun : x v s with
  | mk r t j =>
    cases r with
    | error e =>
      refine hx g ?_
      simpa [bind, hrun, run] using hg
    | ok a =>
      refine hf a t ⟨by rw [run, hrun], by rw [run, hrun]⟩ g ?_
      simpa [bind, hrun, run] using hg

/-- What is done after a task that succeeds is all that can fail. -/
theorem Yields.failsOnly_bind {x : Task σ α} {f : α → Task σ β} {a : α} (h : x.Yields v s a s')
    (hf : (f a).FailsOnly E v s') : (x >>= f).FailsOnly E v s := by
  refine Task.failsOnly_bind h.failsOnly fun b t hb => ?_
  obtain ⟨rfl, rfl⟩ := h.unique hb
  exact hf

theorem failsOnly_bind_get {g : σ → Task σ β} (h : (g s).FailsOnly E v s) :
    ((get : Task σ σ) >>= g).FailsOnly E v s :=
  (yields_get.mpr ⟨rfl, rfl⟩).failsOnly_bind h

theorem failsOnly_bind_modify {k : σ → σ} {g : PUnit → Task σ β}
    (h : (g ⟨⟩).FailsOnly E v (k s)) : ((modify k : Task σ PUnit) >>= g).FailsOnly E v s :=
  Yields.failsOnly_bind (a := ⟨⟩) (yields_modify.mpr rfl) h

theorem failsOnly_bind_set {t : σ} {g : PUnit → Task σ β}
    (h : (g ⟨⟩).FailsOnly E v t) : ((set t : Task σ PUnit) >>= g).FailsOnly E v s :=
  Yields.failsOnly_bind (a := ⟨⟩) (yields_set.mpr rfl) h

theorem failsOnly_bind_checked {x : Checked α} {f : α → Task σ β} {a : α} (hx : x = .ok a)
    (h : (f a).FailsOnly E v s) : ((liftM x : Task σ α) >>= f).FailsOnly E v s :=
  (yields_checked.mpr ⟨hx, rfl⟩).failsOnly_bind h

theorem failsOnly_zoom {part : σ → τ} {put : τ → σ → σ} {x : Task τ α}
    (h : x.FailsOnly E v (part s)) : (zoom part put x).FailsOnly E v s := h

/-- What is found in an attempt is a value. -/
theorem failsOnly_attempt {x : Task σ α} (h : x.FailsOnly F v s) : (attempt x).FailsOnly E v s := by
  intro f hf
  simp only [run, attempt] at hf
  cases hrun : x v s with
  | mk r t j =>
    rw [hrun] at hf
    cases r with
    | ok a => cases hf
    | error g =>
      obtain ⟨e, rfl, -⟩ := h g (by rw [run, hrun])
      cases hf

theorem failsOnly_ite {p : Prop} [Decidable p] {x y : Task σ α}
    (hx : p → x.FailsOnly E v s) (hy : ¬ p → y.FailsOnly E v s) :
    (if p then x else y).FailsOnly E v s := by
  split
  · next h => exact hx h
  · next h => exact hy h

theorem FailsOnly.mono {x : Task σ α} (h : x.FailsOnly E v s) (hmono : ∀ e, E e → F e) :
    x.FailsOnly F v s := by
  intro f hf
  obtain ⟨e, rfl, he⟩ := h f hf
  exact ⟨e, rfl, hmono e he⟩

/-- A task that does not succeed has found what it can find. -/
theorem FailsOnly.result {x : Task σ α} (h : x.FailsOnly E v s) (hno : ∀ a t, ¬ x.Yields v s a t) :
    ∃ e, (x.run v s).result = .error (.tiling e) ∧ E e := by
  cases hx : (x.run v s).result with
  | ok a => exact absurd (yields_of_result hx) (hno _ _)
  | error f =>
    obtain ⟨e, rfl, he⟩ := h f hx
    exact ⟨e, rfl, he⟩

/-! ### Faults -/

/-- A fault stops the task and leaves the state `s'`. -/
def Faults (x : Task σ α) (v : Verbosity) (s : σ) (f : Fault) (s' : σ) : Prop :=
  (x.run v s).result = .error (.fault f) ∧ (x.run v s).state = s'

theorem Yields.faults_bind {x : Task σ α} {k : α → Task σ β} {a : α} {t : σ} {f : Fault}
    (h : x.Yields v s a t) (hk : (k a).Faults v t f s') : (x >>= k).Faults v s f s' := by
  have hrun : x.run v s = ⟨.ok a, t, (x.run v s).journal⟩ := by rw [← h.1, ← h.2]
  unfold Faults
  rw [run_bind_ok hrun]
  exact hk

/-- What was worked out before does not fault. -/
theorem faults_bind_of_checked {x : Checked α} {k : α → Task σ β} {a : α} {f : Fault}
    (h : x = .ok a) (hk : (k a).Faults v s f s') : ((liftM x : Task σ α) >>= k).Faults v s f s' :=
  (yields_checked.mpr ⟨h, rfl⟩).faults_bind hk

/-- A number that cannot be worked out stops the task at once. -/
theorem faults_bind_checked {x : Checked α} {k : α → Task σ β} {f : Fault} (h : x = .error f) :
    ((liftM x : Task σ α) >>= k).Faults v s f s := by
  subst h
  exact ⟨rfl, rfl⟩

end Task

end StencilPlan
