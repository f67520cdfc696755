import StencilPlan.Proofs.Yields

/-!
# Tasks that return

A call returns with a result or with a mistake that it found (`Task.Returns`); a fault stops it for
good. Some tasks cannot find a mistake (`Task.Blameless`). Where a mistake leaves the state is
another question: many tasks look at everything before they change anything, so that a failure of
any kind leaves the state from before (`Task.FailsAt`).
-/

namespace StencilPlan.Task

variable {σ α β : Type} {v : Verbosity} {s s' : σ}

/-! ### Results and mistakes -/

/-- The task is not stopped by a fault: it comes to a result or to a mistake, and leaves `s'`. -/
def Returns (x : Task σ α) (v : Verbosity) (s : σ) (r : Except PlanError α) (s' : σ) : Prop :=
  (attempt x).Yields v s r s'

theorem returns_iff {x : Task σ α} {r : Except PlanError α} : x.Returns v s r s' ↔
    (x.run v s).result = r.mapError .tiling ∧ (x.run v s).state = s' := by
  rw [Returns, yields_attempt, and_comm]
  cases r <;> rfl

theorem returns_ok {x : Task σ α} {a : α} : x.Returns v s (.ok a) s' ↔ x.Yields v s a s' :=
  returns_iff

/-- The first part returns a mistake, or the second one decides. -/
theorem returns_bind {x : Task σ α} {f : α → Task σ β} {r : Except PlanError β} :
    (x >>= f).Returns v s r s' ↔ (∃ e, x.Returns v s (.error e) s' ∧ r = .error e) ∨
      ∃ a t, x.Yields v s a t ∧ (f a).Returns v t r s' := by
  simp only [returns_iff, Yields]
  cases hx : x.run v s with
  | mk q t j =>
    cases q with
    | ok a => simp [run_bind_ok hx, Except.mapError]
    | error e => cases r <;> simp [run_bind_error hx, Except.mapError]

theorem Returns.bind_error {x : Task σ α} {e : PlanError} (h : x.Returns v s (.error e) s')
    (f : α → Task σ β) : (x >>= f).Returns v s (.error e) s' := returns_bind.mpr (.inl ⟨e, h, rfl⟩)

theorem returns_bind_get {f : σ → Task σ β} {r : Except PlanError β} :
    ((get : Task σ σ) >>= f).Returns v s r s' ↔ (f s).Returns v s r s' := Iff.rfl

/-! ### Tasks that find no mistakes -/

/-- The task finds no mistake: a fault is all that can stop it. -/
def Blameless (x : Task σ α) : Prop := ∀ v s e s', ¬ x.Returns v s (.error e) s'

theorem blameless_of_yields {x : Task σ α} (h : ∀ v s, ∃ a s', x.Yields v s a s') :
    Blameless x := by
  intro v s e s' hr
  obtain ⟨a, t, hy⟩ := h v s
  rw [returns_iff, hy.1] at hr
  cases hr.1

/-- A task that has nothing to fail with succeeds. -/
theorem exists_yields_of_failsOnly {x : Task σ α} (h : x.FailsOnly (fun _ => False) v s) :
    ∃ a s', x.Yields v s a s' := by
  cases hresult : (x.run v s).result with
  | ok a => exact ⟨a, _, hresult, rfl⟩
  | error f =>
    obtain ⟨_, -, hfalse⟩ := h f hresult
    exact hfalse.elim

theorem blameless_pure (a : α) : Blameless (pure a : Task σ α) :=
  blameless_of_yields fun _ s => ⟨a, s, yields_pure.mpr ⟨rfl, rfl⟩⟩

theorem blameless_modify (k : σ → σ) : Blameless (modify k : Task σ PUnit) :=
  blameless_of_yields fun _ _ => ⟨⟨⟩, _, yields_modify.mpr rfl⟩

theorem blameless_note (k : Severity) (text : String) : Blameless (note k text : Task σ Unit) :=
  blameless_of_yields fun _ s => ⟨(), s, yields_note.mpr rfl⟩

/-- The text of a record may fault, but it is not a mistake. -/
theorem blameless_noteWith (k : Severity) (text : Checked String) :
    Blameless (noteWith k text : Task σ Unit) := by
  intro v s e s' hr
  rw [returns_iff] at hr
  obtain ⟨hresult, -⟩ := hr
  unfold run noteWith at hresult
  split at hresult
  · cases text <;> cases hresult
  · cases hresult

/-- What is found in an attempt is a value. -/
theorem blameless_attempt (x : Task σ α) : Blameless (attempt x) := by
  intro v s e s' hr
  rw [returns_iff] at hr
  obtain ⟨hresult, -⟩ := hr
  unfold run attempt at hresult
  split at hresult <;> cases hresult

theorem blameless_bind {x : Task σ α} {f : α → Task σ β} (hx : Blameless x)
    (hf : ∀ a, Blameless (f a)) : Blameless (x >>= f) := by
  intro v s e s' hr
  rcases returns_bind.mp hr with ⟨e', he, -⟩ | ⟨a, t, -, hrest⟩
  · exact hx v s e' s' he
  · exact hf a v t e s' hrest

theorem blameless_bind_get {f : σ → Task σ β} (hf : ∀ s, Blameless (f s)) :
    Blameless ((get : Task σ σ) >>= f) := fun v s => hf s v s

/-- After a first part that finds no mistake the second one decides. -/
theorem Blameless.returns_bind {x : Task σ α} (hx : Blameless x) {f : α → Task σ β}
    {r : Except PlanError β} :
    (x >>= f).Returns v s r s' ↔ ∃ a t, x.Yields v s a t ∧ (f a).Returns v t r s' := by
  rw [Task.returns_bind, or_iff_right]
  rintro ⟨e, he, -⟩
  exact hx v s e s' he

/-! ### Where a failure leaves the state -/

/-- If the task fails, with whatever failure, the state it leaves is the one before it under `h`. -/
def FailsAt (h : σ → σ) (x : Task σ α) : Prop :=
  ∀ v s f, (x.run v s).result = .error f → (x.run v s).state = h s

variable {h : σ → σ}

theorem FailsAt.state {x : Task σ α} (hx : FailsAt h x) {e : PlanError}
    (hr : x.Returns v s (.error e) s') : s' = h s := by
  obtain ⟨hresult, hstate⟩ := returns_iff.mp hr
  rw [← hstate]
  exact hx v s _ hresult

theorem failsAt_reject (e : PlanError) : FailsAt id (reject e : Task σ α) := fun _ _ _ _ => rfl

theorem failsAt_planError (x : Except PlanError α) : FailsAt id (liftM x : Task σ α) :=
  fun _ _ _ _ => rfl

theorem failsAt_checked (x : Checked α) : FailsAt id (liftM x : Task σ α) :=
  fun _ _ _ _ => rfl

theorem failsAt_stateless (x : Task Unit α) : FailsAt id (liftM x : Task σ α) :=
  fun _ _ _ _ => rfl

/-- A task that never fails has nothing to keep. -/
theorem failsAt_pure (a : α) : FailsAt h (pure a : Task σ α) := fun _ _ _ hf => by cases hf

theorem failsAt_modify (k : σ → σ) : FailsAt h (modify k : Task σ PUnit) :=
  fun _ _ _ hf => by cases hf

theorem failsAt_note (k : Severity) (text : String) : FailsAt h (note k text : Task σ Unit) := by
  intro v s f hf
  have hok : (note k text : Task σ Unit).Yields v s () s := yields_note.mpr rfl
  cases hok.1.symm.trans hf

theorem failsAt_ite {p : Prop} [Decidable p] {x y : Task σ α} (hx : FailsAt h x)
    (hy : FailsAt h y) : FailsAt h (if p then x else y) := by
  split
  · exact hx
  · exact hy

/-- What comes after a guard that rejects. -/
theorem failsAt_guard {p : Prop} [Decidable p] {e : PlanError} {f : β → Task σ α} {y : Task σ α}
    (hy : FailsAt id y) : FailsAt id (if p then (reject e : Task σ β) >>= f else y) := by
  split
  · exact fun _ _ _ _ => rfl
  · exact hy

/-- The first part must leave the state alone if it succeeds. -/
theorem failsAt_bind {x : Task σ α} {f : α → Task σ β} (hx : FailsAt h x)
    (hkept : ∀ v s a t, x.Yields v s a t → t = s) (hf : ∀ a, FailsAt h (f a)) :
    FailsAt h (x >>= f) := by
  intro v s e he
  have hxs := hx v s
  simp only [run] at hxs he ⊢
  cases hrun : x v s with
  | mk r t j =>
    rw [hrun] at hxs
    cases r with
    | error e' => simpa [bind, hrun] using hxs e' rfl
    | ok a =>
      have ht := hkept v s a t ⟨by rw [run, hrun], by rw [run, hrun]⟩
      subst ht
      simp only [bind, hrun] at he ⊢
      exact hf a v t e he

theorem failsAt_bind_planError {x : Except PlanError α} {f : α → Task σ β}
    (hf : ∀ a, FailsAt id (f a)) : FailsAt id ((liftM x : Task σ α) >>= f) :=
  failsAt_bind (failsAt_planError x) (fun _ _ _ _ ht => (yields_planError.mp ht).2) hf

theorem failsAt_bind_checked {x : Checked α} {f : α → Task σ β}
    (hf : ∀ a, FailsAt id (f a)) : FailsAt id ((liftM x : Task σ α) >>= f) :=
  failsAt_bind (failsAt_checked x) (fun _ _ _ _ ht => (yields_checked.mp ht).2) hf

theorem failsAt_bind_stateless {x : Task Unit α} {f : α → Task σ β}
    (hf : ∀ a, FailsAt id (f a)) : FailsAt id ((liftM x : Task σ α) >>= f) :=
  failsAt_bind (failsAt_stateless x) (fun _ _ _ _ ht => (yields_stateless.mp ht).2) hf

theorem failsAt_bind_get {f : σ → Task σ β} (hf : ∀ s, FailsAt h (f s)) :
    FailsAt h ((get : Task σ σ) >>= f) := fun v s => hf s v s

theorem failsAt_bind_note {k : Severity} {text : String} {f : Unit → Task σ β}
    (hf : ∀ a, FailsAt h (f a)) : FailsAt h (note k text >>= f) :=
  failsAt_bind (failsAt_note k text) (fun _ _ _ _ ht => yields_note.mp ht) hf

theorem failsAt_bind_modify {k : σ → σ} {f : PUnit → Task σ β} (hf : FailsAt id (f ⟨⟩)) :
    FailsAt k ((modify k : Task σ PUnit) >>= f) := fun v s => hf v (k s)

end StencilPlan.Task
