import StencilPlan.Proofs.Dim.Catalog
import StencilPlan.Proofs.Settings.Refusal

/-!
# Settings that a caller can reach

A caller starts from the initial settings of a catalog, applies options, which may be refused, and
resizes entries. Whatever is done in this way, every vector keeps the dimensions it began with and
holds signed 64-bit values only: such settings are `Shaped`.
-/

namespace StencilPlan.Settings

/-- The settings a caller can get to. A refused option counts too: it may leave a trace. -/
inductive Reachable (c : Catalog) : Settings → Prop
  | initial (maxThreads : Nat) : Reachable c (.initial c maxThreads)
  | option {s : Settings} (hs : Reachable c s) (name value : String) (v : Verbosity) :
      Reachable c ((setOption c name value).run v s).state
  | resize {s s' : Settings} {l : Level} {dim : String} {n : Int} (hs : Reachable c s)
      (hn : Idx.InRange n) (h : s.resize c l dim n = .ok s') : Reachable c s'

/-- The dimensions of the vector that an option sets. -/
def targetNames (c : Catalog) : SizeTarget → List String
  | .global | .numRanks | .rankIndex | .localAlias | .level .localDomain => c.domain.names
  | .level _ => c.stencil.names

/-- Every vector has its dimensions, and its values fit into 64 bits. -/
structure Shaped (c : Catalog) (s : Settings) : Prop where
  names : ∀ t, (s.target t).names = targetNames c t
  inRange : ∀ t, ∀ n ∈ (s.target t).values, Idx.InRange n

variable {c : Catalog} {s : Settings}

theorem shaped_initial (maxThreads : Nat) :
    (Settings.initial c maxThreads).Shaped c := by
  have hdomain : ∀ v, (c.domainVec v).names = c.domain.names := c.names_domainVec
  have hstencil : ∀ v, (c.stencilVec v).names = c.stencil.names := fun v => DimVec.names_fill _ _
  have hzero : ∀ (t : DimVec), ∀ n ∈ (t.fill 0).values, Idx.InRange n := by
    intro t n hn
    rw [DimVec.values_fill] at hn
    rw [List.eq_of_mem_replicate hn]
    decide
  -- Blocks are the only sizes that do not start from zero.
  have hblock : ∀ n ∈ ((c.stencilVec initialBlockSize).set c.stepDim 0).values, Idx.InRange n := by
    intro n hn
    rcases DimVec.mem_values_set hn with rfl | hn
    · decide
    · rw [Catalog.stencilVec, DimVec.values_fill] at hn
      rw [List.eq_of_mem_replicate hn]
      decide
  constructor
  · intro t
    cases t with
    | level l => cases l <;> simp [target, sizes, initial, targetNames, hdomain, hstencil]
    | _ => simp [target, initial, targetNames, hdomain]
  · intro t
    cases t with
    | level l => cases l <;> first | exact hzero _ | exact hblock
    | _ => exact hzero _

/-! ### Replacing one vector -/

theorem target_withTarget (s : Settings) (g t : SizeTarget) (w : DimVec) :
    (s.withTarget g w).target t = w ∨ (s.withTarget g w).target t = s.target t := by
  cases g with
  | level l =>
    cases t with
    | level m =>
      by_cases h : m = l
      · exact .inl (h ▸ sizes_withSizes s l w)
      · exact .inr (sizes_withSizes_of_ne s w h)
    | _ => cases l <;> first | exact .inl rfl | exact .inr rfl
  | _ =>
    cases t with
    | level m => cases m <;> first | exact .inl rfl | exact .inr rfl
    | _ => first | exact .inl rfl | exact .inr rfl

/-- Where another vector is put, it must have the dimensions of the one it replaces. -/
theorem targetNames_of_target_withTarget (g t : SizeTarget) (w : DimVec)
    (h : (s.withTarget g w).target t ≠ s.target t) : targetNames c t = targetNames c g := by
  cases g with
  | level l =>
    cases t with
    | level m =>
      by_cases hm : m = l
      · rw [hm]
      · exact absurd (sizes_withSizes_of_ne s w hm) h
    | _ => cases l <;> first | rfl | exact absurd rfl h
  | _ =>
    cases t with
    | level m => cases m <;> first | rfl | exact absurd rfl h
    | _ => rfl

theorem Shaped.withTarget (hs : s.Shaped c) {g : SizeTarget} {w : DimVec}
    (hnames : w.names = (s.target g).names) (hrange : ∀ n ∈ w.values, Idx.InRange n) :
    (s.withTarget g w).Shaped c := by
  constructor
  · intro t
    by_cases h : (s.withTarget g w).target t = s.target t
    · rw [h, hs.names]
    · rcases target_withTarget s g t w with heq | heq
      · rw [heq, hnames, hs.names, targetNames_of_target_withTarget g t w h]
      · exact absurd heq h
  · intro t
    rcases target_withTarget s g t w with heq | heq
    · rw [heq]
      exact hrange
    · rw [heq]
      exact hs.inRange t

/-- Setting an entry to a 64-bit value keeps dimensions and range. -/
theorem Shaped.set (hs : s.Shaped c) (g : SizeTarget) (dim : String) {n : Int}
    (hn : Idx.InRange n) : (s.withTarget g ((s.target g).set dim n)).Shaped c :=
  hs.withTarget (DimVec.names_set _ _ _) fun m hm => by
    rcases DimVec.mem_values_set hm with rfl | hm
    · exact hn
    · exact hs.inRange g m hm

theorem foldl_set {n : Int} (ds : List String) (t : DimVec) :
    (ds.foldl (fun t d => t.set d n) t).names = t.names ∧
      ∀ m ∈ (ds.foldl (fun t d => t.set d n) t).values, m = n ∨ m ∈ t.values := by
  induction ds generalizing t with
  | nil => exact ⟨rfl, fun m hm => .inr hm⟩
  | cons d ds ih =>
    obtain ⟨hnames, hvalues⟩ := ih (t.set d n)
    refine ⟨hnames.trans (DimVec.names_set _ _ _), fun m hm => ?_⟩
    rcases hvalues m hm with rfl | hm
    · exact .inl rfl
    · exact DimVec.mem_values_set hm

/-! ### Options -/

/-- A change that no vector takes part in. -/
theorem Shaped.of_target_eq (hs : s.Shaped c) {s' : Settings} (h : ∀ t, s'.target t = s.target t) :
    s'.Shaped c :=
  ⟨fun t => (h t).symm ▸ hs.names t, fun t => (h t).symm ▸ hs.inRange t⟩

/-- What comes after a value was read only has to keep a property for values that can be read. -/
theorem keeps_readValue_bind {α β : Type} {P : Settings → Prop} {name value : String}
    {read? : String → Option α} {f : α → Task Settings β}
    (hf : ∀ a, read? value = some a → Task.Keeps P (f a)) :
    Task.Keeps P (readValue name value read? >>= f) := by
  intro v s hs
  unfold readValue
  cases hread : read? value with
  | none => exact hs
  | some a => exact hf a hread v s hs

/-- A size that is applied: what is kept when the rank indices become explicit and when the entry,
or all domain entries, of the vector are set. An entry of a level is only set where the level may
have a size. -/
theorem keeps_applySize {P : Settings → Prop} {g : SizeTarget} {dim : String} {n : Int}
    (hexplicit : ∀ s, P s → P { s with explicitRankIndices := true })
    (hall : ∀ s, P s →
      P (s.withTarget g (c.domain.names.foldl (fun t d => t.set d n) (s.target g))))
    (hone : ∀ s, P s → (∀ l, g = .level l →
        ∃ k, c.check dim ("-" ++ g.letters) (.tile l.spansSteps) = .ok k) →
      P (s.withTarget g ((s.target g).set dim n))) :
    Task.Keeps P (applySize c g dim n) := by
  -- what all targets have in common, after what the rank index or the tile levels do first
  have hrest : (dim.isEmpty = false → ∀ l, g = .level l →
      ∃ k, c.check dim ("-" ++ g.letters) (.tile l.spansSteps) = .ok k) →
        Task.Keeps P (writeSize c g dim n) := by
    intro hchecked
    refine Task.keeps_get_bind fun s hs v => ?_
    split
    · exact hall s hs
    · next hempty =>
      simp only [Task.run]
      cases c.check dim ("-" ++ g.letters) (.tile ((s.target g).contains c.stepDim)) with
      | error e => exact hs
      | ok k => exact hone s hs (hchecked (Bool.eq_false_iff.mpr hempty))
  unfold applySize
  cases g with
  | rankIndex =>
    exact Task.keeps_bind (Task.keeps_modify hexplicit) fun _ => hrest fun _ _ h => by cases h
  | level l =>
    by_cases hempty : dim.isEmpty = true
    · have hskip : ¬¬dim.isEmpty = true := not_not.mpr hempty
      dsimp only
      rw [if_neg hskip]
      exact hrest fun hne => absurd hempty (by simp [hne])
    · dsimp only
      rw [if_pos hempty]
      intro v s hs
      cases hcheck : c.check dim ("-" ++ (SizeTarget.level l).letters) (.tile l.spansSteps) with
      | error e => exact hs
      | ok k =>
        refine hrest (fun _ m hm => ?_) v s hs
        obtain rfl : l = m := by cases hm; rfl
        exact ⟨k, hcheck⟩
  | _ => exact hrest fun _ _ h => by cases h

theorem keeps_shaped_applySize (g : SizeTarget) (dim : String) {n : Int} (hn : Idx.InRange n) :
    Task.Keeps (Shaped c) (applySize c g dim n) := by
  refine keeps_applySize (fun s hs => ?_) (fun s hs => ?_) fun s hs _ => hs.set g dim hn
  · exact hs.of_target_eq fun t => by cases t <;> rfl
  · obtain ⟨hnames, hvalues⟩ := foldl_set (n := n) c.domain.names (s.target g)
    refine hs.withTarget hnames fun m hm => ?_
    rcases hvalues m hm with rfl | hm
    · exact hn
    · exact hs.inRange g m hm

theorem inRange_of_idx? {value : String} {n : Int} (h : Text.idx? value = some n) :
    Idx.InRange n := by
  simp only [Text.idx?, Text.between?, Option.filter_eq_some_iff, decide_eq_true_eq] at h
  exact h.2

theorem keeps_shaped_setSizeOption (name value : String) :
    Task.Keeps (Shaped c) (setSizeOption c name value) := by
  unfold setSizeOption
  split
  · exact Task.keeps_reject _
  · exact keeps_readValue_bind fun n hn => keeps_shaped_applySize _ _ (inRange_of_idx? hn)

theorem keeps_shaped_setOption (name value : String) :
    Task.Keeps (Shaped c) (setOption c name value) := by
  unfold setOption
  refine Task.keeps_bind (Task.keeps_note _ _) fun _ => ?_
  split
  case h_11 => exact keeps_shaped_setSizeOption name value
  -- The other options set a value that is in no vector.
  all_goals
    apply keeps_readValue_bind
    intro a _
    apply Task.keeps_modify
    intro s hs
    refine hs.of_target_eq fun t => ?_
    cases t with
    | level l => cases l <;> rfl
    | _ => rfl

theorem Reachable.shaped (h : Reachable c s) : s.Shaped c := by
  induction h with
  | initial maxThreads => exact shaped_initial maxThreads
  | option _ name value v ih => exact keeps_shaped_setOption name value v _ ih
  | @resize s s' l dim n _ hn h ih =>
    simp only [Settings.resize, bind_eq_ok, pure_eq_ok] at h
    obtain ⟨_, -, rfl⟩ := h
    exact ih.set (.level l) dim hn

/-! ### Steps -/

/-- Only regions, blocks and mini-blocks have a size in the step dimension. -/
def Stepless (c : Catalog) (s : Settings) : Prop :=
  ∀ l ≠ Level.localDomain, l.spansSteps = false → (s.sizes l).getD c.stepDim 0 = 0

theorem stepless_initial (maxThreads : Nat) : (Settings.initial c maxThreads).Stepless c := by
  have hzero : (c.stencilVec 0).getD c.stepDim 0 = 0 := by
    by_cases h : c.stepDim ∈ c.stencil.names
    · exact DimVec.getD_map h
    · exact DimVec.getD_eq_of_notMem (by rwa [Catalog.stencilVec, DimVec.names_fill])
  intro l hl hspans
  cases l with
  | localDomain => exact absurd rfl hl
  | region | block | miniBlock => cases hspans
  | subBlock | blockGroup | miniBlockGroup | subBlockGroup => exact hzero

theorem Stepless.withTarget (hs : s.Stepless c) {g : SizeTarget} {t : DimVec}
    (ht : ∀ l, g = .level l → l.spansSteps = false → t.getD c.stepDim 0 =
      ((s.target g).getD c.stepDim 0)) : (s.withTarget g t).Stepless c := by
  intro l hl hspans
  cases g with
  | level m =>
    by_cases heq : l = m
    · have hset := ht m rfl (heq ▸ hspans)
      subst heq
      show ((s.withSizes l t).sizes l).getD c.stepDim 0 = 0
      rw [sizes_withSizes, hset]
      exact hs l hl hspans
    · show ((s.withSizes m t).sizes l).getD c.stepDim 0 = 0
      rw [sizes_withSizes_of_ne s t heq]
      exact hs l hl hspans
  -- The alias stands for local domains, of which nothing is said.
  | localAlias =>
    cases l with
    | localDomain => exact absurd rfl hl
    | _ => exact hs _ hl hspans
  | _ => cases l <;> exact hs _ hl hspans

theorem getD_foldl_set {n : Int} {dim : String} {ds : List String} (h : dim ∉ ds) (t : DimVec) :
    (ds.foldl (fun t d => t.set d n) t).getD dim 0 = t.getD dim 0 := by
  induction ds generalizing t with
  | nil => rfl
  | cons d ds ih =>
    rw [List.mem_cons, not_or] at h
    rw [List.foldl_cons, ih h.2, DimVec.getD_set_of_ne h.1]

theorem ne_stepDim_of_check {dim func : String} {k : DimKind}
    (h : c.check dim func (.tile false) = .ok k) : dim ≠ c.stepDim := by
  rintro rfl
  have hkind : c.kind? c.stepDim = some .step := if_pos rfl
  rw [Catalog.check, hkind] at h
  cases h

theorem keeps_stepless_applySize (hc : c.WellFormed) (g : SizeTarget) (dim : String) (n : Int) :
    Task.Keeps (Stepless c) (applySize c g dim n) := by
  refine keeps_applySize (fun s hs l hl hspans => ?_) (fun s hs => ?_) fun s hs hcheck => ?_
  · cases l <;> exact hs _ hl hspans
  · exact hs.withTarget fun _ _ _ => getD_foldl_set hc.step_notMem _
  · refine hs.withTarget fun l hl hspans => DimVec.getD_set_of_ne ?_
    obtain ⟨k, hcheck⟩ := hcheck l hl
    rw [hspans] at hcheck
    exact (ne_stepDim_of_check hcheck).symm

theorem keeps_stepless_setOption (hc : c.WellFormed) (name value : String) :
    Task.Keeps (Stepless c) (setOption c name value) := by
  unfold setOption
  refine Task.keeps_bind (Task.keeps_note _ _) fun _ => ?_
  split
  case h_11 =>
    unfold setSizeOption
    split
    · exact Task.keeps_reject _
    · exact keeps_readValue_bind fun n _ => keeps_stepless_applySize hc _ _ n
  -- The other options set a value that is no size.
  all_goals
    apply keeps_readValue_bind
    intro a _
    apply Task.keeps_modify
    intro s hs l hl hspans
    cases l <;> exact hs _ hl hspans

/-- No caller gets a size in the step dimension to a level that spans no steps. -/
theorem Reachable.stepless (h : Reachable c s) (hc : c.WellFormed) : s.Stepless c := by
  induction h with
  | initial maxThreads => exact stepless_initial maxThreads
  | option _ name value v ih => exact keeps_stepless_setOption hc name value v _ ih
  | @resize s s' l dim n _ _ h ih =>
    simp only [Settings.resize, bind_eq_ok, pure_eq_ok] at h
    obtain ⟨k, hcheck, rfl⟩ := h
    refine ih.withTarget (g := .level l) fun m hm hspans => DimVec.getD_set_of_ne ?_
    obtain rfl : l = m := by cases hm; rfl
    rw [hspans] at hcheck
    exact (ne_stepDim_of_check hcheck).symm

end StencilPlan.Settings
