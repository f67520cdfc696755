import StencilPlan.Proofs.Json.Number
import StencilPlan.Proofs.Settings.Reachable

/-!
# What an option name stands for

Some letters begin with the letters of another vector, and a dimension may be named like any of
them, so a name can often be taken apart in several ways. The vectors are tried in the order of
their letters: the way that is found first is the one with the longest letters, and no other way
has as many. What is written then are the entries of that one vector, under the same rules under
which a single entry of a level is resized.
-/

namespace StencilPlan

namespace SizeTarget

variable {c : Catalog} {name dim dim' : String} {t t' : SizeTarget}

/-- A way to take a name apart: the letters of a vector, and after them a dimension of the catalog
or nothing. -/
structure Reads (c : Catalog) (name : String) (t : SizeTarget) (dim : String) : Prop where
  split : name = t.letters ++ dim
  known : dim = "" ∨ dim ∈ c.dims

/-- The way that counts: no other one has longer letters. -/
structure Decodes (c : Catalog) (name : String) (t : SizeTarget) (dim : String) : Prop
    extends Reads c name t dim where
  longest : ∀ t' dim', Reads c name t' dim' → t'.letters.length ≤ t.letters.length

/-- The vectors are in the order of their letters. -/
theorem pairwise_byLength :
    byLength.Pairwise fun t t' => t'.letters.length ≤ t.letters.length := by
  decide +kernel

/-- Different vectors have different letters. -/
theorem letters_injective (h : t.letters = t'.letters) : t = t' := by
  have hall : ∀ t ∈ byLength, ∀ t' ∈ byLength, t.letters = t'.letters → t = t' := by
    decide +kernel
  exact hall t (mem_byLength t) t' (mem_byLength t') h

theorem rest?_eq_some_iff : t.rest? name = some dim ↔ name = t.letters ++ dim := by
  rw [← @String.toList_inj name, String.toList_append, rest?]
  split
  · next h =>
    obtain ⟨r, hr⟩ := List.isPrefixOf_iff_prefix.mp h
    rw [← hr, List.drop_left, Option.some_inj, List.append_cancel_left_eq, ← String.toList_inj,
      String.toList_ofList]
  · next h =>
    constructor
    · intro hnone
      cases hnone
    · intro hname
      exact absurd (List.isPrefixOf_iff_prefix.mpr ⟨_, hname.symm⟩) h

/-- What one vector makes of a name. -/
theorem reads_iff : ((t.rest? name).bind fun dim =>
    if dim.isEmpty ∨ (c.kind? dim).isSome then some (t, dim) else none) = some (t', dim) ↔
      t' = t ∧ Reads c name t dim := by
  simp only [Option.bind_eq_some_iff, rest?_eq_some_iff, Catalog.isSome_kind?_iff,
    String.isEmpty_iff]
  constructor
  · rintro ⟨d, hname, hd⟩
    split at hd
    · next hknown =>
      cases hd
      exact ⟨rfl, hname, hknown⟩
    · cases hd
  · rintro ⟨rfl, hname, hknown⟩
    exact ⟨dim, hname, if_pos hknown⟩

/-- Two ways with letters of one length are the same. -/
theorem Reads.unique (h : Reads c name t dim) (h' : Reads c name t' dim')
    (hlen : t.letters.length = t'.letters.length) : t = t' ∧ dim = dim' := by
  have happend := congrArg String.toList (h.split.symm.trans h'.split)
  rw [String.toList_append, String.toList_append] at happend
  rw [← String.length_toList, ← String.length_toList] at hlen
  obtain ⟨hletters, hdim⟩ := List.append_inj happend hlen
  exact ⟨letters_injective (String.toList_inj.mp hletters), String.toList_inj.mp hdim⟩

theorem Decodes.unique (h : Decodes c name t dim) (h' : Decodes c name t' dim') :
    t = t' ∧ dim = dim' :=
  h.toReads.unique h'.toReads
    (Nat.le_antisymm (h'.longest t dim h.toReads) (h.longest t' dim' h'.toReads))

theorem decodes_of_ofName? (h : ofName? c name = some (t, dim)) : Decodes c name t dim := by
  obtain ⟨before, u, after, hlist, hread, hnone⟩ := List.findSome?_eq_some_iff.mp h
  obtain ⟨rfl, hreads⟩ := reads_iff.mp hread
  have hsorted := pairwise_byLength
  rw [hlist, List.pairwise_append, List.pairwise_cons] at hsorted
  constructor
  · exact hreads
  · intro t' dim' hreads'
    have hmem := mem_byLength t'
    rw [hlist, List.mem_append, List.mem_cons] at hmem
    -- a vector that was tried before is none that the name begins with
    rcases hmem with hbefore | rfl | hafter
    · have hread' := reads_iff.mpr ⟨rfl, hreads'⟩
      rw [hnone t' hbefore] at hread'
      cases hread'
    · exact le_rfl
    · exact hsorted.2.1.1 t' hafter

/-- The search finds the way with the longest letters, if there is a way at all. -/
theorem ofName?_eq_some_iff : ofName? c name = some (t, dim) ↔ Decodes c name t dim := by
  constructor
  · exact decodes_of_ofName?
  · intro h
    have hsome : (ofName? c name).isSome := List.findSome?_isSome_iff.mpr
      ⟨t, mem_byLength t, Option.isSome_of_eq_some (reads_iff.mpr ⟨rfl, h.toReads⟩)⟩
    obtain ⟨⟨t', dim'⟩, h'⟩ := Option.isSome_iff_exists.mp hsome
    obtain ⟨rfl, rfl⟩ := h.unique (decodes_of_ofName? h')
    exact h'

theorem ofName?_eq_none_iff : ofName? c name = none ↔ ¬ ∃ t dim, Decodes c name t dim := by
  rw [Option.eq_none_iff_forall_ne_some]
  constructor
  · rintro h ⟨t, dim, hdecodes⟩
    exact h _ (ofName?_eq_some_iff.mpr hdecodes)
  · rintro h ⟨t, dim⟩ hname
    exact h ⟨t, dim, ofName?_eq_some_iff.mp hname⟩

end SizeTarget

/-! ### Values in decimal -/

namespace Text

theorem trim_eq_toList {s : String} (h : ∀ ch ∈ s.toList, isBlank ch = false) :
    trim s = s.toList := by
  have hkept : ∀ l : List Char, (∀ ch ∈ l, isBlank ch = false) → l.dropWhile isBlank = l := by
    intro l hl
    cases l with
    | nil => rfl
    | cons ch l => exact List.dropWhile_cons_of_neg (by simp [hl ch])
  rw [trim, hkept _ h, hkept _ (by simpa using h), List.reverse_reverse]

theorem isBlank_of_isDigit {ch : Char} (h : isDigit ch = true) : isBlank ch = false := by
  have hrange : 48 ≤ ch.toNat ∧ ch.toNat ≤ 57 := by
    rw [isDigit_eq, Char.isDigit, Bool.and_eq_true, decide_eq_true_eq, decide_eq_true_eq] at h
    exact h
  have hapart : ∀ r ∈ blankRanges, r.2 < 48 ∨ 57 < r.1 := by decide
  rw [isBlank, List.any_eq_false]
  intro r hr hin
  have hr := hapart r hr
  have hin := of_decide_eq_true hin
  omega

theorem natural?_toDigits (n : Nat) : natural? (Nat.toDigits 10 n) = some n := by
  obtain ⟨hne, hall⟩ := isDigits_toDigits n
  rw [natural?, if_pos ⟨hne, List.all_eq_true.mpr hall⟩, digitsValue_toDigits]

/-- The sign, if there is one, and the digits. -/
theorem toList_toString (n : Int) :
    (toString n).toList = (if n < 0 then ['-'] else []) ++ Nat.toDigits 10 n.natAbs := by
  rw [← Json.NumberText.chars_ofInt]
  simp [Json.NumberText.chars, Json.NumberText.ofInt, Json.NumberText.powerChars]

theorem integer?_toString (n : Int) : integer? (toString n).toList = some n := by
  rw [toList_toString]
  split
  · rw [List.singleton_append, integer?, natural?_toDigits]
    exact congrArg some (show -(n.natAbs : Int) = n by omega)
  · rw [List.nil_append]
    unfold integer?
    -- digits do not begin with a sign
    split
    · next ds hds =>
      have hdigit := (isDigits_toDigits n.natAbs).all '-' (hds ▸ List.mem_cons_self)
      cases hdigit
    · next ds hds =>
      have hdigit := (isDigits_toDigits n.natAbs).all '+' (hds ▸ List.mem_cons_self)
      cases hdigit
    · rw [natural?_toDigits]
      exact congrArg some (show (n.natAbs : Int) = n by omega)

/-- A 64-bit value that is written in decimal is read as itself. -/
theorem idx?_toString {n : Int} (hn : Idx.InRange n) : idx? (toString n) = some n := by
  have hblank : ∀ ch ∈ (toString n).toList, isBlank ch = false := by
    intro ch hch
    rw [toList_toString, List.mem_append] at hch
    rcases hch with hsign | hdigit
    · split at hsign
      · rw [List.mem_singleton.mp hsign]
        decide
      · cases hsign
    · exact isBlank_of_isDigit ((isDigits_toDigits _).all ch hdigit)
  rw [idx?, between?, trim_eq_toList hblank, integer?_toString, Option.filter_some]
  exact if_pos (decide_eq_true hn)

end Text

/-! ### What an option sets -/

namespace Settings

variable {c : Catalog} {s s' : Settings} {name dim func : String} {t : SizeTarget} {n : Int}
  {v : Verbosity}

/-- The names that stand for single knobs. -/
def knobOptions : List String :=
  ["max_threads", "thread_divisor", "block_threads", "bind_block_threads", "overlap_comms",
   "use_shm", "numa_pref", "pmem_threshold", "min_exterior", "auto_tune_min_secs"]

/-- Every other name stands for a size, or for nothing. -/
theorem setOption_eq_of_notMem (h : name ∉ knobOptions) (value : String) :
    setOption c name value = (do
      Task.note .trace s!"apply_option({name}, {value})"
      setSizeOption c name value) := by
  unfold setOption
  congr 1
  funext _
  split
  case h_11 => rfl
  all_goals exact absurd (by decide) h

/-- The vector of an option with a value in one dimension, or without a dimension in all domain
dimensions. -/
def written (c : Catalog) (dim : String) (n : Int) (u : DimVec) : DimVec :=
  if dim = "" then c.domain.names.foldl (fun u d => u.set d n) u else u.set dim n

/-- The dimensions in which an option may set a size: those of the domain, and for regions, blocks
and mini-blocks the steps. -/
def Admits (c : Catalog) (t : SizeTarget) (dim : String) : Prop :=
  dim ∈ c.domain.names ∨ dim = c.stepDim ∧ ∃ l, t = .level l ∧ l.spansSteps = true

/-- The vectors of the levels inside the local domain have an entry for the steps, and no others. -/
theorem contains_stepDim_iff (hc : c.WellFormed) (hs : s.Shaped c) :
    (s.target t).contains c.stepDim = true ↔ ∃ l, t = .level l ∧ l ≠ .localDomain := by
  rw [DimVec.contains_iff, hs.names]
  have hstep : c.stepDim ∈ c.stencil.names := by
    rw [hc.stencil]
    exact List.mem_cons_self
  cases t with
  | level l => cases l <;> simp [targetNames, hstep, hc.step_notMem]
  | _ => simp [targetNames, hc.step_notMem]

theorem yields_writeSize (hc : c.WellFormed) (hs : s.Shaped c) {r : Settings}
    (hr : r.target t = s.target t) :
    (writeSize c t dim n).Yields v r () s' ↔
      (dim ≠ "" → dim ∈ c.domain.names ∨ dim = c.stepDim ∧ ∃ l, t = .level l ∧ l ≠ .localDomain) ∧
        s' = r.withTarget t (written c dim n (s.target t)) := by
  unfold writeSize
  rw [Task.yields_bind_get]
  simp only [Task.yields_ite, written, hr, String.isEmpty_iff]
  by_cases hempty : dim = ""
  · rw [if_pos hempty, if_pos hempty, Task.yields_modify]
    simp [hempty]
  · rw [if_neg hempty, if_neg hempty, Task.yields_bind_planError]
    simp only [Task.yields_modify, exists_and_right, Catalog.exists_check_tile hc,
      contains_stepDim_iff hc hs, ne_eq, hempty, not_false_eq_true, forall_const]

theorem yields_applySize (hc : c.WellFormed) (hs : s.Shaped c) :
    (applySize c t dim n).Yields v s () s' ↔ (dim ≠ "" → Admits c t dim) ∧
      s' = (markedIf (t = .rankIndex) s).withTarget t (written c dim n (s.target t)) := by
  unfold applySize Admits
  cases t with
  | rankIndex =>
    dsimp only
    rw [Task.yields_bind_modify]
    apply (yields_writeSize (r := { s with explicitRankIndices := true }) hc hs rfl).trans
    simp
  | level l =>
    dsimp only
    rw [Task.yields_ite, Task.yields_bind_planError]
    by_cases hempty : dim.isEmpty = true
    · rw [if_neg (not_not.mpr hempty)]
      apply (yields_writeSize hc hs rfl).trans
      simp [String.isEmpty_iff.mp hempty]
    · have hne : dim ≠ "" := fun h => hempty (String.isEmpty_iff.mpr h)
      rw [if_pos hempty, exists_and_right, Catalog.exists_check_tile hc]
      apply (and_congr_right fun _ => yields_writeSize hc hs rfl).trans
      -- the check of the level decides, as the vector has the steps if the level does
      have hlevel : l.spansSteps = true → l ≠ .localDomain := by cases l <;> decide
      have hadmits : (dim ∈ c.domain.names ∨ dim = c.stepDim ∧ l.spansSteps = true) →
          dim ∈ c.domain.names ∨ dim = c.stepDim ∧ l ≠ .localDomain :=
        Or.imp id (And.imp id hlevel)
      simp only [hne, ne_eq, not_false_eq_true, forall_const, SizeTarget.level.injEq,
        exists_eq_left', reduceCtorEq, decide_false, markedIf_false, id_eq, ← and_assoc]
      rw [and_iff_left_of_imp hadmits]
  | _ =>
    dsimp only
    apply (yields_writeSize hc hs rfl).trans
    simp

/-! ### Mistakes -/

/-- What a dimension can be refused for. A name that stands for nothing is no such mistake. -/
theorem ne_unknownOption_of_check {a : Catalog.Accepts} {e : PlanError}
    (h : c.check dim func a = .error e) : ∀ m, e ≠ .unknownOption m := by
  unfold Catalog.check at h
  rintro m rfl
  split at h
  · cases h
  · split at h <;> cases h

theorem failsOnly_writeSize :
    (writeSize c t dim n).FailsOnly (fun e => ∀ m, e ≠ .unknownOption m) v s := by
  apply Task.failsOnly_bind_get
  apply Task.failsOnly_ite
  · exact fun _ => Task.failsOnly_modify _
  · intro _
    apply Task.failsOnly_bind (Task.failsOnly_planError fun e he => ne_unknownOption_of_check he)
    exact fun _ _ _ => Task.failsOnly_modify _

theorem failsOnly_applySize :
    (applySize c t dim n).FailsOnly (fun e => ∀ m, e ≠ .unknownOption m) v s := by
  unfold applySize
  cases t with
  | rankIndex => exact Task.failsOnly_bind_modify failsOnly_writeSize
  | level l =>
    apply Task.failsOnly_ite
    · intro _
      apply Task.failsOnly_bind (Task.failsOnly_planError fun e he => ne_unknownOption_of_check he)
      exact fun _ _ _ => failsOnly_writeSize
    · exact fun _ => failsOnly_writeSize
  | _ => exact failsOnly_writeSize

/-! ### An option as a whole -/

theorem setOption_of_decodes (hname : name ∉ knobOptions) (hn : Idx.InRange n)
    (h : SizeTarget.Decodes c name t dim) :
    setOption c name (toString n) = (do
      Task.note .trace s!"apply_option({name}, {toString n})"
      applySize c t dim n) := by
  rw [setOption_eq_of_notMem hname, setSizeOption, SizeTarget.ofName?_eq_some_iff.mpr h]
  dsimp only
  rw [readValue, Text.idx?_toString hn]
  rfl

/-- A name that cannot be taken apart is unknown, whatever its value is. -/
theorem setOption_of_not_decodes (hname : name ∉ knobOptions) (value : String)
    (h : ¬ ∃ t dim, SizeTarget.Decodes c name t dim) :
    (setOption c name value).Returns v s (.error (.unknownOption name)) s := by
  rw [setOption_eq_of_notMem hname, setSizeOption, SizeTarget.ofName?_eq_none_iff.mpr h]
  apply (Task.blameless_note _ _).returns_bind.mpr
  exact ⟨(), s, Task.yields_note.mpr rfl, Task.returns_iff.mpr ⟨rfl, rfl⟩⟩

/-- The entries that a dimension stands for, where none stands for all domain dimensions. -/
def Meant (c : Catalog) (dim d : String) : Prop :=
  if dim = "" then d ∈ c.domain.names else d = dim

/-- The settings `s'` are `s` with the value `n` at those entries of one vector. -/
structure SetsEntries (c : Catalog) (s : Settings) (t : SizeTarget) (dim : String) (n : Int)
    (s' : Settings) : Prop where
  /-- Only that vector is another one, but rank indices count as explicit once one is given. -/
  rest : s' = { s.withTarget t (s'.target t) with
    explicitRankIndices := s.explicitRankIndices || decide (t = .rankIndex) }
  names : (s'.target t).names = (s.target t).names
  meant : ∀ d, Meant c dim d → (s'.target t).get? d = some n
  other : ∀ d, ¬ Meant c dim d → (s'.target t).get? d = (s.target t).get? d
  /-- A size for all dimensions is none for the steps. -/
  step : dim = "" → (s'.target t).get? c.stepDim = (s.target t).get? c.stepDim

@[simp] theorem target_withTarget_self (s : Settings) (t : SizeTarget) (u : DimVec) :
    (s.withTarget t u).target t = u := by
  cases t with
  | level l => exact sizes_withSizes s l u
  | _ => rfl

theorem withTarget_markedIf (asked : Bool) (u : DimVec) :
    (markedIf asked s).withTarget t u = { s.withTarget t u with
      explicitRankIndices := s.explicitRankIndices || asked } := by
  cases t with
  | level l => cases l <;> rfl
  | _ => rfl

theorem names_written (u : DimVec) : (written c dim n u).names = u.names := by
  unfold written
  split
  · exact (foldl_set _ _).1
  · exact DimVec.names_set _ _ _

/-- A vector that has all of the dimensions in question gets the value there and nowhere else. -/
theorem get?_written {u : DimVec} (hdomain : ∀ d ∈ c.domain.names, d ∈ u.names)
    (hdim : dim ≠ "" → dim ∈ u.names) (d : String) :
    (Meant c dim d → (written c dim n u).get? d = some n) ∧
      (¬ Meant c dim d → (written c dim n u).get? d = u.get? d) := by
  unfold Meant written
  by_cases hempty : dim = ""
  · subst hempty
    rw [if_pos rfl, if_pos rfl, DimVec.get?_foldl_set]
    constructor
    · exact fun hd => if_pos ⟨hd, hdomain d hd⟩
    · exact fun hd => if_neg fun h => hd h.1
  · rw [if_neg hempty, if_neg hempty, DimVec.get?_set]
    constructor
    · exact fun hd => if_pos ⟨hd, hdim hempty⟩
    · exact fun hd => if_neg fun h => hd h.1

theorem mem_names_of_mem_domain (hc : c.WellFormed) (hs : s.Shaped c) {d : String}
    (hd : d ∈ c.domain.names) : d ∈ (s.target t).names := by
  have hstencil := hc.mem_stencil hd
  rw [hs.names]
  cases t with
  | level l => cases l <;> first | exact hd | exact hstencil
  | _ => exact hd

/-- Where an option may set a size, its vector has an entry. -/
theorem Admits.mem_names (h : Admits c t dim) (hc : c.WellFormed) (hs : s.Shaped c) :
    dim ∈ (s.target t).names := by
  rcases h with hdomain | ⟨rfl, l, rfl, hl⟩
  · exact mem_names_of_mem_domain hc hs hdomain
  · rw [← DimVec.contains_iff, contains_stepDim_iff hc hs]
    exact ⟨l, rfl, by rintro rfl; cases hl⟩

theorem setsEntries_of_applySize (hc : c.WellFormed) (hs : s.Shaped c)
    (h : (applySize c t dim n).Yields v s () s') : SetsEntries c s t dim n s' := by
  obtain ⟨hadmits, rfl⟩ := (yields_applySize hc hs).mp h
  have hget := get?_written (n := n) (fun d => mem_names_of_mem_domain (t := t) hc hs)
    fun hne => (hadmits hne).mem_names hc hs
  constructor
  case rest => rw [target_withTarget_self, withTarget_markedIf]
  case names => rw [target_withTarget_self, names_written]
  case meant =>
    rw [target_withTarget_self]
    exact fun d => (hget d).1
  case other =>
    rw [target_withTarget_self]
    exact fun d => (hget d).2
  case step =>
    rintro rfl
    rw [target_withTarget_self]
    apply (hget c.stepDim).2
    rw [Meant, if_pos rfl]
    exact hc.step_notMem

/-- Resizing an entry of a level goes by the same rules. -/
theorem resize_eq_ok {l : Level} (hc : c.WellFormed) :
    s.resize c l dim n = .ok s' ↔
      Admits c (.level l) dim ∧ s' = s.withSizes l ((s.sizes l).set dim n) := by
  unfold resize Admits
  simp only [bind_eq_ok, pure_eq_ok, exists_and_right, Catalog.exists_check_tile hc,
    SizeTarget.level.injEq, exists_eq_left']

/-- A name that is none of the knobs stands for what its longest letters say, or it is unknown. An
option that is accepted sets the entries it stands for and nothing else, and one that stands for a
single entry of a level does exactly what resizing that entry does. -/
theorem setOption_decodes (hc : c.Built) (hs : s.Reachable c) (hname : name ∉ knobOptions)
    (hn : Idx.InRange n) :
    (∀ m, ((setOption c name (toString n)).run v s).result = .error (.tiling (.unknownOption m)) ↔
      m = name ∧ ¬ ∃ t dim, SizeTarget.Decodes c name t dim) ∧
    (∀ s', (setOption c name (toString n)).Yields v s () s' →
      ∃ t dim, SizeTarget.Decodes c name t dim ∧ SetsEntries c s t dim n s') ∧
    ∀ l dim, SizeTarget.Decodes c name (.level l) dim → dim ∈ c.dims → ∀ s',
      (setOption c name (toString n)).Yields v s () s' ↔ s.resize c l dim n = .ok s' := by
  have hw := hc.wellFormed
  -- a name that cannot be taken apart is refused, and then there is nothing else to show
  have hunknown : (¬ ∃ t dim, SizeTarget.Decodes c name t dim) →
      ((setOption c name (toString n)).run v s).result = .error (.tiling (.unknownOption name)) :=
    fun h => (Task.returns_iff.mp (setOption_of_not_decodes hname _ h)).1
  constructor
  · intro m
    constructor
    · intro h
      by_cases hdecodes : ∃ t dim, SizeTarget.Decodes c name t dim
      · obtain ⟨t, dim, hdecodes⟩ := hdecodes
        rw [setOption_of_decodes hname hn hdecodes] at h
        obtain ⟨e, he, hne⟩ :=
          Task.failsOnly_bind (Task.failsOnly_note _ _) (fun _ _ _ => failsOnly_applySize) _ h
        cases he
        exact absurd rfl (hne m)
      · rw [hunknown hdecodes] at h
        cases h
        exact ⟨rfl, hdecodes⟩
    · rintro ⟨rfl, hnone⟩
      exact hunknown hnone
  constructor
  · intro s' h
    by_cases hdecodes : ∃ t dim, SizeTarget.Decodes c name t dim
    · obtain ⟨t, dim, hdecodes⟩ := hdecodes
      rw [setOption_of_decodes hname hn hdecodes, Task.yields_bind_note] at h
      exact ⟨t, dim, hdecodes, setsEntries_of_applySize hw hs.shaped h⟩
    · cases (hunknown hdecodes).symm.trans h.1
  · intro l dim hdecodes hdim s'
    have hne := hc.ne_empty dim hdim
    rw [setOption_of_decodes hname hn hdecodes, Task.yields_bind_note,
      yields_applySize hw hs.shaped, resize_eq_ok hw]
    simp [hne, written, Settings.withTarget, target]

end Settings

namespace Ambiguous

/-- One dimension is named like the other one with the letter of the global size before it. -/
def catalog : Catalog := (Catalog.declare "t" ["x", "gx"] ["m"]).toOption.getD default

theorem built : catalog.Built :=
  .declare (show Catalog.declare "t" ["x", "gx"] ["m"] = .ok catalog by decide +kernel)

end Ambiguous

/-- The letters of mini-blocks and the dimension `gx` are a way to take the name apart, but not the
one that counts. -/
theorem setOption_decodes_longest :
    SizeTarget.Reads Ambiguous.catalog "mbgx" (.level .miniBlock) "gx" ∧ ∃ s',
      (Settings.setOption Ambiguous.catalog "mbgx" (toString (8 : Int))).Yields none
        (.initial Ambiguous.catalog 1) () s' ∧
      Settings.SetsEntries Ambiguous.catalog (.initial Ambiguous.catalog 1)
        (.level .miniBlockGroup) "x" 8 s' ∧
      (Settings.initial Ambiguous.catalog 1).resize Ambiguous.catalog .miniBlockGroup "x" 8 =
        .ok s' := by
  have hdecodes : SizeTarget.Decodes Ambiguous.catalog "mbgx" (.level .miniBlockGroup) "x" :=
    SizeTarget.ofName?_eq_some_iff.mp (by decide +kernel)
  have hknob : "mbgx" ∉ Settings.knobOptions := by decide +kernel
  obtain ⟨-, hsets, hresize⟩ := Settings.setOption_decodes (v := none) (n := 8) Ambiguous.built
    (.initial 1) hknob (by decide)
  obtain ⟨_, hyields⟩ := Task.exists_yields_of_isSome
    (x := Settings.setOption Ambiguous.catalog "mbgx" (toString (8 : Int))) (v := none)
    (s := .initial Ambiguous.catalog 1) (by decide +kernel)
  obtain ⟨t, dim, hdecodes', hset⟩ := hsets _ hyields
  -- A name decodes in one way only, so what was set is what the longest prefix names.
  obtain ⟨rfl, rfl⟩ := hdecodes.unique hdecodes'
  constructor
  · exact ⟨by decide +kernel, by decide +kernel⟩
  · exact ⟨_, hyields, hset, (hresize _ _ hdecodes (by decide +kernel) _).mp hyields⟩

end StencilPlan
