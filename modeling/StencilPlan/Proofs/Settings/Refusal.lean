import StencilPlan.Settings.Option
import StencilPlan.Proofs.Returns

/-!
# Options that are refused

An option can be refused because its name stands for nothing, because its value cannot be read, or
because the dimension has no place in the vector it names. Nothing is written before the last of
these checks, with one exception: that rank indices are explicit is noted down as soon as a rank
index and a value for it are known, and the dimension is checked after that.
-/

namespace StencilPlan

namespace SizeTarget

variable {c : Catalog} {name dim : String} {t : SizeTarget}

theorem rest?_of_ofName? (h : ofName? c name = some (t, dim)) : t.rest? name = some dim := by
  obtain ⟨t', -, ht'⟩ := List.exists_of_findSome?_eq_some h
  simp only [Option.bind_eq_some_iff] at ht'
  obtain ⟨dim', hrest, hsome⟩ := ht'
  split at hsome
  · cases hsome
    exact hrest
  · cases hsome

/-- A name stands for a vector only if it begins with its letters. -/
theorem ofName?_ne_of_not_isPrefixOf (h : t.letters.toList.isPrefixOf name.toList = false) :
    ofName? c name ≠ some (t, dim) := by
  intro hname
  have hrest := rest?_of_ofName? hname
  simp [rest?, h] at hrest

end SizeTarget

namespace Settings

variable {c : Catalog}

/-- Whether an option gives a value for the rank indices: its name stands for them, be the
dimension a sensible one or not, and its value can be read. -/
def asksForIndex (c : Catalog) (name value : String) : Bool :=
  (SizeTarget.ofName? c name).any (·.1 = .rankIndex) && (Text.idx? value).isSome

/-- The settings, with rank indices that count as explicit if they are asked for. -/
def markedIf (asked : Bool) (s : Settings) : Settings :=
  { s with explicitRankIndices := s.explicitRankIndices || asked }

@[simp] theorem markedIf_false : markedIf false = id := by
  funext s
  simp [markedIf]

@[simp] theorem markedIf_true (s : Settings) :
    markedIf true s = { s with explicitRankIndices := true } := by
  simp [markedIf]

theorem asksForIndex_of_not_isPrefixOf {name : String} (value : String)
    (h : SizeTarget.rankIndex.letters.toList.isPrefixOf name.toList = false) :
    asksForIndex c name value = false := by
  rw [asksForIndex, Bool.and_eq_false_iff]
  left
  cases hname : SizeTarget.ofName? c name with
  | none => rfl
  | some td =>
    obtain ⟨t, dim⟩ := td
    have ht : t ≠ .rankIndex := by
      rintro rfl
      exact SizeTarget.ofName?_ne_of_not_isPrefixOf h hname
    simpa using ht

theorem failsAt_readValue {α : Type} (name value : String) (read? : String → Option α) :
    Task.FailsAt id (readValue name value read?) := by
  unfold readValue
  split
  · exact Task.failsAt_pure _
  · exact Task.failsAt_reject _

theorem state_of_readValue {α : Type} {name value : String} {read? : String → Option α}
    {v : Verbosity} {s s' : Settings} {a : α}
    (h : (readValue name value read?).Yields v s a s') : s' = s := by
  unfold readValue at h
  split at h
  · exact (Task.yields_pure.mp h).2
  · exact absurd h Task.not_yields_reject

/-- A knob is turned after its value was read. -/
theorem failsAt_setKnob {α : Type} (name value : String) (read? : String → Option α)
    (put : α → Settings → Settings) :
    Task.FailsAt id (do
      let a ← readValue name value read?
      modify (put a)) :=
  Task.failsAt_bind (failsAt_readValue name value read?)
    (fun _ _ _ _ h => state_of_readValue h) (fun a => Task.failsAt_modify (put a))

/-- What is done for every vector, after rank indices were noted down or a level was checked. -/
def writeSize (c : Catalog) (t : SizeTarget) (dim : String) (n : Int) : Task Settings Unit := do
  let u := (← get).target t
  if dim.isEmpty then
    let u' := c.domain.names.foldl (fun u d => u.set d n) u
    modify (·.withTarget t u')
  else
    let _ ← c.check dim ("-" ++ t.letters) (.tile (u.contains c.stepDim))
    modify (·.withTarget t (u.set dim n))

/-- Nothing is written before the dimension is checked. -/
theorem failsAt_writeSize (t : SizeTarget) (dim : String) (n : Int) :
    Task.FailsAt id (writeSize c t dim n) := by
  apply Task.failsAt_bind_get
  intro s
  apply Task.failsAt_ite
  · exact Task.failsAt_modify _
  · exact Task.failsAt_bind_planError fun _ => Task.failsAt_modify _

/-- Only a rank index leaves a trace if its dimension is refused. -/
theorem failsAt_applySize (target : SizeTarget) (dim : String) (v : Int) :
    Task.FailsAt (markedIf (target = .rankIndex)) (applySize c target dim v) := by
  have hrest : Task.FailsAt id (writeSize c target dim v) := failsAt_writeSize target dim v
  have hunmarked : ∀ t : SizeTarget, t ≠ .rankIndex → markedIf (t = .rankIndex) = id := by
    intro t ht
    simp [ht]
  unfold applySize
  cases target with
  | rankIndex =>
    -- The mark is set before the dimension is looked up, so it stays when that fails.
    have hmark : markedIf (decide (SizeTarget.rankIndex = .rankIndex)) =
        fun s => { s with explicitRankIndices := true } := by
      funext s
      simp
    rw [hmark]
    refine Task.failsAt_bind_modify ?_
    exact hrest
  | level l =>
    rw [hunmarked _ (by simp)]
    exact Task.failsAt_ite (Task.failsAt_bind_planError fun _ => hrest) hrest
  | _ =>
    rw [hunmarked _ (by simp)]
    exact hrest

theorem failsAt_setSizeOption (name value : String) :
    Task.FailsAt (markedIf (asksForIndex c name value)) (setSizeOption c name value) := by
  unfold setSizeOption
  cases hname : SizeTarget.ofName? c name with
  | none => simpa [asksForIndex, hname] using Task.failsAt_reject _
  | some td =>
    obtain ⟨target, dim⟩ := td
    cases hvalue : Text.idx? value with
    | none =>
      simp only [readValue, hvalue, asksForIndex, Option.isSome_none, Bool.and_false,
        markedIf_false]
      exact Task.failsAt_reject _
    | some n =>
      simp only [readValue, hvalue, asksForIndex, hname, Option.any_some, Option.isSome_some,
        Bool.and_true]
      exact failsAt_applySize target dim n

theorem failsAt_setOption (name value : String) :
    Task.FailsAt (markedIf (asksForIndex c name value)) (setOption c name value) := by
  unfold setOption
  refine Task.failsAt_bind_note fun _ => ?_
  split
  case h_11 => exact failsAt_setSizeOption name value
  all_goals
    rw [asksForIndex_of_not_isPrefixOf value (by decide), markedIf_false]
    exact failsAt_setKnob _ _ _ _

/-- A refused option leaves the settings as they were, whatever it was refused for; but an option
that gives a value for a rank index makes the rank indices count as explicit all the same. -/
theorem state_of_refused_option {s : Settings} {name value : String} {v : Verbosity} {f : Failure}
    (h : ((setOption c name value).run v s).result = .error f) :
    ((setOption c name value).run v s).state = { s with
      explicitRankIndices := s.explicitRankIndices || asksForIndex c name value } :=
  failsAt_setOption name value v s f h

namespace Refused

/-- A line with a dimension of every kind. -/
def catalog : Catalog := (Catalog.declare "t" ["x"] ["m"]).toOption.getD default

/-- Settings in which something is set already. -/
def settings : Settings :=
  ((setOption catalog "gx" "7").run none (.initial catalog 8)).state

end Refused

/-- The number of ranks has no steps, and that it is refused for them changes nothing. -/
theorem state_of_refused_option_steps :
    ((setOption Refused.catalog "nrt" "2").run none Refused.settings).result =
      .error (.tiling (.wrongDimKind "-nr" "t" .step)) ∧
    ((setOption Refused.catalog "nrt" "2").run none Refused.settings).state =
      Refused.settings := by
  have hrefused : ((setOption Refused.catalog "nrt" "2").run none Refused.settings).result =
      .error (.tiling (.wrongDimKind "-nr" "t" .step)) := by decide +kernel
  refine ⟨hrefused, (state_of_refused_option hrefused).trans ?_⟩
  decide +kernel

/-- A rank index has no steps either, but after it is refused the rank indices are explicit. -/
theorem refused_index_leaves_mark :
    ((setOption Refused.catalog "rit" "1").run none Refused.settings).result =
      .error (.tiling (.wrongDimKind "-ri" "t" .step)) ∧
    ((setOption Refused.catalog "rit" "1").run none Refused.settings).state ≠ Refused.settings ∧
    Refused.settings.explicitRankIndices = false ∧
    ((setOption Refused.catalog "rit" "1").run none Refused.settings).state.explicitRankIndices =
      true := by
  decide +kernel

end Settings

end StencilPlan
