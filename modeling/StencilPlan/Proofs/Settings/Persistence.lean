import StencilPlan.Settings.Codec
import StencilPlan.Proofs.Dim.Codec
import StencilPlan.Proofs.Number.Shortest
import StencilPlan.Proofs.Settings.Reachable

/-!
# Settings that are saved and read back

Whatever a caller sets fits into the number that holds it, so every vector and every knob but one is
read back as it was written. The exception is the length of a trial. It may be infinite or no number
at all, and then there is nothing that could be read back.
-/

namespace StencilPlan

namespace Settings

variable {c : Catalog} {s : Settings}

/-! ### Knobs -/

/-- The knobs that are numbers fit into them, the thread budget apart. -/
structure KnobsFit (s : Settings) : Prop where
  threadDivisor : s.threadDivisor < Word.bound
  blockThreads : s.blockThreads < Word.bound
  numaPref : -2147483648 ≤ s.numaPref ∧ s.numaPref ≤ 2147483647
  pmemThreshold : -2147483648 ≤ s.pmemThreshold ∧ s.pmemThreshold ≤ 2147483647
  minExterior : Idx.InRange s.minExterior

theorem knobsFit_initial (maxThreads : Nat) : (Settings.initial c maxThreads).KnobsFit where
  threadDivisor := show 1 < Word.bound by decide
  blockThreads := show 1 < Word.bound by decide
  numaPref := show -2147483648 ≤ (-1 : Int) ∧ (-1 : Int) ≤ 2147483647 by decide
  pmemThreshold := show -2147483648 ≤ (128 : Int) ∧ (128 : Int) ≤ 2147483647 by decide
  minExterior := show Idx.InRange 0 by decide

theorem KnobsFit.withTarget (h : s.KnobsFit) (g : SizeTarget) (t : DimVec) :
    (s.withTarget g t).KnobsFit := by
  cases g with
  | level l => cases l <;> exact ⟨h.1, h.2, h.3, h.4, h.5⟩
  | _ => exact ⟨h.1, h.2, h.3, h.4, h.5⟩

theorem lt_of_word? {value : String} {n : Nat} (h : Text.word? value = some n) :
    n < Word.bound := by
  simp only [Text.word?, Option.filter_eq_some_iff, decide_eq_true_eq] at h
  exact h.2

theorem of_int32? {value : String} {n : Int} (h : Text.int32? value = some n) :
    -2147483648 ≤ n ∧ n ≤ 2147483647 := by
  simp only [Text.int32?, Text.between?, Option.filter_eq_some_iff, decide_eq_true_eq] at h
  exact h.2

theorem keeps_knobsFit_setOption (name value : String) :
    Task.Keeps KnobsFit (setOption c name value) := by
  unfold setOption
  refine Task.keeps_bind (Task.keeps_note _ _) fun _ => ?_
  split
  -- A name that is no knob is a size, and sizes leave the knobs alone.
  case h_11 =>
    unfold setSizeOption
    split
    · exact Task.keeps_reject _
    · refine keeps_readValue_bind fun n _ => keeps_applySize (fun s h => ?_) ?_ ?_
      · exact ⟨h.1, h.2, h.3, h.4, h.5⟩
      · exact fun s h => h.withTarget _ _
      · exact fun s h _ => h.withTarget _ _
  all_goals
    apply keeps_readValue_bind
    intro a ha
    apply Task.keeps_modify
    intro s h
  -- Only the knobs that are read as machine integers have bounds to be kept.
  case h_2 => exact ⟨lt_of_word? ha, h.2, h.3, h.4, h.5⟩
  case h_3 => exact ⟨h.1, lt_of_word? ha, h.3, h.4, h.5⟩
  case h_7 => exact ⟨h.1, h.2, of_int32? ha, h.4, h.5⟩
  case h_8 => exact ⟨h.1, h.2, h.3, of_int32? ha, h.5⟩
  case h_9 => exact ⟨h.1, h.2, h.3, h.4, inRange_of_idx? ha⟩
  all_goals exact ⟨h.1, h.2, h.3, h.4, h.5⟩

theorem Reachable.knobsFit (h : s.Reachable c) : s.KnobsFit := by
  induction h with
  | initial maxThreads => exact knobsFit_initial maxThreads
  | option _ name value v ih => exact keeps_knobsFit_setOption name value v _ ih
  | @resize s s' l dim n _ _ h ih =>
    simp only [Settings.resize, bind_eq_ok, pure_eq_ok] at h
    obtain ⟨_, -, rfl⟩ := h
    exact ih.withTarget (.level l) _

/-! ### The record -/

/-- A finite length of a trial is read as the text of the number says, others are not read. -/
theorem real?_real (x : Binary64) :
    (Json.real x).real? = if x.isFinite then x.text.real? else none := by
  unfold Json.real
  split
  · next hfinite =>
    rw [Json.real?, Json.number?, x.toList_render, Json.NumberText.parse?_chars x.wellFormed_text,
      Option.bind_some]
  · rfl

theorem Shaped.inRange_vectors (hs : s.Shaped c) :
    ∀ t ∈ s.vectors, ∀ n ∈ t.values, Idx.InRange n := by
  simp only [vectors, List.forall_mem_cons]
  exact ⟨hs.inRange .global, hs.inRange (.level .localDomain), hs.inRange (.level .region),
    hs.inRange (.level .block), hs.inRange (.level .miniBlock), hs.inRange (.level .subBlock),
    hs.inRange (.level .blockGroup), hs.inRange (.level .miniBlockGroup),
    hs.inRange (.level .subBlockGroup), hs.inRange .numRanks, hs.inRange .rankIndex,
    fun _ h => absurd h List.not_mem_nil⟩

theorem written_toJson (s : Settings) : s.toJson.Written := by
  refine Json.written_record (List.forall_mem_append.mpr ⟨fun v hv => ?_, ?_⟩)
  · obtain ⟨t, -, rfl⟩ := List.mem_map.mp hv
    exact t.written_toJson
  · simp only [List.forall_mem_cons, Json.nat_eq_int]
    exact ⟨.bool _, Json.written_int _, Json.written_int _, Json.written_int _, .bool _, .bool _,
      .bool _, Json.written_int _, Json.written_int _, Json.written_int _,
      Binary64.written_real _, fun _ h => absurd h List.not_mem_nil⟩

/-- The record gives every field back, the length of a trial as far as it can be read. -/
theorem ofJson?_toJson (hs : s.Shaped c) (hk : s.KnobsFit) (hmax : s.maxThreads < Word.bound) :
    ofJson? s.toJson =
      (Json.real s.autoTuneMinSecs).real?.map fun x => { s with autoTuneMinSecs := x } := by
  have hvectors : ∀ t ∈ s.vectors, DimVec.ofJson? t.toJson = some t := fun t ht =>
    DimVec.ofJson?_toJson (hs.inRange_vectors t ht)
  have hmaxThreads := Json.word?_nat hmax
  have hdivisor := Json.word?_nat hk.threadDivisor
  have hblock := Json.word?_nat hk.blockThreads
  have hnuma : (Json.int s.numaPref).int32? = some s.numaPref := Json.between?_int hk.numaPref
  have hpmem : (Json.int s.pmemThreshold).int32? = some s.pmemThreshold :=
    Json.between?_int hk.pmemThreshold
  have hexterior : (Json.int s.minExterior).idx? = some s.minExterior :=
    Json.between?_int hk.minExterior
  -- Every field but one is read back; whether the record is depends on that one.
  simp only [vectors, List.forall_mem_cons] at hvectors
  rw [ofJson?, toJson, Json.fields?_record (by decide) rfl, Option.bind_eq_bind, Option.bind_some]
  simp only [vectors, List.map_cons, List.map_nil, List.cons_append, List.nil_append, hvectors,
    hmaxThreads, hdivisor, hblock, hnuma, hpmem, hexterior, Json.bool?, Option.bind_eq_bind,
    Option.bind_some]
  cases (Json.real s.autoTuneMinSecs).real? <;> rfl

/-- Reading the text gives back what the record gives back. -/
theorem parse?_render (hs : s.Reachable c) (hmax : s.maxThreads < Word.bound) :
    parse? s.toJson.render =
      (Json.real s.autoTuneMinSecs).real?.map fun x => { s with autoTuneMinSecs := x } := by
  rw [parse?, Json.parse?_render s.written_toJson, Option.bind_eq_bind, Option.bind_some]
  exact ofJson?_toJson hs.shaped hs.knobsFit hmax

/-- Saved settings are read back with the same fields, but for the length of a trial, which is
whatever its own text is read as. So they survive exactly if that length is finite and survives,
and where it is not finite nothing can be read. -/
theorem parse?_render_iff (hs : s.Reachable c) (hmax : s.maxThreads < Word.bound) :
    (parse? s.toJson.render =
        (Json.real s.autoTuneMinSecs).real?.map fun x => { s with autoTuneMinSecs := x }) ∧
      (parse? s.toJson.render = some s ↔ s.autoTuneMinSecs.isFinite = true ∧
        (Json.real s.autoTuneMinSecs).real? = some s.autoTuneMinSecs) ∧
      (s.autoTuneMinSecs.isFinite = false → parse? s.toJson.render = none) := by
  have hparse := parse?_render hs hmax
  have hlost : s.autoTuneMinSecs.isFinite = false →
      (Json.real s.autoTuneMinSecs).real? = none := by
    intro hinf
    rw [real?_real, hinf]
    rfl
  refine ⟨hparse, ?_, fun hinf => ?_⟩
  · rw [hparse]
    constructor
    · intro h
      obtain ⟨x, hreads, hsame⟩ := Option.map_eq_some_iff.mp h
      -- The records are the same, so the length that was read is the one that was written.
      obtain rfl : x = s.autoTuneMinSecs := congrArg Settings.autoTuneMinSecs hsame
      refine ⟨?_, hreads⟩
      by_contra hinf
      rw [hlost (Bool.eq_false_iff.mpr hinf)] at hreads
      cases hreads
    · rintro ⟨-, hreads⟩
      rw [hreads, Option.map_some]
  · rw [hparse, hlost hinf, Option.map_none]

end Settings

namespace Quoted

/-- A catalog whose dimension has a name that is written with escapes. -/
def catalog : Catalog := (Catalog.declare "t" ["\"x\n\u0001é"] []).toOption.getD default

/-- Settings with another length of a trial. -/
def trial (secs : String) : Settings :=
  ((Settings.setOption catalog "auto_tune_min_secs" secs).run none (.initial catalog 8)).state

theorem reachable_trial (secs : String) : (trial secs).Reachable catalog :=
  .option (.initial 8) "auto_tune_min_secs" secs none

end Quoted

/-- A trial of a second and a half survives. -/
theorem parse?_render_iff_quoted :
    Settings.parse? (Quoted.trial "1.5").toJson.render = some (Quoted.trial "1.5") :=
  (Settings.parse?_render_iff (Quoted.reachable_trial "1.5") (by decide +kernel)).2.1.mpr
    ⟨by decide +kernel, by decide +kernel⟩

/-- Settings with an endless trial are lost. -/
theorem endless_trial_lost : Quoted.catalog.Built ∧
    (Quoted.trial "inf").Reachable Quoted.catalog ∧ (Quoted.trial "inf").maxThreads = 8 ∧
    Settings.parse? (Quoted.trial "inf").toJson.render = none := by
  have hbuilt : Quoted.catalog.Built := .declare
    (show Catalog.declare "t" ["\"x\n\u0001é"] [] = .ok Quoted.catalog by decide +kernel)
  have hnone : (Json.real (Quoted.trial "inf").autoTuneMinSecs).real? = none := by decide +kernel
  refine ⟨hbuilt, Quoted.reachable_trial "inf", by decide +kernel, ?_⟩
  rw [Settings.parse?_render (Quoted.reachable_trial "inf") (by decide +kernel), hnone,
    Option.map_none]

end StencilPlan
