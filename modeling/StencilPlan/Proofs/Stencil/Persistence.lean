import StencilPlan.Stencil.Codec
import StencilPlan.Proofs.Dim.Codec
import StencilPlan.Proofs.Stencil.Widths

/-!
# Stencils that are saved and read back

The text of a stencil gives its fields back, catalog and order of the variables included. But a
requirement of a variable cannot be the key of a field, on either side: no requirement has a name
as a key, and no key reads as a requirement. So there is a text only as long as no halo is recorded,
and every text that is read has none.
-/

namespace StencilPlan

namespace Stencil

variable {s s' : Stencil} {var : String}

/-! ### What is kept of a stencil that is built -/

theorem Built.keyed (h : s.Built) : s.Keyed := by
  induction h with
  | @new c _ name => exact keyed_new name c
  | elements _ h ih =>
    unfold withElementBytes at h
    split at h
    · cases h
    · obtain rfl := Except.ok.inj h
      exact ⟨ih.declared, ih.vars, ih.needs⟩
  | flops _ n ih => exact ⟨ih.declared, ih.vars, ih.needs⟩
  | var _ name ih => exact ih.withVar name
  | @halo s s' _ var stage left stepOffset sizes h ih =>
    obtain ⟨-, needs, hneeds, rfl⟩ := (withHalo_eq_ok ih ⟨stage, left, stepOffset⟩).mp h
    exact (ih.withVar var).withNeed hneeds _ _

/-- No other width of elements is supported. -/
theorem Built.elementBytes (h : s.Built) : s.elementBytes = realBytes := by
  -- Declaring a variable is part of recording a halo, too.
  have hvar : ∀ (s : Stencil) (name : String), (s.withVar name).elementBytes = s.elementBytes :=
    fun s name => by unfold withVar; split <;> rfl
  induction h with
  | new => rfl
  | @elements s s' _ bytes h ih =>
    unfold withElementBytes at h
    split at h
    · cases h
    · next hbytes =>
      obtain rfl := Except.ok.inj h
      exact not_not.mp hbytes
  | flops _ n ih => exact ih
  | var _ name ih => rw [hvar, ih]
  | @halo s s' hs var stage left stepOffset sizes h ih =>
    obtain ⟨-, needs, -, rfl⟩ :=
      (withHalo_eq_ok hs.keyed ⟨stage, left, stepOffset⟩).mp h
    exact (hvar s var).trans ih

/-! ### The record -/

/-- If all keys have the same value, a key that is there has that one. -/
theorem lookup_of_forall {κ α : Type} [DecidableEq κ] [BEq κ] [LawfulBEq κ] {es : List (κ × α)}
    {v : α} (h : ∀ e ∈ es, e.2 = v) (k : κ) :
    es.lookup k = if k ∈ es.map (·.1) then some v else none := by
  induction es with
  | nil => rfl
  | cons e es ih =>
    obtain ⟨l, w⟩ := e
    obtain ⟨hw, hes⟩ := List.forall_mem_cons.mp h
    obtain rfl : w = v := hw
    rw [lookup_cons_eq_ite, ih hes, List.map_cons]
    by_cases hk : k = l <;> simp only [List.mem_cons, hk, true_or, false_or, if_true, if_false]

/-- Requirements have a value only if there are none of them. -/
theorem needsJson?_eq_ite (needs : List (HaloNeed × DimVec)) :
    needsJson? needs = if needs.isEmpty then some (.record []) else none := by
  cases needs with
  | nil => rfl
  | cons e es =>
    rw [needsJson?, Json.ofEntries?, List.mapM_cons, HaloNeed.key?_toJson]
    rfl

/-- An object of requirements is read only if it has no fields. -/
theorem needs?_eq_some_iff {v : Json} {needs : List (HaloNeed × DimVec)} :
    needs? v = some needs ↔ v = .object [] ∧ needs = [] := by
  cases v with
  | object fields =>
    cases fields with
    | nil => simp [needs?, Json.entries?, collect, eq_comm]
    | cons f fields => simp [needs?, Json.entries?, HaloNeed.ofJson?_text]
  | _ => exact iff_of_false nofun nofun

/-- All variables are written, or none of them if one has a requirement. -/
theorem ofEntries?_halos (halos : List (String × List (HaloNeed × DimVec))) :
    Json.ofEntries? .str needsJson? halos =
      if halos.all (·.2.isEmpty) then
        some (.record ((halos.map (·.1)).map fun v => (v, .record [])))
      else none := by
  have hmapM : (halos.mapM fun e => do
      return ((← (Json.str e.1).key?), (← needsJson? e.2))) =
        if halos.all (·.2.isEmpty) then some (halos.map fun e => (e.1, .record [])) else none := by
    induction halos with
    | nil => rfl
    | cons e es ih =>
      rw [List.mapM_cons, ih, needsJson?_eq_ite, List.all_cons]
      cases e.2.isEmpty <;> cases es.all (·.2.isEmpty) <;> rfl
  rw [Json.ofEntries?, hmapM]
  split
  · rw [List.map_map]
    rfl
  · rfl

theorem toJson?_eq_ite (s : Stencil) : s.toJson? =
    if s.halos.all (·.2.isEmpty) then
      let vars := (s.halos.map (·.1)).mergeSort (fun a b => a ≤ b)
      some (.record (fieldNames.zip
        [.str s.name, s.catalog.toJson, .nat s.elementBytes, .nat s.flopsPerPoint,
         .array (s.vars.map .str), .record (vars.map fun v => (v, .record []))]))
    else none := by
  have hvars : ((s.halos.mergeSort fun a b => a.1 ≤ b.1).map (·.1)) =
      (s.halos.map (·.1)).mergeSort fun a b => a ≤ b := List.map_mergeSort fun _ _ _ _ => rfl
  have hall : (s.halos.mergeSort fun a b => a.1 ≤ b.1).all (·.2.isEmpty) =
      s.halos.all (·.2.isEmpty) := (List.mergeSort_perm _ _).all_eq
  rw [toJson?, ofEntries?_halos, hvars, hall]
  split <;> rfl

/-- There is a text exactly if there are no requirements. -/
theorem Keyed.isSome_toJson?_iff (h : s.Keyed) :
    s.toJson?.isSome ↔ ∀ var need, s.requirement? var need = none := by
  have hall : s.halos.all (·.2.isEmpty) ↔ ∀ var need, s.requirement? var need = none := by
    rw [List.all_eq_true]
    constructor
    · intro hempty var need
      rw [requirement?, lookup_of_forall fun e he => List.isEmpty_iff.mp (hempty e he)]
      split <;> rfl
    · -- Keys are distinct, so an entry with requirements is the one that is looked up.
      rintro hnone ⟨var, needs⟩ he
      cases needs with
      | nil => rfl
      | cons e es =>
        have hlookup := hnone var e.1
        rw [requirement?, (lookup_eq_some_iff_mem h.vars).mpr he, Option.bind_some,
          lookup_cons_eq_ite, if_pos rfl] at hlookup
        cases hlookup
  rw [← hall, toJson?_eq_ite]
  split
  · next h => exact iff_of_true rfl h
  · next h => exact iff_of_false Bool.false_ne_true h

/-- Variables without requirements are read as such. -/
theorem halos?_record (vars : List String) :
    ∃ halos, halos? (.record (vars.map fun v => (v, .record []))) = some halos ∧
      ∀ var, halos.lookup var = if var ∈ vars then some [] else none := by
  -- The map is general since each field is put into what the fields before it left.
  have hlookup : ∀ (m : List (String × List (HaloNeed × DimVec))) (var : String),
      ((vars.map fun v => (v, [])).foldl (fun m e => putKey e.1 e.2 m) m).lookup var =
        if var ∈ vars then some [] else m.lookup var := by
    induction vars with
    | nil => exact fun _ _ => rfl
    | cons v vars ih =>
      intro m var
      rw [List.map_cons, List.foldl_cons, ih, lookup_putKey]
      by_cases hv : var = v <;> by_cases hvars : var ∈ vars <;> simp [hv, hvars]
  have hfields : (Json.record (vars.map fun v => (v, .record []))).entries? Json.text? needs? =
      some (vars.map fun v => (v, [])) := by
    rw [Json.record, List.map_map]
    exact Json.mapM_eq_some (List.forall₂_map_left_iff.mpr
      (List.forall₂_map_right_iff.mpr (List.forall₂_same.mpr fun v _ => rfl)))
  exact ⟨_, Option.bind_eq_some_iff.mpr ⟨_, hfields, rfl⟩, hlookup []⟩

/-- No variable that is read has requirements. -/
theorem eq_nil_of_halos? {v : Json} {halos : List (String × List (HaloNeed × DimVec))}
    (h : halos? v = some halos) : ∀ e ∈ halos, e.2 = [] := by
  obtain ⟨es, hes, hhalos⟩ := Option.bind_eq_some_iff.mp h
  obtain rfl := Option.some.inj hhalos
  have hread : ∀ e ∈ es, e.2 = [] := by
    intro e he
    cases v with
    | object fields =>
      obtain ⟨f, -, hf⟩ := Json.exists_of_mem_mapM hes he
      simp only [Option.bind_eq_bind, Option.bind_eq_some_iff, Option.pure_def,
        Option.some.injEq] at hf
      obtain ⟨name, -, needs, hneeds, rfl⟩ := hf
      exact (needs?_eq_some_iff.mp hneeds).2
    | _ => cases hes
  -- Of a repeated variable another entry is kept, which has no requirements either.
  refine List.foldlRecOn
    (motive := fun m : List (String × List (HaloNeed × DimVec)) => ∀ e ∈ m, e.2 = []) es _
    (fun _ he => absurd he List.not_mem_nil) fun m hm e he f hf => ?_
  rcases mem_putKey hf with rfl | hf
  · exact hread e he
  · exact hm f hf

/-- A stencil that is read from a text has no requirements. -/
theorem requirement?_of_parse? {text : String} (h : parse? text = some s) (var : String)
    (need : HaloNeed) : s.requirement? var need = none := by
  have hhalos : ∃ v, halos? v = some s.halos := by
    simp only [parse?, Option.bind_eq_bind, Option.bind_eq_some_iff] at h
    obtain ⟨-, -, fields, -, h⟩ := h
    split at h
    · simp only [Option.bind_eq_some_iff, Option.pure_def, Option.some.injEq] at h
      obtain ⟨_, -, _, -, _, -, _, -, _, -, _, hhalos, rfl⟩ := h
      exact ⟨_, hhalos⟩
    · cases h
  obtain ⟨v, hv⟩ := hhalos
  rw [requirement?, lookup_of_forall (eq_nil_of_halos? hv)]
  split <;> rfl

/-- Two stencils with the same fields; the requirements have no order. -/
structure Same (s s' : Stencil) : Prop where
  name : s'.name = s.name
  catalog : s'.catalog = s.catalog
  elementBytes : s'.elementBytes = s.elementBytes
  flopsPerPoint : s'.flopsPerPoint = s.flopsPerPoint
  vars : s'.vars = s.vars
  halos : ∀ var, s'.halos.lookup var = s.halos.lookup var

theorem written_toJson? {j : Json} (h : s.toJson? = some j) : j.Written := by
  rw [toJson?_eq_ite] at h
  split at h
  · obtain rfl := Option.some.inj h
    refine Json.written_record ?_
    simp only [List.forall_mem_cons, Json.nat_eq_int]
    refine ⟨.str _, s.catalog.written_toJson, Json.written_int _, Json.written_int _,
      .array fun v hv => ?_, .record fun f hf => ?_, fun _ h => absurd h List.not_mem_nil⟩
    · obtain ⟨name, -, rfl⟩ := List.mem_map.mp hv
      exact .str name
    · obtain ⟨name, -, rfl⟩ := List.mem_map.mp hf
      exact .record fun _ h => absurd h List.not_mem_nil
  · cases h

/-- What is written is read back. -/
theorem Built.exists_parse? (hs : s.Built) (hflops : s.flopsPerPoint < Word.bound) {j : Json}
    (h : s.toJson? = some j) : ∃ s', parse? j.render = some s' ∧ s.Same s' := by
  have hparse := Json.parse?_render (written_toJson? h)
  rw [toJson?_eq_ite] at h
  split at h
  case isFalse => cases h
  case isTrue hempty =>
    obtain rfl := Option.some.inj h
    obtain ⟨halos, hhalos, hlookup⟩ :=
      halos?_record ((s.halos.map (·.1)).mergeSort (fun a b => a ≤ b))
    have hcatalog := Catalog.ofJson?_toJson hs.catalog
    have hbytes : (Json.nat s.elementBytes).word? = some s.elementBytes :=
      Json.word?_nat (by rw [hs.elementBytes]; decide)
    have hpoints := Json.word?_nat hflops
    have hvars : (Json.array (s.vars.map .str)).list? Json.text? = some s.vars :=
      Json.list?_array fun _ _ => rfl
    refine ⟨{ s with halos := halos }, ?_, rfl, rfl, rfl, rfl, rfl, fun var => ?_⟩
    · rw [parse?, hparse, Option.bind_eq_bind, Option.bind_some,
        Json.fields?_record (by decide) rfl, Option.bind_eq_bind, Option.bind_some]
      simp only [Json.text?, Json.str, hcatalog, hbytes, hpoints, hvars, hhalos,
        Option.bind_eq_bind, Option.bind_some]
      rfl
    · -- The variables come back in another order, which lookups do not see.
      rw [List.all_eq_true] at hempty
      rw [hlookup, lookup_of_forall fun e he => List.isEmpty_iff.mp (hempty e he)]
      simp only [List.mem_mergeSort]

/-- A stencil can be saved exactly as long as it has no requirements, and then reading its text
gives back the same stencil. -/
theorem toJson?_iff_no_requirements (hs : s.Built) (hflops : s.flopsPerPoint < Word.bound) :
    (s.toJson?.isSome ↔ ∀ var need, s.requirement? var need = none) ∧
      ∀ j, s.toJson? = some j → ∃ s', parse? j.render = some s' ∧ s.Same s' :=
  ⟨hs.keyed.isSome_toJson?_iff, fun _ h => hs.exists_parse? hflops h⟩

end Stencil

namespace Haloed

def catalog : Catalog := (Catalog.declare "t" ["x"] []).toOption.getD default

/-- Two variables that need no halo. -/
def bare : Stencil := ((Stencil.new "haloed" catalog).withVar "u").withVar "b"

/-- The first one needs a point on the left. -/
def stencil : Stencil := (bare.withHalo "u" "next" true 0 [1]).toOption.getD bare

theorem built_bare : bare.Built :=
  .var (.var (.new (.declare
    (show Catalog.declare "t" ["x"] [] = .ok catalog by decide +kernel)) "haloed") "u") "b"

theorem built : stencil.Built :=
  .halo built_bare (show bare.withHalo "u" "next" true 0 [1] = .ok stencil from rfl)

end Haloed

/-- Without halos the order in which the variables were declared survives. -/
theorem toJson?_iff_no_requirements_bare : Haloed.bare.toJson?.isSome ∧
    ∀ j, Haloed.bare.toJson? = some j →
      ∃ s', Stencil.parse? j.render = some s' ∧ s'.vars = ["u", "b"] := by
  obtain ⟨-, hread⟩ := Stencil.toJson?_iff_no_requirements Haloed.built_bare (by decide)
  refine ⟨by rw [Stencil.toJson?_eq_ite]; decide +kernel, fun j h => ?_⟩
  obtain ⟨s', hparse, hsame⟩ := hread j h
  exact ⟨s', hparse, hsame.vars⟩

/-- With a halo there is nothing to be read. -/
theorem haloed_not_saved : Haloed.stencil.Built ∧ Haloed.stencil.toJson? = none :=
  ⟨Haloed.built, by rw [Stencil.toJson?_eq_ite]; decide +kernel⟩

end StencilPlan
