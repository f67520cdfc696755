import StencilPlan.Proofs.Dim.Sweep
import StencilPlan.Proofs.Rank.Buildable

/-!
# Looking up an offset

To look an offset up, its values are brought into the order of the grid and shifted by one, and the
point that comes out is numbered. Whatever is asked for, there are three answers: an offset of minus
one, zero or one in each dimension has its number; any other one has none; and one whose values
cannot be shifted, because one of them is the greatest integer (`Topology.Overruns`), makes the
lookup fail before it comes to say so (`lookup_of_build`).
-/

namespace StencilPlan

namespace Topology

variable {offset : DimVec} {dims : List String} {dim : String}

/-- A dimension has the greatest integer as its value and none before it is missing: the shift gets
that far and overflows. -/
def Overruns (offset : DimVec) (dims : List String) : Prop :=
  ∃ before dim after, dims = before ++ dim :: after ∧ offset.get? dim = some Idx.max ∧
    ∀ d ∈ before, d ∈ offset.names

theorem overruns_cons : Overruns offset (dim :: dims) ↔
    offset.get? dim = some Idx.max ∨ dim ∈ offset.names ∧ Overruns offset dims := by
  constructor
  · rintro ⟨before, d, after, hdims, hmax, hbefore⟩
    cases before with
    | nil =>
      obtain ⟨rfl, rfl⟩ := List.cons.inj hdims
      exact .inl hmax
    | cons b before =>
      obtain ⟨rfl, rfl⟩ := List.cons.inj hdims
      obtain ⟨hb, hbefore⟩ := List.forall_mem_cons.mp hbefore
      exact .inr ⟨hb, before, d, after, rfl, hmax, hbefore⟩
  · rintro (hmax | ⟨hdim, before, d, after, rfl, hmax, hbefore⟩)
    · exact ⟨[], dim, dims, rfl, hmax, by simp⟩
    · exact ⟨dim :: before, d, after, rfl, hmax, List.forall_mem_cons.mpr ⟨hdim, hbefore⟩⟩

instance : ∀ dims, Decidable (Overruns offset dims)
  | [] => isFalse fun ⟨_, _, _, hdims, _⟩ => by simp at hdims
  | dim :: dims =>
    have := instDecidableOverruns dims
    decidable_of_iff _ overruns_cons.symm

/-- The values of an offset, each plus one. -/
def shift (offset : DimVec) (dims : List String) : List Int :=
  dims.map fun dim => offset.getD dim 0 + 1

theorem shifted?_cons_of_some {o : Int} (ho : offset.get? dim = some o) :
    shifted? offset (dim :: dims) = do
      let v ← Idx.add o 1
      let vs ← shifted? offset dims
      return vs.map (v :: ·) := by
  rw [shifted?, ho]
  apply bind_congr
  intro v
  apply bind_congr
  intro vs
  cases vs <;> rfl

theorem shifted?_cons_of_none (h : dim ∉ offset.names) :
    shifted? offset (dim :: dims) = .ok none := by
  rw [shifted?, DimVec.get?_eq_none_iff.mpr h]
  rfl

theorem shifted?_of_overruns (h : Overruns offset dims) :
    shifted? offset dims = .error .arithmetic := by
  induction dims with
  | nil =>
    obtain ⟨before, d, after, hdims, -⟩ := h
    simp at hdims
  | cons dim dims ih =>
    rcases overruns_cons.mp h with hmax | ⟨hdim, h⟩
    · rw [shifted?_cons_of_some hmax]
      rfl
    · obtain ⟨o, ho⟩ := Option.isSome_iff_exists.mp (DimVec.isSome_get?_iff.mpr hdim)
      rw [shifted?_cons_of_some ho]
      -- This value may be too large itself; if it is not, a later one is.
      by_cases hsum : Idx.InRange (o + 1)
      · rw [Idx.add_eq_ok_iff.mpr ⟨hsum, rfl⟩, ih h]
        rfl
      · rw [Idx.add, Idx.check, if_neg hsum]
        rfl

/-- An offset that can be shifted is shifted, unless a dimension is missing. -/
theorem shifted?_of_not_overruns (hrange : ∀ o ∈ offset.values, Idx.InRange o)
    (h : ¬ Overruns offset dims) :
    (∀ dim ∈ dims, dim ∈ offset.names) ∧ shifted? offset dims = .ok (some (shift offset dims)) ∨
      ¬ (∀ dim ∈ dims, dim ∈ offset.names) ∧ shifted? offset dims = .ok none := by
  induction dims with
  | nil => exact .inl ⟨by simp, rfl⟩
  | cons dim dims ih =>
    simp only [overruns_cons, not_or, not_and] at h
    rw [List.forall_mem_cons]
    -- The first missing dimension ends the lookup, so only what is before it can overflow.
    by_cases hdim : dim ∈ offset.names
    · obtain ⟨o, ho⟩ := Option.isSome_iff_exists.mp (DimVec.isSome_get?_iff.mpr hdim)
      have hgetD : offset.getD dim 0 = o := by rw [DimVec.getD, ho, Option.getD_some]
      have hbounds := hrange o (hgetD ▸ DimVec.getD_mem_values hdim)
      have hne : o ≠ Idx.max := fun heq => h.1 (heq ▸ ho)
      have hsum : Idx.InRange (o + 1) := by
        simp only [Idx.InRange, Idx.min, Idx.max] at hbounds hne ⊢
        omega
      rw [shifted?_cons_of_some ho, Idx.add_eq_ok_iff.mpr ⟨hsum, rfl⟩]
      rcases ih (h.2 hdim) with ⟨hall, hshift⟩ | ⟨hnot, hshift⟩
      · refine .inl ⟨⟨hdim, hall⟩, ?_⟩
        rw [hshift, shift, shift, List.map_cons, hgetD]
        rfl
      · refine .inr ⟨fun hboth => hnot hboth.2, ?_⟩
        rw [hshift]
        rfl
    · exact .inr ⟨fun hboth => hdim hboth.1, shifted?_cons_of_none hdim⟩

/-- An offset that leads to a place of the neighborhood: minus one, zero or one in each
dimension. -/
def IsStep (offset : DimVec) (dims : List String) : Prop :=
  ∀ dim ∈ dims, offset.get? dim ∈ [some (-1), some 0, some 1]

theorem IsStep.mem_names (h : IsStep offset dims) : ∀ dim ∈ dims, dim ∈ offset.names := by
  intro dim hdim
  rw [← DimVec.isSome_get?_iff]
  have hget := h dim hdim
  simp only [List.mem_cons, List.not_mem_nil, or_false] at hget
  rcases hget with hget | hget | hget <;> rw [hget] <;> rfl

theorem IsStep.not_overruns (h : IsStep offset dims) : ¬ Overruns offset dims := by
  rintro ⟨before, dim, after, rfl, hmax, -⟩
  have hget := h dim (by simp)
  rw [hmax] at hget
  exact absurd hget (by decide)

/-- Shifted, such an offset is a point of the box. -/
theorem shift_inside_iff (hall : ∀ dim ∈ dims, dim ∈ offset.names) :
    List.Forall₂ (fun n x => 0 ≤ x ∧ x < n) (List.replicate dims.length 3) (shift offset dims) ↔
      IsStep offset dims := by
  rw [← List.map_const', shift, List.forall₂_map_left_iff, List.forall₂_map_right_iff,
    List.forall₂_same]
  refine forall₂_congr fun dim hdim => ?_
  obtain ⟨o, ho⟩ := Option.isSome_iff_exists.mp (DimVec.isSome_get?_iff.mpr (hall dim hdim))
  simp only [DimVec.getD, ho, Option.getD_some, List.mem_cons, Option.some.injEq,
    List.not_mem_nil, or_false]
  omega

/-- Taking the steps to a shifted offset gives the offset. -/
theorem map_some_stepsTo_shift (hall : ∀ dim ∈ dims, dim ∈ offset.names) :
    (stepsTo (shift offset dims)).map some = dims.map offset.get? := by
  rw [stepsTo, shift, List.map_map, List.map_map]
  refine List.map_congr_left fun dim hdim => ?_
  obtain ⟨o, ho⟩ := Option.isSome_iff_exists.mp (DimVec.isSome_get?_iff.mpr (hall dim hdim))
  simp [DimVec.getD, ho]

/-- The rank at an offset is the one of the place with its number. -/
theorem rankAt_of_numberOf {t : Topology} {found : Option Nat}
    (h : t.numberOf offset = .ok found) :
    t.rankAt offset = .ok (found.bind fun i => (t.neighbor? i).bind (·.rank)) := by
  rw [rankAt, h]
  rfl

section Built

variable {grid indices : DimVec} {t : Topology} {v : Verbosity}
  (hmax : ∀ n ∈ grid.values, n ≤ Idx.max) (ht : (Topology.build grid indices).Yields v () t ())

include ht in
theorem numberOf_of_overruns (h : Overruns offset grid.names) :
    t.numberOf offset = .error .arithmetic := by
  obtain ⟨-, -, -, -, -, hbox, -⟩ := yields_build ht
  rw [numberOf, hbox, DimVec.names_fill, shifted?_of_overruns h]
  rfl

include hmax ht in
/-- A step has the number of its place in the neighborhood. -/
theorem numberOf_of_isStep (hrange : ∀ o ∈ offset.values, Idx.InRange o)
    (h : IsStep offset grid.names) :
    ∃ i n, t.numberOf offset = .ok (some i) ∧ t.neighbor? i = some n ∧
      n.offset.names = grid.names ∧ n.offset.values.map some = grid.names.map offset.get? := by
  obtain ⟨-, -, -, -, -, hbox, -⟩ := yields_build ht
  obtain ⟨-, hsound⟩ := sound_of_build hmax ht
  have hcount := (buildable_of_build hmax ht).countable_box
  have hshift := (shifted?_of_not_overruns hrange h.not_overruns).resolve_right
    fun hnot => hnot.1 h.mem_names
  have hlength : (shift offset grid.names).length = (grid.fill 3).length := by simp [shift]
  have hin := (shift_inside_iff hshift.1).mpr h
  rw [DimVec.length_names] at hin
  have hlayout := hcount.layout_inside
    (u := (grid.fill 3).withValues (shift offset grid.names))
    (by rwa [DimVec.values_withValues hlength, DimVec.values_fill])
  rw [DimVec.values_withValues hlength, DimVec.values_fill] at hlayout
  -- Its number says where it stands among the points, which is also where its entry is.
  have hpoint := DimVec.getElem?_numberFrom hin
  obtain ⟨n, hn, -⟩ := hsound.neighbor _ _ hpoint
  obtain ⟨p, hp, -, -, hnames, hvalues, -⟩ := hsound.entry hn
  obtain rfl := Option.some.inj (hpoint.symm.trans hp)
  refine ⟨_, n, ?_, hn, hnames, by rw [hvalues, map_some_stepsTo_shift hshift.1]⟩
  rw [numberOf, hbox, DimVec.names_fill, hshift.2]
  exact hlayout

include hmax ht in
/-- What is not a step has no number. -/
theorem numberOf_of_not_isStep (hrange : ∀ o ∈ offset.values, Idx.InRange o)
    (hover : ¬ Overruns offset grid.names) (h : ¬ IsStep offset grid.names) :
    t.numberOf offset = .ok none := by
  obtain ⟨-, -, -, -, -, hbox, -⟩ := yields_build ht
  have hcount := (buildable_of_build hmax ht).countable_box
  rw [numberOf, hbox, DimVec.names_fill]
  rcases shifted?_of_not_overruns hrange hover with ⟨hall, hshift⟩ | ⟨-, hshift⟩
  -- No dimension is missing, so the shifted point lies outside of the box.
  · rw [hshift]
    apply hcount.layout_outside
    rw [DimVec.values_withValues (by simp [shift]), DimVec.values_fill, ← DimVec.length_names,
      shift_inside_iff hall]
    exact h
  · rw [hshift]
    rfl

end Built

end Topology

/-- In a topology that was built, an offset is found just if it is minus one, zero or one in each
dimension, with the entry that has these values and the rank of that entry. Other offsets have no
number and no rank, except that both lookups overflow at the greatest integer, unless a dimension
before it is missing. -/
theorem lookup_of_build {grid indices : DimVec} {t : Topology} {v : Verbosity} (offset : DimVec)
    (hmax : ∀ n ∈ grid.values, n ≤ Idx.max) (ht : (Topology.build grid indices).Yields v () t ())
    (hrange : ∀ o ∈ offset.values, Idx.InRange o) :
    ((∀ dim ∈ grid.names, offset.get? dim ∈ [some (-1), some 0, some 1]) →
      ∃ i n, t.numberOf offset = .ok (some i) ∧ t.neighbor? i = some n ∧
        n.offset.names = grid.names ∧ n.offset.values.map some = grid.names.map offset.get? ∧
        t.rankAt offset = .ok n.rank) ∧
      (Topology.Overruns offset grid.names →
        t.numberOf offset = .error .arithmetic ∧ t.rankAt offset = .error .arithmetic) ∧
      (¬ (∀ dim ∈ grid.names, offset.get? dim ∈ [some (-1), some 0, some 1]) →
        ¬ Topology.Overruns offset grid.names →
        t.numberOf offset = .ok none ∧ t.rankAt offset = .ok none) := by
  refine ⟨fun hstep => ?_, fun hover => ?_, fun hstep hover => ?_⟩
  · obtain ⟨i, n, hnumber, hn, hnames, hvalues⟩ :=
      Topology.numberOf_of_isStep hmax ht hrange hstep
    refine ⟨i, n, hnumber, hn, hnames, hvalues, ?_⟩
    rw [Topology.rankAt_of_numberOf hnumber, Option.bind_some, hn, Option.bind_some]
  · have hnumber := Topology.numberOf_of_overruns ht hover
    exact ⟨hnumber, by rw [Topology.rankAt, hnumber]; rfl⟩
  · have hnumber := Topology.numberOf_of_not_isStep hmax ht hrange hover hstep
    exact ⟨hnumber, Topology.rankAt_of_numberOf hnumber⟩

/-- In a grid of two by three ranks a diagonal step is found, in whatever order it is given, and a
step too far has no number. The greatest integer is too much for the lookup, but not behind a
missing dimension. -/
theorem lookup_of_build_diagonal :
    ∃ t, (Topology.build ⟨[("x", 2), ("y", 3)]⟩ ⟨[("x", 0), ("y", 1)]⟩).Yields none () t () ∧
      (∃ i n, t.numberOf ⟨[("y", -1), ("x", 1)]⟩ = .ok (some i) ∧ t.neighbor? i = some n ∧
        n.offset.values = [1, -1] ∧ t.rankAt ⟨[("y", -1), ("x", 1)]⟩ = .ok n.rank) ∧
      t.numberOf ⟨[("x", 2), ("y", Idx.max)]⟩ = .error .arithmetic ∧
      t.numberOf ⟨[("x", 0), ("y", 2)]⟩ = .ok none ∧
      t.numberOf ⟨[("y", Idx.max)]⟩ = .ok none := by
  obtain ⟨t, ht, -⟩ := exists_eq_ok_of_any (p := fun _ => true)
    (x := ((Topology.build ⟨[("x", 2), ("y", 3)]⟩ ⟨[("x", 0), ("y", 1)]⟩).run none ()).result)
    (by decide +kernel)
  have ht := Task.yields_of_result ht
  obtain ⟨hfound, -⟩ := lookup_of_build ⟨[("y", -1), ("x", 1)]⟩ (by decide) ht (by decide)
  obtain ⟨-, hover, -⟩ := lookup_of_build ⟨[("x", 2), ("y", Idx.max)]⟩ (by decide) ht
    (by decide)
  obtain ⟨-, -, hfar⟩ := lookup_of_build ⟨[("x", 0), ("y", 2)]⟩ (by decide) ht (by decide)
  obtain ⟨-, -, hbehind⟩ := lookup_of_build ⟨[("y", Idx.max)]⟩ (by decide) ht (by decide)
  obtain ⟨i, n, hnumber, hn, -, hvalues, hrank⟩ := hfound (by decide)
  refine ⟨t, ht, ⟨i, n, hnumber, hn, ?_, hrank⟩, (hover (by decide)).1,
    (hfar (by decide) (by decide)).1, (hbehind (by decide) (by decide)).1⟩
  exact List.map_injective_iff.mpr (Option.some_injective _) (hvalues.trans (by decide))

/-- The greatest integer is in range and is no step, but asking for it overflows. -/
theorem lookup_overflows :
    ∃ (t : Topology) (offset : DimVec),
      (Topology.build ⟨[("x", 2)]⟩ ⟨[("x", 0)]⟩).Yields none () t () ∧
      (∀ o ∈ offset.values, Idx.InRange o) ∧ offset.get? "x" = some Idx.max ∧
      t.numberOf offset = .error .arithmetic ∧ t.rankAt offset = .error .arithmetic := by
  obtain ⟨t, ht, -⟩ := exists_eq_ok_of_any (p := fun _ => true)
    (x := ((Topology.build ⟨[("x", 2)]⟩ ⟨[("x", 0)]⟩).run none ()).result) (by decide +kernel)
  have ht := Task.yields_of_result ht
  have hnumber : t.numberOf ⟨[("x", Idx.max)]⟩ = .error .arithmetic :=
    Topology.numberOf_of_overruns ht (by decide)
  exact ⟨t, ⟨[("x", Idx.max)]⟩, ht, by decide, by decide, hnumber,
    by rw [Topology.rankAt, hnumber]; rfl⟩

end StencilPlan
