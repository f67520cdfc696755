import Mathlib.Data.Set.Card
import StencilPlan.Proofs.Variable.Built

/-!
# Points and storage elements

The elements of a variable are numbered fold by fold, whatever its storage order, so there is one
number to speak of: `slot` for the coordinates of a point, `slotValues` for the coordinates of an
element. What differs between the storage orders is how the number is computed. Each computes it
without overflow if the elements can be counted at all (`Counted`), and all computed numbers are the
same function of the coordinates (`Numbered`); that every point has an element of its own follows
from this alone.
-/

namespace StencilPlan.Variable

variable {s : Variable} {n k : Nat}

/-- The coordinates are inside the extents. -/
def Contains (s : Variable) (xs : List Int) : Prop :=
  List.Forall₂ (fun n x => 0 ≤ x ∧ x < n) s.dims.values xs

/-- A point of the variable: its dimensions, in order, with coordinates inside the extents. -/
def Holds (s : Variable) (p : DimVec) : Prop := p.names = s.dims.names ∧ s.Contains p.values

/-- The number of the element for the coordinates. -/
def slot (s : Variable) (xs : List Int) : Nat := slotOf s.folds.values s.foldPoints.values xs

/-- The coordinates of the place that an element is. -/
def slotValues (s : Variable) (k : Nat) : List Int :=
  coordsAt s.folds.values s.foldPoints.values k

/-- The place that an element is sticks out of the extents. -/
def IsPadding (s : Variable) (k : Nat) : Prop := ¬ s.Contains (s.slotValues k)

/-- The points are in the same fold. -/
def SameFold (s : Variable) (p q : DimVec) : Prop :=
  foldCoords p.values s.foldPoints.values = foldCoords q.values s.foldPoints.values

/-- The fold that a point is in does not stick out. -/
def InFullFold (s : Variable) (p : DimVec) : Prop :=
  FoldFits s.dims.values s.foldPoints.values p.values

/-! ### Counting the elements -/

/-- A shape whose folds cover the extents and whose elements can be counted. -/
structure Counted (s : Variable) (n : Nat) : Prop extends Covers s where
  elementCount_eq : s.elementCount = .ok n
  product_points : s.foldPoints.product = .ok s.foldPoints.values.prod
  size_eq : boxSize s.folds.values * boxSize s.foldPoints.values = n
  le_max : s.folds.values.prod * s.foldPoints.values.prod ≤ Idx.max

/-- A shape that is not scalar has as many elements as its folds have places. -/
theorem Covers.counted (h : s.Covers) (hlayout : s.layout ≠ .scalar)
    (hn : s.elementCount = .ok n) : s.Counted n := by
  have hcount := hn
  unfold elementCount at hcount
  split at hcount
  · next hscalar => exact absurd hscalar hlayout
  · simp only [bind_eq_ok, pure_eq_ok] at hcount
    obtain ⟨folds, hfolds, points, hpoints, all, hall, rfl⟩ := hcount
    obtain ⟨rfl, -⟩ := Idx.product_eq_ok hfolds
    obtain ⟨rfl, -⟩ := Idx.product_eq_ok hpoints
    obtain ⟨hrange, rfl⟩ := Idx.mul_eq_ok_iff.mp hall
    refine ⟨h, hn, hpoints, ?_, hrange.2⟩
    -- The count is that of signed sizes, whose product is in range.
    have hprod : s.folds.values.prod * s.foldPoints.values.prod =
        ((boxSize s.folds.values * boxSize s.foldPoints.values : Nat) : Int) := by
      rw [Int.natCast_mul, cast_boxSize h.one_le_folds, cast_boxSize h.one_le_points]
    rw [hprod] at hrange ⊢
    rw [Word.ofIdx_of_nonneg (Int.natCast_nonneg _) hrange.2, Int.toNat_natCast]

theorem counted_scalar (name : String) : (scalar name).Counted 1 where
  toCovers := covers_scalar name
  elementCount_eq := rfl
  product_points := rfl
  size_eq := rfl
  le_max := show (1 : Int) * 1 ≤ Idx.max by decide

namespace Counted

variable {xs : List Int}

theorem prod_folds_pos (h : s.Counted n) : 0 < s.folds.values.prod :=
  List.prod_pos h.one_le_folds

theorem prod_points_pos (h : s.Counted n) : 0 < s.foldPoints.values.prod :=
  List.prod_pos h.one_le_points

theorem countable_folds (h : s.Counted n) : s.folds.Countable where
  pos := h.one_le_folds
  le_max := (le_mul_of_one_le_right h.prod_folds_pos.le h.prod_points_pos).trans h.le_max

theorem countable_points (h : s.Counted n) : s.foldPoints.Countable where
  pos := h.one_le_points
  le_max := (le_mul_of_one_le_left h.prod_points_pos.le h.prod_folds_pos).trans h.le_max

theorem cast_count (h : s.Counted n) :
    (n : Int) = s.folds.values.prod * s.foldPoints.values.prod := by
  rw [← h.size_eq, Int.natCast_mul, cast_boxSize h.one_le_folds, cast_boxSize h.one_le_points]

theorem countable_dims (h : s.Counted n) : s.dims.Countable where
  pos := h.one_le_dims
  le_max := by
    have hle := boxSize_le_coverings h.pos
    rw [← h.values_folds] at hle
    calc s.dims.values.prod = (boxSize s.dims.values : Int) := (cast_boxSize h.one_le_dims).symm
      _ ≤ n := by
        rw [← h.size_eq]
        exact Int.ofNat_le.mpr hle
      _ ≤ Idx.max := h.cast_count ▸ h.le_max

theorem count_lt_bound (h : s.Counted n) : n < Word.bound := by
  have hle := h.cast_count ▸ h.le_max
  simp only [Idx.max, Word.bound] at hle ⊢
  omega

theorem inFolds (h : s.Counted n) (hx : s.Contains xs) :
    InFolds s.folds.values s.foldPoints.values xs := by
  rw [h.values_folds]
  exact inFolds_of_inside h.pos hx

theorem slot_lt (h : s.Counted n) (hx : s.Contains xs) : s.slot xs < n :=
  h.size_eq ▸ (h.inFolds hx).slotOf_lt

theorem slotValues_slot (h : s.Counted n) (hx : s.Contains xs) :
    s.slotValues (s.slot xs) = xs := (h.inFolds hx).coordsAt_slotOf

theorem inFolds_slotValues (h : s.Counted n) (hk : k < n) :
    InFolds s.folds.values s.foldPoints.values (s.slotValues k) ∧ s.slot (s.slotValues k) = k := by
  obtain ⟨hin, hslot, -⟩ :=
    coordsAt_spec h.one_le_folds h.one_le_points h.length_folds_eq (h.size_eq ▸ hk)
  exact ⟨hin, hslot⟩

theorem length_slotValues (h : s.Counted n) (hk : k < n) :
    (s.slotValues k).length = s.foldPoints.values.length := (h.inFolds_slotValues hk).1.length_eq

end Counted

/-! ### The orders of storage -/

/-- The elements are numbered by `slot`, and the points are found again. -/
structure Numbered (s : Variable) (n : Nat) : Prop extends Counted s n where
  elementOf_inside : ∀ u, s.Contains u.values → s.elementOf u = .ok (some (s.slot u.values))
  elementOf_outside : ∀ u, ¬ s.Contains u.values → s.elementOf u = .ok none
  pointAt_inside : ∀ k < n, ¬ s.IsPadding k →
    s.pointAt k = .ok (some (s.dims.withValues (s.slotValues k)))
  pointAt_padding : ∀ k < n, s.IsPadding k → s.pointAt k = .ok none

theorem numbered_scalar (name : String) : (scalar name).Numbered 1 := by
  have hcontains : ∀ xs, (scalar name).Contains xs ↔ xs = [] := by
    intro xs
    exact List.forall₂_nil_left_iff
  have hempty : ∀ u : DimVec, u.isEmpty ↔ u.values = [] := by
    intro u
    simp [DimVec.isEmpty, DimVec.values]
  refine ⟨counted_scalar name, fun u hu => ?_, fun u hu => ?_, fun k hk _ => ?_,
    fun k hk hpad => ?_⟩
  · have hu := (hcontains _).mp hu
    rw [hu]
    show (Except.ok (if u.isEmpty then some 0 else none) : Checked (Option Nat)) = _
    rw [if_pos ((hempty u).mpr hu)]
    rfl
  · show (Except.ok (if u.isEmpty then some 0 else none) : Checked (Option Nat)) = _
    rw [if_neg fun h => hu ((hcontains _).mpr ((hempty u).mp h))]
  · obtain rfl : k = 0 := by omega
    rfl
  · obtain rfl : k = 0 := by omega
    exact absurd ((hcontains _).mpr rfl) hpad

section Traditional

variable (hfolds : s.folds = s.dims) (hpoints : s.foldPoints = s.dims.fill 1)
include hfolds hpoints

/-- In a plain order the number of a point is its row-major number. -/
theorem Counted.slot_eq_numberFrom (h : s.Counted n) {xs : List Int} (hx : s.Contains xs) :
    s.slot xs = DimVec.numberFrom 0 (s.dims.values.zip xs) := by
  have hin := h.inFolds hx
  rw [hfolds, hpoints, DimVec.values_fill] at hin
  rw [slot, hfolds, hpoints, DimVec.values_fill, hin.slotOf_ones]

theorem Counted.unlayoutValues_eq (h : s.Counted n) (hk : k < n) :
    (DimVec.unlayoutValues s.dims.values k).1 = s.slotValues k := by
  have hlt := h.size_eq ▸ hk
  rw [hfolds, hpoints, DimVec.values_fill, boxSize_ones, Nat.mul_one] at hlt
  rw [slotValues, hfolds, hpoints, DimVec.values_fill, ← DimVec.length_values,
    coordsAt_ones h.one_le_dims hlt]

/-- A plain order has no padding. -/
theorem Counted.contains_slotValues (h : s.Counted n) (hk : k < n) :
    s.Contains (s.slotValues k) := by
  have hin := (DimVec.unlayoutValues_spec h.one_le_dims k).1
  rwa [← h.unlayoutValues_eq hfolds hpoints hk]

theorem Counted.numbered_traditional (h : s.Counted n) (hlayout : s.layout = .traditional) :
    s.Numbered n where
  toCounted := h
  elementOf_inside u hu := by
    rw [elementOf, hlayout, h.slot_eq_numberFrom hfolds hpoints hu]
    exact h.countable_dims.layout_inside hu
  elementOf_outside u hu := by
    rw [elementOf, hlayout]
    exact h.countable_dims.layout_outside hu
  pointAt_inside k hk _ := by
    rw [pointAt, h.elementCount_eq]
    show (if k ≥ n then _ else _) = _
    rw [if_neg (by omega), hlayout, ← h.unlayoutValues_eq hfolds hpoints hk]
    rfl
  pointAt_padding k hk hpad := absurd (h.contains_slotValues hfolds hpoints hk) hpad

end Traditional

/-! ### Folded storage -/

section Positions

variable {xs os ys fs : List Int} {i : Nat}

theorem getElem?_of_drop_eq_cons {x : Int} {l : List Int} (h : l.drop i = x :: xs) :
    l[i]? = some x ∧ l.drop (i + 1) = xs := by
  rw [← List.head?_drop, ← List.tail_drop, h]
  exact ⟨rfl, rfl⟩

/-- Taking coordinates apart, from a position on. -/
theorem splitPoint_eq {u : DimVec} (hu : u.values.drop i = xs) (hlength : xs.length = fs.length)
    (hfs : ∀ f ∈ fs, 1 ≤ f) (hxs : ∀ x ∈ xs, 0 ≤ x ∧ x ≤ Idx.max) :
    splitPoint u i fs = .ok (foldCoords xs fs, placeCoords xs fs) := by
  -- Induction on the points of a fold, as the recursion goes; the position moves along with them.
  induction fs generalizing xs i with
  | nil =>
    obtain rfl := List.length_eq_zero_iff.mp hlength
    rfl
  | cons f fs ih =>
    obtain _ | ⟨x, xs⟩ := xs
    · cases hlength
    · obtain ⟨hf, hfs⟩ := List.forall_mem_cons.mp hfs
      obtain ⟨hx, hxs⟩ := List.forall_mem_cons.mp hxs
      obtain ⟨hget, hrest⟩ := getElem?_of_drop_eq_cons hu
      have hrange : Idx.InRange x := Idx.inRange_of_nonneg hx.1 hx.2
      -- For coordinates that are not negative, rounding toward zero is rounding down.
      have hdiv : Idx.div x f = .ok (x / f) := by
        have hle : x / f ≤ x := Int.ediv_le_self f hx.1
        rw [Idx.div_eq_ok_iff, Int.tdiv_eq_ediv_of_nonneg hx.1]
        exact ⟨by omega, Idx.inRange_of_nonneg (Int.ediv_nonneg hx.1 (by omega)) (by omega), rfl⟩
      have hrem : Idx.rem x f = .ok (x % f) := by
        rw [Idx.rem_of_pos hrange (by omega), Int.tmod_eq_emod_of_nonneg hx.1]
      simp only [splitPoint, bind_eq_ok]
      exact ⟨x, DimVec.nth_eq_ok_iff.mpr hget, _, hdiv, _, hrem, _,
        ih hrest (by simpa using hlength) hfs hxs, rfl⟩

/-- Putting coordinates together, from a position on; what stands before is left alone. -/
theorem joinPoint_eq {point inner : DimVec} {cs : List Int} (hpoint : point.values.drop i = os)
    (hinner : inner.values.drop i = ys)
    (hos : List.Forall₂ (fun n x => 0 ≤ x ∧ x < n) cs os)
    (hys : List.Forall₂ (fun n x => 0 ≤ x ∧ x < n) fs ys) (hlength : cs.length = fs.length)
    (hroom : ∀ c ∈ cs, ∀ f ∈ fs, c * f ≤ Idx.max) :
    ∃ r, joinPoint point inner i fs = .ok r ∧ r.names = point.names ∧
      r.values = point.values.take i ++ joinCoords os fs ys := by
  induction hys generalizing point cs os i with
  | nil =>
    obtain rfl := List.length_eq_zero_iff.mp hlength
    cases hos
    refine ⟨point, rfl, rfl, ?_⟩
    rw [← List.take_append_drop i point.values, hpoint]
    simp [joinCoords]
  | @cons f y fs ys hy hys ih =>
    obtain _ | ⟨c, cs⟩ := cs
    · cases hlength
    · cases hos with
      | @cons _ o _ os ho hos =>
        obtain ⟨hget, hrest⟩ := getElem?_of_drop_eq_cons hpoint
        obtain ⟨hget', hrest'⟩ := getElem?_of_drop_eq_cons hinner
        -- The fold ends within the counts of folds times its points, which is in range.
        have hfirst : 0 ≤ o * f := Int.mul_nonneg ho.1 (by omega)
        have hhere : o * f + y < Idx.max := by
          calc o * f + y < o * f + f := by omega
            _ = (o + 1) * f := by rw [Int.add_mul, Int.one_mul]
            _ ≤ c * f := Int.mul_le_mul_of_nonneg_right (by omega) (by omega)
            _ ≤ Idx.max := hroom c List.mem_cons_self f List.mem_cons_self
        have hmul : Idx.mul o f = .ok (o * f) :=
          Idx.check_of_inRange (Idx.inRange_of_nonneg hfirst (by omega))
        have hadd : Idx.add (o * f) y = .ok (o * f + y) :=
          Idx.check_of_inRange (Idx.inRange_of_nonneg (by omega) (by omega))
        have hi : i < point.values.length := (List.getElem?_eq_some_iff.mp hget).1
        obtain ⟨u, hu⟩ := DimVec.exists_setAt (DimVec.length_values point ▸ hi) (o * f + y)
        obtain ⟨-, hnames, hvalues⟩ := DimVec.setAt_eq_ok_iff.mp hu
        -- What comes after the position is still as it was.
        have hafter : u.values.drop (i + 1) = os := by
          rw [hvalues, List.drop_set_of_lt (by omega), hrest]
        have hroom' : ∀ c ∈ cs, ∀ f ∈ fs, c * f ≤ Idx.max := fun c hc f hf =>
          hroom c (List.mem_cons_of_mem _ hc) f (List.mem_cons_of_mem _ hf)
        obtain ⟨r, hr, hrnames, hrvalues⟩ :=
          ih hafter hrest' hos (by simpa using hlength) hroom'
        refine ⟨r, ?_, hrnames.trans hnames, ?_⟩
        · simp only [joinPoint, bind_eq_ok]
          exact ⟨o, DimVec.nth_eq_ok_iff.mpr hget, _, hmul, y, DimVec.nth_eq_ok_iff.mpr hget', _,
            hadd, u, hu, hr⟩
        · rw [hrvalues, hvalues, List.take_add_one, List.take_set_of_le (by omega),
            List.getElem?_set_self hi]
          simp [joinCoords]

end Positions

section Folded

variable {fold : DimVec}

/-- A product of counts of folds and of points is no larger than all elements. -/
theorem Counted.mul_le_max (h : s.Counted n) :
    ∀ c ∈ s.folds.values, ∀ f ∈ s.foldPoints.values, c * f ≤ Idx.max := by
  intro c hc f hf
  have hpos := h.one_le_points f hf
  calc c * f ≤ s.folds.values.prod * s.foldPoints.values.prod :=
        Int.mul_le_mul (le_prod_of_mem h.one_le_folds hc) (le_prod_of_mem h.one_le_points hf)
          (by omega) h.prod_folds_pos.le
    _ ≤ Idx.max := h.le_max

theorem Counted.ofIdx_points (h : s.Counted n) :
    Word.ofIdx s.foldPoints.values.prod = boxSize s.foldPoints.values := by
  rw [Word.ofIdx_of_nonneg h.prod_points_pos.le h.countable_points.le_max,
    ← cast_boxSize h.one_le_points, Int.toNat_natCast]

theorem Counted.elementOf_folded (h : s.Counted n) (hlayout : s.layout = .folded fold) {u : DimVec}
    (hu : s.Contains u.values) : s.elementOf u = .ok (some (s.slot u.values)) := by
  have hin := h.inFolds hu
  have hlength : u.length = s.dims.length := by
    rw [← DimVec.length_values, ← DimVec.length_values, hu.length_eq]
  have hsplit : splitPoint u 0 s.foldPoints.values = .ok (foldCoords u.values s.foldPoints.values,
      placeCoords u.values s.foldPoints.values) := by
    exact splitPoint_eq List.drop_zero hin.length_eq h.one_le_points
      (DimVec.bounds_of_inside h.countable_dims.size_le_max hu)
  have houter : (u.withValues (foldCoords u.values s.foldPoints.values)).values =
      foldCoords u.values s.foldPoints.values := by
    apply DimVec.values_withValues
    rw [← hin.fold.length_eq, DimVec.length_values, h.length_folds, hlength]
  have hinner : (u.withValues (placeCoords u.values s.foldPoints.values)).values =
      placeCoords u.values s.foldPoints.values := by
    apply DimVec.values_withValues
    rw [← hin.place.length_eq, DimVec.length_values, h.length_points, hlength]
  -- What is counted on the way is no more than the number itself.
  have hlt : s.slot u.values < Word.bound := (h.slot_lt hu).trans h.count_lt_bound
  rw [slot, slotOf] at hlt
  rw [elementOf, hlayout]
  refine bind_eq_ok.mpr ⟨_, h.countable_dims.layout_inside hu, ?_⟩
  refine bind_eq_ok.mpr ⟨_, hsplit, ?_⟩
  refine bind_eq_ok.mpr ⟨_, h.countable_folds.layout_inside (houter.symm ▸ hin.fold), ?_⟩
  refine bind_eq_ok.mpr ⟨_, h.countable_points.layout_inside (hinner.symm ▸ hin.place), ?_⟩
  refine bind_eq_ok.mpr ⟨_, h.product_points, ?_⟩
  rw [houter, hinner, h.ofIdx_points]
  refine bind_eq_ok.mpr ⟨_, Word.check_eq_ok_iff.mpr ⟨by omega, rfl⟩, ?_⟩
  exact bind_eq_ok.mpr ⟨_, Word.check_eq_ok_iff.mpr ⟨hlt, rfl⟩, rfl⟩

theorem Counted.values_withSlot (h : s.Counted n) (hk : k < n) :
    (s.dims.withValues (s.slotValues k)).values = s.slotValues k := by
  apply DimVec.values_withValues
  rw [h.length_slotValues hk, DimVec.length_values, h.length_points]

/-- The place that an element is, put together from its fold and its place in the fold. -/
theorem Counted.joinPoint_unlayout (h : s.Counted n) (hk : k < n) :
    joinPoint (s.folds.unlayout (k / boxSize s.foldPoints.values))
        (s.foldPoints.unlayout (k % boxSize s.foldPoints.values)) 0 s.foldPoints.values =
      .ok (s.dims.withValues (s.slotValues k)) := by
  have hfold : (s.folds.unlayout (k / boxSize s.foldPoints.values)).values.drop 0 =
      (DimVec.unlayoutValues s.folds.values (k / boxSize s.foldPoints.values)).1 := by
    rw [List.drop_zero, DimVec.values_unlayout]
  have hplace : (s.foldPoints.unlayout (k % boxSize s.foldPoints.values)).values.drop 0 =
      (DimVec.unlayoutValues s.foldPoints.values (k % boxSize s.foldPoints.values)).1 := by
    rw [List.drop_zero, DimVec.values_unlayout]
  obtain ⟨r, hr, hnames, hvalues⟩ := joinPoint_eq hfold hplace
    (DimVec.unlayoutValues_spec h.one_le_folds _).1
    (DimVec.unlayoutValues_spec h.one_le_points _).1 h.length_folds_eq h.mul_le_max
  -- Names and values are compared apart, as an index is more than its coordinates.
  rw [hr]
  congr 1
  apply DimVec.eq_of_names_of_values
  · rw [hnames, DimVec.names_unlayout, DimVec.names_withValues, h.names_folds]
  · rw [hvalues, List.take_zero, List.nil_append, h.values_withSlot hk]
    rfl

theorem Counted.pointAt_folded (h : s.Counted n) (hlayout : s.layout = .folded fold) (hk : k < n) :
    s.pointAt k = s.dims.layout (s.dims.withValues (s.slotValues k)) >>= fun
      | some _ => .ok (some (s.dims.withValues (s.slotValues k)))
      | none => .ok none := by
  rw [pointAt, h.elementCount_eq]
  show (if k ≥ n then _ else _) = _
  rw [if_neg (by omega), hlayout, h.product_points]
  -- A fold has points, so the number may be divided by how many.
  show (if Word.ofIdx s.foldPoints.values.prod = 0 then _ else _) = _
  rw [h.ofIdx_points, if_neg (boxSize_pos h.one_le_points).ne']
  show (joinPoint _ _ 0 s.foldPoints.values >>= _) = _
  rw [h.joinPoint_unlayout hk]
  rfl

theorem Counted.numbered_folded (h : s.Counted n) (hlayout : s.layout = .folded fold) :
    s.Numbered n where
  toCounted := h
  elementOf_inside u hu := h.elementOf_folded hlayout hu
  elementOf_outside u hu := by
    rw [elementOf, hlayout]
    exact bind_eq_ok.mpr ⟨_, h.countable_dims.layout_outside hu, rfl⟩
  pointAt_inside k hk hin := by
    rw [h.pointAt_folded hlayout hk, h.countable_dims.layout_inside]
    · rfl
    · rw [h.values_withSlot hk]
      exact not_not.mp hin
  pointAt_padding k hk hpad := by
    rw [h.pointAt_folded hlayout hk, h.countable_dims.layout_outside]
    · rfl
    · rwa [h.values_withSlot hk]

end Folded

/-- Every shape that is built numbers its elements, if it can count them. -/
theorem Built.numbered (hs : s.Built) (hn : s.elementCount = .ok n) : s.Numbered n := by
  have hcovers := hs.covers
  cases hs with
  | scalar name =>
    obtain rfl := Except.ok.inj hn
    exact numbered_scalar name
  | traditional h =>
    obtain ⟨-, rfl⟩ := traditional_eq_ok.mp h
    exact (hcovers.counted (by simp) hn).numbered_traditional rfl rfl rfl
  | folded h =>
    obtain ⟨-, -, counts, -, hs⟩ := folded_eq_ok h
    have hlayout := congrArg Variable.layout hs
    exact (hcovers.counted (by simp [hlayout]) hn).numbered_folded hlayout

end StencilPlan.Variable
