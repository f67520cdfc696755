import StencilPlan.Proofs.Arith.Rounding
import StencilPlan.Proofs.Dim.Numbering

/-!
# Points in folds

Folds cut the points of a box into small boxes of one shape, the last ones of which may stick out.
A coordinate is taken apart into the number of its fold and its place in the fold; both are again
points of boxes, so a point of the large box is one of the box of folds together with one of a fold.
Numbering the folds, and the places in each, gives a numbering of the large box in which every fold
has its own run of numbers.
-/

namespace StencilPlan

variable {ns fs xs os ys : List Int}

/-! ### Coordinates -/

/-- How many folds it takes to cover each extent. -/
def coverings (ns fs : List Int) : List Int := List.zipWith (fun n f => (n + f - 1) / f) ns fs

/-- The folds that the coordinates are in. -/
def foldCoords (xs fs : List Int) : List Int := List.zipWith (· / ·) xs fs

/-- The places of the coordinates in their folds. -/
def placeCoords (xs fs : List Int) : List Int := List.zipWith (· % ·) xs fs

/-- The coordinates of the places `ys` in the folds `os`. -/
def joinCoords (os fs ys : List Int) : List Int :=
  List.zipWith (· + ·) (List.zipWith (· * ·) os fs) ys

/-- A point of the box is in one of the folds that cover it. -/
theorem foldCoords_inside (hpos : List.Forall₂ (fun n f => 1 ≤ n ∧ 1 ≤ f) ns fs)
    (h : List.Forall₂ (fun n x => 0 ≤ x ∧ x < n) ns xs) :
    List.Forall₂ (fun n x => 0 ≤ x ∧ x < n) (coverings ns fs) (foldCoords xs fs) := by
  induction hpos generalizing xs with
  | nil =>
    cases h
    exact .nil
  | @cons n f ns fs hnf hpos ih =>
    cases h with
    | @cons _ x _ xs hx hxs =>
      -- The next fold begins at `x + f`, no later than where the last one does that is needed.
      have hlt : x / f < (n + f - 1) / f := by
        have hnext : (x + 1 * f) / f = x / f + 1 := Int.add_mul_ediv_right x 1 (by omega)
        have hle : (x + 1 * f) / f ≤ (n + f - 1) / f := Int.ediv_le_ediv (by omega) (by omega)
        omega
      exact .cons ⟨Int.ediv_nonneg hx.1 (by omega), hlt⟩ (ih hxs)

/-- Where every point is a fold, the folds are the points. -/
theorem coverings_ones (ns : List Int) : coverings ns (List.replicate ns.length 1) = ns := by
  induction ns with
  | nil => rfl
  | cons n ns ih =>
    show (n + 1 - 1) / 1 :: coverings ns (List.replicate ns.length 1) = n :: ns
    rw [ih, Int.ediv_one, Int.add_sub_cancel]

theorem foldCoords_ones {m : Nat} (h : xs.length = m) :
    foldCoords xs (List.replicate m 1) = xs := by
  subst h
  induction xs with
  | nil => rfl
  | cons x xs ih =>
    show x / 1 :: foldCoords xs (List.replicate xs.length 1) = x :: xs
    rw [ih, Int.ediv_one]

theorem one_le_coverings (hpos : List.Forall₂ (fun n f => 1 ≤ n ∧ 1 ≤ f) ns fs) :
    ∀ c ∈ coverings ns fs, 1 ≤ c := by
  induction hpos with
  | nil => simp [coverings]
  | @cons n f ns fs hnf _ ih =>
    have hone : 1 ≤ (n + f - 1) / f := Int.le_ediv_of_mul_le (by omega) (by omega)
    exact List.forall_mem_cons.mpr ⟨hone, ih⟩

theorem placeCoords_inside (hpos : List.Forall₂ (fun n f => 1 ≤ n ∧ 1 ≤ f) ns fs)
    (hlength : xs.length = ns.length) :
    List.Forall₂ (fun n x => 0 ≤ x ∧ x < n) fs (placeCoords xs fs) := by
  induction hpos generalizing xs with
  | nil =>
    obtain rfl := List.length_eq_zero_iff.mp hlength
    exact .nil
  | @cons n f ns fs hnf hpos ih =>
    obtain _ | ⟨x, xs⟩ := xs
    · cases hlength
    · exact .cons ⟨Int.emod_nonneg x (by omega), Int.emod_lt_of_pos x (by omega)⟩
        (ih (by simpa using hlength))

theorem joinCoords_split (h : xs.length = fs.length) :
    joinCoords (foldCoords xs fs) fs (placeCoords xs fs) = xs := by
  induction fs generalizing xs with
  | nil =>
    obtain rfl := List.length_eq_zero_iff.mp h
    rfl
  | cons f fs ih =>
    obtain _ | ⟨x, xs⟩ := xs
    · cases h
    · show (x / f * f + x % f) :: joinCoords (foldCoords xs fs) fs (placeCoords xs fs) = x :: xs
      rw [ih (by simpa using h), Int.mul_comm, Int.mul_ediv_add_emod]

theorem split_joinCoords (hlength : os.length = fs.length)
    (h : List.Forall₂ (fun n x => 0 ≤ x ∧ x < n) fs ys) :
    foldCoords (joinCoords os fs ys) fs = os ∧ placeCoords (joinCoords os fs ys) fs = ys := by
  induction h generalizing os with
  | nil =>
    obtain rfl := List.length_eq_zero_iff.mp hlength
    exact ⟨rfl, rfl⟩
  | @cons f y fs ys hy hys ih =>
    obtain _ | ⟨o, os⟩ := os
    · cases hlength
    · have hlength : os.length = fs.length := by simpa using hlength
      obtain ⟨hfolds, hplaces⟩ := ih hlength
      -- A place is less than the size of its fold, so division takes the two apart again.
      have hfold : (o * f + y) / f = o := by
        rw [Int.add_comm, Int.add_mul_ediv_right y o (by omega), Int.ediv_eq_zero_of_lt hy.1 hy.2,
          Int.zero_add]
      have hplace : (o * f + y) % f = y := by
        rw [Int.add_comm, Int.add_mul_emod_self_right, Int.emod_eq_of_lt hy.1 hy.2]
      exact ⟨congrArg₂ List.cons hfold hfolds, congrArg₂ List.cons hplace hplaces⟩

theorem length_joinCoords (ho : os.length = fs.length) (hy : ys.length = fs.length) :
    (joinCoords os fs ys).length = fs.length := by
  simp [joinCoords, ho, hy]

/-- The last place of the fold that the coordinates are in is still below each extent. -/
def FoldFits (ns fs xs : List Int) : Prop :=
  List.Forall₂ (fun n last => last < n) ns
    (joinCoords (foldCoords xs fs) fs (fs.map (· - 1)))

/-- In a fold that fits, all places are points of the box. -/
theorem FoldFits.inside (hpos : List.Forall₂ (fun n f => 1 ≤ n ∧ 1 ≤ f) ns fs)
    (hxs : List.Forall₂ (fun n x => 0 ≤ x ∧ x < n) ns xs) (h : FoldFits ns fs xs)
    (hys : List.Forall₂ (fun n x => 0 ≤ x ∧ x < n) fs ys) :
    List.Forall₂ (fun n x => 0 ≤ x ∧ x < n) ns (joinCoords (foldCoords xs fs) fs ys) := by
  induction hpos generalizing xs ys with
  | nil =>
    cases hxs
    exact .nil
  | @cons n f ns fs hnf hpos ih =>
    cases hxs with
    | @cons _ x _ xs hx hxs =>
      cases hys with
      | @cons _ y _ ys hy hys =>
        obtain ⟨hlast, hrest⟩ := List.forall₂_cons.mp h
        have hfold : 0 ≤ x / f * f := Int.mul_nonneg (Int.ediv_nonneg hx.1 (by omega)) (by omega)
        have hinside : 0 ≤ x / f * f + y ∧ x / f * f + y < n := by
          have : x / f * f + (f - 1) < n := hlast
          omega
        exact .cons hinside (ih hxs hrest hys)

/-! ### Numbers -/

/-- How many points there are in a box of positive sizes. -/
def boxSize (fs : List Int) : Nat := (fs.map Int.toNat).prod

theorem boxSize_cons (f : Int) (fs : List Int) : boxSize (f :: fs) = f.toNat * boxSize fs := by
  rw [boxSize, List.map_cons, List.prod_cons, boxSize]

theorem cast_boxSize (h : ∀ f ∈ fs, 1 ≤ f) : (boxSize fs : Int) = fs.prod :=
  natCast_prod_toNat fun f hf => by
    have := h f hf
    omega

theorem boxSize_pos (h : ∀ f ∈ fs, 1 ≤ f) : 0 < boxSize fs := by
  have hprod : 0 < fs.prod := List.prod_pos h
  rw [← cast_boxSize h] at hprod
  omega

theorem boxSize_ones (m : Nat) : boxSize (List.replicate m 1) = 1 := by
  simp [boxSize]

/-- No more points than places in the folds that cover them. -/
theorem boxSize_le_coverings (hpos : List.Forall₂ (fun n f => 1 ≤ n ∧ 1 ≤ f) ns fs) :
    boxSize ns ≤ boxSize (coverings ns fs) * boxSize fs := by
  induction hpos with
  | nil => exact Nat.le_refl 1
  | @cons n f ns fs hnf hpos ih =>
    have hcover : n.toNat ≤ ((n + f - 1) / f).toNat * f.toNat := by
      have hle : n ≤ (n + f - 1) / f * f := le_multipleAbove (by omega)
      rw [← Int.toNat_mul (Int.ediv_nonneg (by omega) (by omega)) (by omega)]
      exact Int.toNat_le_toNat hle
    calc boxSize (n :: ns)
        = n.toNat * boxSize ns := boxSize_cons n ns
      _ ≤ (((n + f - 1) / f).toNat * f.toNat) * (boxSize (coverings ns fs) * boxSize fs) :=
          Nat.mul_le_mul hcover ih
      _ = boxSize (coverings (n :: ns) (f :: fs)) * boxSize (f :: fs) := by
          rw [Nat.mul_mul_mul_comm, ← boxSize_cons, ← boxSize_cons]
          rfl

/-- The number of a point: the folds are numbered, and the places in each of them. -/
def slotOf (cs fs xs : List Int) : Nat :=
  DimVec.numberFrom 0 (cs.zip (foldCoords xs fs)) * boxSize fs +
    DimVec.numberFrom 0 (fs.zip (placeCoords xs fs))

/-- The coordinates that have a number. -/
def coordsAt (cs fs : List Int) (k : Nat) : List Int :=
  joinCoords (DimVec.unlayoutValues cs (k / boxSize fs)).1 fs
    (DimVec.unlayoutValues fs (k % boxSize fs)).1

/-- The coordinates are those of a place in one of the folds. -/
structure InFolds (cs fs xs : List Int) : Prop where
  fold : List.Forall₂ (fun n x => 0 ≤ x ∧ x < n) cs (foldCoords xs fs)
  place : List.Forall₂ (fun n x => 0 ≤ x ∧ x < n) fs (placeCoords xs fs)
  length_eq : xs.length = fs.length

/-- The points of the box that is covered are in the folds. -/
theorem inFolds_of_inside (hpos : List.Forall₂ (fun n f => 1 ≤ n ∧ 1 ≤ f) ns fs)
    (h : List.Forall₂ (fun n x => 0 ≤ x ∧ x < n) ns xs) : InFolds (coverings ns fs) fs xs where
  fold := foldCoords_inside hpos h
  place := placeCoords_inside hpos h.length_eq.symm
  length_eq := h.length_eq.symm.trans hpos.length_eq

namespace InFolds

variable {cs : List Int} {k : Nat}

theorem place_lt (h : InFolds cs fs xs) :
    DimVec.numberFrom 0 (fs.zip (placeCoords xs fs)) < boxSize fs := by
  simpa [boxSize] using DimVec.numberFrom_lt (i := 0) h.place

/-- Each fold has a run of numbers of its own. -/
theorem slotOf_div (h : InFolds cs fs xs) :
    slotOf cs fs xs / boxSize fs = DimVec.numberFrom 0 (cs.zip (foldCoords xs fs)) := by
  have hlt := h.place_lt
  rw [slotOf, Nat.mul_comm, Nat.mul_add_div (by omega), Nat.div_eq_of_lt hlt, Nat.add_zero]

theorem slotOf_mod (h : InFolds cs fs xs) :
    slotOf cs fs xs % boxSize fs = DimVec.numberFrom 0 (fs.zip (placeCoords xs fs)) := by
  rw [slotOf, Nat.mul_comm, Nat.mul_add_mod, Nat.mod_eq_of_lt h.place_lt]

theorem slotOf_lt (h : InFolds cs fs xs) : slotOf cs fs xs < boxSize cs * boxSize fs := by
  have hfold := DimVec.numberFrom_lt (i := 0) h.fold
  rw [Nat.zero_add, Nat.one_mul] at hfold
  have hplace := h.place_lt
  calc slotOf cs fs xs
      < (DimVec.numberFrom 0 (cs.zip (foldCoords xs fs)) + 1) * boxSize fs := by
        rw [slotOf, Nat.succ_mul]
        omega
    _ ≤ boxSize cs * boxSize fs := Nat.mul_le_mul_right _ hfold

/-- The coordinates are found again from the number. -/
theorem coordsAt_slotOf (h : InFolds cs fs xs) : coordsAt cs fs (slotOf cs fs xs) = xs := by
  rw [coordsAt, h.slotOf_div, h.slotOf_mod, DimVec.unlayoutValues_numberFrom h.fold,
    DimVec.unlayoutValues_numberFrom h.place, joinCoords_split h.length_eq]

/-- Two points are in one fold just if their numbers are in one run. -/
theorem slotOf_div_eq_iff (h : InFolds cs fs xs) (h' : InFolds cs fs ys) :
    slotOf cs fs ys / boxSize fs = slotOf cs fs xs / boxSize fs ↔
      foldCoords ys fs = foldCoords xs fs := by
  rw [h.slotOf_div, h'.slotOf_div]
  constructor
  · intro heq
    exact (DimVec.numberFrom_injective h'.fold h.fold heq).2
  · intro heq
    rw [heq]

/-- Where every point is a fold, the number of a point is that of its fold. -/
theorem slotOf_ones {m : Nat} (h : InFolds cs (List.replicate m 1) xs) :
    slotOf cs (List.replicate m 1) xs = DimVec.numberFrom 0 (cs.zip xs) := by
  have hplace := h.place_lt
  rw [boxSize_ones] at hplace
  rw [slotOf, boxSize_ones, foldCoords_ones (by simpa using h.length_eq)]
  omega

end InFolds

/-- Every number there is room for is that of one place in one fold. -/
theorem coordsAt_spec {cs : List Int} {k : Nat} (hcs : ∀ c ∈ cs, 1 ≤ c) (hfs : ∀ f ∈ fs, 1 ≤ f)
    (hlength : cs.length = fs.length) (hk : k < boxSize cs * boxSize fs) :
    InFolds cs fs (coordsAt cs fs k) ∧ slotOf cs fs (coordsAt cs fs k) = k ∧
      foldCoords (coordsAt cs fs k) fs = (DimVec.unlayoutValues cs (k / boxSize fs)).1 := by
  obtain ⟨hfold, -, hfoldNumber⟩ := DimVec.unlayoutValues_spec hcs (k / boxSize fs)
  obtain ⟨hplace, -, hplaceNumber⟩ := DimVec.unlayoutValues_spec hfs (k % boxSize fs)
  have hpos : 0 < boxSize fs := Nat.pos_of_mul_pos_left (Nat.lt_of_le_of_lt (Nat.zero_le k) hk)
  obtain ⟨hfoldCoords, hplaceCoords⟩ :=
    split_joinCoords (hfold.length_eq.symm.trans hlength) hplace
  refine ⟨⟨?_, ?_, ?_⟩, ?_, hfoldCoords⟩
  · rwa [coordsAt, hfoldCoords]
  · rwa [coordsAt, hplaceCoords]
  · exact length_joinCoords (hfold.length_eq.symm.trans hlength) hplace.length_eq.symm
  · -- Both numbers are in range, so nothing is lost when they are taken modulo a size.
    have hfoldLt : k / boxSize fs < boxSize cs := Nat.div_lt_of_lt_mul (by rwa [Nat.mul_comm])
    have hplaceLt : k % boxSize fs < boxSize fs := Nat.mod_lt k hpos
    have hfoldEq : DimVec.numberFrom 0 (cs.zip (DimVec.unlayoutValues cs (k / boxSize fs)).1) =
        k / boxSize fs := by
      rw [hfoldNumber 0, Nat.zero_mul, Nat.zero_add]
      exact Nat.mod_eq_of_lt hfoldLt
    have hplaceEq : DimVec.numberFrom 0 (fs.zip (DimVec.unlayoutValues fs (k % boxSize fs)).1) =
        k % boxSize fs := by
      rw [hplaceNumber 0, Nat.zero_mul, Nat.zero_add]
      exact Nat.mod_eq_of_lt hplaceLt
    rw [slotOf, coordsAt, hfoldCoords, hplaceCoords, hfoldEq, hplaceEq, Nat.mul_comm]
    exact Nat.div_add_mod k (boxSize fs)

theorem coordsAt_ones {cs : List Int} {k : Nat} (hcs : ∀ c ∈ cs, 1 ≤ c) (hk : k < boxSize cs) :
    coordsAt cs (List.replicate cs.length 1) k = (DimVec.unlayoutValues cs k).1 := by
  have hones : ∀ f ∈ List.replicate cs.length (1 : Int), 1 ≤ f := fun f hf =>
    (List.mem_replicate.mp hf).2.ge
  obtain ⟨hin, -, hfolds⟩ :=
    coordsAt_spec hcs hones (by simp) (k := k) (by rwa [boxSize_ones, Nat.mul_one])
  rwa [boxSize_ones, Nat.div_one, foldCoords_ones (by simpa using hin.length_eq)] at hfolds

end StencilPlan
