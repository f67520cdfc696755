import StencilPlan.Proofs.Variable.Elements

/-!
# Storage is a bijection with padding

Every point of a variable has a storage element, different points have different ones, and each is
found again from the other. The elements that are not those of points are padding. In folded storage
the points of a fold are next to each other.
-/

namespace StencilPlan.Variable

variable {s : Variable} {n i : Nat} {p q : DimVec}

namespace Numbered

theorem elementOf_eq_some_iff (h : s.Numbered n) :
    s.elementOf p = .ok (some i) ↔ s.Contains p.values ∧ i = s.slot p.values := by
  by_cases hp : s.Contains p.values
  · simp [h.elementOf_inside p hp, hp, eq_comm]
  · simp [h.elementOf_outside p hp, hp]

theorem pointAt_slot (h : s.Numbered n) (hp : s.Holds p) :
    s.pointAt (s.slot p.values) = .ok (some p) := by
  have hvalues := h.slotValues_slot hp.2
  rw [h.pointAt_inside _ (h.slot_lt hp.2) (not_not.mpr (hvalues.symm ▸ hp.2)), hvalues,
    DimVec.withValues_values hp.1]

theorem pointAt_past (h : s.Numbered n) (hi : n ≤ i) : s.pointAt i = .ok none := by
  rw [pointAt, h.elementCount_eq]
  show (if i ≥ n then _ else _) = _
  rw [if_pos hi]
  rfl

/-- A point that is found is one of the variable, and it has the element it was found at. -/
theorem of_pointAt (h : s.Numbered n) (hi : s.pointAt i = .ok (some p)) :
    i < n ∧ s.Holds p ∧ s.slot p.values = i := by
  have hlt : i < n := by
    by_contra hge
    rw [h.pointAt_past (by omega)] at hi
    cases hi
  by_cases hpad : s.IsPadding i
  · rw [h.pointAt_padding i hlt hpad] at hi
    cases hi
  · rw [h.pointAt_inside i hlt hpad] at hi
    obtain rfl := Option.some.inj (Except.ok.inj hi)
    have hvalues := h.values_withSlot hlt
    refine ⟨hlt, ⟨DimVec.names_withValues _ _, ?_⟩, ?_⟩
    · rw [hvalues]
      exact not_not.mp hpad
    · rw [hvalues, (h.inFolds_slotValues hlt).2]

/-- Nothing is found past the end and in padding, and only there. -/
theorem pointAt_eq_none_iff (h : s.Numbered n) (i : Nat) :
    ∃ r, s.pointAt i = .ok r ∧ (r = none ↔ n ≤ i ∨ s.IsPadding i) := by
  by_cases hlt : i < n
  · by_cases hpad : s.IsPadding i
    · exact ⟨none, h.pointAt_padding i hlt hpad, by simp [hpad]⟩
    · exact ⟨_, h.pointAt_inside i hlt hpad, by simp [hpad]; omega⟩
  · exact ⟨none, h.pointAt_past (by omega), by simp; omega⟩

/-- As many elements give a point as the variable has points. -/
theorem ncard_pointAt (h : s.Numbered n) :
    ({i | ∃ p, s.pointAt i = .ok (some p)}.ncard : Int) = s.dims.values.prod := by
  -- The elements that give a point are the images of the points, which are all different.
  have hset : {i | ∃ p, s.pointAt i = .ok (some p)} =
      ↑((DimVec.boxPoints s.dims.values).map s.slot).toFinset := by
    ext i
    simp only [Set.mem_ofPred_eq, List.coe_toFinset, List.mem_map, DimVec.mem_boxPoints]
    constructor
    · rintro ⟨p, hp⟩
      obtain ⟨-, hholds, hslot⟩ := h.of_pointAt hp
      exact ⟨p.values, hholds.2, hslot⟩
    · rintro ⟨xs, hxs, rfl⟩
      have hvalues : (s.dims.withValues xs).values = xs := by
        apply DimVec.values_withValues
        rw [← DimVec.length_values, hxs.length_eq]
      have hp : s.Holds (s.dims.withValues xs) :=
        ⟨DimVec.names_withValues _ _, hvalues.symm ▸ hxs⟩
      exact ⟨_, hvalues ▸ h.pointAt_slot hp⟩
  have hnodup : ((DimVec.boxPoints s.dims.values).map s.slot).Nodup := by
    refine (DimVec.nodup_boxPoints _).map_on fun xs hxs ys hys heq => ?_
    rw [← h.slotValues_slot (DimVec.mem_boxPoints.mp hxs), heq,
      h.slotValues_slot (DimVec.mem_boxPoints.mp hys)]
  rw [hset, Set.ncard_coe_finset, List.toFinset_card_of_nodup hnodup, List.length_map,
    DimVec.length_boxPoints, h.countable_dims.cast_prod]

end Numbered

/-! ### Runs of elements -/

/-- The elements of the fold that a point is in: `count` of them from `first` on, a multiple of
`count`. Of the points of the variable exactly those in the fold are there, and where the fold does
not stick out, there are no others. -/
structure RunOfFold (s : Variable) (p : DimVec) (first count : Nat) : Prop where
  aligned : count ∣ first
  own : ∀ q j, s.Holds q → s.elementOf q = .ok (some j) →
    (s.SameFold p q ↔ first ≤ j ∧ j < first + count)
  filled : s.InFullFold p → ∀ j, first ≤ j → j < first + count → ∃ q, s.pointAt j = .ok (some q)

theorem div_eq_div_iff {a b m : Nat} (hm : 0 < m) :
    b / m = a / m ↔ a / m * m ≤ b ∧ b < a / m * m + m := by
  rw [← Nat.le_div_iff_mul_le hm, ← Nat.succ_mul, ← Nat.div_lt_iff_lt_mul hm]
  omega

theorem Numbered.runOfFold (h : s.Numbered n) (hp : s.Holds p) :
    s.RunOfFold p (s.slot p.values / boxSize s.foldPoints.values * boxSize s.foldPoints.values)
      (boxSize s.foldPoints.values) where
  aligned := Nat.dvd_mul_left _ _
  own q j hq hj := by
    obtain ⟨-, rfl⟩ := h.elementOf_eq_some_iff.mp hj
    rw [← div_eq_div_iff (boxSize_pos h.one_le_points), slot, slot,
      (h.inFolds hp.2).slotOf_div_eq_iff (h.inFolds hq.2), SameFold, eq_comm]
  filled hfull j hfirst hlast := by
    have hdiv := (div_eq_div_iff (boxSize_pos h.one_le_points)).mpr ⟨hfirst, hlast⟩
    have hlt : j < n := by
      have hslot := h.slot_lt hp.2
      rw [← h.size_eq] at hslot ⊢
      rw [← Nat.div_lt_iff_lt_mul (boxSize_pos h.one_le_points)] at hslot ⊢
      rwa [hdiv]
    obtain ⟨hin, hslot⟩ := h.inFolds_slotValues hlt
    -- The element is a place in the fold of the point.
    have hfolds : foldCoords (s.slotValues j) s.foldPoints.values =
        foldCoords p.values s.foldPoints.values := by
      rw [← (h.inFolds hp.2).slotOf_div_eq_iff hin]
      show s.slot (s.slotValues j) / _ = s.slot p.values / _
      rw [hslot, hdiv]
    have hinside : s.Contains (s.slotValues j) := by
      have := FoldFits.inside h.pos hp.2 hfull hin.place
      rwa [← hfolds, joinCoords_split hin.length_eq] at this
    exact ⟨_, h.pointAt_inside j hlt (not_not.mpr hinside)⟩

/-- A fold that names no dimension twice has as many points as it says, and in each dimension those
it says, or one. -/
theorem Built.points_of_fold {fold : DimVec} (hs : s.Built) (hlayout : s.layout = .folded fold)
    (hfold : fold.names.Nodup) : s.foldPoints.values.prod = fold.values.prod ∧
      ∀ dim ∈ s.dims.names, s.foldPoints.getD dim 1 = fold.getD dim 1 := by
  cases hs with
  | scalar name => cases hlayout
  | traditional h =>
    obtain ⟨-, rfl⟩ := traditional_eq_ok.mp h
    cases hlayout
  | @folded name dims fold' s h =>
    obtain ⟨-, hpoints, counts, -, hs⟩ := folded_eq_ok h
    obtain rfl : fold' = fold := by
      have := congrArg Variable.layout hs
      rw [hlayout] at this
      exact (StorageOrder.folded.inj this).symm
    obtain rfl : s.dims = dims := congrArg Variable.dims hs
    -- The points of a fold start from one in every dimension of the variable.
    have hone : ∀ dim ∈ s.dims.names, (s.dims.fill 1).get? dim = some 1 := by
      intro dim hdim
      obtain ⟨v, hv⟩ := Option.isSome_iff_exists.mp (DimVec.isSome_get?_iff.mpr hdim)
      rw [DimVec.fill, DimVec.get?_map, hv, Option.map_some]
    refine ⟨?_, fun dim hdim => ?_⟩
    · rw [prod_foldExtents hfold (fun e _ he => hone e.1 (DimVec.names_fill s.dims 1 ▸ he)) hpoints,
        DimVec.values_fill, List.prod_replicate, one_pow, Int.one_mul]
      rfl
    · rw [getD_foldExtents hfold hpoints ((DimVec.names_fill s.dims 1).symm ▸ hdim),
        DimVec.getD, hone dim hdim]
      rfl

/-- In a shape that is built and whose elements can be counted, every point has an element of its
own below the number of elements, and it is found there; what is found at an element has it; nothing
is found exactly past the end and in padding, so as many elements give a point as there are points;
and in folded storage the points of each fold have one aligned run of elements, as many as a fold
has points. -/
theorem storage_bijective (hs : s.Built) (hn : s.elementCount = .ok n) :
    (∀ p, s.Holds p → ∃ i < n, s.elementOf p = .ok (some i) ∧ s.pointAt i = .ok (some p)) ∧
      (∀ p q i, s.Holds p → s.Holds q → s.elementOf p = .ok (some i) →
        s.elementOf q = .ok (some i) → p = q) ∧
      (∀ i p, s.pointAt i = .ok (some p) → s.Holds p ∧ s.elementOf p = .ok (some i)) ∧
      (∀ i, ∃ r, s.pointAt i = .ok r ∧ (r = none ↔ n ≤ i ∨ s.IsPadding i)) ∧
      ({i | ∃ p, s.pointAt i = .ok (some p)}.ncard : Int) = s.dims.values.prod ∧
      ∀ fold, s.layout = .folded fold → ∃ count : Nat,
        (count : Int) = s.foldPoints.values.prod ∧
        (fold.names.Nodup → (count : Int) = fold.values.prod ∧
          ∀ dim ∈ s.dims.names, s.foldPoints.getD dim 1 = fold.getD dim 1) ∧
        ∀ p, s.Holds p → ∃ first, first + count ≤ n ∧ s.RunOfFold p first count := by
  have h := hs.numbered hn
  refine ⟨fun p hp => ?_, fun p q i hp hq hi hj => ?_, fun i p hi => ?_, h.pointAt_eq_none_iff,
    h.ncard_pointAt, fun fold hlayout => ?_⟩
  · exact ⟨s.slot p.values, h.slot_lt hp.2, h.elementOf_inside p hp.2, h.pointAt_slot hp⟩
  · obtain ⟨-, rfl⟩ := h.elementOf_eq_some_iff.mp hi
    obtain ⟨-, heq⟩ := h.elementOf_eq_some_iff.mp hj
    have hsame := h.pointAt_slot hp
    rw [heq, h.pointAt_slot hq] at hsame
    exact (Option.some.inj (Except.ok.inj hsame)).symm
  · obtain ⟨-, hp, hslot⟩ := h.of_pointAt hi
    exact ⟨hp, hslot ▸ h.elementOf_inside p hp.2⟩
  · refine ⟨boxSize s.foldPoints.values, cast_boxSize h.one_le_points, fun hfold => ?_,
      fun p hp => ?_⟩
    · rw [cast_boxSize h.one_le_points]
      exact hs.points_of_fold hlayout hfold
    · refine ⟨_, ?_, h.runOfFold hp⟩
      have hslot := h.slot_lt hp.2
      rw [← h.size_eq, ← Nat.div_lt_iff_lt_mul (boxSize_pos h.one_le_points)] at hslot
      rw [← h.size_eq, ← Nat.succ_mul]
      exact Nat.mul_le_mul_right _ hslot

namespace Sticking

/-- Two rows of three points each, in folds of two: the second fold of each row sticks out. -/
def shape : Variable where
  name := "u"
  dims := ⟨[("x", 2), ("y", 3)]⟩
  layout := .folded ⟨[("y", 2)]⟩
  folds := ⟨[("x", 2), ("y", 2)]⟩
  foldPoints := ⟨[("x", 1), ("y", 2)]⟩

end Sticking

/-- Of eight elements six are points. -/
theorem storage_bijective_sticking : Sticking.shape.Built ∧
    Sticking.shape.elementCount = .ok 8 ∧
    {i | ∃ p, Sticking.shape.pointAt i = .ok (some p)}.ncard = 6 ∧
    Sticking.shape.pointAt 3 = .ok none := by
  have hfolded : folded "u" Sticking.shape.dims ⟨[("y", 2)]⟩ = .ok Sticking.shape := by rfl
  have hs : Sticking.shape.Built := .folded hfolded
  have hn : Sticking.shape.elementCount = .ok 8 := by rfl
  obtain ⟨-, -, -, -, hcount, -⟩ := storage_bijective hs hn
  have hprod : Sticking.shape.dims.values.prod = 6 := by decide
  rw [hprod] at hcount
  exact ⟨hs, hn, by exact_mod_cast hcount, by rfl⟩

end StencilPlan.Variable
