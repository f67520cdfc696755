import Mathlib.Algebra.BigOperators.Group.List.Lemmas
import Mathlib.Algebra.Order.BigOperators.GroupWithZero.List
import Mathlib.Algebra.Order.Ring.Int
import Mathlib.Data.List.Nodup
import StencilPlan.Dim.Vec
import StencilPlan.Proofs.Yields

/-!
# Names and values of dimension vectors

A vector is its names together with its values, so an operation is known once both are known
after it. The lemmas here say that for each operation. Looking a dimension up is then a matter of
positions: in a vector that repeats no name, the value of the dimension at a position is the value
at that position.
-/

namespace StencilPlan.DimVec

variable {t u : DimVec} {vs : List Int} {dim : String} {v w : Int} {i : Nat}

@[simp] theorem length_names (t : DimVec) : t.names.length = t.length := by
  simp [names, length]

@[simp] theorem length_values (t : DimVec) : t.values.length = t.length := by
  simp [values, length]

/-- Names and values make up a vector. -/
theorem eq_of_names_of_values (hn : t.names = u.names) (hv : t.values = u.values) : t = u := by
  obtain ⟨es⟩ := t
  obtain ⟨fs⟩ := u
  congr 1
  induction es generalizing fs with
  | nil =>
    cases fs with
    | nil => rfl
    | cons f fs => exact absurd hn (by simp [names])
  | cons e es ih =>
    cases fs with
    | nil => exact absurd hn (by simp [names])
    | cons f fs =>
      simp only [names, values, List.map_cons, List.cons.injEq] at hn hv
      rw [Prod.ext hn.1 hv.1, ih fs hn.2 hv.2]

/-! ### Replacing all values -/

@[simp] theorem names_withValues (t : DimVec) (vs : List Int) :
    (t.withValues vs).names = t.names := by
  simp only [withValues, names, List.map_append, List.map_map]
  have hzip : ∀ (es : List (String × Int)) (vs : List Int),
      (es.zip vs).map (fun p => p.1.1) ++ (es.drop vs.length).map (·.1) = es.map (·.1) := by
    intro es
    induction es with
    | nil => simp
    | cons e es ih =>
      intro vs
      cases vs with
      | nil => simp
      | cons v vs => simpa using ih vs
  exact hzip t.entries vs

@[simp] theorem length_withValues (t : DimVec) (vs : List Int) :
    (t.withValues vs).length = t.length := by
  rw [← length_names, names_withValues, length_names]

theorem values_withValues (h : vs.length = t.length) : (t.withValues vs).values = vs := by
  have hzip : ∀ (es : List (String × Int)) (vs : List Int), vs.length = es.length →
      (es.zip vs).map (fun p => p.2) = vs := by
    intro es
    induction es with
    | nil => simp
    | cons e es ih =>
      intro vs hvs
      cases vs with
      | nil => simp at hvs
      | cons v vs => simpa using ih vs (by simpa using hvs)
  simp only [withValues, values, List.map_append, List.map_map]
  rw [h, length, List.drop_length, List.map_nil, List.append_nil]
  exact hzip t.entries vs h

/-- A vector with the same names is found again from its values. -/
theorem withValues_values (h : u.names = t.names) : t.withValues u.values = u := by
  have hlength : u.values.length = t.length := by
    rw [length_values, ← length_names, h, length_names]
  exact eq_of_names_of_values (by rw [names_withValues, h]) (values_withValues hlength)

@[simp] theorem values_fill (t : DimVec) (v : Int) :
    (t.fill v).values = List.replicate t.length v := by
  simp [fill, length, List.map_const']

@[simp] theorem length_fill (t : DimVec) (v : Int) : (t.fill v).length = t.length := by
  simp [fill, map, length]

theorem names_sup (t u : DimVec) : (t.sup u).names = t.names := names_map _ t

/-! ### Positions -/

theorem nth_eq_ok_iff : t.nth i = .ok v ↔ t.values[i]? = some v := by
  unfold nth
  split <;> simp_all

theorem setAt_eq_ok_iff :
    t.setAt i v = .ok u ↔ i < t.length ∧ u.names = t.names ∧ u.values = t.values.set i v := by
  have hset : ∀ e, t.entries[i]? = some e →
      (⟨t.entries.set i (e.1, v)⟩ : DimVec).names = t.names ∧
        (⟨t.entries.set i (e.1, v)⟩ : DimVec).values = t.values.set i v := by
    intro e he
    -- the name that is written back is the one that stood there
    have hn : t.names[i]? = some e.1 := by simp [names, he]
    refine ⟨?_, by simp [values, List.map_set]⟩
    obtain ⟨hi, hn⟩ := List.getElem?_eq_some_iff.mp hn
    simp only [names, List.map_set] at hn ⊢
    rw [← hn, List.set_getElem_self]
  unfold setAt
  cases he : t.entries[i]? with
  | none =>
    simp only [reduceCtorEq, false_iff, not_and]
    intro hi
    exact absurd (List.getElem?_eq_none_iff.mp he) (by simpa [length] using hi)
  | some e =>
    obtain ⟨hi, -⟩ := List.getElem?_eq_some_iff.mp he
    simp only [Except.ok.injEq]
    constructor
    · rintro rfl
      exact ⟨hi, hset e he⟩
    · rintro ⟨-, hn, hv⟩
      exact eq_of_names_of_values ((hset e he).1.trans hn.symm) ((hset e he).2.trans hv.symm)

theorem exists_setAt (hi : i < t.length) (v : Int) : ∃ u, t.setAt i v = .ok u := by
  rw [setAt, List.getElem?_eq_getElem (show i < t.entries.length from hi)]
  exact ⟨_, rfl⟩

/-! ### Looking a dimension up -/

theorem lookup_cons_eq {k : String} {es : List (String × Int)} :
    ((k, v) :: es).lookup dim = if dim = k then some v else es.lookup dim := by
  rw [List.lookup_cons]
  by_cases h : dim = k
  · simp [h]
  · simp [h, beq_false_of_ne h]

theorem get?_eq_none_iff : t.get? dim = none ↔ dim ∉ t.names := by
  obtain ⟨es⟩ := t
  simp only [get?, names]
  induction es with
  | nil => simp
  | cons e es ih =>
    obtain ⟨k, w⟩ := e
    rw [lookup_cons_eq]
    by_cases h : dim = k <;> simp [h, ih]

theorem isSome_get?_iff : (t.get? dim).isSome ↔ dim ∈ t.names := by
  rw [Option.isSome_iff_ne_none, ne_eq, get?_eq_none_iff, not_not]

theorem contains_iff : t.contains dim = true ↔ dim ∈ t.names := by
  simp [contains, indexOf?, List.isSome_idxOf?]

/-- The value of the dimension at a position is the value at that position. -/
theorem get?_of_nodup (hd : t.names.Nodup) (hi : t.names[i]? = some dim) :
    t.get? dim = t.values[i]? := by
  obtain ⟨es⟩ := t
  simp only [get?, names, values] at hd hi ⊢
  induction es generalizing i with
  | nil => simp at hi
  | cons e es ih =>
    obtain ⟨k, x⟩ := e
    rw [List.map_cons, List.nodup_cons] at hd
    rw [lookup_cons_eq]
    cases i with
    | zero =>
      have hk : dim = k := by simpa [eq_comm] using hi
      simp [hk]
    | succ i =>
      have hi' : (es.map (·.1))[i]? = some dim := by simpa using hi
      have hne : dim ≠ k := fun heq => hd.1 (heq ▸ List.mem_of_getElem? hi')
      rw [if_neg hne, ih hd.2 hi', List.map_cons, List.getElem?_cons_succ]

theorem getD_of_nodup (hd : t.names.Nodup) (hi : t.names[i]? = some dim) :
    t.getD dim w = t.values.getD i w := by
  rw [getD, get?_of_nodup hd hi, List.getD_eq_getElem?_getD]

theorem getD_of_getElem? (hd : t.names.Nodup) (hi : t.names[i]? = some dim)
    (hv : t.values[i]? = some v) : t.getD dim w = v := by
  rw [getD_of_nodup hd hi, List.getD_eq_getElem?_getD, hv, Option.getD_some]

/-- A vector has a value at the place of each of its names. -/
theorem exists_value {names : List String} (ht : t.names = names) (hi : names[i]? = some dim) :
    ∃ n, t.values[i]? = some n := by
  refine ⟨_, List.getElem?_eq_getElem ?_⟩
  rw [length_values, ← length_names, ht]
  exact (List.getElem?_eq_some_iff.mp hi).1

theorem getD_eq_of_notMem (h : dim ∉ t.names) : t.getD dim v = v := by
  rw [getD, get?_eq_none_iff.mpr h, Option.getD_none]

/-- What a dimension that is there would be without it does not matter. -/
theorem getD_eq_getD (t : DimVec) (h : dim ∈ t.names) (v w : Int) :
    t.getD dim v = t.getD dim w := by
  obtain ⟨x, hx⟩ := Option.isSome_iff_exists.mp (isSome_get?_iff.mpr h)
  rw [getD, getD, hx, Option.getD_some, Option.getD_some]

/-- A value is replaced by one that may depend on its name. -/
theorem getElem?_values_map (f : String → Int → Int) (t : DimVec) (i : Nat) :
    (t.map f).values[i]? = (t.names[i]?).bind fun dim => (t.values[i]?).map (f dim) := by
  simp only [map, names, values, List.getElem?_map]
  cases t.entries[i]? <;> rfl

theorem get?_map (f : String → Int → Int) (t : DimVec) (dim : String) :
    (t.map f).get? dim = (t.get? dim).map (f dim) := by
  obtain ⟨es⟩ := t
  simp only [get?, map]
  induction es with
  | nil => rfl
  | cons e es ih =>
    obtain ⟨k, x⟩ := e
    rw [List.map_cons, lookup_cons_eq, lookup_cons_eq, ih]
    by_cases h : dim = k <;> simp [h]

theorem getD_map {f : String → Int → Int} (h : dim ∈ t.names) :
    (t.map f).getD dim w = f dim (t.getD dim w) := by
  obtain ⟨x, hx⟩ := Option.isSome_iff_exists.mp (isSome_get?_iff.mpr h)
  rw [getD, getD, get?_map, hx, Option.map_some, Option.getD_some, Option.getD_some]

theorem getD_of_mem_entries (hd : t.names.Nodup) {e : String × Int} (he : e ∈ t.entries) :
    t.getD e.1 w = e.2 := by
  obtain ⟨i, hi⟩ := List.mem_iff_getElem?.mp he
  have hname : t.names[i]? = some e.1 := by simp [names, hi]
  have hvalue : t.values[i]? = some e.2 := by simp [values, hi]
  rw [getD, get?_of_nodup hd hname, hvalue, Option.getD_some]

/-- A map that leaves every value as it is. -/
theorem map_eq_self {f : String → Int → Int} (hd : t.names.Nodup)
    (h : ∀ dim ∈ t.names, f dim (t.getD dim w) = t.getD dim w) : t.map f = t := by
  have hentries : ∀ e ∈ t.entries, (e.1, f e.1 e.2) = e := by
    intro e he
    have hvalue := h e.1 (List.mem_map_of_mem he)
    rw [getD_of_mem_entries hd he] at hvalue
    rw [hvalue]
  rw [map, List.map_congr_left hentries, List.map_id']

theorem getD_mem_values (h : dim ∈ t.names) : t.getD dim w ∈ t.values := by
  obtain ⟨v, hv⟩ := Option.isSome_iff_exists.mp (isSome_get?_iff.mpr h)
  obtain ⟨before, after, hes, -⟩ := List.lookup_eq_some_iff.mp hv
  rw [getD, hv, Option.getD_some, values, hes]
  simp

/-- Looking up all names of a vector gives its values. -/
theorem map_getD_names (hd : t.names.Nodup) (w : Int) :
    t.names.map (fun dim => t.getD dim w) = t.values := by
  refine List.ext_getElem? fun i => ?_
  rw [List.getElem?_map]
  cases hn : t.names[i]? with
  | none =>
    rw [Option.map_none, eq_comm, List.getElem?_eq_none_iff, length_values, ← length_names]
    exact List.getElem?_eq_none_iff.mp hn
  | some dim =>
    have hi : i < t.values.length := by
      rw [length_values, ← length_names]
      exact (List.getElem?_eq_some_iff.mp hn).1
    rw [Option.map_some, getD_of_nodup hd hn, List.getD_eq_getElem?_getD,
      List.getElem?_eq_getElem hi, Option.getD_some]

/-! ### Setting a dimension -/

/-- Setting a dimension decides what is looked up there and nowhere else. -/
theorem get?_set (t : DimVec) (dim d : String) (v : Int) :
    (t.set dim v).get? d = if d = dim ∧ dim ∈ t.names then some v else t.get? d := by
  obtain ⟨es⟩ := t
  simp only [set, get?, names]
  induction es with
  | nil => simp [replaceFirst]
  | cons e es ih =>
    obtain ⟨k, w⟩ := e
    by_cases hk : k = dim
    · rw [replaceFirst, if_pos hk, lookup_cons_eq, lookup_cons_eq, hk]
      by_cases hd : d = dim <;> simp [hd]
    · rw [replaceFirst, if_neg hk, lookup_cons_eq, lookup_cons_eq, ih]
      by_cases hd : d = k
      · simp [hd, hk]
      · have hmem : dim ∈ ((k, w) :: es).map (·.1) ↔ dim ∈ es.map (·.1) := by
          simp [Ne.symm hk]
        rw [if_neg hd]
        exact if_congr (and_congr Iff.rfl hmem.symm) rfl (if_neg hd).symm

/-- Several dimensions that are set to one value. -/
theorem get?_foldl_set (ds : List String) (t : DimVec) (d : String) (v : Int) :
    (ds.foldl (fun t dim => t.set dim v) t).get? d =
      if d ∈ ds ∧ d ∈ t.names then some v else t.get? d := by
  induction ds generalizing t with
  | nil => simp
  | cons dim ds ih =>
    rw [List.foldl_cons, ih, names_set, get?_set]
    by_cases hd : d = dim
    · subst hd
      by_cases hmem : d ∈ t.names <;> simp [hmem]
    · simp [hd]

theorem getD_set_of_ne {d : String} (h : d ≠ dim) : (t.set dim v).getD d w = t.getD d w := by
  rw [getD, get?_set, if_neg fun hboth => h hboth.1, getD]

theorem getD_set_self (h : dim ∈ t.names) : (t.set dim v).getD dim w = v := by
  rw [getD, get?_set, if_pos ⟨rfl, h⟩, Option.getD_some]

/-- A value that is already there can be set again. -/
theorem set_getD_self (t : DimVec) (dim : String) (w : Int) : t.set dim (t.getD dim w) = t := by
  obtain ⟨es⟩ := t
  simp only [set, getD, get?]
  congr 1
  induction es with
  | nil => rfl
  | cons e es ih =>
    obtain ⟨k, x⟩ := e
    rw [replaceFirst, lookup_cons_eq]
    by_cases hk : k = dim
    · rw [if_pos hk, if_pos hk.symm, Option.getD_some]
    · rw [if_neg hk, if_neg (Ne.symm hk), ih]

theorem mem_values_set (h : w ∈ (t.set dim v).values) : w = v ∨ w ∈ t.values := by
  obtain ⟨es⟩ := t
  simp only [set, values] at h ⊢
  induction es with
  | nil => simp [replaceFirst] at h
  | cons e es ih =>
    rw [replaceFirst] at h
    split at h
    · simp only [List.map_cons, List.mem_cons] at h ⊢
      tauto
    · simp only [List.map_cons, List.mem_cons] at h ⊢
      rcases h with h | h
      · exact .inr (.inl h)
      · rcases ih h with h | h
        · exact .inl h
        · exact .inr (.inr h)

/-! ### Vectors of given names -/

theorem entries_append_of_notMem (h : dim ∉ t.names) :
    (t.append dim v).entries = t.entries ++ [(dim, v)] := by
  have hc : t.contains dim = false := by
    rw [Bool.eq_false_iff, ne_eq, contains_iff]
    exact h
  simp [append, hc]

/-- Names that are not repeated are kept in order. -/
theorem entries_ofPairs {es : List (String × Int)} (hd : (es.map (·.1)).Nodup) :
    (ofPairs es).entries = es := by
  -- Appending changes an entry that is there already; here every name is new.
  have hgo : ∀ (es : List (String × Int)) (t : DimVec), (t.names ++ es.map (·.1)).Nodup →
      (es.foldl (fun t e => t.append e.1 e.2) t).entries = t.entries ++ es := by
    intro es
    induction es with
    | nil => simp
    | cons e es ih =>
      intro t ht
      rw [List.map_cons, ← List.singleton_append, ← List.append_assoc] at ht
      have hnew : e.1 ∉ t.names := fun h =>
        (List.disjoint_of_nodup_append (List.Nodup.of_append_left ht)) h (by simp)
      have hent := entries_append_of_notMem (v := e.2) hnew
      rw [List.foldl_cons, ih]
      · rw [hent, List.append_assoc, List.singleton_append]
      · simpa [names, hent] using ht
  simpa [ofPairs, empty] using hgo es empty (by simpa [empty, names] using hd)

theorem names_ofNames {ns : List String} (hd : ns.Nodup) (v : Int) : (ofNames ns v).names = ns := by
  have hmap : (ns.map (·, v)).map (·.1) = ns := by simp [List.map_map, Function.comp_def]
  rw [names, ofNames, entries_ofPairs (by rwa [hmap]), hmap]

theorem values_ofNames {ns : List String} (hd : ns.Nodup) (v : Int) :
    (ofNames ns v).values = List.replicate ns.length v := by
  have hmap : (ns.map (·, v)).map (·.1) = ns := by simp [List.map_map, Function.comp_def]
  rw [values, ofNames, entries_ofPairs (by rwa [hmap])]
  simp [List.map_map, Function.comp_def, List.map_const']

theorem entries_prepend_of_notMem (h : dim ∉ t.names) :
    (t.prepend dim v).entries = (dim, v) :: t.entries := by
  have hc : t.contains dim = false := by
    rw [Bool.eq_false_iff, ne_eq, contains_iff]
    exact h
  simp [prepend, hc]

end StencilPlan.DimVec

namespace StencilPlan.Idx

/-- A product that is in range is the product. -/
theorem product_eq_ok {ns : List Int} {k : Int} (h : product ns = .ok k) :
    k = ns.prod ∧ InRange k := by
  have hfold : ∀ (ns : List Int) (m : Int), InRange m → ns.foldlM mul m = .ok k →
      k = m * ns.prod ∧ InRange k := by
    intro ns
    induction ns with
    | nil =>
      intro m hm h
      rw [List.foldlM_nil, pure_eq_ok] at h
      rw [h, List.prod_nil, Int.mul_one]
      exact ⟨rfl, hm⟩
    | cons n ns ih =>
      intro m _ h
      rw [List.foldlM_cons, bind_eq_ok] at h
      obtain ⟨_, hmul, h⟩ := h
      obtain ⟨hrange, rfl⟩ := mul_eq_ok_iff.mp hmul
      obtain ⟨rfl, hk⟩ := ih _ hrange h
      exact ⟨by rw [List.prod_cons, Int.mul_assoc], hk⟩
  rw [← Int.one_mul ns.prod]
  exact hfold ns 1 (by decide) h

/-- The product of positive factors is found if it is in range: no part of it is larger. -/
theorem product_of_le_max {ns : List Int} (hpos : ∀ n ∈ ns, 1 ≤ n) (hmax : ns.prod ≤ max) :
    product ns = .ok ns.prod := by
  have hfold : ∀ (ns : List Int) (m : Int), 1 ≤ m → (∀ n ∈ ns, 1 ≤ n) → m * ns.prod ≤ max →
      ns.foldlM mul m = .ok (m * ns.prod) := by
    intro ns
    induction ns with
    | nil =>
      intro m _ _ _
      rw [List.foldlM_nil, List.prod_nil, Int.mul_one]
      rfl
    | cons n ns ih =>
      intro m hm hns hmax
      obtain ⟨hn, hns⟩ := List.forall_mem_cons.mp hns
      rw [List.prod_cons, ← Int.mul_assoc] at hmax ⊢
      have hmn : 1 ≤ m * n := Int.mul_pos hm hn
      have hprod : 0 < ns.prod := List.prod_pos hns
      have hle : m * n ≤ m * n * ns.prod := le_mul_of_one_le_right (by omega) hprod
      have hrange : InRange (m * n) := ⟨(by decide : min ≤ 1).trans hmn, hle.trans hmax⟩
      rw [List.foldlM_cons, mul, check_of_inRange hrange]
      exact ih _ hmn hns hmax
  rw [← Int.one_mul ns.prod] at hmax ⊢
  exact hfold ns 1 (by decide) hpos hmax

/-- A sum that is in range is the sum. -/
theorem sum_eq_ok {ns : List Int} {k : Int} (h : sum ns = .ok k) : k = ns.sum := by
  have hfold : ∀ (ns : List Int) (m : Int), ns.foldlM add m = .ok k → k = m + ns.sum := by
    intro ns
    induction ns with
    | nil =>
      intro m h
      rw [List.foldlM_nil, pure_eq_ok] at h
      rw [h, List.sum_nil, Int.add_zero]
    | cons n ns ih =>
      intro m h
      rw [List.foldlM_cons, bind_eq_ok] at h
      obtain ⟨_, hadd, h⟩ := h
      obtain ⟨-, rfl⟩ := add_eq_ok_iff.mp hadd
      rw [ih _ h, List.sum_cons, Int.add_assoc]
  rw [← Int.zero_add ns.sum]
  exact hfold ns 0 h

end StencilPlan.Idx

namespace StencilPlan.Word

/-- A power is found if it is in range. -/
theorem pow_of_lt {a b : Nat} (ha : 1 ≤ a) (h : a ^ b < bound) : pow a b = .ok (a ^ b) := by
  have hfold : ∀ (b m : Nat), m * a ^ b < bound →
      (List.replicate b a).foldlM mul m = .ok (m * a ^ b) := by
    intro b
    induction b with
    | zero =>
      intro m _
      rw [List.replicate_zero, List.foldlM_nil, Nat.pow_zero, Nat.mul_one]
      rfl
    | succ b ih =>
      intro m h
      rw [Nat.pow_succ, Nat.mul_comm (a ^ b), ← Nat.mul_assoc] at h ⊢
      have hle : m * a ≤ m * a * a ^ b := Nat.le_mul_of_pos_right _ (Nat.pow_pos ha)
      rw [List.replicate_succ, List.foldlM_cons, mul,
        check_eq_ok_iff.mpr ⟨Nat.lt_of_le_of_lt hle h, rfl⟩]
      exact ih _ h
  rw [pow, hfold b 1 (by rwa [Nat.one_mul]), Nat.one_mul]

end StencilPlan.Word

namespace StencilPlan

/-! ### Products of sizes -/

/-- Positive sizes: none of them is above their product. -/
theorem le_prod_of_mem {l : List Int} (h : ∀ n ∈ l, 1 ≤ n) {n : Int} (hn : n ∈ l) : n ≤ l.prod :=
  Int.le_of_dvd (List.prod_pos h) (List.dvd_prod hn)

/-- Sizes that are not negative have the same product as counts. -/
theorem natCast_prod_toNat {l : List Int} (h : ∀ n ∈ l, 0 ≤ n) :
    (((l.map Int.toNat).prod : Nat) : Int) = l.prod := by
  induction l with
  | nil => rfl
  | cons n l ih =>
    obtain ⟨hn, hl⟩ := List.forall_mem_cons.mp h
    rw [List.map_cons, List.prod_cons, List.prod_cons, Int.natCast_mul, ih hl,
      Int.toNat_of_nonneg hn]

end StencilPlan
