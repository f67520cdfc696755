import StencilPlan.Proofs.Dim.RowMajor

/-!
# Points and their numbers

In a box with so many points that they can be counted in 64 bits, numbering the points is a
bijection: every point has a number below the number of points, every such number is that of one
point, and `unlayout` finds this point again. The numbers follow the lexicographic order of the
coordinates, since all points with a smaller outer coordinate are counted before.
-/

namespace StencilPlan.DimVec

variable {ns xs ys : List Int} {t : DimVec} {i j : Nat}

/-! ### The order of the numbers -/

/-- What is counted before a row is a whole number of rows. -/
theorem le_numberFrom (i : Nat) (h : List.Forall₂ (fun n x => 0 ≤ x ∧ x < n) ns xs) :
    i * (ns.map Int.toNat).prod ≤ numberFrom i (ns.zip xs) := by
  induction h generalizing i with
  | nil => simp [numberFrom]
  | @cons n x ns xs hx hxs ih =>
    calc i * ((n :: ns).map Int.toNat).prod
        = i * n.toNat * (ns.map Int.toNat).prod := by
          rw [List.map_cons, List.prod_cons, Nat.mul_assoc]
      _ ≤ (i * n.toNat + x.toNat) * (ns.map Int.toNat).prod :=
          Nat.mul_le_mul_right _ (Nat.le_add_right _ _)
      _ ≤ numberFrom i ((n :: ns).zip (x :: xs)) := ih _

/-- Points in an earlier row have smaller numbers, whatever their inner coordinates are. -/
theorem numberFrom_lt_of_lt (hij : i < j) (hx : List.Forall₂ (fun n x => 0 ≤ x ∧ x < n) ns xs)
    (hy : List.Forall₂ (fun n y => 0 ≤ y ∧ y < n) ns ys) :
    numberFrom i (ns.zip xs) < numberFrom j (ns.zip ys) :=
  calc numberFrom i (ns.zip xs)
      < (i + 1) * (ns.map Int.toNat).prod := numberFrom_lt hx
    _ ≤ j * (ns.map Int.toNat).prod := Nat.mul_le_mul_right _ hij
    _ ≤ numberFrom j (ns.zip ys) := le_numberFrom j hy

/-- Numbers are ordered as the coordinates are, the outermost one first. -/
theorem numberFrom_lt_iff (hx : List.Forall₂ (fun n x => 0 ≤ x ∧ x < n) ns xs)
    (hy : List.Forall₂ (fun n y => 0 ≤ y ∧ y < n) ns ys) :
    numberFrom i (ns.zip xs) < numberFrom i (ns.zip ys) ↔ xs < ys := by
  induction hx generalizing ys i with
  | nil =>
    cases hy
    simp
  | @cons n x ns xs hx hxs ih =>
    cases hy with
    | @cons _ y _ ys hy hys =>
      rw [List.zip_cons_cons, List.zip_cons_cons, numberFrom, numberFrom, List.cons_lt_cons_iff]
      -- The outermost coordinate decides, unless both points share it.
      rcases lt_trichotomy x y with hlt | heq | hgt
      · have := numberFrom_lt_of_lt (show i * n.toNat + x.toNat < i * n.toNat + y.toNat by omega)
          hxs hys
        simp [hlt, this]
      · subst heq
        simp [ih hys]
      · have := numberFrom_lt_of_lt (show i * n.toNat + y.toNat < i * n.toNat + x.toNat by omega)
          hys hxs
        have hne : ¬ x < y := by omega
        simp [hne, hgt.ne', Nat.lt_asymm this]

theorem bounds_of_inside {m : Int} (hmax : ∀ n ∈ ns, n ≤ m)
    (h : List.Forall₂ (fun n x => 0 ≤ x ∧ x < n) ns xs) : ∀ x ∈ xs, 0 ≤ x ∧ x ≤ m := by
  induction h with
  | nil => simp
  | cons hx _ ih =>
    obtain ⟨hn, hmax⟩ := List.forall_mem_cons.mp hmax
    exact List.forall_mem_cons.mpr ⟨by omega, ih hmax⟩

/-! ### There and back -/

/-- The coordinates are found again from the number. -/
theorem unlayoutValues_numberFrom (h : List.Forall₂ (fun n x => 0 ≤ x ∧ x < n) ns xs) :
    (unlayoutValues ns (numberFrom 0 (ns.zip xs))).1 = xs := by
  have hlt := numberFrom_lt (i := 0) h
  rw [Nat.zero_add, Nat.one_mul] at hlt
  obtain ⟨hin, -, hnumber⟩ := unlayoutValues_spec (one_le_of_inside h) (numberFrom 0 (ns.zip xs))
  have hsame := hnumber 0
  rw [Nat.zero_mul, Nat.zero_add, Nat.mod_eq_of_lt hlt] at hsame
  exact (numberFrom_injective hin h hsame).2

theorem values_unlayout (t : DimVec) (k : Nat) :
    (t.unlayout k).values = (unlayoutValues t.values k).1 := by
  have hlength : ∀ (ns : List Int) (k : Nat), (unlayoutValues ns k).1.length = ns.length := by
    intro ns
    induction ns with
    | nil => simp [unlayoutValues]
    | cons n ns ih => simp [unlayoutValues, ih]
  apply values_withValues
  rw [hlength, length_values]

theorem names_unlayout (t : DimVec) (k : Nat) : (t.unlayout k).names = t.names :=
  names_withValues t _

/-- A box of positive sizes with few enough points: what counting its points needs. -/
structure Countable (t : DimVec) : Prop where
  pos : ∀ n ∈ t.values, 1 ≤ n
  le_max : t.values.prod ≤ Idx.max

namespace Countable

theorem size_le_max (h : t.Countable) : ∀ n ∈ t.values, n ≤ Idx.max := fun _ hn =>
  (le_prod_of_mem h.pos hn).trans h.le_max

theorem cast_prod (h : t.Countable) :
    (((t.values.map Int.toNat).prod : Nat) : Int) = t.values.prod :=
  natCast_prod_toNat fun n hn => by
    have := h.pos n hn
    omega

theorem prod_le_bound (h : t.Countable) : (t.values.map Int.toNat).prod ≤ Word.bound := by
  have hle := h.le_max
  rw [← h.cast_prod] at hle
  simp only [Idx.max, Word.bound] at hle ⊢
  omega

theorem layout_inside (h : t.Countable) {u : DimVec}
    (hu : List.Forall₂ (fun n x => 0 ≤ x ∧ x < n) t.values u.values) :
    t.layout u = .ok (some (numberFrom 0 (t.values.zip u.values))) :=
  layout_of_inside h.size_le_max hu h.prod_le_bound

theorem layout_outside (h : t.Countable) {u : DimVec}
    (hu : ¬ List.Forall₂ (fun n x => 0 ≤ x ∧ x < n) t.values u.values) :
    t.layout u = .ok none :=
  layout_of_outside h.pos h.size_le_max hu h.prod_le_bound

/-- Looking for the number of a point never overflows; it is found exactly for the points of the
box. -/
theorem layout_isSome_iff (h : t.Countable) (u : DimVec) :
    ∃ r, t.layout u = .ok r ∧
      (r.isSome ↔ List.Forall₂ (fun n x => 0 ≤ x ∧ x < n) t.values u.values) := by
  by_cases hu : List.Forall₂ (fun n x => 0 ≤ x ∧ x < n) t.values u.values
  · exact ⟨_, h.layout_inside hu, by simp [hu]⟩
  · exact ⟨none, h.layout_outside hu, by simp [hu]⟩

theorem layout_unlayout (h : t.Countable) {k : Nat} (hk : (k : Int) < t.values.prod) :
    t.layout (t.unlayout k) = .ok (some k) := by
  have hlt : k < (t.values.map Int.toNat).prod := by
    rw [← h.cast_prod] at hk
    exact Int.ofNat_lt.mp hk
  obtain ⟨hin, hnumber⟩ := unlayout_spec h.pos hlt
  rw [h.layout_inside hin, hnumber]

theorem values_unlayout_of_layout (h : t.Countable) {u : DimVec} {k : Nat}
    (hu : t.layout u = .ok (some k)) : (t.unlayout k).values = u.values := by
  obtain ⟨hin, rfl⟩ := layout_eq_some h.size_le_max hu
  rw [values_unlayout, unlayoutValues_numberFrom hin]

end Countable

/-- In a box of positive sizes whose points can be counted in 64 bits, the number of a point is
found without overflow, and exactly for the points of the box; the numbers are in the lexicographic
order of the coordinates; they are all the numbers below the product of the sizes; and a number and
its point are found from each other. -/
theorem layout_rowMajor (hpos : ∀ n ∈ t.values, 1 ≤ n) (hmax : t.values.prod ≤ Idx.max) :
    (∀ u, ∃ r, t.layout u = .ok r ∧ (r.isSome ↔ u.length = t.length ∧
        List.Forall₂ (fun n x => 0 ≤ x ∧ x < n) t.values u.values)) ∧
      (∀ u w i j, t.layout u = .ok (some i) → t.layout w = .ok (some j) →
        (i < j ↔ u.values < w.values)) ∧
      (∀ k : Nat, (∃ u, t.layout u = .ok (some k)) ↔ (k : Int) < t.values.prod) ∧
      (∀ k : Nat, (k : Int) < t.values.prod → t.layout (t.unlayout k) = .ok (some k)) ∧
      ∀ u k, t.layout u = .ok (some k) →
        (t.unlayout k).values = u.values ∧ (t.unlayout k).names = t.names := by
  have h : t.Countable := ⟨hpos, hmax⟩
  -- A box whose product is in range can be counted, and the parts are facts about such boxes.
  refine ⟨fun u => ?_, fun u w i j hu hw => ?_, fun k => ⟨?_, fun hk => ?_⟩,
    fun k hk => h.layout_unlayout hk, fun u k hu => ?_⟩
  · obtain ⟨r, hr, hiff⟩ := h.layout_isSome_iff u
    refine ⟨r, hr, hiff.trans ⟨fun hin => ⟨?_, hin⟩, And.right⟩⟩
    rw [← length_values, ← length_values, hin.length_eq]
  · obtain ⟨hin, rfl⟩ := layout_eq_some h.size_le_max hu
    obtain ⟨hin', rfl⟩ := layout_eq_some h.size_le_max hw
    exact numberFrom_lt_iff hin hin'
  · rintro ⟨u, hu⟩
    rw [← h.cast_prod]
    exact Int.ofNat_lt.mpr (layout_lt h.size_le_max hu)
  · exact ⟨_, h.layout_unlayout hk⟩
  · exact ⟨h.values_unlayout_of_layout hu, names_unlayout t k⟩

namespace Largest

/-- A box with as many points as can be counted. -/
def box : DimVec := ⟨[("x", 49), ("y", 188232082384791343)]⟩

end Largest

/-- The last point of the largest box has the greatest number, and a point just behind it has
none. -/
theorem layout_rowMajor_largest :
    (∀ n ∈ Largest.box.values, 1 ≤ n) ∧ Largest.box.values.prod ≤ Idx.max ∧
      (∃ u, Largest.box.layout u = .ok (some 9223372036854775806)) ∧
      Largest.box.layout ⟨[("x", 48), ("y", 188232082384791343)]⟩ = .ok none := by
  have hpos : ∀ n ∈ Largest.box.values, 1 ≤ n := by decide
  have hmax : Largest.box.values.prod ≤ Idx.max := by decide
  obtain ⟨hsome, -, himage, -⟩ := layout_rowMajor hpos hmax
  refine ⟨hpos, hmax, (himage _).mpr (by decide), ?_⟩
  obtain ⟨r, hr, hiff⟩ := hsome ⟨[("x", 48), ("y", 188232082384791343)]⟩
  cases r with
  | none => exact hr
  | some k =>
    -- The inner coordinate would have to be below its size.
    have hin := (hiff.mp rfl).2
    simp [values, Largest.box] at hin

end StencilPlan.DimVec
