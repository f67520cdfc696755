import Mathlib.Algebra.BigOperators.Group.List.Lemmas
import Mathlib.Algebra.Order.BigOperators.GroupWithZero.List
import Mathlib.Algebra.Order.Ring.Int
import Mathlib.Data.Int.ModEq
import StencilPlan.Rank.Grid
import StencilPlan.Proofs.Dim.Vec
import StencilPlan.Proofs.Rank.Factors

/-!
# The grid of ranks

Whether a grid can be filled, and with which counts, is said by `Fills` without the journal. Handing
a factor out multiplies the product of the counts by it, modulo the 64 bits of a count: so a filled
grid never has more places than there are ranks, and has as many of them modulo 2 ^ 64.
-/

namespace StencilPlan

/-! ### Handing factors out -/

theorem handOut_inRange {unset factors : List Nat} {counts filled : List Int}
    (hcounts : ∀ n ∈ counts, Idx.InRange n) (h : handOut unset factors counts = .ok filled) :
    filled.length = counts.length ∧ ∀ n ∈ filled, Idx.InRange n := by
  induction factors generalizing counts with
  | nil =>
    obtain rfl : filled = counts := by simpa [handOut] using h
    exact ⟨rfl, hcounts⟩
  | cons f fs ih =>
    cases unset with
    | nil =>
      obtain rfl : filled = counts := by simpa [handOut] using h
      exact ⟨rfl, hcounts⟩
    | cons first rest =>
      simp only [handOut, bind_eq_ok, Idx.mul_eq_ok_iff] at h
      obtain ⟨count, ⟨hrange, rfl⟩, h⟩ := h
      obtain ⟨hlen, hfilled⟩ := ih (fun n hn => by
        rcases List.mem_or_eq_of_mem_set hn with hn | rfl
        · exact hcounts n hn
        · exact hrange) h
      exact ⟨by simpa using hlen, hfilled⟩

/-- A word read as an integer has at most its absolute value. -/
theorem natAbs_ofWord_le (n : Nat) : (Idx.ofWord n).natAbs ≤ n := by
  -- For any bound: its value has no part in it.
  have hbmod : ∀ m : Nat, 0 < m → (Int.bmod n m).natAbs ≤ n := by
    intro m hm
    have hnonneg := Int.emod_nonneg (n : Int) (b := m) (by omega)
    have hlt := Int.emod_lt_of_pos (n : Int) (b := m) (by omega)
    have hle : (n : Int) % m ≤ n := by
      rw [← Int.natCast_emod]
      exact Int.ofNat_le.mpr (Nat.mod_le _ _)
    rw [Int.bmod]
    generalize (n : Int) % m = r at *
    split <;> omega
  exact hbmod _ (by decide)

theorem leastPosn_mem (counts : List Int) (best : Nat) (is : List Nat) :
    leastPosn counts best is ∈ best :: is := by
  induction is generalizing best with
  | nil => exact List.mem_singleton_self _
  | cons i is ih =>
    rw [leastPosn]
    split
    · exact List.mem_cons_of_mem _ (ih i)
    · have := ih best
      simp only [List.mem_cons] at this ⊢
      tauto

theorem prod_natAbs (ns : List Int) : (ns.map Int.natAbs).prod = ns.prod.natAbs := by
  induction ns with
  | nil => rfl
  | cons n ns ih => rw [List.map_cons, List.prod_cons, List.prod_cons, ih, Int.natAbs_mul]

/-- Multiplying one of the counts multiplies their product. -/
theorem prod_set_mul {counts : List Int} {i : Nat} (hi : i < counts.length) (x : Int) :
    (counts.set i (counts.getD i 0 * x)).prod = counts.prod * x := by
  have hsplit := List.prod_take_mul_prod_drop counts i
  rw [List.drop_eq_getElem_cons hi, List.prod_cons] at hsplit
  rw [List.prod_set, if_pos hi, ← hsplit, List.getD_eq_getElem?_getD, List.getElem?_eq_getElem hi,
    Option.getD_some]
  simp only [Int.mul_assoc, Int.mul_comm x]

/-- Handing out factors multiplies the counts by no more than these factors. -/
theorem handOut_prod_le {unset factors : List Nat} {counts filled : List Int}
    (hsome : unset ≠ []) (hunset : ∀ i ∈ unset, i < counts.length)
    (h : handOut unset factors counts = .ok filled) :
    (filled.map Int.natAbs).prod ≤ (counts.map Int.natAbs).prod * factors.prod := by
  induction factors generalizing counts with
  | nil =>
    obtain rfl : filled = counts := by simpa [handOut] using h
    simp
  | cons f fs ih =>
    cases unset with
    | nil => exact absurd rfl hsome
    | cons first rest =>
      simp only [handOut, bind_eq_ok, Idx.mul_eq_ok_iff] at h
      obtain ⟨count, ⟨-, rfl⟩, h⟩ := h
      have hlt := hunset _ (leastPosn_mem counts first rest)
      refine Nat.le_trans (ih (fun i hi => by simpa using hunset i hi) h) ?_
      rw [prod_natAbs, prod_set_mul hlt, Int.natAbs_mul, prod_natAbs, List.prod_cons,
        ← Nat.mul_assoc]
      exact Nat.mul_le_mul_right _ (Nat.mul_le_mul_left _ (natAbs_ofWord_le f))

theorem ofWord_modEq (n : Nat) : Idx.ofWord n ≡ n [ZMOD Word.bound] := Int.bmod_emod

/-- Handing out factors multiplies the counts by these factors, up to overflow. -/
theorem handOut_prod_modEq {unset factors : List Nat} {counts filled : List Int}
    (hsome : unset ≠ []) (hunset : ∀ i ∈ unset, i < counts.length)
    (h : handOut unset factors counts = .ok filled) :
    filled.prod ≡ counts.prod * (factors.prod : Nat) [ZMOD Word.bound] := by
  induction factors generalizing counts with
  | nil =>
    obtain rfl : filled = counts := by simpa [handOut] using h
    simp [Int.ModEq.refl]
  | cons f fs ih =>
    cases unset with
    | nil => exact absurd rfl hsome
    | cons first rest =>
      simp only [handOut, bind_eq_ok, Idx.mul_eq_ok_iff] at h
      obtain ⟨count, ⟨-, rfl⟩, h⟩ := h
      -- A factor goes to the least count, and multiplying one count multiplies the product.
      have hlt := hunset _ (leastPosn_mem counts first rest)
      have hrest := ih (fun i hi => by simpa using hunset i hi) h
      rw [prod_set_mul hlt] at hrest
      refine hrest.trans ?_
      rw [List.prod_cons, Int.natCast_mul, ← Int.mul_assoc]
      exact ((ofWord_modEq f).mul_left _).mul_right _

/-! ### Filling the grid -/

/-- What it takes to fill a grid. How much is written into the journal has no part in it. -/
def Fills (ranks : Nat) (grid filled : DimVec) : Prop :=
  grid.entries.find? (·.2 < 0) = none ∧
    ∃ fixed, Idx.product (grid.values.filter (· > 0)) = .ok fixed ∧
      if (zeroPosns grid.values).isEmpty then Word.ofIdx fixed = ranks ∧ filled = grid
      else
        ¬ (fixed ≤ 0 ∨ ranks % fixed.toNat ≠ 0) ∧
          ∃ factors, primeFactors (ranks / fixed.toNat) = .ok factors ∧
            ∃ counts, handOut (zeroPosns grid.values) factors
                (grid.values.map fun n => if n = 0 then 1 else n) = .ok counts ∧
              filled = grid.withValues counts

theorem Fills.of_yields {ranks : Nat} {grid filled : DimVec} {v : Verbosity} {a : Unit}
    (h : (fillGrid ranks).Yields v grid a filled) : Fills ranks grid filled := by
  simp only [fillGrid, Task.yields_bind_get] at h
  cases hneg : grid.entries.find? (·.2 < 0) with
  | some e =>
    simp only [hneg] at h
    exact absurd h Task.not_yields_reject
  | none =>
    simp only [hneg, Task.yields_bind_checked] at h
    obtain ⟨fixed, hfixed, h⟩ := h
    refine ⟨hneg, fixed, hfixed, ?_⟩
    split at h
    · next hempty =>
      rw [if_pos hempty]
      split at h
      · simp at h
      · next heq => exact ⟨not_not.mp heq, by simpa using h⟩
    · next hempty =>
      rw [if_neg hempty]
      simp only [Task.yields_guard, Task.yields_bind_set, Task.yields_bind_checked,
        Task.yields_note] at h
      obtain ⟨hdiv, factors, hfactors, counts, hcounts, rfl⟩ := h
      exact ⟨hdiv, factors, hfactors, counts, hcounts, rfl⟩

/-- How much is written into the journal has no part in filling a grid. -/
theorem Fills.yields {ranks : Nat} {grid filled : DimVec} (h : Fills ranks grid filled)
    (v : Verbosity) : (fillGrid ranks).Yields v grid () filled := by
  obtain ⟨hneg, fixed, hfixed, h⟩ := h
  simp only [fillGrid, Task.yields_bind_get, hneg, Task.yields_bind_checked]
  refine ⟨fixed, hfixed, ?_⟩
  split at h
  · next hempty =>
    obtain ⟨hword, rfl⟩ := h
    rw [if_pos hempty, if_neg (not_not.mpr hword), Task.yields_pure]
    exact ⟨rfl, rfl⟩
  · next hempty =>
    obtain ⟨hdiv, factors, hfactors, counts, hcounts, rfl⟩ := h
    rw [if_neg hempty]
    simp only [Task.yields_guard, Task.yields_bind_set, Task.yields_bind_checked, Task.yields_note]
    exact ⟨hdiv, factors, hfactors, counts, hcounts, rfl⟩

/-- All ranks fill the grid in the same way. -/
theorem Fills.unique {ranks : Nat} {grid g g' : DimVec} (h : Fills ranks grid g)
    (h' : Fills ranks grid g') : g = g' := by
  obtain ⟨-, fixed, hfixed, h⟩ := h
  obtain ⟨-, fixed', hfixed', h'⟩ := h'
  obtain rfl : fixed = fixed' := Except.ok.inj (hfixed.symm.trans hfixed')
  split at h
  · next hempty =>
    rw [if_pos hempty] at h'
    exact h.2.trans h'.2.symm
  · next hempty =>
    rw [if_neg hempty] at h'
    obtain ⟨-, factors, hfactors, counts, hcounts, rfl⟩ := h
    obtain ⟨-, factors', hfactors', counts', hcounts', rfl⟩ := h'
    obtain rfl : factors = factors' := Except.ok.inj (hfactors.symm.trans hfactors')
    obtain rfl : counts = counts' := Except.ok.inj (hcounts.symm.trans hcounts')
    rfl

theorem Fills.names {ranks : Nat} {grid filled : DimVec} (h : Fills ranks grid filled) :
    filled.names = grid.names := by
  obtain ⟨-, fixed, -, h⟩ := h
  split at h
  · rw [h.2]
  · obtain ⟨-, _, -, counts, -, rfl⟩ := h
    exact DimVec.names_withValues _ _

theorem mem_zeroPosns {counts : List Int} {i : Nat} :
    i ∈ zeroPosns counts ↔ counts[i]? = some 0 := by
  simp only [zeroPosns, List.mem_map, List.mem_filter, decide_eq_true_eq, Prod.exists,
    List.mk_mem_zipIdx_iff_getElem?]
  constructor
  · rintro ⟨n, _, ⟨hget, rfl⟩, rfl⟩
    exact hget
  · intro hget
    exact ⟨0, i, ⟨hget, rfl⟩, rfl⟩

/-- With ones for the unset counts the product is that of the counts that are set. -/
theorem prod_ones {ns : List Int} (hns : ∀ n ∈ ns, 0 ≤ n) :
    (ns.map fun n => if n = 0 then 1 else n).prod = (ns.filter (· > 0)).prod := by
  induction ns with
  | nil => rfl
  | cons n ns ih =>
    have hn := hns n List.mem_cons_self
    rw [List.map_cons, List.prod_cons, ih fun m hm => hns m (by simp [hm]), List.filter_cons]
    by_cases hzero : n = 0
    · simp [hzero]
    · rw [if_neg hzero, if_pos (decide_eq_true (by omega)), List.prod_cons]

/-- Without unset counts nothing is put in their place. -/
theorem ones_of_isEmpty {ns : List Int} (h : (zeroPosns ns).isEmpty) :
    (ns.map fun n => if n = 0 then 1 else n) = ns := by
  refine (List.map_congr_left fun n hn => if_neg fun hzero => ?_).trans (List.map_id _)
  obtain ⟨i, hi⟩ := List.mem_iff_getElem?.mp hn
  have := mem_zeroPosns.mpr (hzero ▸ hi)
  rw [List.isEmpty_iff.mp h] at this
  cases this

/-- The counts of a grid with unset ones in it, as handing out begins with them. -/
theorem ones_inRange {ns : List Int} (hns : ∀ n ∈ ns, Idx.InRange n) :
    ∀ n ∈ ns.map fun n => if n = 0 then 1 else n, Idx.InRange n := by
  intro n hn
  obtain ⟨m, hm, rfl⟩ := List.mem_map.mp hn
  split
  · decide
  · exact hns m hm

/-- The counts of a grid that can be filled fit into 64 bits, since none of them is negative and the
product of the positive ones does. -/
theorem Fills.grid_inRange {ranks : Nat} {grid filled : DimVec} (h : Fills ranks grid filled) :
    ∀ n ∈ grid.values, Idx.InRange n := by
  obtain ⟨hneg, fixed, hfixed, -⟩ := h
  obtain ⟨rfl, hrange⟩ := Idx.product_eq_ok hfixed
  intro n hn
  obtain ⟨e, he, rfl⟩ := List.mem_map.mp hn
  have hnonneg : 0 ≤ e.2 := by simpa using List.find?_eq_none.mp hneg e he
  have hmin : Idx.min ≤ 0 := by decide
  refine ⟨by omega, ?_⟩
  by_cases hzero : e.2 = 0
  · rw [hzero]
    decide
  · have hpos : ∀ m ∈ grid.values.filter (· > 0), 1 ≤ m := fun m hm => by
      have : m > 0 := of_decide_eq_true (List.mem_filter.mp hm).2
      omega
    have hmem : e.2 ∈ grid.values.filter (· > 0) :=
      List.mem_filter.mpr ⟨hn, decide_eq_true (by omega)⟩
    exact (le_prod_of_mem hpos hmem).trans hrange.2

theorem Fills.inRange {ranks : Nat} {grid filled : DimVec} (h : Fills ranks grid filled)
    (hgrid : ∀ n ∈ grid.values, Idx.InRange n) : ∀ n ∈ filled.values, Idx.InRange n := by
  obtain ⟨-, fixed, -, h⟩ := h
  split at h
  · rw [h.2]
    exact hgrid
  · obtain ⟨-, _, -, counts, hcounts, rfl⟩ := h
    obtain ⟨hlen, hrange⟩ := handOut_inRange (ones_inRange hgrid) hcounts
    rw [DimVec.values_withValues (by simpa using hlen)]
    exact hrange

/-- A grid is filled either because its counts are those of the ranks or by handing out factors,
which multiply to what the counts that are set leave. -/
theorem Fills.of_counts {ranks : Nat} {grid filled : DimVec} (h : Fills ranks grid filled)
    (hgrid : ∀ n ∈ grid.values, Idx.InRange n) (hranks : 0 < ranks) :
    ∃ fixed : Nat, (grid.values.map fun n => if n = 0 then 1 else n).prod = fixed ∧
      ((filled.values.prod = fixed ∧ fixed = ranks) ∨
        ∃ factors, fixed * factors.prod = ranks ∧ zeroPosns grid.values ≠ [] ∧
          (∀ i ∈ zeroPosns grid.values,
            i < (grid.values.map fun n => if n = 0 then (1 : Int) else n).length) ∧
          handOut (zeroPosns grid.values) factors
            (grid.values.map fun n => if n = 0 then 1 else n) = .ok filled.values) := by
  obtain ⟨hneg, fixed, hfixed, h⟩ := h
  have hnonneg : ∀ n ∈ grid.values, 0 ≤ n := by
    intro n hn
    obtain ⟨e, he, rfl⟩ := List.mem_map.mp hn
    have := List.find?_eq_none.mp hneg e he
    simpa using this
  obtain ⟨hprod, hrange⟩ := Idx.product_eq_ok hfixed
  -- What `Idx.product` multiplies are the counts that are set; ones for the others change nothing.
  have hones := (prod_ones hnonneg).trans hprod.symm
  have hpos : 0 ≤ fixed := by
    rw [hprod]
    exact List.prod_induction ((0 : Int) ≤ ·) (fun _ _ => Int.mul_nonneg) (by decide)
      fun n hn => hnonneg n (List.mem_filter.mp hn).1
  refine ⟨fixed.toNat, by rw [Int.toNat_of_nonneg hpos, hones], ?_⟩
  split at h
  · next hempty =>
    obtain ⟨hword, rfl⟩ := h
    rw [ones_of_isEmpty hempty] at hones
    rw [Word.ofIdx_of_nonneg hpos hrange.2] at hword
    exact .inl ⟨by rw [hones, Int.toNat_of_nonneg hpos], hword⟩
  · next hempty =>
    obtain ⟨hdiv, factors, hfactors, counts, hcounts, rfl⟩ := h
    have hlength : counts.length = grid.length := by
      rw [(handOut_inRange (ones_inRange hgrid) hcounts).1, List.length_map, DimVec.length_values]
    -- Otherwise the remainder would have been refused.
    have hdvd : fixed.toNat ∣ ranks := by
      by_contra hno
      exact hdiv (.inr fun hmod => hno (Nat.dvd_of_mod_eq_zero hmod))
    refine .inr ⟨factors, ?_, fun hnil => hempty (by rw [hnil]; rfl), fun i hi => ?_, ?_⟩
    · rw [primeFactors_prod (Nat.div_pos (Nat.le_of_dvd hranks hdvd) (by omega)) hfactors,
        Nat.mul_div_cancel' hdvd]
    · rw [List.length_map]
      exact (List.getElem?_eq_some_iff.mp (mem_zeroPosns.mp hi)).1
    · rw [DimVec.values_withValues hlength]
      exact hcounts

/-- A filled grid has no more places than there are ranks. -/
theorem Fills.prod_le {ranks : Nat} {grid filled : DimVec} (h : Fills ranks grid filled)
    (hgrid : ∀ n ∈ grid.values, Idx.InRange n) (hranks : 0 < ranks) :
    (filled.values.map Int.natAbs).prod ≤ ranks := by
  obtain ⟨fixed, hones, ⟨hprod, rfl⟩ | ⟨factors, rfl, hsome, hunset, hcounts⟩⟩ :=
    h.of_counts hgrid hranks
  · apply Nat.le_of_eq
    rw [prod_natAbs, hprod, Int.natAbs_natCast]
  · have hle := handOut_prod_le hsome hunset hcounts
    rwa [prod_natAbs (List.map _ _), hones, Int.natAbs_natCast] at hle

end StencilPlan
