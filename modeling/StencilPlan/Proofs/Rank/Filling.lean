import StencilPlan.Proofs.Arith.Rounding
import StencilPlan.Proofs.Rank.Grid
import StencilPlan.Proofs.Returns

/-!
# Filling a grid or leaving it alone

A grid is filled if the counts that are set leave a whole number of ranks for each of their places,
and otherwise it is left as it is. Nothing on the way overflows: the factors of a signed count are
found, and handing a factor out makes no count larger than the number of ranks.
-/

namespace StencilPlan

/-! ### Handing factors out -/

theorem ofWord_of_le {n : Nat} (h : (n : Int) ≤ Idx.max) : Idx.ofWord n = n := by
  simp only [Idx.max] at h
  unfold Idx.ofWord
  rw [Int.bmod_def]
  omega

/-- One factor is handed out: it multiplies the count at one of the unset positions, which does not
overflow while the ranks that are placed can be counted. -/
theorem exists_handOut_cons {first f : Nat} {rest : List Nat} (fs : List Nat) {counts : List Int}
    (hunset : ∀ i ∈ first :: rest, i < counts.length) (hpos : ∀ n ∈ counts, 1 ≤ n) (hf : 1 ≤ f)
    (hfits : counts.prod * f ≤ Idx.max) :
    ∃ best next, best ∈ first :: rest ∧ next = counts.set best (counts.getD best 0 * f) ∧
      handOut (first :: rest) (f :: fs) counts = handOut (first :: rest) fs next ∧
      next.prod = counts.prod * f ∧ ∀ n ∈ next, 1 ≤ n := by
  have hmem := leastPosn_mem counts first rest
  have hlt := hunset _ hmem
  have hcount : 1 ≤ counts.getD (leastPosn counts first rest) 0 := by
    rw [List.getD_eq_getElem?_getD, List.getElem?_eq_getElem hlt, Option.getD_some]
    exact hpos _ (List.getElem_mem hlt)
  have hprod := prod_set_mul hlt (f : Int)
  have hnext : ∀ n ∈ counts.set (leastPosn counts first rest)
      (counts.getD (leastPosn counts first rest) 0 * f), 1 ≤ n := by
    intro n hn
    rcases List.mem_or_eq_of_mem_set hn with hn | rfl
    · exact hpos n hn
    · exact one_le_mul_of_one_le_of_one_le hcount (by omega)
  -- The count and the factor are both at most the product that is in range.
  have hword : Idx.ofWord f = f := by
    apply ofWord_of_le
    exact (le_mul_of_one_le_left (by omega) (List.one_le_prod hpos)).trans hfits
  have hmul : Idx.mul (counts.getD (leastPosn counts first rest) 0) (Idx.ofWord f) =
      .ok (counts.getD (leastPosn counts first rest) 0 * f) := by
    have hle := le_prod_of_mem hnext (List.mem_set hlt _)
    rw [hprod] at hle
    rw [hword]
    refine Idx.mul_eq_ok_iff.mpr ⟨Idx.inRange_of_nonneg ?_ (hle.trans hfits), rfl⟩
    have := hnext _ (List.mem_set hlt _)
    omega
  refine ⟨_, _, hmem, rfl, ?_, hprod, hnext⟩
  simp only [handOut]
  rw [hmul]
  rfl

/-- Every factor is handed out, and the counts at the other positions stay. -/
theorem exists_handOut {unset factors : List Nat} {counts : List Int} (hsome : unset ≠ [])
    (hunset : ∀ i ∈ unset, i < counts.length) (hpos : ∀ n ∈ counts, 1 ≤ n)
    (hfactors : ∀ f ∈ factors, 1 ≤ f)
    (hfits : counts.prod * (factors.prod : Nat) ≤ Idx.max) :
    ∃ filled, handOut unset factors counts = .ok filled ∧
      filled.prod = counts.prod * (factors.prod : Nat) ∧ filled.length = counts.length ∧
      (∀ n ∈ filled, 1 ≤ n) ∧ ∀ j, j ∉ unset → filled[j]? = counts[j]? := by
  induction factors generalizing counts with
  | nil => exact ⟨counts, rfl, by simp, rfl, hpos, fun _ _ => rfl⟩
  | cons f fs ih =>
    cases unset with
    | nil => exact absurd rfl hsome
    | cons first rest =>
      obtain ⟨hf, hfs⟩ := List.forall_mem_cons.mp hfactors
      rw [List.prod_cons, Int.natCast_mul, ← Int.mul_assoc] at hfits ⊢
      -- The product after this factor is at most the one after all of them, so no step overflows.
      have hone : 1 ≤ fs.prod := List.one_le_prod hfs
      have hfits' : counts.prod * f ≤ Idx.max := by
        have hprod : 0 ≤ counts.prod * f :=
          Int.mul_nonneg (Int.le_of_lt (List.prod_pos hpos)) (by omega)
        exact (le_mul_of_one_le_right hprod (by omega)).trans hfits
      obtain ⟨best, next, hbest, hnext, hstep, hprod, hpos'⟩ :=
        exists_handOut_cons fs hunset hpos hf hfits'
      have hlength : next.length = counts.length := by rw [hnext, List.length_set]
      obtain ⟨filled, hfilled, hprod', hlength', hone', hkept⟩ :=
        ih (by rwa [hlength]) hpos' hfs (by rwa [hprod])
      refine ⟨filled, hstep.trans hfilled, by rw [hprod', hprod], hlength'.trans hlength, hone',
        fun j hj => ?_⟩
      have hne : best ≠ j := fun heq => hj (heq ▸ hbest)
      rw [hkept j hj, hnext, List.getElem?_set_ne hne]

/-! ### The grid -/

section Grid

variable {grid : DimVec} {ranks : Nat} {fixed : Int} {v : Verbosity}

theorem find?_neg_eq_none_iff :
    grid.entries.find? (·.2 < 0) = none ↔ ∀ n ∈ grid.values, 0 ≤ n := by
  simp only [DimVec.values, List.find?_eq_none, List.forall_mem_map, decide_eq_true_eq, Int.not_lt]

theorem isEmpty_zeroPosns_iff {ns : List Int} : (zeroPosns ns).isEmpty = true ↔ (0 : Int) ∉ ns := by
  rw [List.isEmpty_iff, List.eq_nil_iff_forall_not_mem, List.mem_iff_getElem?, not_exists]
  exact forall_congr' fun i => not_congr mem_zeroPosns

theorem fixed_pos (h : Idx.product (grid.values.filter (· > 0)) = .ok fixed) : 0 < fixed := by
  rw [(Idx.product_eq_ok h).1]
  exact List.prod_pos fun n hn => of_decide_eq_true (List.mem_filter.mp hn).2

/-- The counts that are set leave a whole number of ranks for each of their places. -/
theorem dvd_iff (hfixed : 0 < fixed) : ranks % fixed.toNat = 0 ↔ fixed ∣ (ranks : Int) := by
  rw [← Nat.dvd_iff_mod_eq_zero, ← Int.natCast_dvd_natCast, Int.toNat_of_nonneg hfixed.le]

/-- A grid that is filled has as many places as there are ranks, and keeps the counts it had. -/
structure FilledFrom (ranks : Nat) (grid filled : DimVec) : Prop where
  names : filled.names = grid.names
  pos : ∀ n ∈ filled.values, 1 ≤ n
  prod : filled.values.prod = ranks
  kept : ∀ (i : Nat) (n : Int), grid.values[i]? = some n → 0 < n → filled.values[i]? = some n

/-- Where all counts are set, those that are set are all. -/
theorem prod_eq_fixed (hneg : ∀ n ∈ grid.values, 0 ≤ n) (hzero : (0 : Int) ∉ grid.values)
    (hfixed : Idx.product (grid.values.filter (· > 0)) = .ok fixed) : grid.values.prod = fixed := by
  rw [(Idx.product_eq_ok hfixed).1, ← prod_ones hneg,
    ones_of_isEmpty (isEmpty_zeroPosns_iff.mpr hzero)]

/-- With no count to fill in, the counts have to be those of the ranks. -/
theorem fills_of_eq (hneg : ∀ n ∈ grid.values, 0 ≤ n) (hzero : (0 : Int) ∉ grid.values)
    (hfixed : Idx.product (grid.values.filter (· > 0)) = .ok fixed)
    (heq : grid.values.prod = ranks) : Fills ranks grid grid ∧ FilledFrom ranks grid grid := by
  have hpos : ∀ n ∈ grid.values, 1 ≤ n := fun n hn => by
    have := hneg n hn
    have hne : n ≠ 0 := fun h => hzero (h ▸ hn)
    omega
  have hword : Word.ofIdx fixed = ranks := by
    rw [Word.ofIdx_of_nonneg (fixed_pos hfixed).le (Idx.product_eq_ok hfixed).2.2,
      ← prod_eq_fixed hneg hzero hfixed, heq, Int.toNat_natCast]
  refine ⟨⟨find?_neg_eq_none_iff.mpr hneg, fixed, hfixed, ?_⟩, rfl, hpos, heq, fun _ _ h _ => h⟩
  rw [if_pos (isEmpty_zeroPosns_iff.mpr hzero)]
  exact ⟨hword, rfl⟩

theorem one_le_ones (hneg : ∀ n ∈ grid.values, 0 ≤ n) :
    ∀ n ∈ grid.values.map fun n => if n = 0 then (1 : Int) else n, 1 ≤ n := by
  intro n hn
  obtain ⟨m, hm, rfl⟩ := List.mem_map.mp hn
  have := hneg m hm
  split <;> omega

/-- The counts that are set, and the ranks that are left for each of their places. -/
theorem mul_quotient (hfixed : 0 < fixed) (hdvd : fixed ∣ (ranks : Int)) :
    fixed * ((ranks / fixed.toNat : Nat) : Int) = ranks := by
  have hnat : fixed.toNat ∣ ranks := Nat.dvd_of_mod_eq_zero ((dvd_iff hfixed).mpr hdvd)
  rw [← Int.toNat_of_nonneg hfixed.le, ← Int.natCast_mul, Int.toNat_natCast,
    Nat.mul_div_cancel' hnat]

/-- The ranks that are left are handed out to the open counts, which start from one. -/
theorem exists_filled (hneg : ∀ n ∈ grid.values, 0 ≤ n) (hzero : (0 : Int) ∈ grid.values)
    (hfixed : Idx.product (grid.values.filter (· > 0)) = .ok fixed) (hranks : 1 ≤ ranks)
    (hmax : (ranks : Int) ≤ Idx.max) (hdvd : fixed ∣ (ranks : Int)) :
    ∃ factors counts, primeFactors (ranks / fixed.toNat) = .ok factors ∧
      handOut (zeroPosns grid.values) factors
        (grid.values.map fun n => if n = 0 then 1 else n) = .ok counts ∧
      counts.prod = ranks ∧ counts.length = grid.values.length ∧ (∀ n ∈ counts, 1 ≤ n) ∧
      ∀ (i : Nat) (n : Int), grid.values[i]? = some n → 0 < n → counts[i]? = some n := by
  have hall := mul_quotient (fixed_pos hfixed) hdvd
  have hleft : 0 < ranks / fixed.toNat := by
    by_contra hnot
    rw [Nat.eq_zero_of_not_pos hnot, Int.natCast_zero, Int.mul_zero] at hall
    omega
  have hsmall : ((ranks / fixed.toNat : Nat) : Int) ≤ Idx.max := by
    have := Nat.div_le_self ranks fixed.toNat
    omega
  obtain ⟨factors, hfactors⟩ := exists_primeFactors hsmall
  have hprod := primeFactors_prod hleft hfactors
  have hone : ∀ f ∈ factors, 1 ≤ f := fun f hf =>
    Nat.pos_of_dvd_of_pos (List.dvd_prod hf) (by rwa [hprod])
  have hsome : zeroPosns grid.values ≠ [] := fun h =>
    isEmpty_zeroPosns_iff.mp (List.isEmpty_iff.mpr h) hzero
  have hplaces : ∀ i ∈ zeroPosns grid.values,
      i < (grid.values.map fun n => if n = 0 then (1 : Int) else n).length := fun i hi => by
    rw [List.length_map]
    exact (List.getElem?_eq_some_iff.mp (mem_zeroPosns.mp hi)).1
  -- The counts start with the product of those that were set, and the factors make up the rest.
  have htotal : (grid.values.map fun n => if n = 0 then (1 : Int) else n).prod *
      (factors.prod : Nat) = ranks := by
    rw [prod_ones hneg, ← (Idx.product_eq_ok hfixed).1, hprod, hall]
  obtain ⟨counts, hcounts, hfilled, hlength, hpos, hkept⟩ :=
    exists_handOut hsome hplaces (one_le_ones hneg) hone (by rwa [htotal])
  refine ⟨factors, counts, hfactors, hcounts, hfilled.trans htotal, ?_, hpos, fun i n hi hn => ?_⟩
  · rw [hlength, List.length_map]
  · have hset : i ∉ zeroPosns grid.values := fun hmem => by
      have hsame := Option.some.inj (hi.symm.trans (mem_zeroPosns.mp hmem))
      omega
    rw [hkept i hset, List.getElem?_map, hi, Option.map_some, if_neg (by omega)]

/-- With counts to fill in, those that are set have to divide the number of ranks. -/
theorem exists_fills_of_dvd (hneg : ∀ n ∈ grid.values, 0 ≤ n) (hzero : (0 : Int) ∈ grid.values)
    (hfixed : Idx.product (grid.values.filter (· > 0)) = .ok fixed) (hranks : 1 ≤ ranks)
    (hmax : (ranks : Int) ≤ Idx.max) (hdvd : fixed ∣ (ranks : Int)) :
    ∃ filled, Fills ranks grid filled ∧ FilledFrom ranks grid filled := by
  obtain ⟨factors, counts, hfactors, hcounts, hprod, hlength, hpos, hkept⟩ :=
    exists_filled hneg hzero hfixed hranks hmax hdvd
  have hvalues : (grid.withValues counts).values = counts :=
    DimVec.values_withValues (by rw [hlength, DimVec.length_values])
  have hempty : ¬ (zeroPosns grid.values).isEmpty = true := fun h =>
    isEmpty_zeroPosns_iff.mp h hzero
  have hfits : ¬ (fixed ≤ 0 ∨ ¬ ranks % fixed.toNat = 0) := by
    have := fixed_pos hfixed
    rw [not_or, not_not, dvd_iff this]
    exact ⟨by omega, hdvd⟩
  refine ⟨grid.withValues counts, ⟨find?_neg_eq_none_iff.mpr hneg, fixed, hfixed, ?_⟩,
    ⟨DimVec.names_withValues _ _, by rwa [hvalues], by rwa [hvalues], by rwa [hvalues]⟩⟩
  rw [if_neg hempty]
  exact ⟨hfits, factors, hfactors, counts, hcounts, rfl⟩

theorem returns_reject (e : PlanError) :
    (Task.reject e : Task DimVec Unit).Returns v grid (.error e) grid :=
  Task.returns_iff.mpr ⟨rfl, rfl⟩

/-- A negative count is refused before anything else is looked at. -/
theorem fillGrid_of_neg (ranks : Nat) (v : Verbosity) (hneg : ¬ ∀ n ∈ grid.values, 0 ≤ n) :
    ∃ dim count, count < 0 ∧ (dim, count) ∈ grid.entries ∧
      (fillGrid ranks).Returns v grid (.error (.invalidRankCount dim count)) grid := by
  cases hfind : grid.entries.find? (·.2 < 0) with
  | none => exact absurd (find?_neg_eq_none_iff.mp hfind) hneg
  | some entry =>
    obtain ⟨dim, count⟩ := entry
    refine ⟨dim, count, by simpa using List.find?_some hfind, List.mem_of_find?_eq_some hfind, ?_⟩
    simp only [fillGrid, Task.returns_bind_get, hfind]
    exact returns_reject _

/-- Counts that are set but do not fit the number of ranks are refused before any is filled in. -/
theorem fillGrid_of_mismatch (hneg : ∀ n ∈ grid.values, 0 ≤ n)
    (hfixed : Idx.product (grid.values.filter (· > 0)) = .ok fixed)
    (hall : (0 : Int) ∉ grid.values → grid.values.prod ≠ ranks)
    (hsome : (0 : Int) ∈ grid.values → ¬ fixed ∣ (ranks : Int)) :
    (fillGrid ranks).Returns v grid (.error (.rankCountMismatch fixed ranks)) grid := by
  have hpos := fixed_pos hfixed
  simp only [fillGrid, Task.returns_bind_get, find?_neg_eq_none_iff.mpr hneg]
  refine Task.returns_bind.mpr
    (.inr ⟨fixed, grid, Task.yields_checked.mpr ⟨hfixed, rfl⟩, ?_⟩)
  -- The hypotheses speak of integers, the guards compare words.
  by_cases hzero : (0 : Int) ∈ grid.values
  · have hdvd := hsome hzero
    rw [← dvd_iff hpos] at hdvd
    rw [if_neg (fun h => isEmpty_zeroPosns_iff.mp h hzero), if_pos (.inr hdvd)]
    exact returns_reject _
  · have hword : Word.ofIdx fixed ≠ ranks := by
      have hne := hall hzero
      rw [prod_eq_fixed hneg hzero hfixed] at hne
      rw [Word.ofIdx_of_nonneg hpos.le (Idx.product_eq_ok hfixed).2.2]
      omega
    rw [if_pos (isEmpty_zeroPosns_iff.mpr hzero), if_pos hword]
    exact returns_reject _

/-- Filling a grid never overflows while the counts that are set can be multiplied and the ranks can
be counted. It succeeds exactly if no count is negative and either all counts are set and are those
of the ranks, or some are not and the others divide the number of ranks. Then every dimension has a
count, the counts that were set are kept, and there is a place for each rank; otherwise the grid
stays as it is. -/
theorem fillGrid_fills_or_keeps (hfixed : Idx.product (grid.values.filter (· > 0)) = .ok fixed)
    (hranks : 1 ≤ ranks) (hmax : (ranks : Int) ≤ Idx.max) (v : Verbosity) :
    ∃ r filled, (fillGrid ranks).Returns v grid r filled ∧
      (r = .ok () ↔ (∀ n ∈ grid.values, 0 ≤ n) ∧
        (((0 : Int) ∉ grid.values ∧ grid.values.prod = ranks) ∨
          ((0 : Int) ∈ grid.values ∧ fixed ∣ (ranks : Int)))) ∧
      (r = .ok () → FilledFrom ranks grid filled) ∧
      ∀ e, r = .error e → filled = grid := by
  by_cases hneg : ∀ n ∈ grid.values, 0 ≤ n
  · by_cases hfits : ((0 : Int) ∉ grid.values ∧ grid.values.prod = ranks) ∨
        ((0 : Int) ∈ grid.values ∧ fixed ∣ (ranks : Int))
    · obtain ⟨filled, hfills, hfilled⟩ :
          ∃ filled, Fills ranks grid filled ∧ FilledFrom ranks grid filled := by
        rcases hfits with ⟨hzero, heq⟩ | ⟨hzero, hdvd⟩
        · exact ⟨grid, fills_of_eq hneg hzero hfixed heq⟩
        · exact exists_fills_of_dvd hneg hzero hfixed hranks hmax hdvd
      exact ⟨.ok (), filled, Task.returns_ok.mpr (hfills.yields v),
        ⟨fun _ => ⟨hneg, hfits⟩, fun _ => rfl⟩, fun _ => hfilled, by simp⟩
    · have hreturns := fillGrid_of_mismatch (v := v) hneg hfixed
        (fun hzero heq => hfits (.inl ⟨hzero, heq⟩)) fun hzero hdvd => hfits (.inr ⟨hzero, hdvd⟩)
      exact ⟨_, grid, hreturns, by simp [hfits], by simp, fun _ _ => rfl⟩
  · obtain ⟨dim, count, -, -, hreturns⟩ := fillGrid_of_neg ranks v hneg
    exact ⟨_, grid, hreturns, by simp [hneg], by simp, fun _ _ => rfl⟩

end Grid

namespace Sparse

/-- Two ranks are asked for in one dimension, and the others are left open. -/
def grid : DimVec := ⟨[("x", 0), ("y", 2), ("z", 0)]⟩

end Sparse

/-- Sixty ranks: the thirty that are left for two dimensions come to five by six. -/
theorem fillGrid_fills_or_keeps_sparse : ∃ filled,
    Idx.product (Sparse.grid.values.filter (· > 0)) = .ok 2 ∧
      (fillGrid 60).Returns none Sparse.grid (.ok ()) filled ∧ FilledFrom 60 Sparse.grid filled ∧
      filled = ⟨[("x", 5), ("y", 2), ("z", 6)]⟩ := by
  have hfixed : Idx.product (Sparse.grid.values.filter (· > 0)) = .ok 2 := by decide
  have hranks : 1 ≤ 60 := by decide
  obtain ⟨r, filled, hreturns, hiff, hfilled, -⟩ :=
    fillGrid_fills_or_keeps hfixed hranks (by decide) none
  have hok : r = .ok () := hiff.mpr ⟨by decide, .inr ⟨by decide, by decide⟩⟩
  rw [hok] at hreturns
  refine ⟨filled, hfixed, hreturns, hfilled hok, ?_⟩
  have hstate := (Task.returns_iff.mp hreturns).2
  rw [← hstate]
  decide +kernel

end StencilPlan
