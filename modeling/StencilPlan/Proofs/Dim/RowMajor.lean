import Mathlib.Algebra.Group.Nat.Defs
import Mathlib.Data.List.Basic
import StencilPlan.Dim.RowMajor
import StencilPlan.Proofs.Dim.Vec

/-!
# The points of a box in row-major order

`boxPoints` lists the points of a box with the last coordinate running fastest. A sweep visits
exactly this list, so what a sweep collects is known position by position. Read backwards the list
is the same box seen from the opposite corner, which is why counting the neighbors of a rank from
the other end negates their offsets. The number of a point, `numberFrom`, tells the points of a box
apart.
-/

namespace StencilPlan.DimVec

/-! ### The list of points -/

/-- The points of a box with the given sizes, the last coordinate running fastest. -/
def boxPoints : List Int → List (List Int)
  | [] => [[]]
  | n :: ns => (List.range n.toNat).flatMap fun (i : Nat) => (boxPoints ns).map ((i : Int) :: ·)

theorem mem_boxPoints {ns p : List Int} :
    p ∈ boxPoints ns ↔ List.Forall₂ (fun n x => 0 ≤ x ∧ x < n) ns p := by
  -- Induction on the extents, as `boxPoints` is defined.
  induction ns generalizing p with
  | nil => simp [boxPoints]
  | cons n ns ih =>
    simp only [boxPoints, List.mem_flatMap, List.mem_range, List.mem_map]
    constructor
    · rintro ⟨i, hi, q, hq, rfl⟩
      exact .cons ⟨by omega, by omega⟩ (ih.mp hq)
    · intro h
      cases h with
      | cons hx hq =>
        rename_i x q
        refine ⟨x.toNat, by omega, q, ih.mpr hq, ?_⟩
        rw [Int.toNat_of_nonneg hx.1]

theorem length_of_mem_boxPoints {ns p : List Int} (h : p ∈ boxPoints ns) :
    p.length = ns.length := (mem_boxPoints.mp h).length_eq.symm

/-- How many points a box has. -/
theorem length_boxPoints (ns : List Int) :
    (boxPoints ns).length = (ns.map Int.toNat).prod := by
  induction ns with
  | nil => rfl
  | cons n ns ih =>
    simp [boxPoints, List.length_flatMap, ih]

/-- Every point of a box is listed once. -/
theorem nodup_boxPoints (ns : List Int) : (boxPoints ns).Nodup := by
  induction ns with
  | nil => exact List.nodup_singleton _
  | cons n ns ih =>
    refine List.nodup_flatMap.mpr ⟨fun i _ => ih.map fun p q h => (List.cons.inj h).2, ?_⟩
    refine List.nodup_range.imp fun {i j} hne p hp hq => hne ?_
    obtain ⟨_, -, rfl⟩ := List.mem_map.mp hp
    obtain ⟨_, -, heq⟩ := List.mem_map.mp hq
    have hhead := (List.cons.inj heq).1
    omega

/-- Seen from the opposite corner, the box comes in reverse. -/
theorem reverse_boxPoints (ns : List Int) :
    (boxPoints ns).reverse = (boxPoints ns).map (List.zipWith (fun n x => n - 1 - x) ns) := by
  induction ns with
  | nil => rfl
  | cons n ns ih =>
    -- The first coordinate runs through its values in reverse, and behind each of them so do the
    -- others.
    have hmap : ∀ l : List Nat, (∀ i ∈ l, i < n.toNat) →
        (l.flatMap fun (i : Nat) => (boxPoints ns).map ((i : Int) :: ·)).map
            (List.zipWith (fun n x => n - 1 - x) (n :: ns)) =
          (l.map fun i => n.toNat - 1 - i).flatMap fun (i : Nat) =>
            (boxPoints ns).reverse.map ((i : Int) :: ·) := by
      intro l hl
      rw [List.map_flatMap, List.flatMap_map]
      refine List.flatMap_congr fun i hi => ?_
      have hlt := hl i hi
      have hcast : n - 1 - (i : Int) = ((n.toNat - 1 - i : Nat) : Int) := by omega
      rw [ih, List.map_map, List.map_map]
      refine List.map_congr_left fun p _ => ?_
      rw [Function.comp_apply, Function.comp_apply, List.zipWith_cons_cons, hcast]
    rw [boxPoints, hmap _ fun i hi => List.mem_range.mp hi, List.reverse_flatMap]
    have hrange : (List.range n.toNat).reverse = (List.range n.toNat).map (n.toNat - 1 - ·) := by
      rw [List.reverse_eq_iff, ← List.map_reverse]
      refine List.ext_getElem (by simp) fun i h₁ h₂ => ?_
      simp only [List.length_range] at h₁
      simp only [List.getElem_range, List.getElem_map, List.getElem_reverse, List.length_range]
      omega
    rw [hrange]
    exact List.flatMap_congr fun i _ => (List.map_reverse ..).symm

/-! ### What a sweep collects -/

/-- Visits the points of a list while the visitor answers `true`. -/
def visitList {σ : Type} (visit : List Int → σ → Bool × σ) : List (List Int) → σ → Bool × σ
  | [], s => (true, s)
  | p :: ps, s =>
    match visit p s with
    | (true, s') => visitList visit ps s'
    | (false, s') => (false, s')

theorem visitList_append {σ : Type} (visit : List Int → σ → Bool × σ) (ps qs : List (List Int))
    (s : σ) :
    visitList visit (ps ++ qs) s =
      match visitList visit ps s with
      | (true, s') => visitList visit qs s'
      | (false, s') => (false, s') := by
  induction ps generalizing s with
  | nil => rfl
  | cons p ps ih =>
    simp only [List.cons_append, visitList]
    cases visit p s with
    | mk more s' => cases more <;> simp [ih]

theorem visitList_map {σ : Type} (visit : List Int → σ → Bool × σ) (f : List Int → List Int)
    (ps : List (List Int)) (s : σ) :
    visitList visit (ps.map f) s = visitList (fun p => visit (f p)) ps s := by
  induction ps generalizing s with
  | nil => rfl
  | cons p ps ih => simp only [List.map_cons, visitList, ih]

theorem upward_eq_visitList {σ : Type} (visit : List Int → σ → Bool × σ) (ps : List (List Int))
    (first count : Nat) (s : σ) :
    upward (fun i s => visitList (fun p => visit ((i : Int) :: p)) ps s) first count s =
      visitList visit
        ((List.range' first count).flatMap fun (i : Nat) => ps.map ((i : Int) :: ·)) s := by
  induction count generalizing first s with
  | zero => rfl
  | succ count ih =>
    rw [List.range'_succ, List.flatMap_cons, visitList_append, visitList_map, upward]
    cases visitList (fun p => visit ((first : Int) :: p)) ps s with
    | mk more s' => cases more <;> simp [ih]

/-- A sweep visits the points of the box in order. -/
theorem sweepValues_eq_visitList {σ : Type} (ns : List Int) (visit : List Int → σ → Bool × σ)
    (s : σ) : sweepValues ns visit s = visitList visit (boxPoints ns) s := by
  induction ns generalizing visit s with
  | nil =>
    simp only [sweepValues, boxPoints, visitList]
    cases visit [] s with
    | mk more s' => cases more <;> rfl
  | cons n ns ih =>
    simp only [sweepValues, boxPoints, ih]
    rw [upward_eq_visitList, List.range_eq_range']

/-- The visitor that collects what `f` finds at each point, the last one first, up to the first
fault. -/
def collector {β : Type} (f : DimVec → Nat → Checked β) (p : DimVec) (k : Nat)
    (found : Checked (List β)) : Bool × Checked (List β) :=
  match found, f p k with
  | .ok bs, .ok b => (true, .ok (b :: bs))
  | .error e, _ => (false, .error e)
  | .ok _, .error e => (false, .error e)

theorem visitList_collector {β : Type} (f : DimVec → Nat → Checked β) (t : DimVec)
    (ps : List (List Int)) (k : Nat) (acc bs : List β)
    (h : (visitList (fun vs (st : Nat × Checked (List β)) =>
        ((collector f (t.withValues vs) st.1 st.2).1, st.1 + 1,
          (collector f (t.withValues vs) st.1 st.2).2)) ps (k, .ok acc)).2.2 = .ok bs) :
    ∃ found : List β, bs = found.reverse ++ acc ∧ found.length = ps.length ∧
      ∀ i p, ps[i]? = some p → ∃ b, found[i]? = some b ∧ f (t.withValues p) (k + i) = .ok b := by
  induction ps generalizing k acc with
  | nil => exact ⟨[], by simpa [visitList, eq_comm] using h, rfl, by simp⟩
  | cons p ps ih =>
    simp only [visitList, collector] at h
    -- An error is kept to the end, so a list at the end means that no point had one.
    cases hf : f (t.withValues p) k with
    | error e => simp [hf] at h
    | ok b =>
      simp only [hf] at h
      obtain ⟨found, hbs, hlen, hget⟩ := ih (k + 1) (b :: acc) h
      refine ⟨b :: found, by simp [hbs], by simp [hlen], fun i q hq => ?_⟩
      cases i with
      | zero =>
        obtain rfl : p = q := by simpa using hq
        exact ⟨b, rfl, hf⟩
      | succ i =>
        obtain ⟨c, hc, hfc⟩ := hget i q (by simpa using hq)
        exact ⟨c, by simpa using hc, by rwa [← Nat.add_assoc, Nat.add_right_comm]⟩

/-- What a collecting sweep comes to, position by position. -/
theorem sweep_collector {β : Type} {f : DimVec → Nat → Checked β} {t : DimVec} {bs : List β}
    (hpos : ∀ n ∈ t.values, 0 < n)
    (h : ((t.sweep (collector f) (.ok [])).2).map List.reverse = .ok bs) :
    bs.length = (boxPoints t.values).length ∧
      ∀ i p, (boxPoints t.values)[i]? = some p →
        ∃ b, bs[i]? = some b ∧ f (t.withValues p) i = .ok b := by
  have hany : t.values.any (· ≤ 0) = false := by
    simp only [List.any_eq_false, decide_eq_true_eq, Int.not_le]
    exact hpos
  simp only [sweep, hany, Bool.false_eq_true, if_false, sweepValues_eq_visitList, map_eq_ok] at h
  obtain ⟨cs, hcs, rfl⟩ := h
  obtain ⟨found, rfl, hlen, hget⟩ := visitList_collector f t _ 0 [] cs hcs
  refine ⟨by simpa using hlen, fun i p hp => ?_⟩
  obtain ⟨b, hb, hf⟩ := hget i p hp
  exact ⟨b, by simpa using hb, by simpa using hf⟩

theorem visitList_collector_ok {β : Type} {f : DimVec → Nat → Checked β} {t : DimVec}
    {g : List Int → β} {ps : List (List Int)}
    (hf : ∀ p ∈ ps, ∀ i, f (t.withValues p) i = .ok (g p)) (k : Nat) (acc : List β) :
    (visitList (fun vs (st : Nat × Checked (List β)) =>
        ((collector f (t.withValues vs) st.1 st.2).1, st.1 + 1,
          (collector f (t.withValues vs) st.1 st.2).2)) ps (k, .ok acc)).2.2 =
      .ok ((ps.map g).reverse ++ acc) := by
  induction ps generalizing k acc with
  | nil => rfl
  | cons p ps ih =>
    have hstep : collector f (t.withValues p) k (.ok acc) = (true, .ok (g p :: acc)) := by
      simp only [collector, hf p (by simp)]
    rw [visitList, hstep, ih (fun q hq => hf q (by simp [hq]))]
    simp

/-- A sweep that finds something at each point, whatever its number, collects it in order. -/
theorem sweep_collector_ok {β : Type} {f : DimVec → Nat → Checked β} {t : DimVec}
    {g : List Int → β} (hpos : ∀ n ∈ t.values, 0 < n)
    (hf : ∀ p ∈ boxPoints t.values, ∀ i, f (t.withValues p) i = .ok (g p)) :
    ((t.sweep (collector f) (.ok [])).2).map List.reverse = .ok ((boxPoints t.values).map g) := by
  have hany : t.values.any (· ≤ 0) = false := by
    simp only [List.any_eq_false, decide_eq_true_eq, Int.not_le]
    exact hpos
  simp only [sweep, hany, Bool.false_eq_true, if_false, sweepValues_eq_visitList,
    visitList_collector_ok hf]
  simp [Except.map]

theorem visitList_collector_total {β : Type} {f : DimVec → Nat → Checked β} {t : DimVec}
    {ps : List (List Int)} (hf : ∀ p ∈ ps, ∀ i, ∃ b, f (t.withValues p) i = .ok b) (k : Nat)
    (acc : List β) :
    ∃ bs, (visitList (fun vs (st : Nat × Checked (List β)) =>
        ((collector f (t.withValues vs) st.1 st.2).1, st.1 + 1,
          (collector f (t.withValues vs) st.1 st.2).2)) ps (k, .ok acc)).2.2 = .ok bs := by
  induction ps generalizing k acc with
  | nil => exact ⟨acc, rfl⟩
  | cons p ps ih =>
    obtain ⟨b, hb⟩ := hf p List.mem_cons_self k
    have hstep : collector f (t.withValues p) k (.ok acc) = (true, .ok (b :: acc)) := by
      simp only [collector, hb]
    rw [visitList, hstep]
    exact ih (fun q hq => hf q (List.mem_cons_of_mem _ hq)) (k + 1) (b :: acc)

/-- A sweep that finds something at each point is not stopped. -/
theorem sweep_collector_total {β : Type} {f : DimVec → Nat → Checked β} {t : DimVec}
    (hpos : ∀ n ∈ t.values, 0 < n)
    (hf : ∀ p ∈ boxPoints t.values, ∀ i, ∃ b, f (t.withValues p) i = .ok b) :
    ∃ bs, ((t.sweep (collector f) (.ok [])).2).map List.reverse = .ok bs := by
  have hany : t.values.any (· ≤ 0) = false := by
    simp only [List.any_eq_false, decide_eq_true_eq, Int.not_le]
    exact hpos
  obtain ⟨bs, hbs⟩ := visitList_collector_total hf 0 []
  simp only [sweep, hany, Bool.false_eq_true, if_false, sweepValues_eq_visitList, hbs]
  exact ⟨bs.reverse, rfl⟩

/-! ### The number of a point -/

/-- The number of a point, given pairs of size and coordinate. -/
def numberFrom (index : Nat) : List (Int × Int) → Nat
  | [] => index
  | (n, x) :: rest => numberFrom (index * n.toNat + x.toNat) rest

/-- The number that is found is the number of the point, and the point lies in the box. -/
theorem layoutFrom_eq_some {index k : Nat} {es : List (Int × Int)}
    (hmax : ∀ e ∈ es, e.1 ≤ Idx.max) (h : layoutFrom index es = .ok (some k)) :
    (∀ e ∈ es, 0 ≤ e.2 ∧ e.2 < e.1) ∧ k = numberFrom index es := by
  -- The induction is on the coordinates, with the number of the row so far left open.
  induction es generalizing index with
  | nil => simpa [layoutFrom, numberFrom, eq_comm] using h
  | cons e es ih =>
    obtain ⟨n, x⟩ := e
    rw [layoutFrom] at h
    split at h
    · simp at h
    · have hn : n ≤ Idx.max := hmax (n, x) (by simp)
      have hx : 0 ≤ x ∧ x < n := by omega
      simp only [bind_eq_ok, Word.mul, Word.add, Word.check_eq_ok_iff] at h
      obtain ⟨before, ⟨-, rfl⟩, here, ⟨-, rfl⟩, h⟩ := h
      rw [Word.ofIdx_of_nonneg (by omega) hn, Word.ofIdx_of_nonneg hx.1 (by omega)] at h
      obtain ⟨hall, rfl⟩ := ih (fun e he => hmax e (by simp [he])) h
      refine ⟨fun e he => ?_, rfl⟩
      rcases List.mem_cons.mp he with rfl | he
      · exact hx
      · exact hall e he

theorem layout_eq_some {t u : DimVec} {k : Nat} (hmax : ∀ n ∈ t.values, n ≤ Idx.max)
    (h : t.layout u = .ok (some k)) :
    List.Forall₂ (fun n x => 0 ≤ x ∧ x < n) t.values u.values ∧
      k = numberFrom 0 (t.values.zip u.values) := by
  unfold layout at h
  split at h
  · simp at h
  · next hlen =>
    have hlen' : t.values.length = u.values.length := by simp; omega
    obtain ⟨hall, hk⟩ := layoutFrom_eq_some
      (fun e he => hmax e.1 (List.of_mem_zip he).1) h
    refine ⟨List.forall₂_iff_zip.mpr ⟨hlen', fun {a b} hab => hall (a, b) hab⟩, hk⟩

/-- Points of one box with the same number are the same. -/
theorem numberFrom_injective {ns xs ys : List Int} {i j : Nat}
    (hx : List.Forall₂ (fun n x => 0 ≤ x ∧ x < n) ns xs)
    (hy : List.Forall₂ (fun n x => 0 ≤ x ∧ x < n) ns ys)
    (h : numberFrom i (ns.zip xs) = numberFrom j (ns.zip ys)) : i = j ∧ xs = ys := by
  induction hx generalizing ys i j with
  | nil =>
    cases hy
    exact ⟨h, rfl⟩
  | cons hx hxs ih =>
    rename_i n x ns xs
    cases hy with
    | cons hy hys =>
      rename_i y ys
      obtain ⟨hij, rfl⟩ := ih hys h
      -- Both numbers have the same quotient and remainder by the extent.
      have hxy : i = j ∧ x.toNat = y.toNat := by
        have hxn : x.toNat < n.toNat := by omega
        have hyn : y.toNat < n.toNat := by omega
        have hdiv := congrArg (· / n.toNat) hij
        have hmod := congrArg (· % n.toNat) hij
        simp only [Nat.mul_comm _ n.toNat] at hdiv hmod
        rw [Nat.mul_add_div (by omega), Nat.mul_add_div (by omega), Nat.div_eq_of_lt hxn,
          Nat.div_eq_of_lt hyn] at hdiv
        rw [Nat.mul_add_mod, Nat.mul_add_mod, Nat.mod_eq_of_lt hxn, Nat.mod_eq_of_lt hyn] at hmod
        exact ⟨by omega, hmod⟩
      exact ⟨hxy.1, by rw [show x = y by omega]⟩

/-- Different points of a box have different numbers. -/
theorem layout_injective {t u w : DimVec} {k : Nat} (hmax : ∀ n ∈ t.values, n ≤ Idx.max)
    (hu : t.layout u = .ok (some k)) (hw : t.layout w = .ok (some k)) : u.values = w.values := by
  obtain ⟨hfu, hku⟩ := layout_eq_some hmax hu
  obtain ⟨hfw, hkw⟩ := layout_eq_some hmax hw
  exact (numberFrom_injective hfu hfw (hku.symm.trans hkw)).2

/-- Within a row there is room before the next one. -/
theorem lt_next_row {n x : Int} (i : Nat) (hx : 0 ≤ x ∧ x < n) :
    i * n.toNat + x.toNat < (i + 1) * n.toNat := by
  rw [Nat.add_mul, Nat.one_mul]
  omega

theorem numberFrom_lt {ns xs : List Int} {i : Nat}
    (h : List.Forall₂ (fun n x => 0 ≤ x ∧ x < n) ns xs) :
    numberFrom i (ns.zip xs) < (i + 1) * (ns.map Int.toNat).prod := by
  induction h generalizing i with
  | nil => simp [numberFrom]
  | @cons n x ns xs hx hxs ih =>
    calc numberFrom (i * n.toNat + x.toNat) (ns.zip xs)
        < (i * n.toNat + x.toNat + 1) * (ns.map Int.toNat).prod := ih
      _ ≤ ((i + 1) * n.toNat) * (ns.map Int.toNat).prod := Nat.mul_le_mul_right _ (lt_next_row i hx)
      _ = (i + 1) * ((n :: ns).map Int.toNat).prod := by
          rw [List.map_cons, List.prod_cons, Nat.mul_assoc]

/-- Every number is below the number of points. -/
theorem layout_lt {t u : DimVec} {k : Nat} (hmax : ∀ n ∈ t.values, n ≤ Idx.max)
    (h : t.layout u = .ok (some k)) : k < (t.values.map Int.toNat).prod := by
  obtain ⟨hfu, rfl⟩ := layout_eq_some hmax h
  simpa using numberFrom_lt (i := 0) hfu

/-- A coordinate inside its size is counted without overflow, and the counting goes on. -/
theorem layoutFrom_cons_of_inside {n x : Int} {i : Nat} {es : List (Int × Int)}
    (hn : n ≤ Idx.max) (hx : 0 ≤ x ∧ x < n) (hrow : (i + 1) * n.toNat ≤ Word.bound) :
    layoutFrom i ((n, x) :: es) = layoutFrom (i * n.toNat + x.toNat) es := by
  have hlt := lt_next_row i hx
  have hmul : Word.mul i (Word.ofIdx n) = .ok (i * n.toNat) := by
    rw [Word.ofIdx_of_nonneg (by omega) hn]
    exact Word.check_eq_ok_iff.mpr ⟨by omega, rfl⟩
  have hadd : Word.add (i * n.toNat) (Word.ofIdx x) = .ok (i * n.toNat + x.toNat) := by
    rw [Word.ofIdx_of_nonneg hx.1 (by omega)]
    exact Word.check_eq_ok_iff.mpr ⟨by omega, rfl⟩
  rw [layoutFrom, if_neg (by omega), hmul]
  show (Word.add (i * n.toNat) (Word.ofIdx x) >>= fun here => layoutFrom here es) = _
  rw [hadd]
  rfl

/-- Where a box of positive sizes is counted in range, so is each of its rows. -/
theorem row_le_bound {n : Int} {ns : List Int} {i : Nat} (hpos : ∀ m ∈ ns, 1 ≤ m)
    (hfits : (i + 1) * ((n :: ns).map Int.toNat).prod ≤ Word.bound) :
    (i + 1) * n.toNat ≤ Word.bound := by
  have hprod : 0 < (ns.map Int.toNat).prod := by
    refine List.prod_pos_iff_forall_pos_nat.mpr fun k hk => ?_
    obtain ⟨m, hm, rfl⟩ := List.mem_map.mp hk
    have := hpos m hm
    omega
  rw [List.map_cons, List.prod_cons, ← Nat.mul_assoc] at hfits
  exact Nat.le_trans (Nat.le_mul_of_pos_right _ hprod) hfits

/-- The numbers in a row leave the rest of the box in range. -/
theorem rest_le_bound {n x : Int} {ns : List Int} {i : Nat} (hx : 0 ≤ x ∧ x < n)
    (hfits : (i + 1) * ((n :: ns).map Int.toNat).prod ≤ Word.bound) :
    (i * n.toNat + x.toNat + 1) * (ns.map Int.toNat).prod ≤ Word.bound := by
  rw [List.map_cons, List.prod_cons, ← Nat.mul_assoc] at hfits
  exact Nat.le_trans (Nat.mul_le_mul_right _ (lt_next_row i hx)) hfits

theorem one_le_of_inside {ns xs : List Int}
    (h : List.Forall₂ (fun n x => 0 ≤ x ∧ x < n) ns xs) : ∀ n ∈ ns, 1 ≤ n := by
  induction h with
  | nil => simp
  | cons hx _ ih => exact List.forall_mem_cons.mpr ⟨by omega, ih⟩

/-- The counting of a point in a box that is not too large stays in range. -/
theorem layoutFrom_of_inside {ns xs : List Int} {i : Nat} (hmax : ∀ n ∈ ns, n ≤ Idx.max)
    (h : List.Forall₂ (fun n x => 0 ≤ x ∧ x < n) ns xs)
    (hfits : (i + 1) * (ns.map Int.toNat).prod ≤ Word.bound) :
    layoutFrom i (ns.zip xs) = .ok (some (numberFrom i (ns.zip xs))) := by
  induction h generalizing i with
  | nil => rfl
  | @cons n x ns xs hx hxs ih =>
    rw [List.zip_cons_cons, layoutFrom_cons_of_inside (hmax n List.mem_cons_self) hx
      (row_le_bound (one_le_of_inside hxs) hfits)]
    exact ih (fun m hm => hmax m (List.mem_cons_of_mem _ hm)) (rest_le_bound hx hfits)

/-- The counting of a point outside the box ends, without a number, at the first coordinate that is
outside; up to there it stays in range. -/
theorem layoutFrom_of_outside {ns xs : List Int} {i : Nat} (hpos : ∀ n ∈ ns, 1 ≤ n)
    (hmax : ∀ n ∈ ns, n ≤ Idx.max) (hlen : ns.length = xs.length)
    (h : ¬ List.Forall₂ (fun n x => 0 ≤ x ∧ x < n) ns xs)
    (hfits : (i + 1) * (ns.map Int.toNat).prod ≤ Word.bound) :
    layoutFrom i (ns.zip xs) = .ok none := by
  induction ns generalizing xs i with
  | nil =>
    obtain rfl := List.length_eq_zero_iff.mp hlen.symm
    exact absurd .nil h
  | cons n ns ih =>
    obtain _ | ⟨x, xs⟩ := xs
    · cases hlen
    · rw [List.zip_cons_cons]
      -- Coordinates inside are counted first, and the bound says that this does not overflow.
      by_cases hx : 0 ≤ x ∧ x < n
      · rw [layoutFrom_cons_of_inside (hmax n List.mem_cons_self) hx
          (row_le_bound (fun m hm => hpos m (List.mem_cons_of_mem _ hm)) hfits)]
        exact ih (fun m hm => hpos m (List.mem_cons_of_mem _ hm))
          (fun m hm => hmax m (List.mem_cons_of_mem _ hm)) (by simpa using hlen)
          (fun hxs => h (.cons hx hxs)) (rest_le_bound hx hfits)
      · rw [layoutFrom, if_pos (by omega)]

/-- A point of a box that is not too large has a number. -/
theorem layout_of_inside {t u : DimVec} (hmax : ∀ n ∈ t.values, n ≤ Idx.max)
    (h : List.Forall₂ (fun n x => 0 ≤ x ∧ x < n) t.values u.values)
    (hfits : (t.values.map Int.toNat).prod ≤ Word.bound) :
    t.layout u = .ok (some (numberFrom 0 (t.values.zip u.values))) := by
  have hlen : u.length = t.length := by
    rw [← length_values, ← length_values, h.length_eq]
  rw [layout, if_neg (not_not.mpr hlen)]
  apply layoutFrom_of_inside hmax h
  rwa [Nat.zero_add, Nat.one_mul]

/-- A point outside a box that is not too large has none. -/
theorem layout_of_outside {t u : DimVec} (hpos : ∀ n ∈ t.values, 1 ≤ n)
    (hmax : ∀ n ∈ t.values, n ≤ Idx.max)
    (h : ¬ List.Forall₂ (fun n x => 0 ≤ x ∧ x < n) t.values u.values)
    (hfits : (t.values.map Int.toNat).prod ≤ Word.bound) : t.layout u = .ok none := by
  unfold layout
  split
  · rfl
  · next hlen =>
    apply layoutFrom_of_outside hpos hmax _ h
    · rwa [Nat.zero_add, Nat.one_mul]
    · rw [length_values, length_values]
      omega

/-- Quotients and remainders give a point of the box whose number is the given one, modulo the
number of points. -/
theorem unlayoutValues_spec {ns : List Int} (hns : ∀ n ∈ ns, 1 ≤ n) (k : Nat) :
    List.Forall₂ (fun n x => 0 ≤ x ∧ x < n) ns (unlayoutValues ns k).1 ∧
      (unlayoutValues ns k).2 = k / (ns.map Int.toNat).prod ∧
      ∀ i, numberFrom i (ns.zip (unlayoutValues ns k).1) =
        i * (ns.map Int.toNat).prod + k % (ns.map Int.toNat).prod := by
  induction ns with
  | nil =>
    refine ⟨.nil, (Nat.div_one k).symm, fun i => ?_⟩
    simp [unlayoutValues, numberFrom, Nat.mod_one]
  | cons n ns ih =>
    have hn := hns n List.mem_cons_self
    obtain ⟨hin, hpasses, hnumber⟩ := ih fun m hm => hns m (List.mem_cons_of_mem _ hm)
    rw [unlayoutValues]
    -- What is left of `k` after the inner dimensions is its quotient by their product.
    generalize unlayoutValues ns k = r at hin hpasses hnumber
    obtain ⟨rest, passes⟩ := r
    obtain rfl : passes = k / (ns.map Int.toNat).prod := hpasses
    have hsize : (max n 1).toNat = n.toNat := by omega
    dsimp only at hin hnumber ⊢
    rw [hsize, List.map_cons, List.prod_cons]
    generalize (ns.map Int.toNat).prod = m at hnumber ⊢
    have hlt : k / m % n.toNat < n.toNat := Nat.mod_lt _ (by omega)
    refine ⟨.cons ⟨by omega, by omega⟩ hin, ?_, fun i => ?_⟩
    · rw [Nat.div_div_eq_div_mul, Nat.mul_comm m]
    · rw [List.zip_cons_cons, numberFrom, hnumber, Int.toNat_natCast, Nat.mul_comm n.toNat m,
        Nat.mod_mul, Nat.add_mul, Nat.mul_assoc, Nat.mul_comm n.toNat m,
        Nat.mul_comm (k / m % n.toNat) m]
      omega

/-- The point with a number lies in the box and has that number, if there are so many points. -/
theorem unlayout_spec {t : DimVec} (hpos : ∀ n ∈ t.values, 1 ≤ n) {k : Nat}
    (hk : k < (t.values.map Int.toNat).prod) :
    List.Forall₂ (fun n x => 0 ≤ x ∧ x < n) t.values (t.unlayout k).values ∧
      numberFrom 0 (t.values.zip (t.unlayout k).values) = k := by
  obtain ⟨hin, -, hnumber⟩ := unlayoutValues_spec hpos k
  have hvalues : (t.unlayout k).values = (unlayoutValues t.values k).1 := by
    apply values_withValues
    rw [← hin.length_eq, length_values]
  rw [hvalues]
  refine ⟨hin, ?_⟩
  rw [hnumber 0, Nat.zero_mul, Nat.zero_add, Nat.mod_eq_of_lt hk]

/-- Only the positions of the coordinates count. -/
theorem layout_congr {t u w : DimVec} (h : u.values = w.values) : t.layout u = t.layout w := by
  have hlen : u.length = w.length := by rw [← length_values, h, length_values]
  simp only [layout, hlen, h]

end StencilPlan.DimVec
