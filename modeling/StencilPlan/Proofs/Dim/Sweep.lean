import StencilPlan.Proofs.Dim.Numbering

/-!
# What a sweep visits

A sweep walks through its box like an odometer, and `unlayout` finds a point by division. Both go
through the points in the same order: in the list of all points each one stands at the place that
is its number. To say what a visitor is called with, whatever it does, the visitor is run together
with a list of its calls (`recorded`), which changes nothing about the sweep.
-/

namespace StencilPlan.DimVec

/-! ### The points in order -/

/-- Rows of numbers that follow each other without a gap. -/
theorem flatMap_range' (first rows width : Nat) :
    ((List.range rows).flatMap fun x => List.range' ((first + x) * width) width) =
      List.range' (first * width) (rows * width) := by
  induction rows with
  | zero => simp
  | succ rows ih =>
    rw [List.range_succ, List.flatMap_append, ih, List.flatMap_singleton, Nat.add_mul,
      List.range'_append_1, Nat.succ_mul]

/-- The numbers of the points, as the points are listed, count up. -/
theorem map_numberFrom_boxPoints (i : Nat) (ns : List Int) :
    (boxPoints ns).map (fun p => numberFrom i (ns.zip p)) =
      List.range' (i * (ns.map Int.toNat).prod) (ns.map Int.toNat).prod := by
  induction ns generalizing i with
  | nil => simp [boxPoints, numberFrom]
  | cons n ns ih =>
    -- Each value of the outermost coordinate comes with a row of the points of the others.
    have hrow : ∀ x : Nat, ((boxPoints ns).map ((x : Int) :: ·)).map
        (fun p => numberFrom i ((n :: ns).zip p)) =
          List.range' ((i * n.toNat + x) * (ns.map Int.toNat).prod) (ns.map Int.toNat).prod := by
      intro x
      rw [List.map_map, ← ih]
      rfl
    rw [boxPoints, List.map_flatMap]
    simp only [hrow]
    rw [flatMap_range', List.map_cons, List.prod_cons, Nat.mul_assoc]

/-- The number of a point says where in the list it stands. -/
theorem numberFrom_of_getElem? {ns p : List Int} {k : Nat} (h : (boxPoints ns)[k]? = some p) :
    numberFrom 0 (ns.zip p) = k := by
  have hmap := congrArg (·[k]?) (map_numberFrom_boxPoints 0 ns)
  obtain ⟨hk, -⟩ := List.getElem?_eq_some_iff.mp h
  rw [length_boxPoints] at hk
  simpa [h, List.getElem?_range', hk] using hmap

theorem getElem?_numberFrom {ns p : List Int}
    (h : List.Forall₂ (fun n x => 0 ≤ x ∧ x < n) ns p) :
    (boxPoints ns)[numberFrom 0 (ns.zip p)]? = some p := by
  obtain ⟨k, hk⟩ := List.mem_iff_getElem?.mp (mem_boxPoints.mpr h)
  rw [numberFrom_of_getElem? hk, hk]

/-- The point at a place of the list is the one with that number. -/
theorem eq_unlayoutValues_of_getElem? {ns p : List Int} {k : Nat}
    (h : (boxPoints ns)[k]? = some p) : p = (unlayoutValues ns k).1 := by
  rw [← numberFrom_of_getElem? h]
  exact (unlayoutValues_numberFrom (mem_boxPoints.mp (List.mem_of_getElem? h))).symm

/-! ### The calls of a visitor -/

/-- One call of a visitor: what it was called with and whether it asked for more. -/
structure Call where
  point : DimVec
  index : Nat
  more : Bool

variable {σ : Type}

/-- The same visitor, writing down its calls. -/
def recorded (visit : DimVec → Nat → σ → Bool × σ) (p : DimVec) (k : Nat) (st : σ × List Call) :
    Bool × σ × List Call :=
  ((visit p k st.1).1, (visit p k st.1).2, st.2 ++ [⟨p, k, (visit p k st.1).1⟩])

/-- A visitor of points as it is called with coordinates by a sweep, which counts along. -/
def counted (t : DimVec) (visit : DimVec → Nat → σ → Bool × σ) (vs : List Int) (st : Nat × σ) :
    Bool × Nat × σ :=
  ((visit (t.withValues vs) st.1 st.2).1, st.1 + 1, (visit (t.withValues vs) st.1 st.2).2)

theorem sweep_of_pos {t : DimVec} (hpos : ∀ n ∈ t.values, 1 ≤ n)
    (visit : DimVec → Nat → σ → Bool × σ) (s : σ) :
    t.sweep visit s = ((visitList (t.counted visit) (boxPoints t.values) (0, s)).1,
      (visitList (t.counted visit) (boxPoints t.values) (0, s)).2.2) := by
  have hany : t.values.any (· ≤ 0) = false := by
    simp only [List.any_eq_false, decide_eq_true_eq, Int.not_le]
    exact hpos
  simp only [sweep, hany, Bool.false_eq_true, if_false, sweepValues_eq_visitList]
  rfl

/-- Calls for the points of a list, counted from `k` on: they go through the list up to the first
one that asks for no more. -/
inductive Goes (t : DimVec) : List (List Int) → Nat → List Call → Bool → Prop
  | done (k : Nat) : Goes t [] k [] true
  | stop (p : List Int) (ps : List (List Int)) (k : Nat) :
      Goes t (p :: ps) k [⟨t.withValues p, k, false⟩] false
  | go {p : List Int} {ps : List (List Int)} {k : Nat} {calls : List Call} {finished : Bool}
      (h : Goes t ps (k + 1) calls finished) :
      Goes t (p :: ps) k (⟨t.withValues p, k, true⟩ :: calls) finished

/-- Writing down the calls leaves the run as it is, and shows how it goes through the list. -/
theorem goes_of_visitList (t : DimVec) (visit : DimVec → Nat → σ → Bool × σ) (ps : List (List Int))
    (k : Nat) (s : σ) (before : List Call) :
    ∃ calls, Goes t ps k calls (visitList (t.counted visit) ps (k, s)).1 ∧
      (visitList (t.counted (recorded visit)) ps (k, s, before)).1 =
        (visitList (t.counted visit) ps (k, s)).1 ∧
      (visitList (t.counted (recorded visit)) ps (k, s, before)).2.2 =
        ((visitList (t.counted visit) ps (k, s)).2.2, before ++ calls) := by
  induction ps generalizing k s before with
  | nil => exact ⟨[], .done k, rfl, by simp [visitList]⟩
  | cons p ps ih =>
    simp only [visitList, counted, recorded]
    cases hmore : (visit (t.withValues p) k s).1 with
    | false => exact ⟨_, .stop p ps k, rfl, rfl⟩
    | true =>
      -- The record grows at its end, so it is carried through as what was called before.
      obtain ⟨calls, hgoes, hfinished, hstate⟩ := ih (k + 1) (visit (t.withValues p) k s).2
        (before ++ [⟨t.withValues p, k, true⟩])
      refine ⟨_, .go hgoes, hfinished, ?_⟩
      rw [List.append_assoc, List.singleton_append] at hstate
      exact hstate

namespace Goes

variable {t : DimVec} {ps : List (List Int)} {k : Nat} {calls : List Call} {finished : Bool}

/-- The calls are consecutive, each one for the point that is next. -/
theorem at_index (h : Goes t ps k calls finished) {j : Nat} {c : Call} (hc : calls[j]? = some c) :
    c.index = k + j ∧ ∃ p, ps[j]? = some p ∧ c.point = t.withValues p := by
  induction h generalizing j with
  | done k => simp at hc
  | stop p ps k =>
    cases j with
    | zero =>
      obtain rfl : _ = c := by simpa using hc
      exact ⟨rfl, p, rfl, rfl⟩
    | succ j => simp at hc
  | @go p ps k calls finished h ih =>
    cases j with
    | zero =>
      obtain rfl : _ = c := by simpa using hc
      exact ⟨rfl, p, rfl, rfl⟩
    | succ j =>
      obtain ⟨hindex, hpoint⟩ := ih (by simpa using hc)
      exact ⟨by omega, by simpa using hpoint⟩

/-- Nothing is called after a call that asks for no more. -/
theorem last_of_stop (h : Goes t ps k calls finished) {j : Nat} {c : Call}
    (hc : calls[j]? = some c) (hmore : c.more = false) : j + 1 = calls.length := by
  induction h generalizing j with
  | done k => simp at hc
  | stop p ps k =>
    obtain ⟨hj, -⟩ := List.getElem?_eq_some_iff.mp hc
    rw [List.length_singleton] at hj ⊢
    omega
  | go h ih =>
    cases j with
    | zero =>
      obtain rfl : _ = c := by simpa using hc
      cases hmore
    | succ j =>
      have := ih (by simpa using hc)
      rw [List.length_cons]
      omega

theorem finished_iff (h : Goes t ps k calls finished) :
    finished = false ↔ ∃ c ∈ calls, c.more = false := by
  induction h with
  | done k => simp
  | stop p ps k => simp
  | go h ih => simpa using ih

/-- Calls that are never stopped reach the end of the list. -/
theorem map_point (h : Goes t ps k calls true) : calls.map Call.point = ps.map t.withValues := by
  generalize hf : true = finished at h
  induction h with
  | done k => rfl
  | stop p ps k => cases hf
  | go h ih => rw [List.map_cons, List.map_cons, ih hf]

end Goes

/-! ### A sweep as a whole -/

theorem countable_of_product {t : DimVec} {total : Int} (hpos : ∀ n ∈ t.values, 1 ≤ n)
    (h : t.product = .ok total) : t.Countable := by
  obtain ⟨rfl, hrange⟩ := Idx.product_eq_ok h
  exact ⟨hpos, hrange.2⟩

theorem sweep_of_not_pos {t : DimVec} (h : ∃ n ∈ t.values, n ≤ 0)
    (visit : DimVec → Nat → σ → Bool × σ) (s : σ) : t.sweep visit s = (true, s) := by
  have hany : t.values.any (· ≤ 0) = true := by simpa using h
  rw [sweep, if_pos hany]

/-- The points of a box, as a sweep makes them up. -/
theorem mem_map_withValues {t u : DimVec} (h : u.names = t.names) :
    u ∈ (boxPoints t.values).map t.withValues ↔
      List.Forall₂ (fun n x => 0 ≤ x ∧ x < n) t.values u.values := by
  rw [List.mem_map]
  constructor
  · rintro ⟨p, hp, rfl⟩
    have hlength := length_of_mem_boxPoints hp
    rw [length_values] at hlength
    rw [values_withValues hlength]
    exact mem_boxPoints.mp hp
  · intro hin
    exact ⟨u.values, mem_boxPoints.mpr hin, withValues_values h⟩

namespace Countable

variable {t : DimVec} {calls : List Call} {finished : Bool} {k : Nat} {c : Call}

/-- In a sweep each call is for the point with the number that it gives. -/
theorem call_eq (h : t.Countable) (hgoes : Goes t (boxPoints t.values) 0 calls finished)
    (hc : calls[k]? = some c) :
    c.index = k ∧ c.point = t.unlayout k ∧ t.layout c.point = .ok (some k) := by
  obtain ⟨hindex, p, hp, hpoint⟩ := hgoes.at_index hc
  have hunlayout : c.point = t.unlayout k := by
    rw [hpoint, eq_unlayoutValues_of_getElem? hp, unlayout]
  obtain ⟨hk, -⟩ := List.getElem?_eq_some_iff.mp hp
  rw [length_boxPoints, ← Int.ofNat_lt, h.cast_prod] at hk
  rw [hunlayout]
  exact ⟨by omega, rfl, h.layout_unlayout hk⟩

/-- Since a point has one number, a sweep does not come to it twice. -/
theorem nodup_points (h : t.Countable) (hgoes : Goes t (boxPoints t.values) 0 calls finished) :
    (calls.map Call.point).Nodup := by
  rw [List.nodup_iff_getElem?_ne_getElem?]
  intro i j hij hj heq
  rw [List.length_map] at hj
  rw [List.getElem?_map, List.getElem?_map, List.getElem?_eq_getElem hj,
    List.getElem?_eq_getElem (hij.trans hj)] at heq
  have hpoint := Option.some.inj heq
  have hlayout := (h.call_eq hgoes (List.getElem?_eq_getElem (hij.trans hj))).2.2
  rw [hpoint, (h.call_eq hgoes (List.getElem?_eq_getElem hj)).2.2] at hlayout
  have hsame : j = i := by simpa using hlayout
  omega

end Countable

/-- Whatever the visitor does, a sweep calls it with the numbers from zero on and with the points
that have these numbers, with none of them twice, and for the last time when it first answers
`false`. The sweep tells whether this happened. If it did not, the calls were for all points of the
box: as many as the product of the sizes, and none if some size is not positive. -/
theorem sweep_calls {t : DimVec} {total : Int} (htotal : t.product = .ok total)
    (visit : DimVec → Nat → σ → Bool × σ) (s : σ) :
    ∃ calls : List Call,
      t.sweep (recorded visit) (s, []) = ((t.sweep visit s).1, (t.sweep visit s).2, calls) ∧
      (∀ k c, calls[k]? = some c →
        c.index = k ∧ c.point = t.unlayout k ∧ t.layout c.point = .ok (some k) ∧
          (c.more = false → k + 1 = calls.length)) ∧
      (calls.map Call.point).Nodup ∧
      ((t.sweep visit s).1 = false ↔ ∃ c ∈ calls, c.more = false) ∧
      ((t.sweep visit s).1 = true →
        (calls.length : Int) = (if ∃ n ∈ t.values, n ≤ 0 then 0 else total) ∧
          ∀ u : DimVec, u.names = t.names → (u ∈ calls.map Call.point ↔
            List.Forall₂ (fun n x => 0 ≤ x ∧ x < n) t.values u.values)) := by
  by_cases hzero : ∃ n ∈ t.values, n ≤ 0
  · rw [sweep_of_not_pos hzero, sweep_of_not_pos hzero]
    refine ⟨[], rfl, by simp, by simp, by simp, fun _ => ⟨by simp [hzero], fun u _ => ?_⟩⟩
    -- There is no such point either.
    obtain ⟨n, hn, hle⟩ := hzero
    have hempty : ¬ List.Forall₂ (fun n x => 0 ≤ x ∧ x < n) t.values u.values := by
      intro hin
      have := one_le_of_inside hin n hn
      omega
    simp [hempty]
  · have hpos : ∀ n ∈ t.values, 1 ≤ n := by
      intro n hn
      by_contra hlt
      exact hzero ⟨n, hn, by omega⟩
    have hcount := countable_of_product hpos htotal
    -- The sweep visits the points of the box in a list, and `Goes` records the visits made.
    obtain ⟨calls, hgoes, hfinished, hstate⟩ :=
      goes_of_visitList t visit (boxPoints t.values) 0 s []
    rw [sweep_of_pos hpos, sweep_of_pos hpos]
    refine ⟨calls, by rw [hfinished, hstate]; rfl, fun k c hc => ?_, hcount.nodup_points hgoes,
      hgoes.finished_iff, fun htrue => ?_⟩
    · obtain ⟨hindex, hpoint, hlayout⟩ := hcount.call_eq hgoes hc
      exact ⟨hindex, hpoint, hlayout, hgoes.last_of_stop hc⟩
    · rw [htrue] at hgoes
      have hpoints := hgoes.map_point
      have hlength : calls.length = (boxPoints t.values).length := by
        simpa using congrArg List.length hpoints
      refine ⟨?_, fun u hu => ?_⟩
      · rw [if_neg hzero, hlength, length_boxPoints, hcount.cast_prod, (Idx.product_eq_ok htotal).1]
      · rw [hpoints]
        exact mem_map_withValues hu

namespace Halting

/-- Three rows of three points. -/
def box : DimVec := ⟨[("x", 3), ("y", 3)]⟩

/-- Counts the points it sees, and has enough at the one with number four. -/
def visit (_ : DimVec) (k : Nat) (seen : Nat) : Bool × Nat := (k < 4, seen + 1)

end Halting

/-- A sweep that is stopped in the middle of the second row has made five calls. -/
theorem sweep_calls_halting : Halting.box.product = .ok 9 ∧
    ∃ calls : List Call,
      Halting.box.sweep (recorded Halting.visit) (0, []) = (false, 5, calls) ∧
      (∃ c ∈ calls, c.more = false) ∧ (calls.map Call.point).Nodup ∧
      ∀ c, calls[4]? = some c → c.point = ⟨[("x", 1), ("y", 1)]⟩ := by
  have hstopped : Halting.box.sweep Halting.visit 0 = (false, 5) := by decide +kernel
  obtain ⟨calls, hrun, hcalls, hnodup, hstop, -⟩ :=
    sweep_calls (show Halting.box.product = .ok 9 by decide) Halting.visit 0
  rw [hstopped] at hrun hstop
  refine ⟨by decide, calls, hrun, hstop.mp rfl, hnodup, fun c hc => ?_⟩
  rw [(hcalls 4 c hc).2.1]
  decide

end StencilPlan.DimVec
