import Mathlib.Order.Bounds.Basic
import StencilPlan.Arith.Rounding
import StencilPlan.Proofs.Yields

/-!
# Results up to overflow

Most arithmetic here can leave the 64-bit range, and a theorem about it has to say "unless that
happens" at every operation. `Gives` says it once: a computation gives a result with a property,
or it stops with the fault of the arithmetic, and it never stops in any other way. Each operation
has its lemma in this form, and rounding is the first of them that needs an argument.
-/

namespace StencilPlan

section Gives

variable {ε α β : Type} {overflow : ε} {P : α → Prop} {Q : β → Prop}

/-- The computation comes to a result with the property `P`, unless it stops with `overflow`. -/
def Gives (overflow : ε) (x : Except ε α) (P : α → Prop) : Prop :=
  x = .error overflow ∨ ∃ a, x = .ok a ∧ P a

theorem gives_pure {a : α} (h : P a) : Gives overflow (pure a) P := .inr ⟨a, rfl, h⟩

theorem Gives.mono {x : Except ε α} {P' : α → Prop} (hx : Gives overflow x P)
    (h : ∀ a, P a → P' a) : Gives overflow x P' := by
  rcases hx with hx | ⟨a, hx, ha⟩
  · exact .inl hx
  · exact .inr ⟨a, hx, h a ha⟩

theorem Gives.bind {x : Except ε α} {f : α → Except ε β} (hx : Gives overflow x P)
    (hf : ∀ a, P a → Gives overflow (f a) Q) : Gives overflow (x >>= f) Q := by
  rcases hx with rfl | ⟨a, rfl, ha⟩
  · exact .inl rfl
  · exact hf a ha

theorem Gives.foldlM {f : β → α → Except ε β} (l : List α) {b : β} (hb : Q b)
    (hf : ∀ b a, Q b → Gives overflow (f b a) Q) : Gives overflow (l.foldlM f b) Q := by
  induction l generalizing b with
  | nil => exact gives_pure hb
  | cons a l ih =>
    rw [List.foldlM_cons]
    exact (hf b a hb).bind fun b' hb' => ih hb'

/-- What a computation gives may be found by taking its successes apart. -/
theorem Gives.of_forall_ok {x : Except ε α} {P' : α → Prop} (hx : Gives overflow x P)
    (h : ∀ a, x = .ok a → P' a) : Gives overflow x P' := by
  rcases hx with hx | ⟨a, hx, -⟩
  · exact .inl hx
  · exact .inr ⟨a, hx, h a hx⟩

/-- Where it does not overflow, a computation that gives something succeeds. -/
theorem Gives.exists_ok {x : Except ε α} (hx : Gives overflow x P) (h : x ≠ .error overflow) :
    ∃ a, x = .ok a ∧ P a :=
  hx.resolve_left h

theorem Gives.of_ok {x : Except ε α} {a : α} (hx : Gives overflow x P) (h : x = .ok a) : P a := by
  rcases hx with hx | ⟨b, hb, hP⟩
  · rw [h] at hx
    cases hx
  · rw [h] at hb
    cases hb
    exact hP

end Gives

namespace Task

variable {α β : Type} {P : α → Prop} {Q : β → Prop}

/-- The stateless task comes to a result with the property `P`, unless the arithmetic faults. -/
def Gives (x : Task Unit α) (v : Verbosity) (P : α → Prop) : Prop :=
  StencilPlan.Gives (.fault .arithmetic) (x.run v ()).result P

theorem result_bind (x : Task Unit α) (f : α → Task Unit β) (v : Verbosity) :
    ((x >>= f).run v ()).result = (x.run v ()).result >>= fun a => ((f a).run v ()).result := by
  cases hx : x.run v () with
  | mk r u j =>
    cases r with
    | error e => rw [run_bind_error hx]; rfl
    | ok a => rw [run_bind_ok hx]; rfl

variable {v : Verbosity} {x : Task Unit α} {f : α → Task Unit β}

theorem gives_pure {a : α} (h : P a) : (pure a : Task Unit α).Gives v P :=
  .inr ⟨a, rfl, h⟩

theorem Gives.bind (hx : x.Gives v P) (hf : ∀ a, P a → (f a).Gives v Q) : (x >>= f).Gives v Q := by
  unfold Gives
  rw [result_bind]
  exact StencilPlan.Gives.bind hx hf

theorem gives_ite {p : Prop} [Decidable p] {y : Task Unit α} (hx : x.Gives v P)
    (hy : y.Gives v P) : (if p then x else y).Gives v P := by
  split <;> assumption

theorem gives_checked {y : Checked α} (hy : StencilPlan.Gives .arithmetic y P) :
    (liftM y : Task Unit α).Gives v P := by
  rcases hy with rfl | ⟨a, rfl, ha⟩
  · exact .inl rfl
  · exact .inr ⟨a, rfl, ha⟩

theorem gives_note (k : Severity) (text : String) : (note k text).Gives v fun _ => True := by
  refine .inr ⟨(), ?_, trivial⟩
  simp only [run, note, noteWith]
  split <;> rfl

end Task

/-! ### The checked operations -/

namespace Idx

variable {a b n : Int}

theorem inRange_of_nonneg (h : 0 ≤ n) (hle : n ≤ max) : InRange n := by
  simp only [InRange, min]
  omega

/-- A quotient is not farther from zero than the number that was divided. -/
theorem inRange_ediv (ha : InRange a) (hb : 1 ≤ b) : InRange (a / b) := by
  obtain ⟨hmin, hmax⟩ := ha
  rcases Int.le_total 0 a with h | h
  · exact inRange_of_nonneg (Int.ediv_nonneg h (by omega)) ((Int.ediv_le_self b h).trans hmax)
  · have hmul : a * b ≤ a * 1 := Int.mul_le_mul_of_nonpos_left h hb
    have hle : a ≤ a / b := Int.le_ediv_of_mul_le (by omega) (by rwa [Int.mul_one] at hmul)
    have hnonpos : a / b ≤ 0 := Int.ediv_nonpos_of_nonpos_of_neg h (by omega)
    exact ⟨hmin.trans hle, hnonpos.trans (by decide)⟩

theorem gives_check : Gives .arithmetic (check n) (· = n) := by
  unfold check
  split
  · exact .inr ⟨n, rfl, rfl⟩
  · exact .inl rfl

theorem gives_add : Gives .arithmetic (add a b) (· = a + b) := gives_check

theorem gives_sub : Gives .arithmetic (sub a b) (· = a - b) := gives_check

theorem gives_mul : Gives .arithmetic (mul a b) (· = a * b) := gives_check

theorem gives_div (hb : b ≠ 0) : Gives .arithmetic (div a b) (· = a.tdiv b) := by
  rw [div, if_neg hb]
  exact gives_check

theorem gives_rem (hb : b ≠ 0) : Gives .arithmetic (rem a b) (· = a.tmod b) :=
  (gives_div hb).bind fun _ _ => gives_pure rfl

theorem gives_euclidDiv (hb : b ≠ 0) : Gives .arithmetic (euclidDiv a b) (· = a / b) := by
  rw [euclidDiv, if_neg hb]
  exact gives_check

theorem gives_sum (ns : List Int) : Gives .arithmetic (sum ns) fun _ => True :=
  Gives.foldlM ns trivial fun _ _ _ => gives_add.mono fun _ _ => trivial

/-- The remainder of a number in range by a positive divisor never faults. -/
theorem rem_of_pos (ha : InRange a) (hb : 0 < b) : rem a b = .ok (a.tmod b) := by
  have hle : (a.tdiv b).natAbs ≤ a.natAbs := by
    rw [Int.natAbs_tdiv]
    exact Nat.div_le_self _ _
  have hrange : InRange (a.tdiv b) := by
    simp only [InRange, min, max] at ha ⊢
    rcases Int.le_total 0 a with h | h
    · have hnonneg := Int.tdiv_nonneg h hb.le
      omega
    · have hnonneg := Int.tdiv_nonneg (Int.neg_nonneg_of_nonpos h) hb.le
      rw [Int.neg_tdiv] at hnonneg
      omega
  have hdiv : div a b = .ok (a.tdiv b) := div_eq_ok_iff.mpr ⟨hb.ne', hrange, rfl⟩
  rw [rem, hdiv]
  rfl

end Idx

/-! ### Rounding -/

/-- The least multiple of `m` that is not below `n`, for a positive `m`. -/
def multipleAbove (n m : Int) : Int := (n + m - 1) / m * m

section Rounding

variable {n m k : Int}

theorem dvd_multipleAbove (n m : Int) : m ∣ multipleAbove n m := Int.dvd_mul_left _ _

theorem le_multipleAbove (hm : 0 < m) : n ≤ multipleAbove n m := by
  have hlt := Int.lt_ediv_add_one_mul_self (n + m - 1) hm
  rw [Int.add_mul, Int.one_mul] at hlt
  unfold multipleAbove
  omega

theorem multipleAbove_le (hm : 0 < m) (hk : m ∣ k) (hn : n ≤ k) : multipleAbove n m ≤ k := by
  obtain ⟨q, rfl⟩ := hk
  have hlt : (n + m - 1) / m < q + 1 := by
    refine Int.ediv_lt_of_lt_mul hm ?_
    rw [Int.add_mul, Int.one_mul, Int.mul_comm q m]
    omega
  rw [multipleAbove, Int.mul_comm m q]
  exact Int.mul_le_mul_of_nonneg_right (by omega) hm.le

/-- Rounding up finds the least multiple there is. -/
theorem isLeast_multipleAbove (hm : 0 < m) : IsLeast {k | n ≤ k ∧ m ∣ k} (multipleAbove n m) :=
  ⟨⟨le_multipleAbove hm, dvd_multipleAbove n m⟩, fun _ hk => multipleAbove_le hm hk.2 hk.1⟩

theorem multipleAbove_of_dvd (hm : 0 < m) (h : m ∣ n) : multipleAbove n m = n :=
  le_antisymm (multipleAbove_le hm h le_rfl) (le_multipleAbove hm)

theorem gives_ceilDiv (n d : Int) :
    Gives .arithmetic (ceilDiv n d) fun q => 0 < d → q = (n + d - 1) / d := by
  unfold ceilDiv
  split
  · next h => exact gives_pure fun hd => absurd h (by omega)
  · next h =>
    refine Idx.gives_add.bind fun above habove => Idx.gives_sub.bind fun last hlast => ?_
    refine (Idx.gives_euclidDiv (by omega)).mono fun q hq _ => ?_
    rw [hq, hlast, habove]

/-- A multiple of one or less stands for no rounding at all. -/
theorem gives_roundUp_max (n m : Int) :
    Gives .arithmetic (roundUp n m) (· = multipleAbove n (max m 1)) := by
  unfold roundUp
  split
  · next h =>
    rw [max_eq_right h]
    exact gives_pure (by rw [multipleAbove]; omega)
  · next h =>
    rw [max_eq_left (by omega)]
    refine (gives_ceilDiv n m).bind fun q hq => Idx.gives_mul.mono fun r hr => ?_
    rw [hr, hq (by omega), multipleAbove]

theorem gives_roundUp (hm : 0 < m) :
    Gives .arithmetic (roundUp n m) (· = multipleAbove n m) := by
  have h := gives_roundUp_max n m
  rwa [max_eq_left hm] at h

/-! ### Where rounding has a result -/

theorem ceilDiv_of_add_le (hn : Idx.InRange n) (hm : 1 ≤ m) (h : n + m ≤ Idx.max) :
    ceilDiv n m = .ok ((n + m - 1) / m) := by
  obtain ⟨hmin, -⟩ := hn
  -- Below zero nothing is left of the range, since the divisor is added before one is taken away.
  have habove : Idx.InRange (n + m) := ⟨by omega, h⟩
  have hlast : Idx.InRange (n + m - 1) := ⟨by omega, by omega⟩
  rw [ceilDiv, if_neg (by omega)]
  simp only [bind_eq_ok, Idx.add_eq_ok_iff, Idx.sub_eq_ok_iff, Idx.euclidDiv_eq_ok_iff]
  exact ⟨_, ⟨habove, rfl⟩, _, ⟨hlast, rfl⟩, by omega, Idx.inRange_ediv hlast hm, rfl⟩

theorem ceilDiv_of_lt_add (hm : 1 ≤ m) (h : Idx.max < n + m) :
    ceilDiv n m = .error .arithmetic := by
  have habove : ¬ Idx.InRange (n + m) := fun hrange => absurd hrange.2 (by omega)
  rw [ceilDiv, if_neg (by omega), Idx.add, Idx.check, if_neg habove]
  rfl

theorem roundUp_of_add_le (hn : Idx.InRange n) (hm : 1 ≤ m) (h : n + m ≤ Idx.max) :
    roundUp n m = .ok (multipleAbove n m) := by
  by_cases hone : m ≤ 1
  · obtain rfl : m = 1 := by omega
    rw [roundUp, if_pos hone, multipleAbove_of_dvd hm (Int.one_dvd n)]
    rfl
  · -- The multiple is between two numbers in range.
    have hle : n ≤ multipleAbove n m := le_multipleAbove hm
    have hlt : multipleAbove n m ≤ n + m - 1 := Int.ediv_mul_le _ (by omega)
    have hrange : Idx.InRange (multipleAbove n m) := ⟨hn.1.trans hle, by omega⟩
    rw [roundUp, if_neg hone, ceilDiv_of_add_le hn hm h]
    exact Idx.mul_eq_ok_iff.mpr ⟨hrange, rfl⟩

theorem roundUp_of_lt_add (hm : 2 ≤ m) (h : Idx.max < n + m) :
    roundUp n m = .error .arithmetic := by
  rw [roundUp, if_neg (by omega), ceilDiv_of_lt_add (by omega) h]
  rfl

end Rounding

end StencilPlan
