import Mathlib.Data.Nat.Factors
import Mathlib.Tactic.NormNum.Prime
import StencilPlan.Rank.Factors
import StencilPlan.Proofs.Yields

/-!
# Trial division finds the prime factors

A divisor is tried only after all smaller ones were divided out. So no prime below it divides what
is left, and this is the one invariant of the search: a divisor that divides is then the least
factor and a prime, and what is left in the end, when the square of the divisor is above it, is a
prime too. What is found is therefore the list of prime factors in increasing order.

Squares are taken in 64 bits. For a number that fits into 63 bits every divisor that is tried has a
square that fits, since the divisor before it was squared within the number.
-/

namespace StencilPlan

/-- The primes that divide `n` are at least `p`. -/
def Sifted (n p : Nat) : Prop := ∀ q, q.Prime → q ∣ n → p ≤ q

namespace Sifted

variable {n p : Nat}

theorem two (n : Nat) : Sifted n 2 := fun _ hq _ => hq.two_le

/-- Dividing by a divisor brings no new primes in. -/
theorem div (h : Sifted n p) (hdvd : p ∣ n) : Sifted (n / p) p :=
  fun q hq hqn => h q hq (hqn.trans (Nat.div_dvd_of_dvd hdvd))

/-- A divisor that does not divide is left behind. -/
theorem succ (h : Sifted n p) (hdvd : ¬ p ∣ n) : Sifted n (p + 1) := by
  intro q hq hqn
  have hle := h q hq hqn
  have hne : p ≠ q := fun heq => hdvd (heq ▸ hqn)
  omega

/-- The least divisor that divides is the least factor. -/
theorem minFac_eq (h : Sifted n p) (hp : 2 ≤ p) (hn : n ≠ 1) (hdvd : p ∣ n) : n.minFac = p :=
  Nat.le_antisymm (Nat.minFac_le_of_dvd hp hdvd) (h _ (Nat.minFac_prime hn) (Nat.minFac_dvd n))

/-- What is left is a prime when the square of the divisor is above it. -/
theorem prime (h : Sifted n p) (hn : 2 ≤ n) (hlt : n < p * p) : n.Prime := by
  by_contra hnot
  -- Otherwise the square of the least factor would be within the number.
  have hle : p ≤ n.minFac := h _ (Nat.minFac_prime (by omega)) (Nat.minFac_dvd n)
  have hsquare : n.minFac ^ 2 ≤ n := Nat.minFac_sq_le_self (by omega) hnot
  have hmul := Nat.mul_le_mul hle hle
  rw [Nat.pow_two] at hsquare
  omega

end Sifted

theorem primeFactorsList_of_minFac {n p : Nat} (hn : 2 ≤ n) (h : n.minFac = p) :
    n.primeFactorsList = p :: (n / p).primeFactorsList := by
  obtain ⟨m, rfl⟩ := Nat.exists_eq_add_of_le' hn
  rw [Nat.primeFactorsList_add_two, h]

/-- The search for divisors from `p` on finds the prime factors of a number without smaller ones. -/
theorem factorsFrom_eq_ok {n p : Nat} {hp : 2 ≤ p} {ps : List Nat} (hn : 0 < n)
    (hsifted : Sifted n p) (h : factorsFrom n p hp = .ok ps) : ps = n.primeFactorsList := by
  -- The cases of the search: a square out of range, a divisor whose quotient fails, a divisor, no
  -- divisor, and the end.
  induction n, p, hp using factorsFrom.induct generalizing ps with
  | case1 n p hp f hsquare =>
    rw [factorsFrom, hsquare] at h
    cases h
  | case2 n p hp _ hsquare hle hmod f hrest ih =>
    rw [factorsFrom, hsquare] at h
    simp [hle, hmod, hrest] at h
  | case3 n p hp _ hsquare hle hmod qs hrest ih =>
    rw [factorsFrom, hsquare] at h
    simp only [hle, hmod, hrest, dif_pos, if_pos, Except.ok.injEq] at h
    have hdvd : p ∣ n := Nat.dvd_of_mod_eq_zero hmod
    have hpn : p ≤ n := Nat.le_of_dvd hn hdvd
    -- The list begins with the least factor, and that is this divisor.
    have hfac := hsifted.minFac_eq hp (by omega) hdvd
    rw [← h, ih (Nat.div_pos hpn (by omega)) (hsifted.div hdvd) hrest,
      primeFactorsList_of_minFac (by omega) hfac]
  | case4 n p hp _ hsquare hle hmod ih =>
    rw [factorsFrom, hsquare] at h
    simp only [hle, hmod, dif_pos, if_false] at h
    exact ih hn (hsifted.succ fun hdvd => hmod (Nat.mod_eq_zero_of_dvd hdvd)) h
  | case5 n p hp _ hsquare hle =>
    rw [factorsFrom, hsquare] at h
    simp only [hle, dif_neg, not_false_iff, Except.ok.injEq] at h
    rw [← h]
    split
    · next hone => rw [Nat.primeFactorsList_prime (hsifted.prime hone (by omega))]
    · obtain rfl : n = 1 := by omega
      rw [Nat.primeFactorsList_one]

theorem primeFactors_eq_ok {n : Nat} {ps : List Nat} (hn : 0 < n) (h : primeFactors n = .ok ps) :
    ps = n.primeFactorsList.reverse := by
  simp only [primeFactors, bind_eq_ok, pure_eq_ok] at h
  obtain ⟨qs, hqs, rfl⟩ := h
  rw [factorsFrom_eq_ok hn (.two n) hqs]

/-- The factors of a number multiply to it. -/
theorem primeFactors_prod {n : Nat} {ps : List Nat} (hn : 0 < n) (h : primeFactors n = .ok ps) :
    ps.prod = n := by
  rw [primeFactors_eq_ok hn h, List.prod_reverse, Nat.prod_primeFactorsList (by omega)]

/-! ### Squares stay in range -/

/-- The factors of a signed count are found: the divisor that is tried stays below 2 ^ 32, since its
predecessor was squared within the count. -/
theorem exists_factorsFrom {n p : Nat} (hp : 2 ≤ p) (hn : (n : Int) ≤ Idx.max)
    (hlt : p < 4294967296) : ∃ ps, factorsFrom n p hp = .ok ps := by
  have hmul : ∀ q : Nat, q < 4294967296 → Word.mul q q = .ok (q * q) := by
    intro q hq
    have hle : q * q ≤ 4294967295 * 4294967295 := Nat.mul_le_mul (by omega) (by omega)
    refine Word.check_eq_ok_iff.mpr ⟨?_, rfl⟩
    simp only [Word.bound]
    omega
  induction n, p, hp using factorsFrom.induct with
  | case1 n p hp f hsquare =>
    rw [hmul p hlt] at hsquare
    cases hsquare
  | case2 n p hp _ hsquare hle hmod f hrest ih =>
    have hquotient : ((n / p : Nat) : Int) ≤ Idx.max := by
      have := Nat.div_le_self n p
      omega
    obtain ⟨ps, hps⟩ := ih hquotient hlt
    rw [hrest] at hps
    cases hps
  | case3 n p hp _ hsquare hle hmod qs hrest ih =>
    rw [factorsFrom, hsquare]
    simp only [hle, hmod, hrest, dif_pos, if_pos]
    exact ⟨_, rfl⟩
  | case4 n p hp _ hsquare hle hmod ih =>
    -- A divisor that could not go up any more would have a square above all signed numbers.
    have hnext : p + 1 < 4294967296 := by
      by_contra hge
      have hlarge : 4294967295 * 4294967295 ≤ p * p := Nat.mul_le_mul (by omega) (by omega)
      simp only [Idx.max] at hn
      omega
    rw [factorsFrom, hsquare]
    simp only [hle, hmod, dif_pos, if_false]
    exact ih hn hnext
  | case5 n p hp _ hsquare hle =>
    rw [factorsFrom, hsquare]
    simp only [hle, dif_neg, not_false_iff]
    exact ⟨_, rfl⟩

theorem exists_primeFactors {n : Nat} (hn : (n : Int) ≤ Idx.max) :
    ∃ ps, primeFactors n = .ok ps := by
  obtain ⟨ps, hps⟩ := exists_factorsFrom (Nat.le_refl 2) hn (by decide)
  exact ⟨ps.reverse, by simp [primeFactors, hps]⟩

/-! ### All prime factors, the greatest first -/

/-- A list of primes is known from their product and its order. -/
theorem eq_of_prime_of_prod {ps qs : List Nat} (hps : ∀ p ∈ ps, p.Prime)
    (hqs : ∀ q ∈ qs, q.Prime) (hprod : ps.prod = qs.prod) (hsorted : ps.Pairwise (· ≥ ·))
    (hsorted' : qs.Pairwise (· ≥ ·)) : ps = qs := by
  have hperm := (Nat.primeFactorsList_unique hprod hps).trans
    (Nat.primeFactorsList_unique rfl hqs).symm
  exact hperm.eq_of_pairwise' hsorted hsorted'

/-- Of every number from one to the greatest signed one, the factors that are found without overflow
are all prime, come with the greatest first and multiply to the number. -/
theorem primeFactors_complete {n : Nat} (hpos : 1 ≤ n) (hlt : n < 2 ^ 63) :
    ∃ ps, primeFactors n = .ok ps ∧ ps.Pairwise (· ≥ ·) ∧ (∀ p ∈ ps, p.Prime) ∧ ps.prod = n := by
  have hmax : (n : Int) ≤ Idx.max := by
    simp only [Idx.max]
    omega
  obtain ⟨ps, hps⟩ := exists_primeFactors hmax
  refine ⟨ps, hps, ?_, fun p hp => ?_, primeFactors_prod hpos hps⟩
  · rw [primeFactors_eq_ok hpos hps, List.pairwise_reverse]
    exact (Nat.primeFactorsList_sorted n).pairwise
  · rw [primeFactors_eq_ok hpos hps, List.mem_reverse] at hp
    exact Nat.prime_of_mem_primeFactorsList hp

/-- The greatest number of all, which has a factor twice. The factors are those that are known,
since there is only one such list. -/
theorem primeFactors_complete_largest :
    1 ≤ 2 ^ 63 - 1 ∧ 2 ^ 63 - 1 < 2 ^ 63 ∧
      ∃ ps, primeFactors (2 ^ 63 - 1) = .ok ps ∧ ps.Pairwise (· ≥ ·) ∧ (∀ p ∈ ps, p.Prime) ∧
        ps.prod = 2 ^ 63 - 1 ∧ ps = [649657, 92737, 337, 127, 73, 7, 7] := by
  have hpos : 1 ≤ 2 ^ 63 - 1 := by decide
  have hlt : 2 ^ 63 - 1 < 2 ^ 63 := by decide
  obtain ⟨ps, hps, hsorted, hprime, hprod⟩ := primeFactors_complete hpos hlt
  have hknown : ∀ p ∈ [649657, 92737, 337, 127, 73, 7, 7], p.Prime := by
    simp only [List.forall_mem_cons]
    norm_num
  exact ⟨hpos, hlt, ps, hps, hsorted, hprime, hprod,
    eq_of_prime_of_prod hprime hknown (hprod.trans (by decide)) hsorted (by decide)⟩

end StencilPlan
