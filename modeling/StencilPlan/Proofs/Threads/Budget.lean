import StencilPlan.Proofs.Yields
import StencilPlan.Threads.Layout

/-!
# How much of the budget is used

Sharing out threads rounds down twice, so some of the budget may stay idle. The threads left over
are never enough for one more team, and a larger number of threads to share out never brings fewer
of them into use: a budget below the size asked for is a single team and wholly used, and from there
on the teams keep their size.
-/

namespace StencilPlan.ThreadSplit

variable {m m' d r : Nat}

/-- Threads in use on both levels together. -/
def inUse (t : ThreadSplit) : Nat := t.regionThreads * t.blockThreads

theorem one_le_available_split (m d r : Nat) : 1 ≤ (split m d r).available := Nat.le_max_right _ _

theorem blockThreads_le_available_split (m d r : Nat) :
    (split m d r).blockThreads ≤ (split m d r).available := Nat.min_le_right _ _

/-- There is a team, so the region threads need not be raised to one. -/
theorem regionThreads_split (m d r : Nat) : (split m d r).regionThreads =
    (split m d r).available / (split m d r).blockThreads := by
  have hone := Nat.div_pos (blockThreads_le_available_split m d r) (one_le_blockThreads_split m d r)
  exact Nat.max_eq_left hone

theorem available_split_mono (h : m ≤ m') (d r : Nat) :
    (split m d r).available ≤ (split m' d r).available := by
  have hmax : max m 1 ≤ max m' 1 := by omega
  have hdiv : max m 1 / max d 1 ≤ max m' 1 / max d 1 := Nat.div_le_div_right hmax
  simp only [split]
  omega

theorem available_split_lt (h : m < Word.bound) (d r : Nat) :
    (split m d r).available < Word.bound := by
  have hdiv : max m 1 / max d 1 ≤ max m 1 := Nat.div_le_self _ _
  simp only [split, Word.bound] at h ⊢
  omega

theorem inUse_split (m d r : Nat) : (split m d r).inUse =
    (split m d r).available / (split m d r).blockThreads * (split m d r).blockThreads := by
  rw [inUse, regionThreads_split]

theorem inUse_le_available (m d r : Nat) : (split m d r).inUse ≤ (split m d r).available := by
  rw [inUse_split]
  exact Nat.div_mul_le_self _ _

/-- What is left over is less than a team. -/
theorem available_sub_inUse_lt (m d r : Nat) :
    (split m d r).available - (split m d r).inUse < (split m d r).blockThreads := by
  have hmod := Nat.mod_lt (split m d r).available (one_le_blockThreads_split m d r)
  have hsum := Nat.div_add_mod' (split m d r).available (split m d r).blockThreads
  rw [inUse_split]
  omega

/-- A budget that is not above the size asked for is one team. -/
theorem inUse_of_available_le (h : (split m d r).available ≤ max r 1) :
    (split m d r).inUse = (split m d r).available := by
  have hblock : (split m d r).blockThreads = (split m d r).available := Nat.min_eq_right h
  rw [inUse_split, hblock, Nat.div_self (one_le_available_split m d r), Nat.one_mul]

/-- A budget that is not below the size asked for has teams of this size. -/
theorem inUse_of_le_available (h : max r 1 ≤ (split m d r).available) :
    (split m d r).inUse = (split m d r).available / max r 1 * max r 1 := by
  have hblock : (split m d r).blockThreads = max r 1 := Nat.min_eq_left h
  rw [inUse_split, hblock]

theorem inUse_split_mono (h : m ≤ m') (d r : Nat) : (split m d r).inUse ≤ (split m' d r).inUse := by
  have hle := available_split_mono h d r
  rcases Nat.le_total (split m' d r).available (max r 1) with hsmall' | hlarge'
  · -- One team each.
    rw [inUse_of_available_le hsmall', inUse_of_available_le (Nat.le_trans hle hsmall')]
    exact hle
  · rw [inUse_of_le_available hlarge']
    rcases Nat.le_total (split m d r).available (max r 1) with hsmall | hlarge
    · -- A single team against at least one whole one.
      have hone : 1 ≤ (split m' d r).available / max r 1 := Nat.div_pos hlarge' (by omega)
      calc (split m d r).inUse
          = (split m d r).available := inUse_of_available_le hsmall
        _ ≤ 1 * max r 1 := by omega
        _ ≤ (split m' d r).available / max r 1 * max r 1 := Nat.mul_le_mul_right _ hone
    · -- More teams of the same size.
      rw [inUse_of_le_available hlarge]
      exact Nat.mul_le_mul_right _ (Nat.div_le_div_right hle)

/-! ### Running it -/

theorem yields_compute {v : Verbosity} {t : ThreadSplit} :
    (compute m d r).Yields v () t () ↔ t = split m d r := by
  simp only [compute, Task.yields_bind_checked, share_eq_ok, Except.ok.injEq, exists_eq_left',
    Task.yields_bind_note, Task.yields_pure, and_true]

theorem threadCount_split (h : m < Word.bound) (d r : Nat) :
    (split m d r).threadCount = .ok (split m d r).inUse :=
  Word.check_eq_ok_iff.mpr
    ⟨Nat.lt_of_le_of_lt (inUse_le_available m d r) (available_split_lt h d r), rfl⟩

/-- Sharing out any number of threads that is a count of 64 bits comes to a result under every
verbosity, without a division by zero, and the threads in use can be counted without an overflow.
There is at least one thread on each level. Teams have the size asked for as far as the budget
allows it. No more threads are in use than the budget has, fewer than a team are left over, and a
larger number of threads never brings fewer of them into use. -/
theorem compute_uses_budget (hm : m < Word.bound) (d r : Nat) :
    ∃ t total, (∀ v, (compute m d r).Yields v () t ()) ∧ t.threadCount = .ok total ∧
      1 ≤ t.blockThreads ∧ 1 ≤ t.regionThreads ∧
      t.available = max (max m 1 / max d 1) 1 ∧ t.available < Word.bound ∧
      (1 ≤ r → r ≤ t.available → t.blockThreads = r) ∧
      (t.available < r → t.blockThreads = t.available) ∧
      (r = 0 → t.blockThreads = 1) ∧
      total ≤ t.available ∧ t.available - total < t.blockThreads ∧
      ∀ m' v t' total', m ≤ m' → (compute m' d r).Yields v () t' () →
        t'.threadCount = .ok total' → total ≤ total' := by
  have hone := one_le_available_split m d r
  have hblock : (split m d r).blockThreads = min (max r 1) (split m d r).available := rfl
  refine ⟨split m d r, (split m d r).inUse, fun v => yields_compute.mpr rfl,
    threadCount_split hm d r, one_le_blockThreads_split m d r, Nat.le_max_right _ _, rfl,
    available_split_lt hm d r, fun hr hle => by omega, fun hlt => by omega, fun hr => by omega,
    inUse_le_available m d r, available_sub_inUse_lt m d r, fun m' v t' total' hle ht' htotal => ?_⟩
  obtain rfl := yields_compute.mp ht'
  obtain ⟨-, rfl⟩ := Word.check_eq_ok_iff.mp htotal
  exact inUse_split_mono hle d r

/-- As many threads as can be counted, in teams of ten. -/
theorem compute_uses_budget_largest :
    Word.max < Word.bound ∧ ∃ t total, (∀ v, (compute Word.max 0 10).Yields v () t ()) ∧
      t.threadCount = .ok total ∧ t.available = Word.max ∧ t.blockThreads = 10 ∧
      total ≤ t.available ∧ t.available - total < 10 := by
  have hm : Word.max < Word.bound := by decide
  obtain ⟨t, total, hyields, htotal, -, -, havailable, -, hblock, -, -, hle, hlt, -⟩ :=
    compute_uses_budget hm 0 10
  have hmax : t.available = Word.max := havailable
  have hten : t.blockThreads = 10 := hblock (by decide) (by rw [hmax]; decide)
  exact ⟨hm, t, total, hyields, htotal, hmax, hten, hle, hten ▸ hlt⟩

end StencilPlan.ThreadSplit
