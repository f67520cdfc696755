import StencilPlan.Arith.Checked
import StencilPlan.Journal

/-!
# How threads are shared out

Threads work on two levels: some share out the regions, and each of these has a team of its own
for the blocks of a region. The product of both is at most the budget; what a division leaves over
stays idle.
-/

namespace StencilPlan

/-- Threads on both levels. -/
structure ThreadSplit where
  /-- Threads that share out the regions. -/
  regionThreads : Nat
  /-- Threads in the team of each of them. -/
  blockThreads : Nat
  /-- The budget. -/
  available : Nat
  deriving DecidableEq, Repr

namespace ThreadSplit

def threadCount (t : ThreadSplit) : Checked Nat := Word.mul t.regionThreads t.blockThreads

/-- What sharing out a number of threads comes to, of which one in `divisor` is to be used, with
teams of the size asked for if there are that many. Nothing is ever less than one. -/
def split (maxThreads divisor requested : Nat) : ThreadSplit :=
  let available := max (max maxThreads 1 / max divisor 1) 1
  let blockThreads := min (max requested 1) available
  { regionThreads := max (available / blockThreads) 1, blockThreads, available }

/-- Shares out threads by divisions that fault if there is nothing to divide by. -/
def share (maxThreads divisor requested : Nat) : Checked ThreadSplit := do
  let part ← Word.div (max maxThreads 1) (max divisor 1)
  let available := max part 1
  let blockThreads := min (max requested 1) available
  let teams ← Word.div available blockThreads
  return { regionThreads := max teams 1, blockThreads, available }

/-- Shares threads out and says so. -/
def compute (maxThreads divisor requested : Nat) : Task Unit ThreadSplit := do
  let t ← share maxThreads divisor requested
  Task.note .debug (s!"{t.available} threads available: {t.regionThreads} region thread(s) x " ++
    s!"{t.blockThreads} block thread(s)")
  return t

/-- How a layout is shown inside a structure. -/
def display (t : ThreadSplit) : String :=
  s!"ThreadLayout \x7b region_threads: {t.regionThreads}, block_threads: {t.blockThreads}, " ++
    s!"available: {t.available} \x7d"

theorem one_le_blockThreads_split (m d r : Nat) : 1 ≤ (split m d r).blockThreads := by
  simp only [split]
  omega

/-- There is always something to divide by. -/
theorem share_eq_ok (m d r : Nat) : share m d r = .ok (split m d r) := by
  have hteam := one_le_blockThreads_split m d r
  simp only [split] at hteam
  simp only [share, bind, Except.bind, Word.div_of_pos (Nat.le_max_right d 1),
    Word.div_of_pos hteam]
  rfl

end ThreadSplit

end StencilPlan
