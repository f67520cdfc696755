import StencilPlan.Proofs.Halo.Window

/-!
# The handshake over a shared window

A writer and a reader go round by round through six moves each. The writer packs, sees the flag
down, locks, fills, raises the flag and unlocks; the reader sees the flag up, locks, reads, lowers
the flag, unlocks and unpacks. How far each has come determines the flag, the lock and the values in
the window, and the two are never further apart than one round: only the reader lowers the flag
that the writer waits for, and only the writer raises the one that the reader waits for.
-/

namespace StencilPlan

open Heap

/-- How often the move with index `i` was made among the first `p` moves, round by round, of a block
of six. -/
def made (i p : Nat) : Nat := (p + (5 - i)) / 6

/-- Later moves of a round were made at most as often as earlier ones. -/
theorem made_le {i j p : Nat} (h : i ≤ j) : made j p ≤ made i p := by
  simp only [made]
  omega

/-- When the move with index `r` is next, the moves before it were made once more than the rest. -/
theorem made_at {i p r : Nat} (hp : p % 6 = r) (hi : i < 6) :
    made i p = if i < r then p / 6 + 1 else p / 6 := by
  rw [made]
  split <;> omega

/-- When the move with index `r` was just made, only the moves after it are behind. -/
theorem made_next {i p r : Nat} (hp : p % 6 = r) (hi : i < 6) :
    made i (p + 1) = if r < i then p / 6 else p / 6 + 1 := by
  rw [made]
  split <;> omega

/-- How many of the two hold the lock. -/
def holders (p q : Nat) : Nat := (made 2 p - made 5 p) + (made 1 q - made 4 q)

/-- What holds of a window of `k` values when the writer has made `p` moves and the reader `q`.
What the writer fills in by rounds is `vec`. -/
structure Handshake (vec : Nat → List Binary64) (pool : PoolId) (offset k p q : Nat) (h : Heap) :
    Prop where
  /-- The writer sees the flag down only after the reader has lowered it. -/
  ahead : made 1 p ≤ made 3 q + 1
  /-- The reader sees the flag up only after the writer has raised it. -/
  behind : made 0 q ≤ made 4 p
  single : holders p q ≤ 1
  lock : h.word? pool (offset + k) = some (UInt64.ofNat (holders p q))
  ready : h.word? pool (offset + k + 1) = some (UInt64.ofNat (made 4 p - made 3 q))
  values : ∀ r, made 3 p = r + 1 → (vec r).length = k ∧
    ∀ i (hi : i < (vec r).length), h.word? pool (offset + i) = some (vec r)[i].bits

namespace Handshake

variable {vec : Nat → List Binary64} {pool : PoolId} {offset k p q : Nat} {h h' : Heap}

/-- Two parties at the same points with the same words in the window. -/
theorem congr (hs : Handshake vec pool offset k p q h)
    (hword : ∀ j, offset ≤ j → j < offset + (k + 2) → h'.word? pool j = h.word? pool j) :
    Handshake vec pool offset k p q h' := by
  refine ⟨hs.ahead, hs.behind, hs.single, ?_, ?_, fun r hr => ?_⟩
  · rw [hword _ (by omega) (by omega), hs.lock]
  · rw [hword _ (by omega) (by omega), hs.ready]
  · obtain ⟨hlen, hvalues⟩ := hs.values r hr
    refine ⟨hlen, fun i hi => ?_⟩
    rw [hword _ (by omega) (by omega), hvalues i hi]

theorem ofNat_eq_zero {n : Nat} (hn : n ≤ 1) (h : some (UInt64.ofNat n) = some 0) : n = 0 := by
  by_contra hne
  obtain rfl : n = 1 := by omega
  exact absurd h (by decide)

/-- The flag is up or down. -/
theorem raised_le (hs : Handshake vec pool offset k p q h) : made 4 p - made 3 q ≤ 1 := by
  have hahead := hs.ahead
  have hlater : made 4 p ≤ made 1 p := made_le (by decide)
  omega

section Change

variable {p' q' : Nat}

/-- Parties that have moved, but not in a way that can be seen in the window. -/
theorem move (hs : Handshake vec pool offset k p q h)
    (hahead : made 1 p' ≤ made 3 q' + 1) (hbehind : made 0 q' ≤ made 4 p')
    (hholders : holders p' q' = holders p q) (hready : made 4 p' - made 3 q' = made 4 p - made 3 q)
    (hfilled : made 3 p' = made 3 p) : Handshake vec pool offset k p' q' h :=
  ⟨hahead, hbehind, hholders ▸ hs.single, hholders ▸ hs.lock, hready ▸ hs.ready,
    fun r hr => hs.values r (hfilled ▸ hr)⟩

variable (p' q')

/-- The lock is taken or given back. -/
theorem relock (hs : Handshake vec pool offset k p q h) (hfits : offset + k < h.length pool)
    (hahead : made 1 p' ≤ made 3 q' + 1) (hbehind : made 0 q' ≤ made 4 p')
    (hsingle : holders p' q' ≤ 1) (hready : made 4 p' - made 3 q' = made 4 p - made 3 q)
    (hfilled : made 3 p' = made 3 p) : Handshake vec pool offset k p' q'
      (h.setWord pool (offset + k) (UInt64.ofNat (holders p' q'))) := by
  have hother : ∀ j, j ≠ offset + k →
      (h.setWord pool (offset + k) (UInt64.ofNat (holders p' q'))).word? pool j =
        h.word? pool j := fun j hj => word?_setWord_of_ne fun heq => hj heq.2.symm
  refine ⟨hahead, hbehind, hsingle, word?_setWord_self hfits, ?_, fun r hr => ?_⟩
  · rw [hother _ (by omega), hs.ready, hready]
  · obtain ⟨hlen, hvalues⟩ := hs.values r (hfilled ▸ hr)
    refine ⟨hlen, fun i hi => ?_⟩
    rw [hother _ (by omega), hvalues i hi]

/-- The flag is raised or lowered. -/
theorem reflag (hs : Handshake vec pool offset k p q h) (hfits : offset + k + 1 < h.length pool)
    (hahead : made 1 p' ≤ made 3 q' + 1) (hbehind : made 0 q' ≤ made 4 p')
    (hholders : holders p' q' = holders p q) (hfilled : made 3 p' = made 3 p) :
    Handshake vec pool offset k p' q'
      (h.setWord pool (offset + k + 1) (UInt64.ofNat (made 4 p' - made 3 q'))) := by
  have hother : ∀ j, j ≠ offset + k + 1 →
      (h.setWord pool (offset + k + 1) (UInt64.ofNat (made 4 p' - made 3 q'))).word? pool j =
        h.word? pool j := fun j hj => word?_setWord_of_ne fun heq => hj heq.2.symm
  refine ⟨hahead, hbehind, hholders ▸ hs.single, ?_, word?_setWord_self hfits, fun r hr => ?_⟩
  · rw [hother _ (by omega), hs.lock, hholders]
  · obtain ⟨hlen, hvalues⟩ := hs.values r (hfilled ▸ hr)
    refine ⟨hlen, fun i hi => ?_⟩
    rw [hother _ (by omega), hvalues i hi]

end Change

variable {b : HaloBuffer} {w : Window}

section Words

variable (hs : Handshake vec w.pool w.offset b.count p q h) (hb : b.Lodged h w)
  (hw : w.shared = true)

include hs hb hw

/-- A flag that is seen down is down. -/
theorem down_of_isReady (hready : b.isReady h = .ok false) : made 4 p - made 3 q = 0 := by
  rw [hb.isReady_eq hw, Except.ok.injEq, decide_eq_false_iff_not, not_not, hs.ready] at hready
  exact ofNat_eq_zero hs.raised_le hready

theorem up_of_isReady (hready : b.isReady h = .ok true) : made 4 p - made 3 q = 1 := by
  rw [hb.isReady_eq hw, Except.ok.injEq, decide_eq_true_eq, hs.ready] at hready
  have hle := hs.raised_le
  have hne : made 4 p - made 3 q ≠ 0 := fun hzero => hready (by rw [hzero]; rfl)
  omega

/-- A lock that is taken was free. -/
theorem free_of_lock? (hlock : b.lock? h = .ok (some h')) :
    holders p q = 0 ∧ h' = h.setWord w.pool (w.offset + b.count) 1 := by
  rw [hb.lock?_eq hw, Except.ok.injEq] at hlock
  split at hlock
  · next hzero =>
    rw [hs.lock] at hzero
    exact ⟨ofNat_eq_zero hs.single hzero, (Option.some.inj hlock).symm⟩
  · cases hlock

omit hs in
theorem fits : w.offset + b.count + 1 < h.length w.pool := by
  have hfits := hb.fits
  rw [hw, if_pos rfl, HaloBuffer.controlWords] at hfits
  omega

end Words

/-! ### The moves of the writer -/

section Writer

theorem pack (hs : Handshake vec pool offset k p q h) (hp : p % 6 = 0) :
    Handshake vec pool offset k (p + 1) q h := by
  have := hs.ahead
  have := hs.behind
  refine hs.move ?_ ?_ ?_ ?_ ?_ <;>
    simp only [holders, made_at hp, made_next hp, Nat.reduceLT, ↓reduceIte] at * <;> omega

theorem drained (hs : Handshake vec w.pool w.offset b.count p q h) (hb : b.Lodged h w)
    (hw : w.shared = true) (hp : p % 6 = 1) (hready : b.isReady h = .ok false) :
    Handshake vec w.pool w.offset b.count (p + 1) q h := by
  have := hs.ahead
  have := hs.behind
  -- The flag is down, so the reader is through with all rounds before this one.
  have := hs.down_of_isReady hb hw hready
  refine hs.move ?_ ?_ ?_ ?_ ?_ <;>
    simp only [holders, made_at hp, made_next hp, Nat.reduceLT, ↓reduceIte] at * <;> omega

theorem lockSend (hs : Handshake vec w.pool w.offset b.count p q h) (hb : b.Lodged h w)
    (hw : w.shared = true) (hp : p % 6 = 2) (hlock : b.lock? h = .ok (some h')) :
    Handshake vec w.pool w.offset b.count (p + 1) q h' := by
  obtain ⟨hfree, rfl⟩ := hs.free_of_lock? hb hw hlock
  have hahead := hs.ahead
  have hbehind := hs.behind
  have hone : holders (p + 1) q = 1 := by
    simp only [holders, made_at hp, made_next hp, Nat.reduceLT, ↓reduceIte] at *
    omega
  have := hs.relock (p + 1) q (Nat.lt_of_succ_lt (fits hb hw)) ?_ ?_ ?_ ?_ ?_
  · rwa [hone] at this
  all_goals
    simp only [holders, made_at hp, made_next hp, Nat.reduceLT, ↓reduceIte] at * <;> omega

theorem fill {vs : List Binary64} (hs : Handshake vec w.pool w.offset b.count p q h)
    (hb : b.Lodged h w) (hp : p % 6 = 3) (hvs : vs = vec (p / 6))
    (hwrite : b.write h vs = .ok h') :
    Handshake vec w.pool w.offset b.count (p + 1) q h' := by
  obtain ⟨hlen, halters, hvalues⟩ := hb.of_write hwrite
  -- The lock and the flag lie behind the values, so writing the values does not reach them.
  have hword : ∀ j, w.offset + b.count ≤ j → h'.word? w.pool j = h.word? w.pool j := fun j hj =>
    halters.word _ _ fun hin => Nat.not_lt.mpr hj hin.2.2
  have hholders : holders (p + 1) q = holders p q := by
    simp only [holders, made_at hp, made_next hp, Nat.reduceLT, ↓reduceIte]
  have hready : made 4 (p + 1) - made 3 q = made 4 p - made 3 q := by
    simp only [made_at hp, made_next hp, Nat.reduceLT, ↓reduceIte]
  refine ⟨?_, ?_, hholders ▸ hs.single, ?_, ?_, fun r hr => ?_⟩
  · simpa only [made_at hp, made_next hp, Nat.reduceLT, ↓reduceIte] using hs.ahead
  · simpa only [made_at hp, made_next hp, Nat.reduceLT, ↓reduceIte] using hs.behind
  · rw [hword _ (Nat.le_refl _), hs.lock, hholders]
  · rw [hword _ (Nat.le_succ _), hs.ready, hready]
  · -- The only round whose values must stand in the window is the one that was just filled in.
    obtain rfl : p / 6 = r := by
      simp only [made_next hp, Nat.reduceLT, ↓reduceIte] at hr
      omega
    rw [← hvs]
    exact ⟨hlen, hvalues⟩

theorem raise (hs : Handshake vec w.pool w.offset b.count p q h) (hb : b.Lodged h w)
    (hw : w.shared = true) (hp : p % 6 = 4) (hmark : b.markReady h true = .ok h') :
    Handshake vec w.pool w.offset b.count (p + 1) q h' := by
  rw [hb.markReady_eq hw, Except.ok.injEq] at hmark
  have hahead := hs.ahead
  have hbehind := hs.behind
  -- The reader has not lowered a flag that it has not seen up.
  have hlater : made 3 q ≤ made 0 q := made_le (by decide)
  have hone : made 4 (p + 1) - made 3 q = 1 := by
    simp only [made_at hp, made_next hp, Nat.reduceLT, ↓reduceIte] at *
    omega
  have := hs.reflag (p + 1) q (fits hb hw) ?_ ?_ ?_ ?_
  · rw [hone] at this
    exact hmark ▸ this
  all_goals
    simp only [holders, made_at hp, made_next hp, Nat.reduceLT, ↓reduceIte] at * <;> omega

theorem unlockSend (hs : Handshake vec w.pool w.offset b.count p q h) (hb : b.Lodged h w)
    (hw : w.shared = true) (hp : p % 6 = 5) (hunlock : b.unlock h = .ok h') :
    Handshake vec w.pool w.offset b.count (p + 1) q h' := by
  rw [hb.unlock_eq hw, Except.ok.injEq] at hunlock
  have hahead := hs.ahead
  have hbehind := hs.behind
  have hsingle := hs.single
  have hzero : holders (p + 1) q = 0 := by
    simp only [holders, made_at hp, made_next hp, Nat.reduceLT, ↓reduceIte] at *
    omega
  have := hs.relock (p + 1) q (Nat.lt_of_succ_lt (fits hb hw)) ?_ ?_ ?_ ?_ ?_
  · rw [hzero] at this
    exact hunlock ▸ this
  all_goals
    simp only [holders, made_at hp, made_next hp, Nat.reduceLT, ↓reduceIte] at * <;> omega

end Writer

/-! ### The moves of the reader -/

section Reader

theorem filled (hs : Handshake vec w.pool w.offset b.count p q h) (hb : b.Lodged h w)
    (hw : w.shared = true) (hq : q % 6 = 0) (hready : b.isReady h = .ok true) :
    Handshake vec w.pool w.offset b.count p (q + 1) h := by
  have := hs.ahead
  have := hs.behind
  -- The flag is up, so the writer has filled the window in this round.
  have := hs.up_of_isReady hb hw hready
  refine hs.move ?_ ?_ ?_ ?_ ?_ <;>
    simp only [holders, made_at hq, made_next hq, Nat.reduceLT, ↓reduceIte] at * <;> omega

theorem lockRecv (hs : Handshake vec w.pool w.offset b.count p q h) (hb : b.Lodged h w)
    (hw : w.shared = true) (hq : q % 6 = 1) (hlock : b.lock? h = .ok (some h')) :
    Handshake vec w.pool w.offset b.count p (q + 1) h' := by
  obtain ⟨hfree, rfl⟩ := hs.free_of_lock? hb hw hlock
  have hahead := hs.ahead
  have hbehind := hs.behind
  have hone : holders p (q + 1) = 1 := by
    simp only [holders, made_at hq, made_next hq, Nat.reduceLT, ↓reduceIte] at *
    omega
  have := hs.relock p (q + 1) (Nat.lt_of_succ_lt (fits hb hw)) ?_ ?_ ?_ ?_ ?_
  · rwa [hone] at this
  all_goals
    simp only [holders, made_at hq, made_next hq, Nat.reduceLT, ↓reduceIte] at * <;> omega

/-- Reading leaves everything as it is. -/
theorem drain (hs : Handshake vec pool offset k p q h) (hq : q % 6 = 2) :
    Handshake vec pool offset k p (q + 1) h := by
  have := hs.ahead
  have := hs.behind
  refine hs.move ?_ ?_ ?_ ?_ ?_ <;>
    simp only [holders, made_at hq, made_next hq, Nat.reduceLT, ↓reduceIte] at * <;> omega

/-- What is read in a round is what was packed in it. -/
theorem read (hs : Handshake vec w.pool w.offset b.count p q h) (hb : b.Lodged h w)
    (hq : q % 6 = 2) {vs : List Binary64} (hread : b.read h b.count = .ok vs) :
    vs = vec (q / 6) := by
  have hahead := hs.ahead
  have hbehind := hs.behind
  -- The writer has filled the window in this round and not yet in the next one.
  have hfilled : made 4 p ≤ made 3 p := made_le (by decide)
  have hlater : made 3 p ≤ made 1 p := made_le (by decide)
  obtain ⟨hlen, hvalues⟩ := hs.values (q / 6) (by
    simp only [made_at hq, Nat.reduceLT, ↓reduceIte] at *
    omega)
  exact hb.of_read hlen hvalues hread

theorem lower (hs : Handshake vec w.pool w.offset b.count p q h) (hb : b.Lodged h w)
    (hw : w.shared = true) (hq : q % 6 = 3) (hmark : b.markReady h false = .ok h') :
    Handshake vec w.pool w.offset b.count p (q + 1) h' := by
  rw [hb.markReady_eq hw, Except.ok.injEq] at hmark
  have hahead := hs.ahead
  have hbehind := hs.behind
  -- The writer has not raised the flag again before it has seen it down.
  have hlater : made 4 p ≤ made 1 p := made_le (by decide)
  have hzero : made 4 p - made 3 (q + 1) = 0 := by
    simp only [made_at hq, made_next hq, Nat.reduceLT, ↓reduceIte] at *
    omega
  have := hs.reflag p (q + 1) (fits hb hw) ?_ ?_ ?_ ?_
  · rw [hzero] at this
    exact hmark ▸ this
  all_goals
    simp only [holders, made_at hq, made_next hq, Nat.reduceLT, ↓reduceIte] at * <;> omega

theorem unlockRecv (hs : Handshake vec w.pool w.offset b.count p q h) (hb : b.Lodged h w)
    (hw : w.shared = true) (hq : q % 6 = 4) (hunlock : b.unlock h = .ok h') :
    Handshake vec w.pool w.offset b.count p (q + 1) h' := by
  rw [hb.unlock_eq hw, Except.ok.injEq] at hunlock
  have hahead := hs.ahead
  have hbehind := hs.behind
  have hsingle := hs.single
  have hzero : holders p (q + 1) = 0 := by
    simp only [holders, made_at hq, made_next hq, Nat.reduceLT, ↓reduceIte] at *
    omega
  have := hs.relock p (q + 1) (Nat.lt_of_succ_lt (fits hb hw)) ?_ ?_ ?_ ?_ ?_
  · rw [hzero] at this
    exact hunlock ▸ this
  all_goals
    simp only [holders, made_at hq, made_next hq, Nat.reduceLT, ↓reduceIte] at * <;> omega

theorem unpack (hs : Handshake vec pool offset k p q h) (hq : q % 6 = 5) :
    Handshake vec pool offset k p (q + 1) h := by
  have := hs.ahead
  have := hs.behind
  refine hs.move ?_ ?_ ?_ ?_ ?_ <;>
    simp only [holders, made_at hq, made_next hq, Nat.reduceLT, ↓reduceIte] at * <;> omega

end Reader

/-- Before the first round, with the control words zero. -/
theorem start (hlock : h.word? pool (offset + k) = some 0)
    (hready : h.word? pool (offset + k + 1) = some 0) : Handshake vec pool offset k 0 0 h :=
  ⟨by decide, by decide, by decide, hlock, hready, fun r hr => absurd hr (by
    simp only [made]
    omega)⟩

/-- After the same number of rounds both control words are zero again. -/
theorem finish {rounds : Nat} (hs : Handshake vec pool offset k (6 * rounds) (6 * rounds) h) :
    h.word? pool (offset + k) = some 0 ∧ h.word? pool (offset + k + 1) = some 0 := by
  have hzero : holders (6 * rounds) (6 * rounds) = 0 := by
    simp only [made, holders]
    omega
  have hdown : made 4 (6 * rounds) - made 3 (6 * rounds) = 0 := by
    simp only [made]
    omega
  refine ⟨?_, ?_⟩
  · rw [hs.lock, hzero]
    rfl
  · rw [hs.ready, hdown]
    rfl

end Handshake

end StencilPlan
