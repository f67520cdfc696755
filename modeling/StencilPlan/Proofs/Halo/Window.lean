import StencilPlan.Halo.Buffer
import StencilPlan.Proofs.Halo.Segments

/-!
# Windows in use

A window in use has its values and, if it is shared, the lock and the ready flag behind them. Each
operation on it reads or changes words of the window and no others, so windows that lie apart do
not disturb each other.
-/

namespace StencilPlan

open Heap

/-- The buffer has the window `w`, which lies in a pool of a size that an array can have. -/
structure HaloBuffer.Lodged (h : Heap) (b : HaloBuffer) (w : Window) : Prop where
  window : b.window = some w
  size : b.size = .ok b.count
  fits : w.offset + (b.count + if w.shared then controlWords else 0) ≤ h.length w.pool
  bounded : h.length w.pool ≤ arrayBytes

/-- The words of a window of `k` words. -/
def Window.Covers (w : Window) (k : Nat) (q : PoolId) (j : Nat) : Prop :=
  q = w.pool ∧ w.offset ≤ j ∧ j < w.offset + k

/-- The heaps agree but for the words of a window. -/
structure Heap.Alters (w : Window) (k : Nat) (h h' : Heap) : Prop where
  size : h'.pools.size = h.pools.size
  length : ∀ q, h'.length q = h.length q
  word : ∀ q j, ¬ w.Covers k q j → h'.word? q j = h.word? q j

namespace Heap.Alters

variable {w : Window} {k : Nat} {h h' : Heap}

theorem refl (w : Window) (k : Nat) (h : Heap) : Alters w k h h :=
  ⟨rfl, fun _ => rfl, fun _ _ _ => rfl⟩

theorem setWord {p : PoolId} {i : Nat} (hi : w.Covers k p i) (x : UInt64) :
    Alters w k h (h.setWord p i x) := by
  refine ⟨size_setWord h p i x, length_setWord h p i x, fun q j hout => word?_setWord_of_ne ?_⟩
  rintro ⟨rfl, rfl⟩
  exact hout hi

theorem mono {k' : Nat} (ha : Alters w k h h') (hle : k ≤ k') : Alters w k' h h' :=
  ⟨ha.size, ha.length, fun q j hout => ha.word q j fun hin =>
    hout ⟨hin.1, hin.2.1, Nat.lt_of_lt_of_le hin.2.2 (Nat.add_le_add_left hle _)⟩⟩

end Heap.Alters

namespace HaloBuffer

variable {b : HaloBuffer} {h h' : Heap} {w : Window} {vs : List Binary64}

/-- Words the buffer needs in a window. -/
def span (b : HaloBuffer) (w : Window) : Nat := b.count + if w.shared then controlWords else 0

theorem lodged_of_placed (hb : b.Placed h w) (hcap : h.length w.pool ≤ arrayBytes) :
    b.Lodged h w := by
  refine ⟨hb.window, hb.size, ?_, hcap⟩
  have hfits := hb.fits
  generalize (b.count + if w.shared then controlWords else 0) = k at hfits ⊢
  simp only [Word.saturatingAdd, Word.max, arrayBytes, Nat.min_def] at hfits hcap
  split at hfits <;> omega

namespace Lodged

theorem of_length (hb : b.Lodged h w) (hlen : ∀ q, h'.length q = h.length q) : b.Lodged h' w :=
  ⟨hb.window, hb.size, by rw [hlen]; exact hb.fits, by rw [hlen]; exact hb.bounded⟩

theorem control?_eq (hb : b.Lodged h w) (hs : w.shared = true) {which : Nat} (hwhich : which < 2) :
    b.control? h which = .ok (some (w.pool, w.offset + b.count + which)) := by
  have hfits := hb.fits
  have hbounded := hb.bounded
  simp only [hs, if_true, controlWords, arrayBytes] at hfits hbounded
  have hadd : ∀ n m, n + m < Word.bound → Word.add n m = .ok (n + m) := fun n m hlt =>
    Word.check_eq_ok_iff.mpr ⟨hlt, rfl⟩
  simp only [control?, hb.window, Option.filter, hs, if_true, hb.size, bind, Except.bind]
  rw [hadd _ _ (by simp only [Word.bound]; omega)]
  dsimp only
  rw [hadd _ _ (by simp only [Word.bound]; omega)]
  dsimp only
  rw [if_pos (by omega)]
  rfl

theorem lockWord?_eq (hb : b.Lodged h w) (hs : w.shared = true) :
    b.lockWord? h = .ok (some (w.pool, w.offset + b.count)) := hb.control?_eq hs (by decide)

theorem readyWord?_eq (hb : b.Lodged h w) (hs : w.shared = true) :
    b.readyWord? h = .ok (some (w.pool, w.offset + b.count + 1)) := hb.control?_eq hs (by decide)

theorem isReady_eq (hb : b.Lodged h w) (hs : w.shared = true) :
    b.isReady h = .ok (h.word? w.pool (w.offset + b.count + 1) ≠ some 0) := by
  rw [isReady, hb.readyWord?_eq hs]
  rfl

theorem markReady_eq (hb : b.Lodged h w) (hs : w.shared = true) (ready : Bool) :
    b.markReady h ready =
      .ok (h.setWord w.pool (w.offset + b.count + 1) (if ready then 1 else 0)) := by
  rw [markReady, hb.readyWord?_eq hs]
  rfl

theorem lock?_eq (hb : b.Lodged h w) (hs : w.shared = true) :
    b.lock? h = .ok (if h.word? w.pool (w.offset + b.count) = some 0 then
      some (h.setWord w.pool (w.offset + b.count) 1) else none) := by
  rw [lock?, hb.lockWord?_eq hs]
  rfl

theorem unlock_eq (hb : b.Lodged h w) (hs : w.shared = true) :
    b.unlock h = .ok (h.setWord w.pool (w.offset + b.count) 0) := by
  rw [unlock, hb.lockWord?_eq hs]
  rfl

/-- The control words are part of the window. -/
theorem covers (hs : w.shared = true) {which : Nat} (hwhich : which < 2) :
    w.Covers (b.span w) w.pool (w.offset + b.count + which) := by
  refine ⟨rfl, by omega, ?_⟩
  rw [span, if_pos hs, controlWords]
  omega

theorem checkLength_eq_ok (hb : b.Lodged h w) {k : Nat} {u : Unit} :
    b.checkLength k = .ok u ↔ k = b.count := by
  simp only [checkLength, bind_eq_ok, liftM_checked_eq_ok, hb.size, Except.ok.injEq,
    exists_eq_left', ne_eq, ite_not]
  split <;> simp_all

theorem write_eq_ok (hb : b.Lodged h w) :
    b.write h vs = .ok h' ↔ vs.length = b.count ∧ h.writeReals w.pool w.offset vs = .ok h' := by
  simp only [write, storage, hb.window, bind_eq_ok, hb.checkLength_eq_ok, liftM_planError_eq_ok,
    pure_eq_ok, exists_const, exists_eq_left]

/-- What is written is what was to be written. -/
theorem of_write (hb : b.Lodged h w) (hw : b.write h vs = .ok h') :
    vs.length = b.count ∧ h.Alters w b.count h' ∧
      ∀ i (hi : i < vs.length), h'.word? w.pool (w.offset + i) = some vs[i].bits := by
  obtain ⟨hlen, hw⟩ := hb.write_eq_ok.mp hw
  obtain ⟨-, hlength, hword, hother⟩ := writeReals_eq_ok h' hw
  refine ⟨hlen, ⟨size_of_writeReals hw, hlength, fun q j hout => hother q j ?_⟩, hword⟩
  rwa [hlen]

/-- A window with room for anything lies in a pool that exists. -/
theorem pool_lt (hb : b.Lodged h w) (hpos : b.count ≠ 0) : w.pool < h.pools.size := by
  have hfits := hb.fits
  by_contra hge
  rw [Heap.length, Array.getElem?_eq_none (Nat.le_of_not_lt hge)] at hfits
  dsimp only at hfits
  omega

theorem exists_write_of_lt (hb : b.Lodged h w) (hlen : vs.length = b.count)
    (hlt : w.pool < h.pools.size) : ∃ h', b.write h vs = .ok h' := by
  have hfits := hb.fits
  obtain ⟨h', hw⟩ := @exists_writeReals h w.pool w.offset vs (by omega) hlt
  exact ⟨h', hb.write_eq_ok.mpr ⟨hlen, hw⟩⟩

theorem exists_write (hb : b.Lodged h w) (hlen : vs.length = b.count) (hpos : b.count ≠ 0) :
    ∃ h', b.write h vs = .ok h' := hb.exists_write_of_lt hlen (hb.pool_lt hpos)

theorem read_eq_ok (hb : b.Lodged h w) :
    b.read h b.count = .ok vs ↔ h.readReals w.pool w.offset b.count = .ok vs := by
  simp [read, checkLength, storage, hb.window, hb.size]

theorem exists_read_of_lt (hb : b.Lodged h w) (hlt : w.pool < h.pools.size) :
    ∃ vs, b.read h b.count = .ok vs := by
  have hfits := hb.fits
  have hpool := Array.getElem?_eq_getElem hlt
  rw [Heap.length, hpool] at hfits
  dsimp only at hfits
  simp only [hb.read_eq_ok, readReals, hpool]
  rw [if_pos (by omega)]
  exact ⟨_, rfl⟩

theorem exists_read (hb : b.Lodged h w) (hpos : b.count ≠ 0) :
    ∃ vs, b.read h b.count = .ok vs := hb.exists_read_of_lt (hb.pool_lt hpos)

/-- What is read is what the words of the window say. -/
theorem of_read (hb : b.Lodged h w) {us : List Binary64} (hlen : vs.length = b.count)
    (hword : ∀ i (hi : i < vs.length), h.word? w.pool (w.offset + i) = some vs[i].bits)
    (hr : b.read h b.count = .ok us) : us = vs :=
  readReals_unique hlen hword (hb.read_eq_ok.mp hr)

/-- Reading depends on the values in the window only. -/
theorem read_congr (hb : b.Lodged h w) (hb' : b.Lodged h' w) (hlt : w.pool < h.pools.size)
    (hlt' : w.pool < h'.pools.size)
    (hword : ∀ i < b.count, h'.word? w.pool (w.offset + i) = h.word? w.pool (w.offset + i)) :
    b.read h' b.count = b.read h b.count := by
  obtain ⟨vs, hvs⟩ := hb.exists_read_of_lt hlt
  obtain ⟨us, hus⟩ := hb'.exists_read_of_lt hlt'
  obtain ⟨hlen, hvalues⟩ := readReals_eq_ok (hb.read_eq_ok.mp hvs)
  rw [hus, hvs, hb'.of_read hlen (fun i hi => ?_) hus]
  exact (hword i (hlen ▸ hi)).trans (hvalues i hi)

end Lodged

/-! ### Uses -/

/-- Something that is done with the storage of a buffer. -/
inductive Use where
  /-- Replace all values. -/
  | write (vs : List Binary64)
  /-- Take the lock. -/
  | lock
  /-- Give the lock back. -/
  | unlock
  /-- Set the ready flag. -/
  | mark (ready : Bool)

/-- A use that succeeds takes one heap to another one. -/
def Uses (b : HaloBuffer) (h : Heap) : Use → Heap → Prop
  | .write vs, h' => b.write h vs = .ok h'
  | .lock, h' => b.lock? h = .ok (some h')
  | .unlock, h' => b.unlock h = .ok h'
  | .mark ready, h' => b.markReady h ready = .ok h'

/-- The buffer has a window of `k` values, as its owner or as a neighbor. -/
def Views (c : HaloBuffer) (w : Window) (k : Nat) : Prop :=
  (∃ o, c.window = some { w with ownership := o }) ∧ c.size = .ok k

namespace Lodged

theorem of_views {c : HaloBuffer} (hb : b.Lodged h w) (hc : c.Views w b.count) :
    c.count = b.count ∧ ∃ o, c.Lodged h { w with ownership := o } := by
  obtain ⟨⟨o, hwindow⟩, hsize⟩ := hc
  have hcount : c.count = b.count := count_eq hsize
  exact ⟨hcount, o, hwindow, hsize.trans (congrArg _ hcount.symm), hcount ▸ hb.fits, hb.bounded⟩

theorem control?_eq_none (hb : b.Lodged h w) (hs : w.shared = false) (which : Nat) :
    b.control? h which = .ok none := by
  simp [control?, hb.window, Option.filter, hs]

/-- A use that writes no values changes a control word, or nothing. -/
theorem of_control (hb : b.Lodged h w) {u : Use} (hu : b.Uses h u h')
    (hcontrol : ∀ vs, u ≠ .write vs) : h' = h ∨ ∃ which x, which < 2 ∧ w.shared = true ∧
      h' = h.setWord w.pool (w.offset + b.count + which) x := by
  cases hs : w.shared with
  -- a window of one's own has no control words, so there is nothing to change
  | false =>
    have hnone := hb.control?_eq_none hs
    left
    cases u with
    | write vs => exact absurd rfl (hcontrol vs)
    | lock =>
      simp only [Uses, lock?, lockWord?, hnone, bind, Except.bind, pure_eq_ok,
        Option.some.injEq] at hu
      exact hu
    | unlock =>
      simp only [Uses, unlock, lockWord?, hnone, bind, Except.bind, pure_eq_ok] at hu
      exact hu
    | mark ready =>
      simp only [Uses, markReady, readyWord?, hnone, bind, Except.bind, pure_eq_ok] at hu
      exact hu
  | true =>
    right
    cases u with
    | write vs => exact absurd rfl (hcontrol vs)
    | lock =>
      rw [Uses, hb.lock?_eq hs, Except.ok.injEq] at hu
      split at hu
      · exact ⟨0, 1, by decide, rfl, (Option.some.inj hu).symm⟩
      · cases hu
    | unlock =>
      rw [Uses, hb.unlock_eq hs, Except.ok.injEq] at hu
      exact ⟨0, 0, by decide, rfl, hu.symm⟩
    | mark ready =>
      rw [Uses, hb.markReady_eq hs, Except.ok.injEq] at hu
      exact ⟨1, _, by decide, rfl, hu.symm⟩

/-- A use of a buffer changes words of its window only. -/
theorem alters_of_uses (hb : b.Lodged h w) {u : Use} (hu : b.Uses h u h') :
    h.Alters w (b.span w) h' := by
  by_cases hcontrol : ∃ vs, u = .write vs
  · obtain ⟨vs, rfl⟩ := hcontrol
    exact (hb.of_write hu).2.1.mono (Nat.le_add_right _ _)
  · obtain rfl | ⟨which, x, hwhich, hs, rfl⟩ := hb.of_control hu fun vs h => hcontrol ⟨vs, h⟩
    · exact .refl _ _ _
    · exact .setWord (covers hs hwhich) x

/-- The values stay as they are but for a write. -/
theorem values_of_uses (hb : b.Lodged h w) {u : Use} (hu : b.Uses h u h')
    (hcontrol : ∀ vs, u ≠ .write vs) {i : Nat} (hi : i < b.count) :
    h'.word? w.pool (w.offset + i) = h.word? w.pool (w.offset + i) := by
  obtain rfl | ⟨which, x, hwhich, hs, rfl⟩ := hb.of_control hu hcontrol
  · rfl
  · refine word?_setWord_of_ne ?_
    rintro ⟨-, heq⟩
    omega

end Lodged

end HaloBuffer

end StencilPlan
