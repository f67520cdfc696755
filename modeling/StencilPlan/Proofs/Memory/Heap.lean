import StencilPlan.Memory.Heap
import StencilPlan.Proofs.Yields

/-!
# What the words of the pools are

The words of a pool are all that counts for the values of buffers; who holds a pool does not. Every
operation on the heap is described here by the words it changes: holding and letting go change
none, a write changes those of one window, and an allocation adds a pool of zeros to the end.
-/

namespace StencilPlan.Heap

variable {h h' : Heap} {p q : PoolId} {i j : Nat} {w : UInt64}

/-- All words of a pool. -/
def words? (h : Heap) (p : PoolId) : Option (Array UInt64) := (h.pools[p]?).map (·.words)

theorem length_eq (h : Heap) (p : PoolId) : h.length p = ((h.words? p).map (·.size)).getD 0 := by
  unfold length words?
  cases h.pools[p]? <;> rfl

theorem word?_eq (h : Heap) (p : PoolId) (i : Nat) :
    h.word? p i = (h.words? p).bind fun ws => ws[i]? := by
  unfold word? words?
  cases h.pools[p]? <;> rfl

/-- Two heaps with the same words in every pool. -/
def SameWords (h h' : Heap) : Prop := ∀ p, h'.words? p = h.words? p

theorem SameWords.refl (h : Heap) : SameWords h h := fun _ => rfl

theorem SameWords.trans {h'' : Heap} (hs : SameWords h h') (hs' : SameWords h' h'') :
    SameWords h h'' := fun p => (hs' p).trans (hs p)

theorem SameWords.symm (hs : SameWords h h') : SameWords h' h := fun p => (hs p).symm

theorem SameWords.length (hs : SameWords h h') (p : PoolId) : h'.length p = h.length p := by
  rw [length_eq, length_eq, hs p]

theorem sameWords_modify {f : Pool → Pool} (hf : ∀ pool, (f pool).words = pool.words) :
    SameWords h { h with pools := h.pools.modify p f } := by
  intro q
  simp only [words?, Array.getElem?_modify]
  split
  · cases h.pools[q]? <;> simp [hf]
  · rfl

theorem sameWords_hold (h : Heap) (p : PoolId) : SameWords h (h.hold p) :=
  sameWords_modify fun _ => rfl

theorem sameWords_letGo (h : Heap) (p : PoolId) : SameWords h (h.letGo p) :=
  sameWords_modify fun _ => rfl

/-! ### Changing words -/

theorem words?_setWord (h : Heap) (p : PoolId) (i : Nat) (w : UInt64) (q : PoolId) :
    (h.setWord p i w).words? q =
      if p = q then (h.words? q).map (·.setIfInBounds i w) else h.words? q := by
  simp only [words?, setWord, Array.getElem?_modify]
  split
  · cases h.pools[q]? <;> rfl
  · rfl

theorem length_setWord (h : Heap) (p : PoolId) (i : Nat) (w : UInt64) (q : PoolId) :
    (h.setWord p i w).length q = h.length q := by
  rw [length_eq, length_eq, words?_setWord]
  split
  · cases h.words? q <;> simp
  · rfl

theorem word?_setWord_self (hi : i < h.length p) : (h.setWord p i w).word? p i = some w := by
  rw [word?_eq, words?_setWord, if_pos rfl]
  rw [length_eq] at hi
  cases hw : h.words? p with
  | none => simp [hw] at hi
  | some ws =>
    simp only [hw, Option.map_some, Option.getD_some] at hi
    simp [hi]

theorem word?_setWord_of_ne (hne : ¬ (p = q ∧ i = j)) :
    (h.setWord p i w).word? q j = h.word? q j := by
  rw [word?_eq, word?_eq, words?_setWord]
  split
  · next hpq =>
    have hij : i ≠ j := fun hij => hne ⟨hpq, hij⟩
    cases h.words? q with
    | none => rfl
    | some ws => simp [hij]
  · rfl

theorem size_writeWords (words : Array UInt64) (ofs : Nat) (vs : List Binary64) :
    (writeWords words ofs vs).size = words.size := by
  induction vs generalizing words ofs with
  | nil => rfl
  | cons v vs ih => simp [writeWords, ih]

theorem getElem?_writeWords (words : Array UInt64) (ofs : Nat) (vs : List Binary64) (i : Nat)
    (hfit : ofs + vs.length ≤ words.size) :
    (writeWords words ofs vs)[i]? =
      if ofs ≤ i ∧ i < ofs + vs.length then (vs[i - ofs]?).map (·.bits) else words[i]? := by
  induction vs generalizing words ofs with
  | nil =>
    rw [writeWords, if_neg]
    simp only [List.length_nil]
    omega
  | cons v vs ih =>
    simp only [List.length_cons] at hfit ⊢
    rw [writeWords, ih _ _ (by simp; omega)]
    -- The first value goes to the front of the window, the others behind it.
    by_cases hi : i = ofs
    · subst hi
      rw [if_neg (by omega), if_pos (by omega), Nat.sub_self,
        Array.getElem?_setIfInBounds_self_of_lt (by omega)]
      rfl
    · by_cases hin : ofs + 1 ≤ i ∧ i < ofs + 1 + vs.length
      · rw [if_pos hin, if_pos (by omega), show i - ofs = i - (ofs + 1) + 1 by omega,
          List.getElem?_cons_succ]
      · rw [if_neg hin, if_neg (by omega), Array.getElem?_setIfInBounds_ne (by omega)]

/-- A write that succeeds changes the words of its window and nothing else. -/
theorem writeReals_eq_ok {ofs : Nat} {vs : List Binary64}
    (h' : Heap) (hw : h.writeReals p ofs vs = .ok h') :
    ofs + vs.length ≤ h.length p ∧ (∀ q, h'.length q = h.length q) ∧
      (∀ i (hi : i < vs.length), h'.word? p (ofs + i) = some vs[i].bits) ∧
      ∀ q j, ¬ (q = p ∧ ofs ≤ j ∧ j < ofs + vs.length) → h'.word? q j = h.word? q j := by
  unfold writeReals at hw
  cases hp : h.pools[p]? with
  | none => simp [hp] at hw
  | some pool =>
    simp only [hp] at hw
    split at hw
    · next hfit =>
      obtain rfl := Except.ok.inj hw
      -- Everything follows from what the pools hold afterwards.
      have hwords : ∀ q, words? { h with pools := h.pools.modify p fun pool =>
          { pool with words := writeWords pool.words ofs vs } } q =
            if p = q then some (writeWords pool.words ofs vs) else h.words? q := by
        intro q
        simp only [words?, Array.getElem?_modify]
        split
        · next hpq =>
          subst hpq
          simp [hp]
        · rfl
      have hpool : h.words? p = some pool.words := by simp [words?, hp]
      refine ⟨by simpa [length_eq, hpool] using hfit, fun q => ?_, fun i hi => ?_,
        fun q j hout => ?_⟩
      · rw [length_eq, length_eq, hwords]
        split
        · next hpq =>
          subst hpq
          simp [hpool, size_writeWords]
        · rfl
      · rw [word?_eq, hwords, if_pos rfl, Option.bind_some, getElem?_writeWords _ _ _ _ hfit,
          if_pos (by omega), Nat.add_sub_cancel_left, List.getElem?_eq_getElem hi]
        rfl
      · rw [word?_eq, word?_eq, hwords]
        split
        · next hpq =>
          subst hpq
          rw [hpool, Option.bind_some, Option.bind_some, getElem?_writeWords _ _ _ _ hfit,
            if_neg (fun hin => hout ⟨rfl, hin⟩)]
        · rfl
    · simp at hw

theorem size_setWord (h : Heap) (p : PoolId) (i : Nat) (w : UInt64) :
    (h.setWord p i w).pools.size = h.pools.size := Array.size_modify

theorem size_of_writeReals {ofs : Nat} {vs : List Binary64} (hw : h.writeReals p ofs vs = .ok h') :
    h'.pools.size = h.pools.size := by
  unfold writeReals at hw
  split at hw
  · cases hw
  · split at hw
    · obtain rfl := Except.ok.inj hw
      exact Array.size_modify
    · cases hw

/-- A write to a window that lies in its pool succeeds. -/
theorem exists_writeReals {ofs : Nat} {vs : List Binary64} (hfit : ofs + vs.length ≤ h.length p)
    (hp : p < h.pools.size) : ∃ h', h.writeReals p ofs vs = .ok h' := by
  have hpool := Array.getElem?_eq_getElem hp
  simp only [length, hpool] at hfit
  simp only [writeReals, hpool, if_pos hfit]
  exact ⟨_, rfl⟩

/-- What is read is what the words of the window say. -/
theorem readReals_eq_ok {ofs len : Nat} {vs : List Binary64}
    (hr : h.readReals p ofs len = .ok vs) :
    vs.length = len ∧ ∀ i (hi : i < vs.length), h.word? p (ofs + i) = some vs[i].bits := by
  unfold readReals at hr
  cases hp : h.pools[p]? with
  | none => simp [hp] at hr
  | some pool =>
    simp only [hp] at hr
    split at hr
    · next hfit =>
      obtain rfl := Except.ok.inj hr
      refine ⟨by simp; omega, fun i hi => ?_⟩
      -- The read stays within the pool, so the word behind each value exists.
      have hi' : ofs + i < pool.words.size := by
        simp at hi
        omega
      simp [word?, hp, hi']
    · simp at hr

/-- Two reads of the same words give the same values. -/
theorem readReals_unique {ofs len : Nat} {vs : List Binary64}
    (hlen : vs.length = len)
    (hword : ∀ i (hi : i < vs.length), h.word? p (ofs + i) = some vs[i].bits)
    {us : List Binary64} (hr : h.readReals p ofs len = .ok us) : us = vs := by
  obtain ⟨hlen', hword'⟩ := readReals_eq_ok hr
  refine List.ext_getElem (by omega) fun i hi hi' => ?_
  have := (hword' i hi).symm.trans (hword i hi')
  have hbits : us[i].bits = vs[i].bits := Option.some.inj this
  -- A value is no more than its bits.
  cases hu : us[i]
  cases hv : vs[i]
  rw [hu, hv] at hbits
  exact congrArg Binary64.mk hbits

/-! ### Growing -/

/-- Pools that were there keep their words, and those that came hold zeros. -/
structure Grows (h h' : Heap) : Prop where
  size : h.pools.size ≤ h'.pools.size
  old : ∀ p, p < h.pools.size → h'.words? p = h.words? p
  fresh : ∀ p, h.pools.size ≤ p → p < h'.pools.size → ∃ k, h'.words? p = some (Array.replicate k 0)

theorem Grows.refl (h : Heap) : Grows h h :=
  ⟨Nat.le_refl _, fun _ _ => rfl, fun p hp hp' => by omega⟩

theorem Grows.trans {h'' : Heap} (hg : Grows h h') (hg' : Grows h' h'') : Grows h h'' := by
  refine ⟨Nat.le_trans hg.size hg'.size, fun p hp => ?_, fun p hp hp' => ?_⟩
  · rw [hg'.old p (Nat.lt_of_lt_of_le hp hg.size), hg.old p hp]
  · by_cases hlt : p < h'.pools.size
    · rw [hg'.old p hlt]
      exact hg.fresh p hp hlt
    · exact hg'.fresh p (by omega) hp'

theorem SameWords.size (hs : SameWords h h') : h'.pools.size = h.pools.size := by
  have hiff : ∀ p, p < h'.pools.size ↔ p < h.pools.size := by
    intro p
    have hp := congrArg Option.isSome (hs p)
    rw [Bool.eq_iff_iff] at hp
    simpa [words?] using hp
  have := hiff h.pools.size
  have := hiff h'.pools.size
  omega

theorem SameWords.grows (hs : SameWords h h') : Grows h h' := by
  have hsize := hs.size
  exact ⟨by omega, fun p _ => hs p, fun p hp hp' => by omega⟩

end StencilPlan.Heap

namespace StencilPlan.Allocator

open Heap

/-- A new pool stands at the end and holds zeros. It has whole cache lines, as many as it takes, and
is no larger than an array can be. -/
theorem grows_of_allocate {a : Allocator} {bytes : Nat} {policy : MemoryPolicy} {v : Verbosity}
    {h h' : Heap} {p : Nat} (hy : (a.allocate bytes policy).Yields v h p h') :
    p = h.pools.size ∧ h'.pools.size = h.pools.size + 1 ∧ Grows h h' ∧
      h'.length p ≤ arrayBytes ∧
      h'.length p = (bytes + (lineBytes - 1)) / lineBytes * lineWords := by
  have hpush : ∀ (k : Nat) (requests : List (Nat × MemoryPolicy)),
      Grows h { pools := h.pools.push ⟨policy, Array.replicate k 0, 1⟩, requests } := by
    intro k requests
    refine ⟨by simp, fun p hp => ?_, fun p hp hp' => ⟨k, ?_⟩⟩
    · simp only [words?, Array.getElem?_push]
      rw [if_neg (by omega)]
    · simp only [Array.size_push] at hp'
      simp only [words?, Array.getElem?_push]
      rw [if_pos (by omega)]
      rfl
  have hlength : ∀ (k : Nat) (requests : List (Nat × MemoryPolicy)),
      length { pools := h.pools.push ⟨policy, Array.replicate k 0, 1⟩, requests }
        h.pools.size = k := by
    intro k requests
    simp only [length, Array.getElem?_push, if_true, Array.size_replicate]
  simp only [allocate, Task.yields_bind_modify, Task.yields_bind_checked, wholeLines, roundUpWords,
    Word.mul, Word.check_eq_ok_iff] at hy
  obtain ⟨padded, ⟨-, hpadded⟩, hy⟩ := hy
  have hwords : padded / wordSize = (bytes + (lineBytes - 1)) / lineBytes * lineWords := by
    rw [hpadded]
    simp only [lineBytes, wordSize, lineWords]
    omega
  -- With or without a limit the pool that is pushed is the same.
  cases hlimit : a.limit with
  | none =>
    simp only [hlimit, Task.yields_guard, Task.yields_bind_note, Task.yields_bind_get,
      Task.yields_bind_set, Task.yields_pure] at hy
    obtain ⟨hcapacity, rfl, rfl⟩ := hy
    rw [hlength, ← hwords]
    exact ⟨rfl, by simp, hpush _ _, Nat.le_trans (Nat.div_le_self _ _) (by omega), rfl⟩
  | some limit =>
    simp only [hlimit, Task.yields_guard, Task.yields_bind_note, Task.yields_bind_get,
      Task.yields_bind_set, Task.yields_pure] at hy
    obtain ⟨-, hcapacity, rfl, rfl⟩ := hy
    rw [hlength, ← hwords]
    exact ⟨rfl, by simp, hpush _ _, Nat.le_trans (Nat.div_le_self _ _) (by omega), rfl⟩

end StencilPlan.Allocator
