import Mathlib.Algebra.Group.Nat.Defs
import StencilPlan.Halo.Exchange
import StencilPlan.Proofs.Yields

/-!
# What a message says

A message consists of the bytes of its values, eight for each, and the values can be read off it
again.
-/

namespace StencilPlan

/-- What the lowest bytes of a number say. -/
theorem foldr_bytes (n k : Nat) :
    ((List.range k).map fun i => UInt8.ofNat (n / twoPow (8 * i))).foldr
      (fun b n => b.toNat + 256 * n) 0 = n % 256 ^ k := by
  induction k generalizing n with
  | zero => simp [Nat.mod_one]
  | succ k ih =>
    have hshift : ∀ i, n / twoPow (8 * (i + 1)) = n / 256 / twoPow (8 * i) := by
      intro i
      rw [Nat.div_div_eq_div_mul, twoPow, twoPow, Nat.pow_eq, Nat.pow_eq, Nat.mul_add, Nat.pow_add,
        Nat.mul_comm]
    rw [List.range_succ_eq_map, List.map_cons, List.foldr_cons, List.map_map]
    simp only [Function.comp_def, Nat.succ_eq_add_one, hshift]
    rw [ih, UInt8.toNat_ofNat', show twoPow (8 * 0) = 1 from rfl, Nat.div_one,
      show 256 ^ (k + 1) = 256 * 256 ^ k from Nat.pow_succ', Nat.mod_mul]

namespace Binary64

/-- A word is what its bytes say. -/
theorem ofBytes_bytes (x : Binary64) : ofBytes x.bytes = x := by
  have hlt : x.bits.toNat < 256 ^ 8 := x.bits.toNat_lt
  rw [ofBytes, bytes, foldr_bytes, Nat.mod_eq_of_lt hlt, UInt64.ofNat_toNat]

theorem length_bytes (x : Binary64) : x.bytes.length = wordSize := by
  simp [bytes, wordSize]

end Binary64

/-- The message with some values. -/
def payload (vs : List Binary64) : Payload := vs.flatMap (·.bytes)

theorem length_payload (vs : List Binary64) : (payload vs).length = vs.length * wordSize := by
  induction vs with
  | nil => rfl
  | cons v vs ih =>
    rw [payload, List.flatMap_cons, List.length_append, Binary64.length_bytes, ← payload, ih,
      List.length_cons, Nat.succ_mul, Nat.add_comm]

/-- The values in a message are those it was made of. -/
theorem wordsOf_payload (vs : List Binary64) : wordsOf vs.length (payload vs) = vs := by
  induction vs with
  | nil => rfl
  | cons v vs ih =>
    rw [payload, List.flatMap_cons, List.length_cons, wordsOf, ← v.length_bytes, List.take_left,
      List.drop_left, Binary64.ofBytes_bytes, ← payload, ih]

/-- A message that is cut after some values is the message with the values before. -/
theorem take_payload (k : Nat) (vs : List Binary64) :
    (payload vs).take (k * wordSize) = payload (vs.take k) := by
  induction vs generalizing k with
  | nil => simp [payload]
  | cons v vs ih =>
    cases k with
    | zero => simp [payload]
    | succ k =>
      have hlength : (k + 1) * wordSize = v.bytes.length + k * wordSize := by
        rw [v.length_bytes, Nat.succ_mul, Nat.add_comm]
      rw [payload, List.flatMap_cons, hlength, List.take_length_add_append, ← payload, ih,
        List.take_succ_cons, payload, payload, List.flatMap_cons]

/-- The values in a message that was cut are the first ones it was made of. -/
theorem wordsOf_take_payload {k : Nat} {vs : List Binary64} (h : k ≤ vs.length) :
    wordsOf k ((payload vs).take (k * wordSize)) = vs.take k := by
  have hwords := wordsOf_payload (vs.take k)
  rwa [List.length_take, Nat.min_eq_left h, ← take_payload] at hwords

theorem length_take_payload (k : Nat) (vs : List Binary64) :
    ((payload vs).take (k * wordSize)).length = min k vs.length * wordSize := by
  rw [take_payload, length_payload, List.length_take]

theorem length_fitValues (n : Nat) (vs : List Binary64) : (fitValues n vs).length = n := by
  simp only [fitValues, List.length_take, List.length_append, List.length_replicate]
  omega

/-- A rank tags a message with the number of the variable and the offset. -/
theorem messageTag_eq_ok {neighborhood var offset neighbor tag : Nat} :
    messageTag neighborhood var offset neighbor = .ok tag ↔
      tag = var * neighborhood + offset ∧ tag < tagLimit := by
  simp only [messageTag, bind_eq_ok, liftM_checked_eq_ok, Word.mul, Word.add, Word.check_eq_ok_iff,
    guard_eq_ok, pure_eq_ok, Word.bound]
  constructor
  · rintro ⟨_, ⟨-, rfl⟩, _, ⟨-, rfl⟩, hlt, rfl⟩
    exact ⟨rfl, by omega⟩
  · rintro ⟨rfl, hlt⟩
    have hbound : var * neighborhood + offset < 18446744073709551616 :=
      Nat.lt_trans hlt (by decide)
    exact ⟨_, ⟨by omega, rfl⟩, _, ⟨by omega, rfl⟩, by omega, rfl⟩

/-- Different places have different tags. -/
theorem tag_inj {neighborhood var var' offset offset' : Nat} (h : offset < neighborhood)
    (h' : offset' < neighborhood)
    (heq : var * neighborhood + offset = var' * neighborhood + offset') :
    var = var' ∧ offset = offset' := by
  have hpos : 0 < neighborhood := Nat.lt_of_le_of_lt (Nat.zero_le _) h
  have hdiv := congrArg (· / neighborhood) heq
  have hmod := congrArg (· % neighborhood) heq
  simp only [Nat.mul_comm _ neighborhood, Nat.mul_add_div hpos, Nat.div_eq_of_lt h,
    Nat.div_eq_of_lt h', Nat.add_zero] at hdiv
  simp only [Nat.mul_comm _ neighborhood, Nat.mul_add_mod, Nat.mod_eq_of_lt h,
    Nat.mod_eq_of_lt h'] at hmod
  exact ⟨hdiv, hmod⟩

end StencilPlan
