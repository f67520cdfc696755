import Mathlib.Tactic.SplitIfs
import StencilPlan.Number.Shortest
import StencilPlan.Proofs.Json.Codec

/-!
# The text of a real

Digits that are placed around a decimal point make a number, with or without a power of ten. The
digits of a real do not begin with a zero, unless there is no other, so the text of a real is a
number that can be read.
-/

namespace StencilPlan.Binary64

open Text Json

/-! ### Digits around a point -/

/-- The number that digits spell, of which `point` stand before the decimal point. -/
def placed (negative : Bool) (ds : List Char) (point : Int) : NumberText :=
  if 0 < point ∧ point ≤ 16 then
    if (ds.length : Int) ≤ point then
      ⟨negative, ds ++ List.replicate (point - ds.length).toNat '0', some ['0'], none⟩
    else
      ⟨negative, ds.take point.toNat, some (ds.drop point.toNat), none⟩
  else if -5 < point ∧ point ≤ 0 then
    ⟨negative, ['0'], some (List.replicate (-point).toNat '0' ++ ds), none⟩
  else
    ⟨negative, ds.take 1, if (ds.drop 1).isEmpty then none else some (ds.drop 1),
      some (point - 1 < 0, Nat.toDigits 10 (point - 1).natAbs)⟩

variable {negative : Bool} {ds : List Char} {point : Int}

theorem toList_place : (place ds point).toList = (placed false ds point).chars := by
  unfold place placed
  dsimp only
  split_ifs with hshort hfew hsmall htail hneg hneg
  · simp [NumberText.chars, NumberText.powerChars]
  · simp [NumberText.chars, NumberText.powerChars]
  · simp [NumberText.chars, NumberText.powerChars]
  all_goals simp [NumberText.chars, NumberText.powerChars, hneg, Nat.toString_eq_repr]

/-- A sign in front of the digits. -/
theorem toList_signed : (if negative then "-" ++ place ds point else place ds point).toList =
    (placed negative ds point).chars := by
  cases negative with
  | false => exact toList_place
  | true =>
    rw [if_pos rfl, String.toList_append, toList_place]
    unfold placed
    split_ifs <;> rfl

/-- Digits make a number wherever the point is, if they begin with a zero only where it is all
there is to the left of the point. -/
theorem wellFormed_placed (hds : IsDigits ds)
    (hlead : ds.head? = some '0' → ds = ['0'] ∧ point = 1) :
    (placed negative ds point).WellFormed := by
  have hzeros : ∀ n, ∀ c ∈ List.replicate n '0', isDigit c = true := fun n c hc =>
    List.eq_of_mem_replicate hc ▸ rfl
  have hone : IsDigits ['0'] := ⟨by decide, hzeros 1⟩
  have hdrop : ∀ n, ds.drop n ≠ [] → IsDigits (ds.drop n) := fun n hn =>
    ⟨hn, fun c hc => hds.all c (List.mem_of_mem_drop hc)⟩
  have htake : ∀ n, n ≠ 0 → IsDigits (ds.take n) ∧ (ds.take n).head? = ds.head? := fun n hn =>
    ⟨⟨by simp [hn, hds.ne_nil], fun c hc => hds.all c (List.mem_of_mem_take hc)⟩,
      List.head?_take.trans (if_neg hn)⟩
  -- The cases are those of the printer: the point behind the digits, among them, before them, or an
  -- exponent.
  unfold placed
  split
  · split
    · refine ⟨hds.append (hzeros _), fun h => ?_, fun es hes => ?_, fun p hp => by cases hp⟩
      · obtain ⟨d, ds, rfl⟩ := List.exists_cons_of_ne_nil hds.ne_nil
        obtain ⟨hone, rfl⟩ := hlead h
        rw [hone]
        rfl
      · obtain rfl : ['0'] = es := Option.some.inj hes
        exact hone
    · obtain ⟨hdigits, hhead⟩ := htake point.toNat (by omega)
      refine ⟨hdigits, fun h => ?_, fun es hes => ?_, fun p hp => by cases hp⟩
      · obtain ⟨rfl, rfl⟩ := hlead (hhead ▸ h)
        rfl
      · obtain rfl : ds.drop point.toNat = es := Option.some.inj hes
        refine hdrop _ fun hnil => ?_
        have hlen := List.drop_eq_nil_iff.mp hnil
        omega
  split
  · refine ⟨hone, fun _ => rfl, fun es hes => ?_, fun p hp => by cases hp⟩
    obtain rfl : List.replicate (-point).toNat '0' ++ ds = es := Option.some.inj hes
    refine ⟨List.append_ne_nil_of_right_ne_nil _ hds.ne_nil, fun c hc => ?_⟩
    exact (List.mem_append.mp hc).elim (hzeros _ c) (hds.all c)
  · refine ⟨(htake 1 (by decide)).1, fun _ => ?_, fun es hes => ?_, fun p hp => ?_⟩
    · have hpos := List.length_pos_iff.mpr hds.ne_nil
      rw [List.length_take]
      omega
    · dsimp only at hes
      split at hes
      · cases hes
      · next htail =>
        obtain rfl : ds.drop 1 = es := Option.some.inj hes
        exact hdrop 1 fun hnil => htail (by rw [hnil]; rfl)
    · obtain rfl := Option.some.inj hp
      exact isDigits_toDigits _

/-! ### The digits of a real -/

theorem Decimal.digits_trim {d : Decimal} (hd : d.digits ≠ 0) (steps : Nat) :
    (d.trim steps).digits ≠ 0 := by
  induction steps generalizing d with
  | zero => exact hd
  | succ steps ih =>
    rw [Decimal.trim]
    split
    · next hzero => exact ih (by dsimp only; omega)
    · exact hd

/-- Zero is no digit of a shortest text, unless the search fails. -/
theorem digits_shortest (x : Binary64) : x.shortest.digits ≠ 0 ∨ x.shortest = ⟨0, 0⟩ := by
  have hgrid : ∀ {power : Int} {d}, x.onGrid? power = some d → d.digits ≠ 0 := by
    intro power d h
    unfold onGrid? at h
    extract_lets m p v u below value low high reads c down up downFirst at h
    by_cases hdown : reads c ∧ (downFirst ∨ ¬reads (c + 1)) ∧ c ≠ 0
    · rw [if_pos hdown] at h
      obtain rfl := Option.some.inj h
      exact hdown.2.2
    · rw [if_neg hdown] at h
      by_cases hup : reads (c + 1)
      · rw [if_pos hup] at h
        obtain rfl := Option.some.inj h
        exact Nat.succ_ne_zero c
      · rw [if_neg hup] at h
        cases h
  unfold shortest
  dsimp only
  split
  · next d hd =>
    -- Trimming takes zeros off the end, which leaves digits if there were some.
    obtain ⟨n, -, hn⟩ := List.exists_of_findSome?_eq_some hd
    exact .inl (Decimal.digits_trim (hgrid hn) 20)
  · exact .inr rfl

/-- The text of a real, taken apart. -/
def text (x : Binary64) : NumberText :=
  if x.significand = 0 then placed x.negative ['0'] 1
  else
    let ds := Nat.toDigits 10 x.shortest.digits
    placed x.negative ds (ds.length + x.shortest.power)

theorem toList_render (x : Binary64) : x.render.toList = x.text.chars := by
  unfold render text
  dsimp only
  by_cases hzero : x.significand = 0
  · rw [if_pos hzero, if_pos hzero]
    exact @toList_signed x.negative ['0'] 1
  · rw [if_neg hzero, if_neg hzero]
    exact toList_signed

theorem wellFormed_text (x : Binary64) : x.text.WellFormed := by
  unfold text
  dsimp only
  split
  · exact wellFormed_placed (isDigits_toDigits 0) fun _ => ⟨rfl, rfl⟩
  · refine wellFormed_placed (isDigits_toDigits _) fun hzero => ?_
    rcases x.digits_shortest with hne | hnone
    · exact absurd hzero (head?_toDigits hne)
    · rw [hnone]
      exact ⟨rfl, rfl⟩

/-- A real is written as a number, or as `null`. -/
theorem written_real (x : Binary64) : (Json.real x).Written := by
  unfold Json.real
  split
  · rw [toList_render]
    exact .number x.wellFormed_text
  · exact .null

end StencilPlan.Binary64
