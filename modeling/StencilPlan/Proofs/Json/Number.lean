import StencilPlan.Json.Basic
import StencilPlan.Json.Number

/-!
# Numbers as they are written

A number is written as a sign, digits without leading zeros, digits after a point and a power of
ten with its sign. Read again, such a text comes apart into the same pieces, so an integer that is
written in decimal digits is read as itself.
-/

namespace StencilPlan

namespace Text

theorem isDigit_eq (c : Char) : isDigit c = c.isDigit := by
  have h : ('0' ≤ c ∧ c ≤ '9') ↔ (c.val ≥ '0'.val ∧ c.val ≤ '9'.val) := Iff.rfl
  rw [isDigit, digit?, Char.isDigit, ← Bool.decide_and, ← decide_eq_decide.mpr h]
  by_cases hin : '0' ≤ c ∧ c ≤ '9'
  · rw [if_pos hin, decide_eq_true hin, Option.isSome_some]
  · rw [if_neg hin, decide_eq_false hin, Option.isSome_none]

/-- At least one digit, and nothing else. -/
structure IsDigits (ds : List Char) : Prop where
  ne_nil : ds ≠ []
  all : ∀ c ∈ ds, isDigit c = true

theorem IsDigits.append {ds es : List Char} (h : IsDigits ds) (hes : ∀ c ∈ es, isDigit c = true) :
    IsDigits (ds ++ es) :=
  ⟨List.append_ne_nil_of_left_ne_nil h.ne_nil es, fun c hc =>
    (List.mem_append.mp hc).elim (h.all c) (hes c)⟩

theorem isDigits_toDigits (n : Nat) : IsDigits (Nat.toDigits 10 n) :=
  ⟨Nat.toDigits_ne_nil, fun c hc =>
    (isDigit_eq c).trans (Nat.isDigit_of_mem_toDigits (by decide) (by decide) hc)⟩

theorem digitsValue_toDigits (n : Nat) : digitsValue (Nat.toDigits 10 n) = n := by
  have hfold : ∀ (ds : List Char) (v : Nat), (∀ c ∈ ds, isDigit c = true) →
      ds.foldl (fun n c => 10 * n + (digit? c).getD 0) v = Nat.ofDigitChars 10 ds v := by
    intro ds
    induction ds with
    | nil => exact fun _ _ => rfl
    | cons c ds ih =>
      intro v h
      obtain ⟨hc, hds⟩ := List.forall_mem_cons.mp h
      rw [isDigit, digit?] at hc
      rw [List.foldl_cons, ih _ hds, Nat.ofDigitChars, Nat.ofDigitChars, List.foldl_cons, digit?]
      split at hc
      · next hin => rw [if_pos hin, Option.getD_some]
      · cases hc
  rw [digitsValue, hfold _ _ (isDigits_toDigits n).all,
    Nat.ofDigitChars_toDigits (by decide) (by decide)]

/-- Only zero is written with a zero in front. -/
theorem head?_toDigits {n : Nat} (hn : n ≠ 0) : (Nat.toDigits 10 n).head? ≠ some '0' := by
  induction n using Nat.strongRecOn with
  | ind n ih =>
    rcases Nat.lt_or_ge n 10 with hlt | hge
    · rw [Nat.toDigits_of_lt_base hlt]
      intro h
      have hchar := congrArg Char.toNat (Option.some.inj h)
      rw [Nat.toNat_digitChar_of_lt_ten hlt] at hchar
      exact hn (Nat.add_left_cancel hchar)
    · rw [Nat.toDigits_of_base_le (by decide) hge,
        List.head?_append, List.head?_eq_some_head Nat.toDigits_ne_nil, Option.some_or,
        ← List.head?_eq_some_head]
      exact ih (n / 10) (by omega) (by omega)

end Text

namespace Json

open Text

namespace NumberText

/-- The text of a power of ten, which always has a sign. -/
def powerChars : Option (Bool × List Char) → List Char
  | none => []
  | some (negative, ds) => 'e' :: (if negative then '-' else '+') :: ds

/-- The text of a number. -/
def chars (n : NumberText) : List Char :=
  (if n.negative then ['-'] else []) ++
    (n.whole ++ (n.part.elim [] ('.' :: ·) ++ powerChars n.power))

/-- There are digits in every place, and none is a leading zero. -/
structure WellFormed (n : NumberText) : Prop where
  whole : IsDigits n.whole
  lead : n.whole.head? = some '0' → n.whole.length = 1
  part : ∀ ds ∈ n.part, IsDigits ds
  power : ∀ p ∈ n.power, IsDigits p.2

/-- Digits are taken as far as they go. -/
theorem takeWhile_digits {ds rest : List Char} (hds : ∀ c ∈ ds, isDigit c = true)
    (hrest : ∀ c ∈ rest.head?, isDigit c = false) :
    (ds ++ rest).takeWhile isDigit = ds ∧ (ds ++ rest).dropWhile isDigit = rest := by
  rw [List.takeWhile_append_of_pos hds, List.dropWhile_append_of_pos hds]
  cases rest with
  | nil => exact ⟨List.append_nil ds, rfl⟩
  | cons c rest =>
    have hc := hrest c rfl
    rw [List.takeWhile_cons_of_neg (by simp [hc]), List.dropWhile_cons_of_neg (by simp [hc])]
    exact ⟨List.append_nil ds, rfl⟩

theorem powerText?_powerChars {power : Option (Bool × List Char)}
    (h : ∀ p ∈ power, IsDigits p.2) : powerText? (powerChars power) = some power := by
  cases power with
  | none => rfl
  | some p =>
    obtain ⟨negative, ds⟩ := p
    obtain ⟨hne, hall⟩ := h _ rfl
    cases negative <;> simp [powerChars, powerText?, hne, List.all_eq_true.mpr hall]

theorem head?_powerChars (power : Option (Bool × List Char)) :
    ∀ c ∈ (powerChars power).head?, isDigit c = false := by
  cases power with
  | none => exact fun c hc => by cases hc
  | some p =>
    intro c hc
    obtain rfl : 'e' = c := Option.some.inj hc
    rfl

theorem unsigned?_chars {n : NumberText} (h : n.WellFormed) :
    unsigned? n.negative (n.whole ++ (n.part.elim [] ('.' :: ·) ++ powerChars n.power)) =
      some n := by
  have hlead : ¬(n.whole = [] ∨ n.whole.head? = some '0' ∧ n.whole.length > 1) := by
    rintro (hnil | ⟨hzero, hlong⟩)
    · exact h.whole.ne_nil hnil
    · exact absurd (h.lead hzero) (by omega)
  unfold unsigned?
  cases hpart : n.part with
  | none =>
    obtain ⟨htake, hdrop⟩ := takeWhile_digits h.whole.all (head?_powerChars n.power)
    dsimp only
    rw [Option.elim_none, List.nil_append, htake, hdrop, if_neg hlead]
    -- the text of a power does not begin with a point
    split
    · next heq =>
      cases hpower : n.power with
      | none =>
        rw [hpower] at heq
        cases heq
      | some p =>
        rw [hpower] at heq
        exact absurd (congrArg List.head? heq) (by simp [powerChars])
    · rw [powerText?_powerChars h.power, Option.map_some, ← hpart]
  | some ds =>
    have hds := h.part ds hpart
    obtain ⟨htake, hdrop⟩ := @takeWhile_digits _ ('.' :: (ds ++ powerChars n.power))
      h.whole.all fun c hc => by
        obtain rfl : '.' = c := Option.some.inj hc
        rfl
    obtain ⟨htake', hdrop'⟩ := takeWhile_digits hds.all (head?_powerChars n.power)
    rw [Option.elim_some, List.cons_append, htake, hdrop, if_neg hlead]
    change (if (ds ++ powerChars n.power).takeWhile isDigit = [] then none else
      (powerText? ((ds ++ powerChars n.power).dropWhile isDigit)).map _) = _
    rw [htake', hdrop', if_neg hds.ne_nil, powerText?_powerChars h.power, Option.map_some, ← hpart]

/-- A number that is written comes apart into its pieces. -/
theorem parse?_chars {n : NumberText} (h : n.WellFormed) : parse? n.chars = some n := by
  have hbody := unsigned?_chars h
  unfold chars
  cases hsign : n.negative with
  | true =>
    rw [hsign] at hbody
    exact hbody
  | false =>
    rw [hsign] at hbody
    -- Without a sign the first character is a digit, so none is taken for a sign.
    obtain ⟨d, ds, hwhole⟩ := List.exists_cons_of_ne_nil h.whole.ne_nil
    rw [if_neg (by decide), List.nil_append, parse?]
    · exact hbody
    · intro s heq
      rw [hwhole] at heq
      obtain rfl : d = '-' := Option.some.inj (congrArg List.head? heq)
      have hdigit := h.whole.all '-' (hwhole ▸ List.mem_cons_self)
      cases hdigit

/-! ### Integers -/

/-- The text of an integer in decimal digits. -/
def ofInt (n : Int) : NumberText := ⟨n < 0, Nat.toDigits 10 n.natAbs, none, none⟩

theorem wellFormed_ofInt (n : Int) : (ofInt n).WellFormed where
  whole := isDigits_toDigits _
  lead h := by
    by_cases hn : n.natAbs = 0
    · rw [ofInt, hn]
      rfl
    · exact absurd h (head?_toDigits hn)
  part ds hds := by cases hds
  power p hp := by cases hp

theorem chars_ofInt (n : Int) : (ofInt n).chars = (toString n).toList := by
  rw [chars, ofInt, Option.elim_none, powerChars, List.nil_append, List.append_nil]
  cases n with
  | ofNat m => exact Nat.toList_repr.symm
  | negSucc m =>
    rw [decide_eq_true (Int.negSucc_lt_zero m), if_pos rfl]
    show '-' :: Nat.toDigits 10 (m + 1) = ("-" ++ (m + 1).repr).toList
    rw [String.toList_append, Nat.toList_repr]
    rfl

theorem int?_ofInt (n : Int) : (ofInt n).int? = some n := by
  rw [int?, ofInt]
  dsimp only
  rw [if_neg (by simp), digitsValue_toDigits]
  by_cases hneg : n < 0
  · rw [if_pos (decide_eq_true hneg), if_neg (by omega)]
    exact congrArg some (by omega)
  · rw [if_neg (by simpa using hneg)]
    exact congrArg some (by omega)

end NumberText

end Json

end StencilPlan
