import Mathlib.Tactic.SplitIfs
import StencilPlan.Json.Token
import StencilPlan.Proofs.Json.Number

/-!
# Tokens of written values

A value that is written comes apart into tokens where it was put together: at the marks between
its parts. A piece of a text that is followed by a mark, or by nothing, is cut in the same way
wherever it stands (`Lexed`), so it is enough to know this of words, numbers and strings.
-/

namespace StencilPlan.Json

/-- Values as they are written: numbers are well-formed, and strings and keys have characters. -/
inductive Written : Json → Prop
  | null : Written .null
  | bool (b : Bool) : Written (.bool b)
  | number {n : NumberText} (h : n.WellFormed) : Written (.number n.chars)
  | str (s : String) : Written (.str s)
  | array {items : List Json} (h : ∀ v ∈ items, Written v) : Written (.array items)
  | record {fields : List (String × Json)} (h : ∀ f ∈ fields, Written f.2) :
      Written (.record fields)

mutual

/-- The tokens of a value. -/
def tokens : Json → List Token
  | array items => .mark '[' :: (itemsTokens items ++ [.mark ']'])
  | object fields => .mark '\x7b' :: (fieldsTokens fields ++ [.mark '\x7d'])
  | v => [.leaf v]

/-- The tokens of items with the commas between them. -/
def itemsTokens : List Json → List Token
  | [] => []
  | [v] => tokens v
  | v :: vs => tokens v ++ .mark ',' :: itemsTokens vs

/-- The tokens of fields with the commas between them. -/
def fieldsTokens : List (Option String × Json) → List Token
  | [] => []
  | [(k, v)] => [.leaf (.text k)] ++ .mark ':' :: tokens v
  | (k, v) :: fs => [.leaf (.text k)] ++ .mark ':' :: (tokens v ++ .mark ',' :: fieldsTokens fs)

end

/-! ### Pieces of a text -/

/-- The marks between the parts of a value. -/
def marks : List Char := ['[', ']', '\x7b', '\x7d', ',', ':']

theorem start?_mark {c : Char} (hc : c ∈ marks) (read : List Token) :
    start? c read = some (.between, .mark c :: read) := by
  simp only [marks, List.mem_cons, List.not_mem_nil, or_false] at hc
  rcases hc with rfl | rfl | rfl | rfl | rfl | rfl <;> rfl

/-- The machine may stop: what it was in the middle of are the tokens `last`, which a mark ends. -/
structure Mode.Ends (m : Mode) (last : List Token) : Prop where
  finish : m.finish? = some last
  mark : ∀ c ∈ marks, ∀ read, advance? (m, read) c = some (.between, .mark c :: (last ++ read))

/-- A piece that is cut into the tokens `ts`, if a mark follows it or nothing. -/
def Lexed (cs : List Char) (ts : List Token) : Prop :=
  ∀ read, ∃ m last read', cs.foldlM advance? (.between, read) = some (m, read') ∧ m.Ends last ∧
    last ++ read' = ts.reverse ++ read

theorem ends_between : Mode.between.Ends [] := ⟨rfl, fun _ hc read => start?_mark hc read⟩

theorem lexed_nil : Lexed [] [] := fun read => ⟨.between, [], read, rfl, ends_between, rfl⟩

/-- Two pieces with a mark between them. -/
theorem Lexed.mark {cs ds : List Char} {ts us : List Token} {c : Char} (hcs : Lexed cs ts)
    (hc : c ∈ marks) (hds : Lexed ds us) : Lexed (cs ++ c :: ds) (ts ++ .mark c :: us) := by
  intro read
  obtain ⟨m, last, read', hfold, hends, hread⟩ := hcs read
  obtain ⟨m₁, last₁, read₁, hfold₁, hends₁, hread₁⟩ := hds (.mark c :: (last ++ read'))
  refine ⟨m₁, last₁, read₁, ?_, hends₁, ?_⟩
  · rw [List.foldlM_append, hfold, Option.bind_eq_bind, Option.bind_some, List.foldlM_cons,
      hends.mark c hc, Option.bind_eq_bind, Option.bind_some, hfold₁]
  · rw [hread₁, hread, List.reverse_append, List.reverse_cons, List.append_assoc, List.append_assoc]
    rfl

/-! ### Words -/

theorem ends_word {read : List Char} {v : Json}
    (h : keyword? (String.ofList read.reverse) = some v) : (Mode.word read).Ends [.leaf v] := by
  have hfinish : (Mode.word read).finish? = some [.leaf v] := by rw [Mode.finish?, h]; rfl
  refine ⟨hfinish, fun c hc ts => ?_⟩
  have hletter : ¬('a' ≤ c ∧ c ≤ 'z') := by
    simp only [marks, List.mem_cons, List.not_mem_nil, or_false] at hc
    rcases hc with rfl | rfl | rfl | rfl | rfl | rfl <;> decide
  rw [advance?]
  dsimp only
  rw [if_neg hletter, hfinish]
  exact start?_mark hc _

theorem lexed_null : Lexed (chars .null) [.leaf .null] := fun read =>
  ⟨.word "llun".toList, _, read, rfl, ends_word rfl, rfl⟩

theorem lexed_bool (b : Bool) : Lexed (chars (.bool b)) [.leaf (.bool b)] := by
  intro read
  cases b with
  | true => exact ⟨.word "eurt".toList, _, read, rfl, ends_word rfl, rfl⟩
  | false => exact ⟨.word "eslaf".toList, _, read, rfl, ends_word rfl, rfl⟩

/-! ### Numbers -/

section Numbers

open Text

variable {n : NumberText}

theorem ends_number (h : n.WellFormed) :
    (Mode.number n.chars.reverse).Ends [.leaf (.number n.chars)] := by
  have hfinish : (Mode.number n.chars.reverse).finish? = some [.leaf (.number n.chars)] := by
    rw [Mode.finish?, List.reverse_reverse, NumberText.parse?_chars h]
    rfl
  refine ⟨hfinish, fun c hc ts => ?_⟩
  have hpart : ¬(isDigit c = true ∨ c ∈ ['+', '-', '.', 'e', 'E']) := by
    simp only [marks, List.mem_cons, List.not_mem_nil, or_false] at hc
    rcases hc with rfl | rfl | rfl | rfl | rfl | rfl <;> decide
  rw [advance?]
  dsimp only
  rw [if_neg hpart, hfinish]
  exact start?_mark hc _

/-- The characters of a number after the first one. -/
def InNumber (c : Char) : Prop := isDigit c = true ∨ c ∈ ['+', '-', '.', 'e', 'E']

theorem advance?_number {cs : List Char} (h : ∀ c ∈ cs, InNumber c) (read : List Char)
    (ts : List Token) :
    cs.foldlM advance? (.number read, ts) = some (.number (cs.reverse ++ read), ts) := by
  induction cs generalizing read with
  | nil => rfl
  | cons c cs ih =>
    obtain ⟨hc, hcs⟩ := List.forall_mem_cons.mp h
    rw [InNumber] at hc
    rw [List.foldlM_cons, advance?]
    dsimp only
    rw [if_pos hc, Option.bind_eq_bind, Option.bind_some, ih hcs, List.reverse_cons,
      List.append_assoc]
    rfl

theorem start?_number {c : Char} (h : c = '-' ∨ isDigit c = true) (ts : List Token) :
    start? c ts = some (.number [c], ts) := by
  have hblank : ¬(c = ' ' ∨ c = '\n' ∨ c = '\t' ∨ c = '\r') := by
    rintro (rfl | rfl | rfl | rfl) <;> revert h <;> decide
  have hmark : c ∉ ['[', ']', '\x7b', '\x7d', ',', ':'] := by
    simp only [List.mem_cons, List.not_mem_nil, or_false]
    rintro (rfl | rfl | rfl | rfl | rfl | rfl) <;> revert h <;> decide
  have hquote : c ≠ '"' := by
    rintro rfl
    revert h
    decide
  rw [start?, if_neg hblank, if_neg hmark, if_neg hquote, if_pos h]

theorem inNumber_powerChars {power : Option (Bool × List Char)} (h : ∀ p ∈ power, IsDigits p.2) :
    ∀ c ∈ NumberText.powerChars power, InNumber c := by
  cases power with
  | none => exact fun c hc => absurd hc List.not_mem_nil
  | some p =>
    obtain ⟨negative, ds⟩ := p
    intro c hc
    rcases List.mem_cons.mp hc with rfl | hc
    · exact .inr (by decide)
    · rcases List.mem_cons.mp hc with rfl | hc
      · cases negative <;> exact .inr (by decide)
      · exact .inl ((h _ rfl).all c hc)

theorem NumberText.WellFormed.inNumber (h : n.WellFormed) : ∀ c ∈ n.chars, InNumber c := by
  intro c hc
  rw [chars, List.mem_append, List.mem_append, List.mem_append] at hc
  rcases hc with hc | hc | hc | hc
  · split at hc
    · obtain rfl := List.mem_singleton.mp hc
      exact .inr (by decide)
    · exact absurd hc List.not_mem_nil
  · exact .inl (h.whole.all c hc)
  · cases hpart : n.part with
    | none =>
      rw [hpart] at hc
      exact absurd hc List.not_mem_nil
    | some ds =>
      rw [hpart] at hc
      rcases List.mem_cons.mp hc with rfl | hc
      · exact .inr (by decide)
      · exact .inl ((h.part ds hpart).all c hc)
  · exact inNumber_powerChars h.power c hc

/-- A number begins with a minus sign or a digit. -/
theorem NumberText.WellFormed.exists_cons (h : n.WellFormed) :
    ∃ c cs, n.chars = c :: cs ∧ (c = '-' ∨ isDigit c = true) := by
  obtain ⟨d, ds, hwhole⟩ := List.exists_cons_of_ne_nil h.whole.ne_nil
  rw [chars, hwhole]
  cases n.negative with
  | true => exact ⟨'-', _, rfl, .inl rfl⟩
  | false => exact ⟨d, _, rfl, .inr (h.whole.all d (hwhole ▸ List.mem_cons_self))⟩

theorem lexed_number (h : n.WellFormed) :
    Lexed (Json.chars (.number n.chars)) [.leaf (.number n.chars)] := by
  intro read
  obtain ⟨c, cs, hchars, hc⟩ := h.exists_cons
  refine ⟨.number n.chars.reverse, _, read, ?_, ends_number h, rfl⟩
  show n.chars.foldlM advance? (.between, read) = _
  have hcs := (List.forall_mem_cons.mp (hchars ▸ h.inNumber)).2
  rw [hchars, List.foldlM_cons, advance?]
  dsimp only
  rw [start?_number hc, Option.bind_eq_bind, Option.bind_some, advance?_number hcs,
    List.reverse_cons]

end Numbers

/-! ### Strings -/

/-- A digit of base 16 is read as itself. -/
theorem hexValue?_hexDigit : ∀ n < 16, hexValue? (hexDigit n) = some n := by decide

/-- How a character stands in a string: by a letter after a backslash, by its number or as it is. -/
inductive Escaped (c : Char) : List Char → Prop
  | letter {l : Char} (hl : l ≠ 'u') (h : escaped? l = some c) : Escaped c ['\\', l]
  | number (h : c.toNat < 32) :
      Escaped c ['\\', 'u', '0', '0', hexDigit (c.toNat / 16), hexDigit (c.toNat % 16)]
  | plain (hquote : c ≠ '"') (hslash : c ≠ '\\') (h : ¬c.toNat < 32) : Escaped c [c]

theorem escaped_escape (c : Char) : Escaped c (escape c) := by
  unfold escape
  -- Seven characters have a letter of their own, the other control characters a number.
  split_ifs with hquote hslash hb ht hn hf hr hcontrol
  · subst hquote
    exact .letter (by decide) rfl
  · subst hslash
    exact .letter (by decide) rfl
  · subst hb
    exact .letter (by decide) rfl
  · subst ht
    exact .letter (by decide) rfl
  · subst hn
    exact .letter (by decide) rfl
  · subst hf
    exact .letter (by decide) rfl
  · subst hr
    exact .letter (by decide) rfl
  · exact .number hcontrol
  · exact .plain hquote hslash hcontrol

/-- However a character stands in a string, it is read as one piece, which spells it. -/
theorem Escaped.exists_piece {c : Char} {cs : List Char} (h : Escaped c cs) : ∃ piece,
    (∀ read ts, cs.foldlM advance? (.string read, ts) = some (.string (piece :: read), ts)) ∧
      ∀ pieces, spell (piece :: pieces) = (spell pieces).map (c :: ·) := by
  cases h with
  | @letter l hl h =>
    refine ⟨.char c, fun read ts => ?_, fun _ => rfl⟩
    show advance? (.escape read, ts) l >>= pure = _
    rw [advance?]
    dsimp only
    rw [if_neg hl, h]
    rfl
  | number h =>
    refine ⟨.unit c.toNat, fun read ts => ?_, fun pieces => ?_⟩
    · have hzero : hexValue? '0' = some 0 := rfl
      have hhigh := hexValue?_hexDigit (c.toNat / 16) (by omega)
      have hlow := hexValue?_hexDigit (c.toNat % 16) (by omega)
      have hvalue := Nat.div_add_mod c.toNat 16
      simp [advance?, hzero, hhigh, hlow, hvalue]
    · -- A control character is below the surrogates, so the unit stands for itself.
      rw [spell.eq_def]
      dsimp only
      rw [if_neg (by omega), if_neg (by omega), Char.ofNat_toNat]
  | plain hquote hslash h =>
    refine ⟨.char c, fun read ts => ?_, fun _ => rfl⟩
    show advance? (.string read, ts) c >>= pure = _
    rw [advance?]
    dsimp only
    rw [if_neg hquote, if_neg hslash, if_neg h]
    rfl

theorem advance?_flatMap_escape (cs : List Char) (read : List Piece) (ts : List Token) :
    ∃ pieces, (cs.flatMap escape).foldlM advance? (.string read, ts) =
      some (.string (pieces.reverse ++ read), ts) ∧ spell pieces = some cs := by
  induction cs generalizing read with
  | nil => exact ⟨[], rfl, rfl⟩
  | cons c cs ih =>
    obtain ⟨piece, hpiece, hspell⟩ := (escaped_escape c).exists_piece
    obtain ⟨pieces, hpieces, hrest⟩ := ih (piece :: read)
    refine ⟨piece :: pieces, ?_, ?_⟩
    · rw [List.flatMap_cons, List.foldlM_append, hpiece, Option.bind_eq_bind, Option.bind_some,
        hpieces, List.reverse_cons, List.append_assoc]
      rfl
    · rw [hspell, hrest, Option.map_some]

theorem lexed_quote (s : String) : Lexed (quote s) [.leaf (.str s)] := by
  intro read
  obtain ⟨pieces, hpieces, hspell⟩ := advance?_flatMap_escape s.toList [] read
  refine ⟨.between, [], .leaf (.str s) :: read, ?_, ends_between, rfl⟩
  show (s.toList.flatMap escape ++ ['"']).foldlM advance? (.string [], read) = _
  rw [List.foldlM_append, hpieces, Option.bind_eq_bind, Option.bind_some, List.append_nil,
    List.foldlM_cons, advance?]
  dsimp only
  rw [if_pos rfl, List.reverse_reverse, hspell, Option.map_some, String.ofList_toList]
  rfl

/-! ### Values -/

theorem lexed_itemsChars {items : List Json} (h : ∀ v ∈ items, Lexed (chars v) (tokens v)) :
    Lexed (itemsChars items) (itemsTokens items) := by
  induction items with
  | nil => exact lexed_nil
  | cons v vs ih =>
    obtain ⟨hv, hvs⟩ := List.forall_mem_cons.mp h
    cases vs with
    | nil => exact hv
    | cons w vs => exact hv.mark (by decide) (ih hvs)

theorem lexed_fieldsChars {fields : List (String × Json)}
    (h : ∀ f ∈ fields, Lexed (chars f.2) (tokens f.2)) :
    Lexed (fieldsChars (fields.map fun f => (some f.1, f.2)))
      (fieldsTokens (fields.map fun f => (some f.1, f.2))) := by
  induction fields with
  | nil => exact lexed_nil
  | cons f fs ih =>
    obtain ⟨k, v⟩ := f
    obtain ⟨hv, hfs⟩ := List.forall_mem_cons.mp h
    cases fs with
    | nil => exact (lexed_quote k).mark (by decide) hv
    | cons g fs => exact (lexed_quote k).mark (by decide) (hv.mark (by decide) (ih hfs))

/-- What is written for a value is cut into its tokens. -/
theorem Written.lexed {v : Json} (h : v.Written) : Lexed (chars v) (tokens v) := by
  induction h with
  | null => exact lexed_null
  | bool b => exact lexed_bool b
  | number h => exact lexed_number h
  | str s => exact lexed_quote s
  | array _ ih =>
    exact lexed_nil.mark (by decide) ((lexed_itemsChars ih).mark (by decide) lexed_nil)
  | record _ ih =>
    exact lexed_nil.mark (by decide) ((lexed_fieldsChars ih).mark (by decide) lexed_nil)

theorem tokens?_chars {v : Json} (h : v.Written) : tokens? (chars v) = some (tokens v) := by
  obtain ⟨m, last, read, hfold, hends, hread⟩ := h.lexed []
  rw [tokens?, hfold, Option.bind_eq_bind, Option.bind_some]
  dsimp only
  rw [hends.finish, Option.bind_eq_bind, Option.bind_some, hread, List.append_nil,
    List.reverse_reverse]
  rfl

end StencilPlan.Json
