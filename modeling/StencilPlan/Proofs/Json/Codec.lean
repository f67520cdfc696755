import Mathlib.Data.List.Forall2
import StencilPlan.Json.Codec
import StencilPlan.Proofs.Json.Reader

/-!
# Records that are read back

A record gives the values of its fields back if no name stands for two of them, a list gives back
what each of its items was written for, and an integer in range is read as itself.
-/

namespace StencilPlan.Json

/-! ### Records and lists -/

theorem mapM_eq_some {α β : Type} {f : α → Option β} {as : List α} {bs : List β}
    (h : List.Forall₂ (fun a b => f a = some b) as bs) : as.mapM f = some bs := by
  induction h with
  | nil => rfl
  | cons ha _ ih => rw [List.mapM_cons, ha, ih]; rfl

/-- Every item that is read stands for one that was there. -/
theorem exists_of_mem_mapM {α β : Type} {f : α → Option β} {as : List α} {bs : List β} {b : β}
    (h : as.mapM f = some bs) (hb : b ∈ bs) : ∃ a ∈ as, f a = some b := by
  induction as generalizing bs with
  | nil =>
    obtain rfl := Option.some.inj h
    exact absurd hb List.not_mem_nil
  | cons a as ih =>
    simp only [List.mapM_cons, Option.bind_eq_bind, Option.bind_eq_some_iff, Option.pure_def,
      Option.some.injEq] at h
    obtain ⟨c, hc, cs, hcs, rfl⟩ := h
    rcases List.mem_cons.mp hb with rfl | hb
    · exact ⟨a, List.mem_cons_self, hc⟩
    · obtain ⟨a', ha', hb'⟩ := ih hcs hb
      exact ⟨a', List.mem_cons_of_mem _ ha', hb'⟩

/-- Only one field has the name of a field. -/
theorem filter_fields {fields : List (String × Json)} (hn : (fields.map (·.1)).Nodup)
    {f : String × Json} (hf : f ∈ fields) :
    (fields.map fun g => (some g.1, g.2)).filter (·.1 = some f.1) = [(some f.1, f.2)] := by
  induction fields with
  | nil => exact absurd hf List.not_mem_nil
  | cons g gs ih =>
    rw [List.map_cons, List.nodup_cons] at hn
    obtain ⟨hnew, hn⟩ := hn
    have hother : ∀ e ∈ gs, e.1 ≠ g.1 := fun e he heq => hnew (heq ▸ List.mem_map_of_mem he)
    rw [List.map_cons]
    rcases List.mem_cons.mp hf with rfl | hf
    · rw [List.filter_cons_of_pos (by simp), List.filter_eq_nil_iff.mpr]
      intro e he
      obtain ⟨g, hg, rfl⟩ := List.mem_map.mp he
      simpa using hother g hg
    · rw [List.filter_cons_of_neg (by simpa using (hother f hf).symm), ih hn hf]

theorem fields?_record {names : List String} {vs : List Json} (hn : names.Nodup)
    (hlen : names.length = vs.length) : (record (names.zip vs)).fields? names = some vs := by
  have hkeys : ((names.zip vs).map (·.1)).Nodup := by rwa [List.map_fst_zip (Nat.le_of_eq hlen)]
  rw [record, fields?, if_pos]
  · refine mapM_eq_some (List.forall₂_iff_zip.mpr ⟨hlen, fun hmem => ?_⟩)
    rw [filter_fields hkeys hmem]
  · simp

theorem list?_array {α : Type} {item? : Json → Option α} {toJson : α → Json} {as : List α}
    (h : ∀ a ∈ as, item? (toJson a) = some a) :
    (array (as.map toJson)).list? item? = some as := by
  refine mapM_eq_some (List.forall₂_map_left_iff.mpr ?_)
  exact List.forall₂_same.mpr h

theorem written_record {names : List String} {vs : List Json} (h : ∀ v ∈ vs, Written v) :
    (record (names.zip vs)).Written :=
  .record fun _ hf => h _ (List.of_mem_zip hf).2

/-! ### Integers -/

theorem int_eq (n : Int) : int n = .number (NumberText.ofInt n).chars := by
  rw [int, NumberText.chars_ofInt]

theorem written_int (n : Int) : (int n).Written :=
  int_eq n ▸ .number (NumberText.wellFormed_ofInt n)

theorem nat_eq_int (n : Nat) : nat n = int n := rfl

theorem between?_int {low high n : Int} (h : low ≤ n ∧ n ≤ high) :
    (int n).between? low high = some n := by
  rw [int_eq, between?, number?, NumberText.parse?_chars (NumberText.wellFormed_ofInt n),
    Option.bind_some, NumberText.int?_ofInt, Option.filter_some, if_pos (decide_eq_true h)]

theorem word?_nat {n : Nat} (h : n < Word.bound) : (nat n).word? = some n := by
  have hrange : (0 : Int) ≤ n ∧ (n : Int) ≤ Word.max := by
    simp only [Word.bound] at h
    simp only [Word.max]
    omega
  rw [word?, nat_eq_int, between?_int hrange, Option.map_some, Int.toNat_natCast]

end StencilPlan.Json
