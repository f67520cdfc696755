import StencilPlan.Json.Reader
import StencilPlan.Proofs.Json.Token

/-!
# Reading back what was written

From the tokens of a value the machine puts the same value together, whatever arrays and objects
are open around it. So the text of a written value stands for that value.
-/

namespace StencilPlan.Json

/-- The first token of an item does not close the array. -/
theorem exists_cons_itemsTokens (v : Json) (vs : List Json) :
    ∃ t ts, itemsTokens (v :: vs) = t :: ts ∧ t ≠ .mark ']' := by
  have hv : ∃ t ts, tokens v = t :: ts ∧ t ≠ .mark ']' := by
    cases v <;> exact ⟨_, _, rfl, by simp⟩
  obtain ⟨t, ts, htokens, ht⟩ := hv
  cases vs with
  | nil => exact ⟨t, ts, htokens, ht⟩
  | cons w vs =>
    refine ⟨t, ts ++ .mark ',' :: itemsTokens (w :: vs), ?_, ht⟩
    show tokens v ++ .mark ',' :: itemsTokens (w :: vs) = _
    rw [htokens, List.cons_append]

namespace Build

variable {frames : List Frame} {ts : List Token}

/-- Where an array was just opened, whatever does not close it is taken like anywhere else. -/
theorem step_firstItem {t : Token} (ht : t ≠ .mark ']') :
    Build.step ⟨frames, .firstItem⟩ t = Build.step ⟨frames, .value⟩ t := by
  unfold Build.step
  split <;> simp_all

/-- The tokens `ts` are put together to the value `v`. -/
def Takes (ts : List Token) (v : Json) : Prop :=
  ∀ frames, ts.foldlM Build.step ⟨frames, .value⟩ = Build.put v frames

theorem takes_leaf (v : Json) : Takes [.leaf v] v := fun frames => bind_pure (Build.put v frames)

/-- The items of an array, one after the other. -/
theorem foldlM_items {v : Json} {vs : List Json} (h : ∀ w ∈ v :: vs, Takes (tokens w) w)
    (done : List Json) :
    (itemsTokens (v :: vs) ++ ts).foldlM Build.step ⟨.items done :: frames, .value⟩ =
      ts.foldlM Build.step ⟨.items ((v :: vs).reverse ++ done) :: frames, .more⟩ := by
  induction vs generalizing v done with
  | nil =>
    show (tokens v ++ ts).foldlM Build.step _ = _
    rw [List.foldlM_append, h v List.mem_cons_self]
    rfl
  | cons w vs ih =>
    show ((tokens v ++ .mark ',' :: itemsTokens (w :: vs)) ++ ts).foldlM Build.step _ = _
    rw [List.append_assoc, List.foldlM_append, h v List.mem_cons_self]
    show (itemsTokens (w :: vs) ++ ts).foldlM Build.step ⟨.items (v :: done) :: frames, .value⟩ = _
    rw [ih (fun u hu => h u (List.mem_cons_of_mem v hu)), List.reverse_cons (a := v),
      List.append_assoc]
    rfl

theorem takes_array {items : List Json} (h : ∀ v ∈ items, Takes (tokens v) v) :
    Takes (tokens (.array items)) (.array items) := by
  intro frames
  cases items with
  | nil => exact bind_pure (Build.put (.array []) frames)
  | cons v vs =>
    show (itemsTokens (v :: vs) ++ [Token.mark ']']).foldlM Build.step
      ⟨.items [] :: frames, .firstItem⟩ = _
    obtain ⟨t, us, hcons, ht⟩ := exists_cons_itemsTokens v vs
    have hitems := @foldlM_items frames [.mark ']'] v vs h []
    rw [hcons, List.cons_append, List.foldlM_cons] at hitems ⊢
    rw [step_firstItem ht, hitems, List.append_nil]
    show Build.put (.array (v :: vs).reverse.reverse) frames >>= pure = _
    rw [List.reverse_reverse, bind_pure]

/-- The fields of an object, one after the other. -/
theorem foldlM_fields {f : Option String × Json} {fs : List (Option String × Json)}
    (h : ∀ g ∈ f :: fs, Takes (tokens g.2) g.2) (done : List (Option String × Json)) :
    (fieldsTokens (f :: fs) ++ ts).foldlM Build.step ⟨.fields done :: frames, .key⟩ =
      ts.foldlM Build.step ⟨.fields ((f :: fs).reverse ++ done) :: frames, .more⟩ := by
  induction fs generalizing f done with
  | nil =>
    -- The name and the colon are read by definition; what is left are the tokens of the value.
    show (tokens f.2 ++ ts).foldlM Build.step ⟨.field done f.1 :: frames, .value⟩ = _
    rw [List.foldlM_append, h f List.mem_cons_self]
    rfl
  | cons g fs ih =>
    show ((tokens f.2 ++ .mark ',' :: fieldsTokens (g :: fs)) ++ ts).foldlM Build.step
      ⟨.field done f.1 :: frames, .value⟩ = _
    rw [List.append_assoc, List.foldlM_append, h f List.mem_cons_self]
    show (fieldsTokens (g :: fs) ++ ts).foldlM Build.step ⟨.fields (f :: done) :: frames, .key⟩ = _
    rw [ih (fun e he => h e (List.mem_cons_of_mem f he)), List.reverse_cons (a := f),
      List.append_assoc]
    rfl

theorem takes_object {fields : List (Option String × Json)}
    (h : ∀ f ∈ fields, Takes (tokens f.2) f.2) :
    Takes (tokens (.object fields)) (.object fields) := by
  intro frames
  cases fields with
  | nil => exact bind_pure (Build.put (.object []) frames)
  | cons f fs =>
    -- the first key is taken like a later one
    have hfirst : (fieldsTokens (f :: fs) ++ [Token.mark '\x7d']).foldlM Build.step
        ⟨.fields [] :: frames, .firstKey⟩ =
          (fieldsTokens (f :: fs) ++ [Token.mark '\x7d']).foldlM Build.step
            ⟨.fields [] :: frames, .key⟩ := by
      cases fs <;> rfl
    show (fieldsTokens (f :: fs) ++ [Token.mark '\x7d']).foldlM Build.step
      ⟨.fields [] :: frames, .firstKey⟩ = _
    rw [hfirst, foldlM_fields h, List.append_nil]
    show Build.put (.object (f :: fs).reverse.reverse) frames >>= pure = _
    rw [List.reverse_reverse, bind_pure]

end Build

theorem Written.takes {v : Json} (h : v.Written) : Build.Takes (tokens v) v := by
  induction h with
  | null | bool | number | str => exact Build.takes_leaf _
  | array _ ih => exact Build.takes_array ih
  | record _ ih =>
    refine Build.takes_object fun f hf => ?_
    obtain ⟨g, hg, rfl⟩ := List.mem_map.mp hf
    exact ih g hg

/-- The text of a written value stands for that value. -/
theorem parse?_render {v : Json} (h : v.Written) : Json.parse? v.render = some v := by
  rw [Json.parse?, render, String.toList_ofList, tokens?_chars h, Option.bind_eq_bind,
    Option.bind_some, h.takes []]
  rfl

end StencilPlan.Json
