import StencilPlan.Proofs.Halo.Script

/-!
# How far an exchange has come

The moves ahead of a rank are always the last ones of the whole list, perhaps with one message in
hand that still has to be delivered. So the moves of a block are made in order, and how many of
them are no longer ahead says all there is to say about the block: the next move of the rank is
that one of the block if it is in the middle of it.
-/

namespace StencilPlan

/-- How many moves of a block are not ahead. -/
def doneOf (todo b : List Move) : Nat := b.countP fun m => decide (m ∉ todo)

/-- The moves ahead are the last ones of all, perhaps after one delivery. -/
def OnCourse (moves todo : List Move) : Prop :=
  ∃ done rest, moves = done ++ rest ∧ (todo = rest ∨ ∃ s, todo = .act s .deliver :: rest)

theorem doneOf_le_length (todo b : List Move) : doneOf todo b ≤ b.length := List.countP_le_length

@[simp] theorem doneOf_nil (b : List Move) : doneOf [] b = b.length := by
  simp [doneOf]

/-- A move outside of a block has no part in it. -/
theorem doneOf_cons_of_notMem {m : Move} {todo b : List Move} (h : m ∉ b) :
    doneOf (m :: todo) b = doneOf todo b := by
  refine List.countP_congr fun k hk => ?_
  have hne : k ≠ m := fun heq => h (heq ▸ hk)
  simp [hne]

theorem doneOf_eq_zero {todo b : List Move} (h : ∀ m ∈ b, m ∈ todo) : doneOf todo b = 0 :=
  List.countP_eq_zero.mpr fun m hm => by simp [h m hm]

section Position

variable {l done rest b before after : List Move} {m : Move} {i : Nat}

theorem mem_rest_iff (hnodup : l.Nodup) (hl : l = done ++ rest) (hm : l[i]? = some m) :
    m ∈ rest ↔ done.length ≤ i := by
  subst hl
  constructor
  · intro hrest
    by_contra hlt
    rw [List.getElem?_append_left (by omega)] at hm
    exact (List.disjoint_of_nodup_append hnodup) (List.mem_of_getElem? hm) hrest
  · intro hle
    rw [List.getElem?_append_right hle] at hm
    exact List.mem_of_getElem? hm

/-- The moves of a block are made in order. -/
theorem doneOf_eq_min (hnodup : l.Nodup) (hl : l = done ++ rest)
    (hb : l = before ++ b ++ after) :
    doneOf rest b = min (done.length - before.length) b.length := by
  have hget : ∀ i < b.length, l[before.length + i]? = b[i]? := by
    intro i hi
    rw [hb, List.append_assoc, List.getElem?_append_right (by omega), Nat.add_sub_cancel_left,
      List.getElem?_append_left hi]
  -- Of the block those moves are done whose position in the whole list is.
  have hmem : ∀ (i : Nat) (hi : i < b.length), b[i] ∈ rest ↔ done.length ≤ before.length + i := by
    intro i hi
    refine mem_rest_iff hnodup hl ?_
    rw [hget i hi, List.getElem?_eq_getElem hi]
  -- All of the first `j` moves are done and none of the others.
  generalize hj : min (done.length - before.length) b.length = j
  have htake : (b.take j).countP (fun m => decide (m ∉ rest)) = (b.take j).length := by
    refine List.countP_eq_length.mpr fun m hm => ?_
    obtain ⟨i, hi, rfl⟩ := List.getElem_of_mem hm
    rw [List.length_take] at hi
    rw [List.getElem_take, decide_eq_true_eq, hmem i (by omega)]
    omega
  have hdrop : (b.drop j).countP (fun m => decide (m ∉ rest)) = 0 := by
    refine List.countP_eq_zero.mpr fun m hm => ?_
    obtain ⟨i, hi, rfl⟩ := List.getElem_of_mem hm
    rw [List.length_drop] at hi
    rw [List.getElem_drop, decide_eq_true_eq, not_not, hmem (j + i) (by omega)]
    omega
  rw [doneOf, ← List.take_append_drop j b, List.countP_append, htake, hdrop, List.length_take]
  omega

/-- The next move of a block is the one behind those that are done. -/
theorem doneOf_of_head (hnodup : l.Nodup) (hl : l = done ++ m :: rest) (hb : b <:+: l)
    (hm : b[i]? = some m) : doneOf (m :: rest) b = i ∧ doneOf rest b = i + 1 := by
  obtain ⟨before, after, hb⟩ := hb
  obtain ⟨hi, rfl⟩ := List.getElem?_eq_some_iff.mp hm
  have hget : l[before.length + i]? = some b[i] := by
    rw [← hb, List.append_assoc, List.getElem?_append_right (by omega), Nat.add_sub_cancel_left,
      List.getElem?_append_left hi, List.getElem?_eq_getElem hi]
  have hl' : l = (done ++ [b[i]]) ++ rest := by rw [hl, List.append_assoc]; rfl
  have hfirst := (mem_rest_iff hnodup hl hget).mp (by simp)
  have hnot : b[i] ∉ rest := by
    rw [hl] at hnodup
    exact (List.nodup_cons.mp (List.Nodup.of_append_right hnodup)).1
  have hlast := (mem_rest_iff hnodup hl' hget).not.mp hnot
  rw [List.length_append, List.length_singleton] at hlast
  rw [doneOf_eq_min hnodup hl hb.symm, doneOf_eq_min hnodup hl' hb.symm, List.length_append,
    List.length_singleton]
  omega

/-- In the middle of a block its next move is the next one of all. -/
theorem head_of_doneOf (hnodup : l.Nodup) (hl : l = done ++ rest) (hb : b <:+: l)
    (hpos : 0 < doneOf rest b) (hlt : doneOf rest b < b.length) :
    ∃ m rest', rest = m :: rest' ∧ b[doneOf rest b]? = some m := by
  obtain ⟨before, after, hb⟩ := hb
  have heq := doneOf_eq_min hnodup hl hb.symm
  -- The first move that is ahead stands behind the last one that is done.
  have hget : l[done.length]? = b[doneOf rest b]? := by
    rw [← hb, List.append_assoc, List.getElem?_append_right (by omega),
      List.getElem?_append_left (by omega)]
    congr 1
    omega
  rw [hl, List.getElem?_append_right (Nat.le_refl _), Nat.sub_self,
    List.getElem?_eq_getElem hlt] at hget
  cases rest with
  | nil => simp at hget
  | cons m rest =>
    refine ⟨m, rest, rfl, ?_⟩
    rw [List.getElem?_eq_getElem hlt, ← hget]
    rfl

/-- Where a move is done, so is every move before it. -/
theorem notMem_of_before {k : Move} (hnodup : l.Nodup) (hl : l = done ++ rest)
    (hsplit : l = before ++ after) (hk : k ∈ before) (hm : m ∈ after) (hdone : m ∉ rest) :
    k ∉ rest := by
  obtain ⟨i, hi⟩ := List.mem_iff_getElem?.mp hk
  obtain ⟨j, hj⟩ := List.mem_iff_getElem?.mp hm
  have hlt := (List.getElem?_eq_some_iff.mp hi).1
  have hk' : l[i]? = some k := by rw [hsplit, List.getElem?_append_left hlt, hi]
  have hm' : l[before.length + j]? = some m := by
    rw [hsplit, List.getElem?_append_right (by omega), Nat.add_sub_cancel_left, hj]
  rw [mem_rest_iff hnodup hl hm'] at hdone
  rw [mem_rest_iff hnodup hl hk']
  omega

end Position

end StencilPlan
