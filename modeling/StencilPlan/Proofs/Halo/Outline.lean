import Mathlib.Data.List.Nodup
import StencilPlan.Halo.Table
import StencilPlan.Proofs.Yields

/-!
# What a table of halo buffers looks like

The outline of a table is the table without storage: which buffers there are, between whom, over
which boxes, and which of them are shared. It is settled when the buffers are laid out, and nothing
that gives them storage or takes it away changes it. For each variable and each existing neighbor
the outline says whether there is an entry, and which one (`Makes`).
-/

namespace StencilPlan

/-! ### Leaving out the storage -/

/-- The buffer without its storage. -/
def HaloBuffer.bare (b : HaloBuffer) : HaloBuffer := { b with window := none }

namespace NeighborBuffers

/-- Both buffers without their storage. -/
def bare (n : NeighborBuffers) : NeighborBuffers :=
  { n with send := n.send.bare, recv := n.recv.bare }

/-- What the storage has no part in is the same in entries that differ in their storage only. -/
theorem of_bare_eq {n m : NeighborBuffers} (h : m.bare = n.bare) :
    m.rank = n.rank ∧ m.shared = n.shared ∧ m.send.bare = n.send.bare ∧
      m.recv.bare = n.recv.bare := by
  simp only [bare, NeighborBuffers.mk.injEq] at h
  exact ⟨h.1, h.2.2.2, h.2.1, h.2.2.1⟩

theorem bare_withBuffer {n : NeighborBuffers} {d : Direction} {b : HaloBuffer}
    (h : b.bare = (n.buffer d).bare) : (n.withBuffer d b).bare = n.bare := by
  cases d with
  | send =>
    change { n with send := b.bare, recv := n.recv.bare } = n.bare
    rw [h]
    rfl
  | recv =>
    change { n with send := n.send.bare, recv := b.bare } = n.bare
    rw [h]
    rfl

end NeighborBuffers

/-- The buffers of a variable without their storage. -/
def VarBuffers.bare (v : VarBuffers) : VarBuffers :=
  { v with toward := v.toward.map (·.map NeighborBuffers.bare) }

namespace HaloTable

/-- The table without storage. -/
def outline (t : HaloTable) : HaloTable :=
  { vars := t.vars.map VarBuffers.bare, neighborhood := t.neighborhood, owned := none
    shared := none }

variable {t : HaloTable} {slot : Slot} {n : NeighborBuffers}

theorem at?_outline (t : HaloTable) (slot : Slot) :
    t.outline.at? slot = (t.at? slot).map NeighborBuffers.bare := by
  simp only [at?, outline, List.getElem?_map]
  cases t.vars[slot.var]? with
  | none => rfl
  | some v =>
    simp only [Option.map_some, Option.bind_some, VarBuffers.bare, List.getElem?_map]
    cases v.toward[slot.neighbor]? with
    | none => rfl
    | some b => cases b <;> rfl

theorem get?_outline (t : HaloTable) (var : String) (i : Nat) :
    t.outline.get? var i = (t.get? var i).map NeighborBuffers.bare := by
  simp only [get?, outline, List.find?_map]
  have hvar : ((fun v : VarBuffers => decide (v.var = var)) ∘ VarBuffers.bare) =
      fun v => decide (v.var = var) := rfl
  rw [hvar]
  cases t.vars.find? (·.var = var) with
  | none => rfl
  | some v =>
    simp only [Option.map_some, Option.bind_some, VarBuffers.bare, List.getElem?_map]
    cases v.toward[i]? with
    | none => rfl
    | some b => cases b <;> rfl

theorem varName_outline (t : HaloTable) (slot : Slot) :
    t.outline.varName slot = t.varName slot := by
  simp only [varName, outline, List.getElem?_map]
  cases t.vars[slot.var]? <;> rfl

/-- Tables with one outline have entries at the same places, which differ in their storage only. -/
theorem at?_of_outline {t' : HaloTable} (h : t'.outline = t.outline) (hn : t'.at? slot = some n) :
    ∃ n', t.at? slot = some n' ∧ n'.bare = n.bare := by
  have heq : (t.at? slot).map NeighborBuffers.bare = some n.bare := by
    rw [← at?_outline, ← h, at?_outline, hn, Option.map_some]
  exact Option.map_eq_some_iff.mp heq

theorem varName_of_outline {t' : HaloTable} (h : t'.outline = t.outline) (slot : Slot) :
    t'.varName slot = t.varName slot := by
  rw [← varName_outline, h, varName_outline]

theorem slots_outline (t : HaloTable) : t.outline.slots = t.slots := by
  simp only [slots, outline, List.zipIdx_map, List.flatMap_map]
  refine List.flatMap_congr fun ⟨v, vi⟩ _ => ?_
  simp only [Prod.map, VarBuffers.bare, List.zipIdx_map, List.filter_map, List.map_map]
  have hsome : ((fun x : Option NeighborBuffers × Nat => x.1.isSome) ∘
      Prod.map (Option.map NeighborBuffers.bare) id) = fun x => x.1.isSome := by
    funext b
    cases b with
    | mk b i => cases b <;> rfl
  rw [hsome]
  rfl

theorem mem_slots {t : HaloTable} {slot : Slot} : slot ∈ t.slots ↔ (t.at? slot).isSome := by
  simp only [slots, List.mem_flatMap, List.mem_map, List.mem_filter, Prod.exists,
    List.mem_zipIdx_iff_getElem?, at?, Option.isSome_iff_exists, Option.bind_eq_some_iff,
    Option.join_eq_some_iff]
  constructor
  · rintro ⟨v, vi, hv, b, ni, ⟨hb, n, hn⟩, rfl⟩
    exact ⟨n, v, hv, hn ▸ hb⟩
  · rintro ⟨n, v, hv, hn⟩
    exact ⟨v, slot.var, hv, some n, slot.neighbor, ⟨hn, n, rfl⟩, rfl⟩

theorem mem_sharedSlots {t : HaloTable} {slot : Slot} :
    slot ∈ t.sharedSlots ↔ ∃ n, t.at? slot = some n ∧ n.shared = true := by
  rw [sharedSlots, List.mem_filter, Option.any_eq_true_iff_get, mem_slots]
  constructor
  · rintro ⟨-, hsome, hshared⟩
    exact ⟨_, (Option.some_get hsome).symm, hshared⟩
  · rintro ⟨n, hn, hshared⟩
    simp [hn, hshared]

theorem nodup_slots (t : HaloTable) : t.slots.Nodup := by
  have hidx : ∀ {α : Type} (l : List α), l.zipIdx.Pairwise fun e f => e.2 ≠ f.2 := by
    intro α l
    rw [← List.pairwise_map (R := fun i j => i ≠ j), List.zipIdx_map_snd]
    exact List.nodup_range'
  refine List.nodup_flatMap.mpr ⟨fun e _ => ?_, (hidx t.vars).imp ?_⟩
  · refine List.Pairwise.map _ ?_ ((hidx e.1.toward).filter _)
    intro a b hne heq
    exact hne (congrArg Slot.neighbor heq)
  · intro e f hne slot he hf
    obtain ⟨a, -, rfl⟩ := List.mem_map.mp he
    obtain ⟨b, -, heq⟩ := List.mem_map.mp hf
    exact hne (congrArg Slot.var heq).symm

theorem at?_put_self (h : t.at? slot = some n) (m : NeighborBuffers) :
    (t.put slot m).at? slot = some m := by
  simp only [at?, Option.bind_eq_some_iff] at h
  obtain ⟨v, hv, hn⟩ := h
  have hlt : slot.neighbor < v.toward.length := by
    by_contra hge
    rw [List.getElem?_eq_none (by omega)] at hn
    simp at hn
  simp only [at?, put, List.getElem?_modify_eq, hv, Option.map_eq_map, Option.map_some,
    Option.bind_some]
  rw [List.getElem?_set_self hlt]
  rfl

theorem put_put (t : HaloTable) (slot : Slot) (m m' : NeighborBuffers) :
    (t.put slot m).put slot m' = t.put slot m' := by
  simp only [put, List.modify_modify_eq, HaloTable.mk.injEq, and_true]
  congr 1
  funext v
  simp

theorem at?_put_of_ne {slot' : Slot} (h : slot' ≠ slot) (m : NeighborBuffers) :
    (t.put slot m).at? slot' = t.at? slot' := by
  simp only [at?, put, List.getElem?_modify]
  by_cases hv : slot.var = slot'.var
  · have hn : slot.neighbor ≠ slot'.neighbor := by
      intro hn
      cases slot
      cases slot'
      simp_all
    cases t.vars[slot'.var]? with
    | none => rfl
    | some v =>
      simp only [Option.map_eq_map, Option.map_some, Option.bind_some, if_pos hv]
      rw [List.getElem?_set_ne hn]
  · simp only [if_neg hv]
    cases t.vars[slot'.var]? <;> rfl

/-- Giving the buffers at a place other storage does not change the outline. -/
theorem outline_put (h : t.at? slot = some n) {m : NeighborBuffers} (hm : m.bare = n.bare) :
    (t.put slot m).outline = t.outline := by
  simp only [at?, Option.bind_eq_some_iff] at h
  obtain ⟨v, hv, hn⟩ := h
  simp only [outline, put, HaloTable.mk.injEq, and_true]
  refine List.ext_getElem? fun i => ?_
  rw [List.getElem?_map, List.getElem?_map, List.getElem?_modify]
  -- Of all rows only that of the variable is touched, and in it only the neighbor's entry.
  by_cases hi : slot.var = i
  · subst hi
    rw [hv]
    simp only [Option.map_eq_map, Option.map_some, if_true, VarBuffers.bare, Option.some.injEq,
      VarBuffers.mk.injEq, true_and]
    refine List.ext_getElem? fun j => ?_
    rw [List.getElem?_map, List.getElem?_map, List.getElem?_set]
    by_cases hj : slot.neighbor = j
    · subst hj
      rw [if_pos rfl]
      obtain ⟨hlt, hget⟩ : ∃ hlt : slot.neighbor < v.toward.length,
          v.toward[slot.neighbor] = some n := by
        simpa [Option.join_eq_some_iff, List.getElem?_eq_some_iff] using hn
      rw [if_pos hlt, List.getElem?_eq_getElem hlt, hget]
      simp only [Option.map_some, hm]
    · rw [if_neg hj]
  · simp only [if_neg hi]
    cases t.vars[i]? <;> rfl

end HaloTable

end StencilPlan
