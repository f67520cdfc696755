import Mathlib.Algebra.BigOperators.Group.List.Lemmas
import Mathlib.Algebra.GroupWithZero.Nat
import Mathlib.Algebra.Order.BigOperators.Group.List
import Mathlib.Algebra.Order.Group.Nat
import StencilPlan.Halo.Exchange
import StencilPlan.Proofs.Halo.Outline

/-!
# The entries of a table

The entries of a table of halo buffers with their places, each place once. What they come to can be
summed up row by row or entry by entry.
-/

namespace StencilPlan

/-- How much the entries of a row come to. -/
def tally (f : NeighborBuffers → Nat) (row : List (Option NeighborBuffers)) : Nat :=
  (row.map fun b => (b.map f).getD 0).sum

theorem tally_set {f : NeighborBuffers → Nat} {row : List (Option NeighborBuffers)} {i : Nat}
    (h : row[i]? = some none) (b : Option NeighborBuffers) :
    tally f (row.set i b) = tally f row + (b.map f).getD 0 := by
  induction row generalizing i with
  | nil => simp at h
  | cons c row ih =>
    cases i with
    | zero =>
      obtain rfl : c = none := by simpa using h
      simp [tally, Nat.add_comm]
    | succ i =>
      have := ih (i := i) (by simpa using h)
      simp only [tally, List.set_cons_succ, List.map_cons, List.sum_cons] at this ⊢
      omega

theorem le_tally {f : NeighborBuffers → Nat} {row : List (Option NeighborBuffers)}
    {n : NeighborBuffers} (h : some n ∈ row) : f n ≤ tally f row := by
  induction row with
  | nil => simp at h
  | cons b row ih =>
    simp only [tally, List.map_cons, List.sum_cons] at ih ⊢
    rcases List.mem_cons.mp h with rfl | h
    · simp
    · have := ih h
      omega

/-- What the rows of a table come to. -/
def tallyAll (f : NeighborBuffers → Nat) (vars : List VarBuffers) : Nat :=
  (vars.map fun v => tally f v.toward).sum

theorem le_tallyAll {f : NeighborBuffers → Nat} {vs : List VarBuffers} {v : VarBuffers}
    {m : NeighborBuffers} (hv : v ∈ vs) (hm : some m ∈ v.toward) : f m ≤ tallyAll f vs := by
  induction vs with
  | nil => simp at hv
  | cons x vs ih =>
    simp only [tallyAll, List.map_cons, List.sum_cons] at ih ⊢
    rcases List.mem_cons.mp hv with rfl | hv
    · have := le_tally (f := f) hm
      omega
    · have := ih hv
      omega

theorem tallyAll_mono {f g : NeighborBuffers → Nat} {vs : List VarBuffers}
    (h : ∀ v ∈ vs, ∀ m, some m ∈ v.toward → f m ≤ g m) : tallyAll f vs ≤ tallyAll g vs := by
  refine List.sum_le_sum fun v hv => List.sum_le_sum fun b hb => ?_
  cases b with
  | none => exact Nat.le_refl _
  | some m => exact h v hv m hb

theorem tally_eq_sum (f : NeighborBuffers → Nat) (row : List (Option NeighborBuffers)) :
    tally f row = ((row.filterMap id).map f).sum := by
  induction row with
  | nil => rfl
  | cons b row ih =>
    rw [tally, List.map_cons, List.sum_cons, ← tally, ih]
    cases b <;> simp

namespace HaloTable

variable {t : HaloTable}

theorem mem_entries {e : Slot × NeighborBuffers} : e ∈ t.entries ↔ t.at? e.1 = some e.2 := by
  obtain ⟨s, n⟩ := e
  simp only [entries, List.mem_filterMap, Option.map_eq_some_iff, Prod.mk.injEq]
  constructor
  · rintro ⟨_, -, _, hn, rfl, rfl⟩
    exact hn
  · intro hn
    exact ⟨s, mem_slots.mpr (by rw [hn]; rfl), n, hn, rfl, rfl⟩

/-- Every place with buffers is the place of an entry. -/
theorem map_fst_entries (t : HaloTable) : t.entries.map (·.1) = t.slots := by
  have hkeys : t.entries.map (·.1) = t.slots.filter fun s => (t.at? s).isSome := by
    rw [entries, List.map_filterMap, ← List.filterMap_eq_filter]
    refine List.filterMap_congr fun s _ => ?_
    cases h : t.at? s <;> simp [Option.guard, h]
  rw [hkeys, List.filter_eq_self]
  exact fun s hs => mem_slots.mp hs

theorem nodup_entries (t : HaloTable) : (t.entries.map (·.1)).Nodup :=
  t.map_fst_entries ▸ nodup_slots t

theorem entries_outline (t : HaloTable) :
    t.outline.entries = t.entries.map fun e => (e.1, e.2.bare) := by
  rw [entries, slots_outline, entries, List.map_filterMap]
  refine List.filterMap_congr fun s _ => ?_
  rw [at?_outline, Option.map_map, Option.map_map]
  rfl

/-- The entries of a table, row by row. -/
theorem map_entries (t : HaloTable) :
    t.entries.map (·.2) = t.vars.flatMap fun v => v.toward.filterMap id := by
  -- Row by row: an entry is found at its own position, and blank positions drop out.
  have hrow : ∀ e ∈ t.vars.zipIdx, (((e.1.toward.zipIdx.filter (·.1.isSome)).map fun b =>
      (⟨e.2, b.2⟩ : Slot)).filterMap fun s => t.at? s) = e.1.toward.filterMap id := by
    intro e he
    have hv : t.vars[e.2]? = some e.1 := List.mem_zipIdx_iff_getElem?.mp he
    rw [List.filterMap_map, List.filterMap_filter]
    conv => rhs; rw [← List.zipIdx_map_fst 0 e.1.toward, List.filterMap_map]
    refine List.filterMap_congr fun b hb => ?_
    have hat : t.at? ⟨e.2, b.2⟩ = b.1 := by
      rw [at?, hv, Option.bind_some, List.mem_zipIdx_iff_getElem?.mp hb]
      rfl
    obtain ⟨b, i⟩ := b
    cases b with
    | none => rfl
    | some n => exact hat
  have hsecond : t.entries.map (·.2) = t.slots.filterMap fun s => t.at? s := by
    rw [entries, List.map_filterMap]
    refine List.filterMap_congr fun s _ => ?_
    cases t.at? s <;> rfl
  have hall : t.vars.flatMap (fun v => v.toward.filterMap id) =
      t.vars.zipIdx.flatMap fun e => e.1.toward.filterMap id := by
    conv => lhs; rw [← List.zipIdx_map_fst 0 t.vars, List.flatMap_map]
  rw [hsecond, hall, slots, List.filterMap_flatMap]
  exact List.flatMap_congr hrow

end HaloTable

theorem tallyAll_eq_sum (f : NeighborBuffers → Nat) (t : HaloTable) :
    tallyAll f t.vars = (t.entries.map fun e => f e.2).sum := by
  have hsplit : (t.entries.map fun e => f e.2) = (t.entries.map (·.2)).map f := by
    rw [List.map_map]
    rfl
  rw [hsplit, t.map_entries]
  induction t.vars with
  | nil => rfl
  | cons v vs ih =>
    rw [tallyAll, List.map_cons, List.sum_cons, ← tallyAll, ih, tally_eq_sum, List.flatMap_cons,
      List.map_append, List.sum_append]

/-- The storage has no part in what the buffers come to. -/
theorem tallyAll_bare {f : NeighborBuffers → Nat} (hf : ∀ n, f n.bare = f n)
    (vs : List VarBuffers) : tallyAll f (vs.map VarBuffers.bare) = tallyAll f vs := by
  rw [tallyAll, tallyAll, List.map_map]
  refine congrArg List.sum (List.map_congr_left fun v _ => ?_)
  rw [Function.comp_apply, tally, tally, VarBuffers.bare, List.map_map]
  refine congrArg List.sum (List.map_congr_left fun b _ => ?_)
  cases b with
  | none => rfl
  | some n => exact hf n

end StencilPlan
