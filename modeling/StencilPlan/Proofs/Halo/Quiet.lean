import StencilPlan.Halo.Table
import StencilPlan.Network.Replay
import StencilPlan.Network.Solo
import StencilPlan.Proofs.Follows

/-!
# Setting up buffers, whoever listens

Laying out halo buffers, giving them storage and attaching them writes into the journal at many
places. No record there needs arithmetic that can fault, so what the work comes to is the same
under every verbosity. Where the network is asked for a segment this has to hold of the network as
well, and it does of each one there is.
-/

namespace StencilPlan

open StencilPlan.Task

/-- A network that hands over segments in the same way whoever listens. -/
class QuietTransport (ν : Type) [Transport ν] : Prop where
  claim : ∀ k : SegmentKey, Quiet (Transport.claim k : Task (World ν) (Option Segment))

namespace Allocator

theorem quiet_allocate (a : Allocator) (bytes : Nat) (policy : MemoryPolicy) :
    Quiet (a.allocate bytes policy) := by
  have hrest : ∀ padded : Nat, Quiet (do
      if padded > arrayBytes then
        .reject (.allocation bytes policy.describe .overCapacity)
      Task.note .debug s!"allocated {padded} bytes ({policy.describe})"
      let h ← get
      set { h with pools := h.pools.push ⟨policy, Array.replicate (padded / wordSize) 0, 1⟩ }
      return h.pools.size : Task Heap PoolId) := fun padded =>
    follows_guard <| follows_bind (follows_note _ _) fun _ => follows_bind_get fun h =>
      follows_bind (follows_set rfl) fun _ => follows_pure _
  refine follows_bind (follows_modify fun _ => rfl) fun _ => follows_bind (follows_checked _)
    fun padded => ?_
  cases a.limit with
  | none => exact hrest padded
  | some limit => exact follows_guard (hrest padded)

end Allocator

instance : QuietTransport Solo where
  claim _ := follows_pure _

instance : QuietTransport Universe where
  claim k := by
    refine follows_bind_get fun w => ?_
    dsimp only [id]
    split
    · exact follows_bind (follows_set rfl) fun _ => follows_pure _
    · exact follows_pure _

instance : QuietTransport Replay where
  claim k := by
    refine follows_bind_get fun w => ?_
    dsimp only [id]
    split
    · exact follows_pure _
    · exact follows_bind (follows_modify fun _ => rfl) fun _ => follows_bind (follows_checked _)
        fun bytes => follows_bind (follows_zoom (Allocator.quiet_allocate _ _ _) (fun _ => rfl)
          fun _ _ => rfl) fun _ => follows_pure _

/-! ### One buffer -/

namespace HaloBuffer

theorem quiet_release : Quiet release := by
  refine follows_bind_get fun ⟨b, h⟩ => ?_
  dsimp only [id]
  cases b.window with
  | none => exact follows_pure _
  | some w => exact follows_bind (follows_note _ _) fun _ => follows_set rfl

theorem quiet_attach (pool : PoolId) (offset : Nat) (ownership : Ownership) (shared : Bool) :
    Quiet (attach pool offset ownership shared) := by
  refine follows_bind (follows_modify fun _ => rfl) fun _ => follows_bind quiet_release fun _ =>
    follows_bind_get fun ⟨b, h⟩ => follows_bind (follows_checked _) fun needed => ?_
  exact follows_ite (follows_bind (follows_set rfl) fun _ => follows_reject _) (follows_set rfl)

end HaloBuffer

/-! ### All buffers of a rank -/

namespace Site

variable {ν : Type} {α : Type}

theorem quiet_onBuffer (slot : Slot) (d : Direction) (n : NeighborBuffers)
    {x : Task (HaloBuffer × Heap) α} (h : Quiet x) :
    Quiet (onBuffer slot d n x : Task (Site ν) α) :=
  follows_zoom h (fun _ => rfl) fun _ _ => rfl

theorem quiet_releaseSlots (slots : List Slot) :
    Quiet (releaseSlots slots : Task (Site ν) Unit) := by
  induction slots with
  | nil => exact follows_pure _
  | cons slot slots ih =>
    refine follows_bind_get fun s => ?_
    dsimp only [id]
    cases s.table.at? slot with
    | none => exact ih
    | some n =>
      exact follows_bind (quiet_onBuffer slot .send n HaloBuffer.quiet_release) fun _ =>
        follows_bind (quiet_onBuffer slot .recv n HaloBuffer.quiet_release) fun _ => ih

theorem quiet_release : Quiet (release : Task (Site ν) Unit) :=
  follows_bind_get fun _ => follows_bind (quiet_releaseSlots _) fun _ => follows_modify fun _ => rfl

theorem quiet_allocatePools (s : Settings) (a : Allocator) (words : PoolWords) :
    Quiet (allocatePools s a words : Task (Site ν) Unit) := by
  have hshared : Quiet (do
      if words.shared > 0 then
        let sharedBytes ← (Word.mul words.shared wordSize : Checked _)
        let p ← Task.zoom heap withHeap (a.allocate sharedBytes .shared)
        modify fun t => { t with table := { t.table with shared := some p } } :
          Task (Site ν) Unit) :=
    follows_ite (follows_bind (follows_checked _) fun _ =>
      follows_bind (follows_zoom (a.quiet_allocate _ _) (fun _ => rfl) fun _ _ => rfl) fun _ =>
        follows_modify fun _ => rfl) (follows_pure _)
  refine follows_bind (follows_checked _) fun bytes => follows_ite ?_ hshared
  exact follows_bind (follows_zoom (a.quiet_allocate _ _) (fun _ => rfl) fun _ _ => rfl) fun _ =>
    follows_bind (follows_modify fun _ => rfl) fun _ => hshared

theorem quiet_announce (me : Nat) (words : PoolWords) :
    Quiet (announce me words : Task (Site ν) Unit) :=
  follows_bind_get fun _ => follows_note _ _

variable [Transport ν]

theorem quiet_layOut (stencil : Stencil) (s : Settings) (topology : Topology) (words : PoolWords)
    (vars : List String) :
    Quiet (layOut stencil s topology words vars : Task (Site ν) PoolWords) := by
  induction vars generalizing words with
  | nil => exact follows_pure _
  | cons var vars ih =>
    exact follows_bind_get fun _ => follows_bind (follows_checked _) fun _ =>
      follows_bind (follows_checked _) fun _ => follows_bind (follows_modify fun _ => rfl) fun _ =>
      ih _

theorem quiet_carve (me : Nat) (asked : PoolRequests) (slot : Slot) (used : PoolWords) :
    Quiet (carve me asked slot used : Task (Site ν) PoolWords) := by
  refine follows_bind_get fun s => ?_
  dsimp only [id]
  cases s.table.at? slot with
  | none => exact follows_pure _
  | some n =>
    refine follows_ite ?_ ?_
    · cases s.table.shared with
      | none => exact follows_reject _
      | some pool =>
        exact follows_bind (follows_checked _) fun _ =>
          follows_bind (quiet_onBuffer _ _ _ (HaloBuffer.quiet_attach _ _ _ _)) fun _ =>
          follows_bind_get fun _ => follows_bind (follows_modify fun _ => rfl) fun _ =>
          follows_bind (follows_modify fun _ => rfl) fun _ => follows_pure _
    · cases s.table.owned with
      | none => exact follows_reject _
      | some pool =>
        exact follows_bind (quiet_onBuffer _ _ _ (HaloBuffer.quiet_attach _ _ _ _)) fun _ =>
          follows_bind (follows_checked _) fun _ =>
          follows_bind (quiet_onBuffer _ _ _ (HaloBuffer.quiet_attach _ _ _ _)) fun _ =>
          follows_bind (follows_checked _) fun _ => follows_pure _

theorem quiet_carveAll (me : Nat) (asked : PoolRequests) (used : PoolWords) (slots : List Slot) :
    Quiet (carveAll me asked used slots : Task (Site ν) Unit) := by
  induction slots generalizing used with
  | nil => exact follows_pure _
  | cons slot slots ih => exact follows_bind (quiet_carve me asked slot used) fun _ => ih _

theorem quiet_offer (stencil : Stencil) (s : Settings) (topology : Topology) (a : Allocator) :
    Quiet (offer stencil s topology a : Task (Site ν) PoolWords) :=
  follows_bind quiet_release fun _ => follows_bind (follows_modify fun _ => rfl) fun _ =>
    follows_bind (quiet_layOut _ _ _ _ _) fun _ =>
    follows_bind (quiet_allocatePools _ _ _) fun _ => follows_bind_get fun _ =>
    follows_bind (quiet_carveAll _ _ _ _) fun _ => follows_pure _

variable [QuietTransport ν]

theorem quiet_attachSlot (me : Nat) (slot : Slot) (n : NeighborBuffers) :
    Quiet (attachSlot me slot n : Task (Site ν) Unit) := by
  have hclaim : ∀ key, Quiet (Task.zoom (·.world) (fun w s => { s with world := w })
      (Transport.claim key) : Task (Site ν) (Option Segment)) := fun key =>
    follows_zoom (QuietTransport.claim key) (fun _ => rfl) fun _ _ => rfl
  refine follows_bind_get fun s => follows_bind (hclaim _) fun found => ?_
  cases found with
  | none => exact follows_reject _
  | some seg =>
    refine follows_bind (follows_checked _) fun expected => follows_ite ?_ ?_
    · exact follows_bind (follows_modify fun _ => rfl) fun _ => follows_reject _
    · refine follows_bind (follows_attempt (quiet_onBuffer _ _ _
        (HaloBuffer.quiet_attach _ _ _ _))) fun r => follows_bind (follows_modify fun _ => rfl)
          fun _ => ?_
      cases r with
      | ok a => exact follows_pure _
      | error e => exact follows_reject _

theorem quiet_attachSlots (me : Nat) (slots : List Slot) :
    Quiet (attachSlots me slots : Task (Site ν) Unit) := by
  induction slots with
  | nil => exact follows_pure _
  | cons slot slots ih =>
    refine follows_bind_get fun s => ?_
    dsimp only [id]
    cases s.table.at? slot with
    | none => exact ih
    | some n => exact follows_bind (quiet_attachSlot me slot n) fun _ => ih

theorem quiet_settle (s : Settings) (me : Nat) (words : PoolWords) :
    Quiet (settle s me words : Task (Site ν) Unit) := by
  have hmeet : Quiet (meet : Task (Site ν) Unit) := follows_modify fun _ => rfl
  have hattach : Quiet (attachAll me : Task (Site ν) Unit) :=
    follows_bind_get fun _ => quiet_attachSlots me _
  exact follows_ite (follows_bind hmeet fun _ => follows_bind hattach fun _ =>
    follows_bind hmeet fun _ => quiet_announce me words) (quiet_announce me words)

end Site

end StencilPlan
