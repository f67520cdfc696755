import StencilPlan.Network.Replay
import StencilPlan.Network.Solo
import StencilPlan.Proofs.Network.Universe

/-!
# What networks leave alone

A network moves messages and hands over segments, and what the pools hold is none of its business:
publishing a segment changes no word of a pool, and claiming one adds a pool at most. All networks
keep to this, so what a rank does with storage of its own can be said without the network.
-/

namespace StencilPlan

open Heap

/-- A network that leaves the words of the pools as they are. -/
class LawfulTransport (ν : Type) [Transport ν] : Prop where
  publish_sameWords : ∀ (k : SegmentKey) (seg : Segment) (w : World ν),
    SameWords w.heap (Transport.publish k seg w).heap
  claim_grows : ∀ (k : SegmentKey) (v : Verbosity) (w w' : World ν) (found : Option Segment),
    (Transport.claim k : Task (World ν) (Option Segment)).Yields v w found w' →
      Grows w.heap w'.heap

instance : LawfulTransport Universe where
  publish_sameWords k seg w := (Universe.publish_eq k seg w).2
  claim_grows k v w w' found h := by
    simp only [Transport.claim, Universe.claim, Task.yields_bind_get] at h
    cases htake : Universe.takeFirst? k w.net.segments with
    | none =>
      simp only [htake, Task.yields_pure] at h
      obtain ⟨-, rfl⟩ := h
      exact .refl _
    | some p =>
      simp only [htake, Task.yields_bind_set, Task.yields_pure] at h
      obtain ⟨-, rfl⟩ := h
      exact .refl _

instance : LawfulTransport Solo where
  publish_sameWords _ seg w := sameWords_letGo w.heap seg.pool
  claim_grows k v w w' found h := by
    simp only [Transport.claim, Task.yields_pure] at h
    obtain ⟨-, rfl⟩ := h
    exact .refl _

instance : LawfulTransport Replay where
  publish_sameWords _ seg w := sameWords_letGo w.heap seg.pool
  claim_grows k v w w' found h := by
    simp only [Transport.claim, Replay.claim, Task.yields_bind_get] at h
    cases htake : Universe.takeFirst? k w.net.segments with
    | none =>
      simp only [htake, Task.yields_pure] at h
      obtain ⟨-, rfl⟩ := h
      exact .refl _
    | some p =>
      -- The pool of the segment is a new one.
      simp only [htake, Task.yields_bind_modify, Task.yields_bind_checked,
        Task.yields_bind (x := Task.zoom _ _ _), Task.yields_zoom, Task.yields_pure] at h
      obtain ⟨bytes, -, pool, _, ⟨h', hallocate, rfl⟩, -, rfl⟩ := h
      obtain ⟨-, -, hgrows, -⟩ := Allocator.grows_of_allocate hallocate
      exact ⟨hgrows.size, hgrows.old, hgrows.fresh⟩

end StencilPlan
