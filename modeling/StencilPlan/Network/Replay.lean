import StencilPlan.Network.Universe

/-!
# A network that replays a conversation

One rank can be run alone against peers whose messages and segments are given beforehand. A receive
takes the next message meant for it when it is posted, whatever its length; where there is none it
counts as arrived without data. A late message does not show when it is tested but is there when
it is waited for. What the rank sends and publishes is written down.
-/

namespace StencilPlan

/-- A message a peer will have sent. -/
structure Incoming where
  data : Payload
  late : Bool
  deriving DecidableEq, Repr

/-- A segment a peer will have published: a window of a fresh pool. -/
structure IncomingSegment where
  words : Nat
  offset : Nat
  length : Nat
  deriving DecidableEq, Repr

/-- The state of the conversation. -/
structure Replay where
  size : Nat
  /-- The peers on the node of the rank. -/
  nodePeers : List Nat
  /-- Messages by peer and tag, in the order in which they arrive. -/
  incoming : List ((Nat × Nat) × Incoming)
  segments : List (SegmentKey × IncomingSegment)
  /-- Messages sent, with peer and tag. -/
  sent : List (Nat × Nat × Payload)
  published : List (SegmentKey × Segment)
  /-- How often the rank has met the others. -/
  barriers : Nat
  deriving Repr

namespace Replay

/-- Makes a segment out of what a peer published: its pool is allocated on the spot. -/
def claim (k : SegmentKey) : Task (World Replay) (Option Segment) := do
  let w ← get
  match Universe.takeFirst? k w.net.segments with
  | none => return none
  | some (seg, rest) =>
    modify fun w => { w with net := { w.net with segments := rest } }
    let bytes ← (Word.mul seg.words wordSize : Checked _)
    let pool ← Task.zoom (·.heap)
      (fun h w => { w with heap := { h with requests := w.heap.requests } })
      (Allocator.unlimited.allocate bytes .shared)
    return some ⟨pool, seg.offset, seg.length⟩

instance : Transport Replay where
  Handle := Option Incoming
  size r := r.size
  sharesNode r _ peer := peer ∈ r.nodePeers
  send _ peer tag data r := { r with sent := r.sent ++ [(peer, tag, data)] }
  post _ peer tag _ r :=
    match Universe.takeFirst? (peer, tag) r.incoming with
    | some (m, rest) => (some m, { r with incoming := rest })
    | none => (none, r)
  test h r := (h.all (! ·.late), h, r)
  wait h r := some ((h.map (·.data)).getD [], r)
  publish k seg w :=
    { heap := w.heap.letGo seg.pool
      net := { w.net with published := w.net.published ++ [(k, seg)] } }
  claim := claim
  barrier r := { r with barriers := r.barriers + 1 }

end Replay

end StencilPlan
