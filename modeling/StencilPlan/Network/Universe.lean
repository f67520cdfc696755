import StencilPlan.Network.Transport

/-!
# A network inside one process

All ranks live in one universe. Messages between two ranks under one tag arrive in the order in
which they were sent; those on different channels overtake each other freely. Ranks are grouped
into nodes by their numbers. A published segment is handed over once.
-/

namespace StencilPlan

/-- Where a message travels. -/
structure Channel where
  source : Nat
  dest : Nat
  tag : Nat
  deriving DecidableEq, Repr

/-- The state of the network. -/
structure Universe where
  size : Nat
  nodeSize : Nat
  /-- Messages under way, in the order in which they were sent. -/
  inFlight : List (Channel × Payload)
  /-- Segments that wait to be attached to. -/
  segments : List (SegmentKey × Segment)
  deriving DecidableEq, Repr

/-- A posted receive, with the data once it is there. -/
structure Receive where
  channel : Channel
  length : Nat
  data : Option Payload
  deriving DecidableEq, Repr

namespace Universe

/-- A universe of `size` ranks, at least one, with so many on a node. -/
def withNodes (size nodeSize : Nat) : Universe :=
  { size := max size 1, nodeSize := max nodeSize 1, inFlight := [], segments := [] }

/-- A universe on one node. -/
def oneNode (size : Nat) : Universe := withNodes size size

/-- How a rank is shown. -/
def display (u : Universe) (rank : Nat) : String :=
  s!"RayonComm \x7b rank: {rank}, size: {u.size} \x7d"

/-- The messages under way on a channel, the oldest first. -/
def queue (u : Universe) (c : Channel) : List Payload :=
  (u.inFlight.filter (·.1 = c)).map (·.2)

/-- Takes the first pair with a key out of a list. -/
def takeFirst? {κ α : Type} [DecidableEq κ] (k : κ) : List (κ × α) → Option (α × List (κ × α))
  | [] => none
  | e :: es =>
    if e.1 = k then some (e.2, es)
    else (takeFirst? k es).map fun (a, rest) => (a, e :: rest)

/-- Sends a message. -/
def push (u : Universe) (c : Channel) (data : Payload) : Universe :=
  { u with inFlight := u.inFlight ++ [(c, data)] }

/-- Takes the oldest message of a channel, cut to the length of the receive. -/
def poll (r : Receive) (u : Universe) : Receive × Universe :=
  match r.data with
  | some _ => (r, u)
  | none =>
    match takeFirst? r.channel u.inFlight with
    | none => (r, u)
    | some (data, rest) =>
      ({ r with data := some (data.take r.length) }, { u with inFlight := rest })

/-- Whether two ranks are on the same node. -/
def sameNodeAs (u : Universe) (me peer : Nat) : Bool :=
  peer < u.size ∧ peer / u.nodeSize = me / u.nodeSize

/-- Publishes a segment; one published before under the same key is let go. -/
def publish (k : SegmentKey) (seg : Segment) (w : World Universe) : World Universe :=
  match takeFirst? k w.net.segments with
  | some (old, rest) =>
    { heap := w.heap.letGo old.pool, net := { w.net with segments := rest ++ [(k, seg)] } }
  | none => { w with net := { w.net with segments := w.net.segments ++ [(k, seg)] } }

/-- Takes a published segment. -/
def claim (k : SegmentKey) : Task (World Universe) (Option Segment) := do
  let w ← get
  match takeFirst? k w.net.segments with
  | some (seg, rest) =>
    set { w with net := { w.net with segments := rest } }
    return some seg
  | none => return none

instance : Transport Universe where
  Handle := Receive
  size u := u.size
  sharesNode := sameNodeAs
  send me peer tag data u := u.push ⟨me, peer, tag⟩ data
  post me peer tag length u := (⟨⟨peer, me, tag⟩, length, none⟩, u)
  test r u :=
    let (r, u) := poll r u
    (r.data.isSome, r, u)
  wait r u :=
    let (r, u) := poll r u
    r.data.map fun data => (data, u)
  publish := publish
  claim := claim
  barrier u := u

end Universe

end StencilPlan
