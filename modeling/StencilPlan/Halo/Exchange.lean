import StencilPlan.Halo.Table

/-!
# The exchange of halos

A rank exchanges its halos by a fixed list of moves. It posts a receive for every buffer that comes
as a message; packs and sends every send buffer; lets the caller compute the interior; takes what
has arrived, waits for the rest, and at last drains the shared receive buffers. A message carries
the number of the variable and the offset of the sender as the receiver sees it, so both sides
find the same tag without talking about it.

One move is one step. A move that has to wait for another rank does not happen yet, and nothing
has changed when it is tried again, so the ranks can be interleaved at will.
-/

namespace StencilPlan

/-- What an exchange came to. -/
structure Traffic where
  sentBytes : Nat
  receivedBytes : Nat
  /-- Shared windows written or read. -/
  sharedCopies : Nat
  /-- Messages sent or received. -/
  messages : Nat
  deriving DecidableEq, Repr, Inhabited

namespace Traffic

def zero : Traffic := ⟨0, 0, 0, 0⟩

/-- Adds two counts of everything. -/
def add (s t : Traffic) : Checked Traffic := do
  return {
    sentBytes := ← Word.add s.sentBytes t.sentBytes
    receivedBytes := ← Word.add s.receivedBytes t.receivedBytes
    sharedCopies := ← Word.add s.sharedCopies t.sharedCopies
    messages := ← Word.add s.messages t.messages }

end Traffic

/-- What the caller of an exchange sees of it. -/
inductive ExchangeEvent where
  /-- A send buffer was packed. -/
  | packed (var buffer : String)
  /-- The interior was computed. -/
  | interior
  /-- A receive buffer was unpacked. -/
  | unpacked (var buffer : String) (values : List Binary64)
  deriving DecidableEq, Repr

/-- One thing done with the buffers at one place. -/
inductive Action where
  /-- Post the receive of a message. -/
  | post
  /-- Have the caller pack the send buffer. -/
  | pack
  /-- Send what was packed as a message. -/
  | send
  /-- Wait until the neighbor has drained the shared send buffer. -/
  | drained
  /-- Take the lock of the shared send buffer. -/
  | lockSend
  /-- Write what was packed into the shared send buffer. -/
  | fill
  /-- Tell the neighbor that the shared send buffer is filled. -/
  | raise
  /-- Give the lock of the shared send buffer back. -/
  | unlockSend
  /-- Take the message if it is there. -/
  | poll
  /-- Wait for the message, unless it was taken before. -/
  | await
  /-- Hand the message that was taken to the caller. -/
  | deliver
  /-- Wait until the neighbor has filled the shared receive buffer. -/
  | filled
  /-- Take the lock of the shared receive buffer. -/
  | lockRecv
  /-- Read the shared receive buffer. -/
  | drain
  /-- Tell the neighbor that the shared receive buffer is drained. -/
  | lower
  /-- Give the lock of the shared receive buffer back. -/
  | unlockRecv
  /-- Hand what was read to the caller. -/
  | unpack
  deriving DecidableEq, Repr

/-- A move of a rank. -/
inductive Move where
  | interior
  | act (slot : Slot) (action : Action)
  deriving DecidableEq, Repr

/-- How many steps a move can lead to: a message that is taken still has to be delivered. -/
def Move.work : Move → Nat
  | act _ .poll | act _ .await => 2
  | _ => 1

namespace HaloTable

/-- The places where a message is received. -/
def messageReceives : List (Slot × NeighborBuffers) → Checked (List Slot)
  | [] => return []
  | (s, n) :: rest => do
    let slots ← messageReceives rest
    if n.shared then return slots
    if (← n.recv.size) = 0 then return slots
    return s :: slots

/-- The places where a shared buffer is received. -/
def sharedReceives : List (Slot × NeighborBuffers) → Checked (List Slot)
  | [] => return []
  | (s, n) :: rest => do
    let slots ← sharedReceives rest
    if ¬ n.shared then return slots
    if (← n.recv.size) = 0 then return slots
    return s :: slots

/-- The moves that send. -/
def sendMoves : List (Slot × NeighborBuffers) → Checked (List Move)
  | [] => return []
  | (s, n) :: rest => do
    let moves ← sendMoves rest
    if (← n.send.size) = 0 then return moves
    let actions : List Action :=
      if n.shared then [.pack, .drained, .lockSend, .fill, .raise, .unlockSend]
      else [.pack, .send]
    return actions.map (.act s) ++ moves

/-- The moves of one shared receive. -/
def drainMoves (s : Slot) : List Move :=
  [Action.filled, .lockRecv, .drain, .lower, .unlockRecv, .unpack].map (.act s)

/-- The buffers with their places. -/
def entries (t : HaloTable) : List (Slot × NeighborBuffers) :=
  t.slots.filterMap fun s => (t.at? s).map fun n => (s, n)

/-- All moves of an exchange, with the interior in it or left out. -/
def moves (t : HaloTable) (interior : Bool) : Checked (List Move) := do
  let messages ← messageReceives t.entries
  let shared ← sharedReceives t.entries
  let sends ← sendMoves t.entries
  return messages.map (.act · .post) ++ sends ++ (if interior then [Move.interior] else []) ++
    messages.map (.act · .poll) ++ messages.map (.act · .await) ++ shared.flatMap drainMoves

/-- Whether a rank that exchanges alone would wait for ever: a shared send buffer is not drained
or a shared receive buffer is not filled. -/
def wouldStall (t : HaloTable) (h : Heap) : Checked Bool :=
  t.entries.anyM fun (_, n) => do
    if ¬ n.shared then return false
    if (← n.send.size) ≠ 0 then
      if ← n.send.isReady h then return true
    if (← n.recv.size) ≠ 0 then
      return !(← n.recv.isReady h)
    return false

end HaloTable

/-- How the caller packs the send buffer of a variable. -/
abbrev Packer := String → HaloBuffer → Checked (List Binary64)

/-- A rank in the middle of an exchange. -/
structure Exchange (ν : Type) [Transport ν] where
  table : HaloTable
  topology : Topology
  packer : Packer
  /-- All moves of a round. -/
  moves : List Move
  /-- Receives that were posted and not taken yet. -/
  pending : List (Slot × Transport.Handle ν)
  /-- The values last packed or drained. -/
  values : List Binary64
  /-- The message last taken. -/
  arrived : Payload
  stats : Traffic
  events : List ExchangeEvent
  /-- The moves that are left. -/
  todo : List Move

/-- Exactly `n` values: cut off, or filled up with zeros. -/
def fitValues (n : Nat) (vs : List Binary64) : List Binary64 :=
  (vs ++ List.replicate (n - vs.length) Binary64.zero).take n

/-- The values in a message, which consists of whole words. -/
def wordsOf (n : Nat) (bytes : Payload) : List Binary64 :=
  match n with
  | 0 => []
  | n + 1 => .ofBytes (bytes.take wordSize) :: wordsOf n (bytes.drop wordSize)

/-- One above the greatest tag. -/
def tagLimit : Nat := 65536

/-- The tag of a message for a variable, from or to the offset with a number. -/
def messageTag (neighborhood var offset neighbor : Nat) : Outcome Nat := do
  let first ← (Word.mul var neighborhood : Checked _)
  let tag ← (Word.add first offset : Checked _)
  if tag ≥ tagLimit then
    throw (.tiling (.communication neighbor (.tagRange var)))
  return tag

namespace Exchange

variable {ν : Type} [Transport ν]

/-- An exchange before its first move. -/
def start (table : HaloTable) (topology : Topology) (packer : Packer) (interior : Bool) :
    Checked (Exchange ν) := do
  let moves ← table.moves interior
  return {
    table, topology, packer, moves, pending := [], values := [], arrived := [], stats := .zero,
    events := [], todo := moves }

/-- The next exchange with the same buffers, before its first move. -/
def again (x : Exchange ν) (packer : Packer) : Exchange ν :=
  { x with
    packer, pending := [], values := [], arrived := [], stats := .zero, events := []
    todo := x.moves }

/-- Whether all moves are done. -/
def finished (x : Exchange ν) : Bool := x.todo.isEmpty

/-- The name of the variable at a place. -/
def varName (x : Exchange ν) (s : Slot) : String := x.table.varName s

/-- Writes an event down. -/
def saw (x : Exchange ν) (e : ExchangeEvent) : Exchange ν := { x with events := x.events ++ [e] }

/-- The receive posted for a place, if it was not taken yet. -/
def posted? (x : Exchange ν) (s : Slot) : Option (Transport.Handle ν) := x.pending.lookup s

/-- Takes the data of the receive posted for a place; `none` while there is none. -/
def take? (x : Exchange ν) (s : Slot) (h : Transport.Handle ν) (w : World ν) :
    Option (Exchange ν × World ν) :=
  (Transport.wait h w.net).map fun (data, net) =>
    ({ x with
        arrived := data
        pending := x.pending.filter (·.1 ≠ s)
        todo := .act s .deliver :: x.todo }, { w with net := net })

/-- Does one thing with the buffers at a place. The answer is `none` if it has to wait. A failure
ends the exchange where it is, so a lock that was taken before would be kept. That does not come up:
a buffer that is locked has storage, and it is filled with as many values as it holds. -/
def perform (x : Exchange ν) (w : World ν) (s : Slot) (n : NeighborBuffers) (a : Action) :
    Outcome (Option (Exchange ν × World ν)) := do
  let withHeap (h : Heap) : World ν := { w with heap := h }
  match a with
  | .post =>
    let tag ← messageTag x.table.neighborhood s.var s.neighbor n.rank
    let bytes ← (n.recv.bytes : Checked _)
    let (h, net) := Transport.post x.topology.rank n.rank tag bytes w.net
    return some ({ x with pending := x.pending ++ [(s, h)] }, { w with net := net })
  | .pack =>
    let size ← (n.send.size : Checked _)
    let values ← (x.packer (x.varName s) n.send : Checked _)
    let x := { x with values := fitValues size values }
    return some (x.saw (.packed (x.varName s) n.send.name), w)
  | .send =>
    let opposite := (x.topology.oppositeIndex? s.neighbor).getD s.neighbor
    let tag ← messageTag x.table.neighborhood s.var opposite n.rank
    let heap ← n.send.write w.heap x.values
    let bytes ← (n.send.bytes : Checked _)
    let net := Transport.send x.topology.rank n.rank tag (x.values.flatMap (·.bytes)) w.net
    let stats ← (x.stats.add ⟨bytes, 0, 0, 1⟩ : Checked _)
    return some ({ x with stats }, { heap, net })
  | .drained =>
    if ← (n.send.isReady w.heap : Checked _) then return none
    return some (x, w)
  | .lockSend =>
    let heap? ← (n.send.lock? w.heap : Checked _)
    return heap?.map fun h => (x, withHeap h)
  | .fill =>
    let heap ← n.send.write w.heap x.values
    return some (x, withHeap heap)
  | .raise =>
    let heap ← (n.send.markReady w.heap true : Checked _)
    return some (x, withHeap heap)
  | .unlockSend =>
    let heap ← (n.send.unlock w.heap : Checked _)
    let bytes ← (n.send.bytes : Checked _)
    let stats ← (x.stats.add ⟨bytes, 0, 1, 0⟩ : Checked _)
    return some ({ x with stats }, withHeap heap)
  | .poll =>
    match x.posted? s with
    | none => return some (x, w)
    | some h =>
      let (there, h, net) := Transport.test h w.net
      let w := { w with net := net }
      if there then
        return x.take? s h w
      else
        let pending := x.pending.map fun p => if p.1 = s then (s, h) else p
        return some ({ x with pending }, w)
  | .await =>
    match x.posted? s with
    | none => return some (x, w)
    | some h => return x.take? s h w
  | .deliver =>
    let bytes ← (n.recv.bytes : Checked _)
    if x.arrived.length ≠ bytes then
      throw (.tiling (.communication n.rank
        (.payloadLength x.arrived.length n.recv.name bytes)))
    let size ← (n.recv.size : Checked _)
    let values := wordsOf size x.arrived
    let heap ← n.recv.write w.heap values
    let stats ← (x.stats.add ⟨0, bytes, 0, 1⟩ : Checked _)
    let x := { x with stats }
    return some (x.saw (.unpacked (x.varName s) n.recv.name values), withHeap heap)
  | .filled =>
    if ← (n.recv.isReady w.heap : Checked _) then return some (x, w)
    return none
  | .lockRecv =>
    let heap? ← (n.recv.lock? w.heap : Checked _)
    return heap?.map fun h => (x, withHeap h)
  | .drain =>
    let size ← (n.recv.size : Checked _)
    let values ← n.recv.read w.heap size
    return some ({ x with values }, w)
  | .lower =>
    let heap ← (n.recv.markReady w.heap false : Checked _)
    return some (x, withHeap heap)
  | .unlockRecv =>
    let heap ← (n.recv.unlock w.heap : Checked _)
    return some (x, withHeap heap)
  | .unpack =>
    let bytes ← (n.recv.bytes : Checked _)
    let stats ← (x.stats.add ⟨0, bytes, 1, 0⟩ : Checked _)
    let x := { x with stats }
    return some (x.saw (.unpacked (x.varName s) n.recv.name x.values), w)

/-- The next move. The answer is `none` if there is none or if it has to wait. -/
def step (x : Exchange ν) (w : World ν) : Outcome (Option (Exchange ν × World ν)) :=
  match x.todo with
  | [] => return none
  | .interior :: rest => return some (({ x with todo := rest }).saw .interior, w)
  | .act s a :: rest =>
    match x.table.at? s with
    | none => return some ({ x with todo := rest }, w)
    | some n => perform { x with todo := rest } w s n a

/-- How many steps a list of moves takes at most. -/
def movesWork (ms : List Move) : Nat := ms.foldr (fun m k => m.work + k) 0

/-- How many steps are left at most. -/
def work (x : Exchange ν) : Nat := movesWork x.todo

/-- At most so many steps, until the exchange is done, waits or fails. -/
def advance : Nat → Exchange ν → World ν → Exchange ν × World ν × Option Failure
  | 0, x, w => (x, w, none)
  | k + 1, x, w =>
    match x.step w with
    | .error e => (x, w, some e)
    | .ok none => (x, w, none)
    | .ok (some (x, w)) => advance k x w

/-- As many steps as possible without another rank taking any. -/
def run (x : Exchange ν) (w : World ν) : Exchange ν × World ν × Option Failure :=
  advance x.work x w

end Exchange

end StencilPlan
