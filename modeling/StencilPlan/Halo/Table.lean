import StencilPlan.Halo.Buffer
import StencilPlan.Network.Transport
import StencilPlan.Rank.Topology
import StencilPlan.Settings.Basic
import StencilPlan.Stencil.Basic

/-!
# The halo buffers of a rank

For each variable and each existing neighbor a rank has a buffer of points to send and one of
points to receive. Buffers toward other nodes lie in a pool of the rank's own. Toward a neighbor
on the same node the send buffer lies in a shared pool and is published, and the receive buffer is
attached to what the neighbor published. So storage is set up in two steps, with a meeting of all
ranks between them: `offer` lays out the buffers and publishes, `attachAll` attaches.
-/

namespace StencilPlan

/-- The two buffers toward a neighbor. -/
structure NeighborBuffers where
  rank : Nat
  send : HaloBuffer
  recv : HaloBuffer
  /-- Both lie in shared memory. -/
  shared : Bool
  deriving DecidableEq, Repr

namespace NeighborBuffers

/-- What a place takes in the table of a variable, with or without buffers. -/
def entryBytes : Nat := 224

/-- The buffer for one direction. -/
def buffer (n : NeighborBuffers) : Direction → HaloBuffer
  | .send => n.send
  | .recv => n.recv

/-- Replaces the buffer for one direction. -/
def withBuffer (n : NeighborBuffers) (d : Direction) (b : HaloBuffer) : NeighborBuffers :=
  match d with
  | .send => { n with send := b }
  | .recv => { n with recv := b }

end NeighborBuffers

/-- The buffers of a variable. -/
structure VarBuffers where
  var : String
  /-- By number of the offset; none where there is no neighbor or nothing to exchange. -/
  toward : List (Option NeighborBuffers)
  deriving DecidableEq, Repr

/-- A place in the table: a variable and a neighbor by number. -/
structure Slot where
  var : Nat
  neighbor : Nat
  deriving DecidableEq, Repr

/-- All halo buffers of a rank. -/
structure HaloTable where
  vars : List VarBuffers
  /-- Places of the neighborhood. -/
  neighborhood : Nat
  owned : Option PoolId
  shared : Option PoolId
  deriving DecidableEq, Repr, Inhabited

namespace HaloTable

def empty : HaloTable := ⟨[], 0, none, none⟩

/-- The buffers at a place. -/
def at? (t : HaloTable) (s : Slot) : Option NeighborBuffers :=
  (t.vars[s.var]?).bind fun v => (v.toward[s.neighbor]?).join

/-- The name of the variable at a place. -/
def varName (t : HaloTable) (s : Slot) : String := ((t.vars[s.var]?).map (·.var)).getD ""

/-- Replaces the buffers at a place. -/
def put (t : HaloTable) (s : Slot) (n : NeighborBuffers) : HaloTable :=
  { t with vars := t.vars.modify s.var fun v =>
      { v with toward := v.toward.set s.neighbor (some n) } }

/-- The places that have buffers: variable by variable, then by number of the offset. -/
def slots (t : HaloTable) : List Slot :=
  t.vars.zipIdx.flatMap fun (v, vi) =>
    (v.toward.zipIdx.filter (·.1.isSome)).map fun (_, ni) => ⟨vi, ni⟩

/-- The places with buffers in shared memory. -/
def sharedSlots (t : HaloTable) : List Slot :=
  t.slots.filter fun s => (t.at? s).any (·.shared)

/-- The buffers of a variable toward the neighbor with a number. -/
def get? (t : HaloTable) (var : String) (neighbor : Nat) : Option NeighborBuffers :=
  (t.vars.find? (·.var = var)).bind fun v => (v.toward[neighbor]?).join

/-- Bytes of both pools. -/
def poolBytes (t : HaloTable) (h : Heap) : Nat :=
  ((t.owned.map h.bytes).getD 0) + ((t.shared.map h.bytes).getD 0)

end HaloTable

/-- A rank's buffers and the world around it. -/
structure Site (ν : Type) where
  table : HaloTable
  world : World ν

namespace Site

variable {ν : Type}

/-- The heap of the world. -/
def heap (s : Site ν) : Heap := s.world.heap

def withHeap (h : Heap) (s : Site ν) : Site ν := { s with world := { s.world with heap := h } }

/-- Work on the buffer of one direction at a place. -/
def onBuffer {α : Type} (slot : Slot) (d : Direction) (n : NeighborBuffers)
    (x : Task (HaloBuffer × Heap) α) : Task (Site ν) α :=
  Task.zoom
    (fun s => ((((s.table.at? slot).getD n).buffer d), s.heap))
    (fun (b, h) s =>
      { table := s.table.put slot (((s.table.at? slot).getD n).withBuffer d b)
        world := { s.world with heap := h } })
    x

/-- Gives up the storage of the buffers at some places. -/
def releaseSlots : List Slot → Task (Site ν) Unit
  | [] => pure ()
  | slot :: rest => do
    match (← get).table.at? slot with
    | none => pure ()
    | some n =>
      onBuffer slot .send n HaloBuffer.release
      onBuffer slot .recv n HaloBuffer.release
    releaseSlots rest

/-- Drops every buffer and the hold on both pools. -/
def release : Task (Site ν) Unit := do
  releaseSlots (← get).table.slots
  modify fun s =>
    let drop (h : Heap) (p : Option PoolId) : Heap := (p.map h.letGo).getD h
    { table := { s.table with vars := [], owned := none, shared := none }
      world := { s.world with heap := drop (drop s.heap s.table.owned) s.table.shared } }

end Site

/-- The box of points exchanged with a neighbor: a slab in each dimension. -/
def bufferBox (c : Catalog) (offset sizes left right : DimVec) (d : Direction) :
    Checked (DimVec × DimVec) := do
  let slabs ← c.domain.names.mapM fun dim =>
    slab d (offset.getD dim 0) (sizes.getD dim 0) (left.getD dim 0) (right.getD dim 0)
  return ((c.domainVec 0).withValues (slabs.map (·.1)),
    (c.domainVec 0).withValues (slabs.map (·.2)))

/-- The buffer of a variable toward a neighbor, without storage. -/
def makeBuffer (c : Catalog) (var : String) (n : Neighbor) (sizes left right : DimVec)
    (d : Direction) : Checked HaloBuffer := do
  let (first, extent) ← bufferBox c n.offset sizes left right d
  let name := s!"{var}_{d.name}_" ++ n.offset.renderValues "_"
  (HaloBuffer.new name d first extent).foldedBy c.fold

/-- Words needed in the pool of the rank's own and in the shared pool. -/
structure PoolWords where
  owned : Nat
  shared : Nat
  deriving DecidableEq, Repr

/-- Bytes asked for in either pool, and how the one of the rank's own is to be placed. -/
structure PoolRequests where
  ownedBytes : Nat
  ownedPolicy : MemoryPolicy
  sharedBytes : Nat
  deriving DecidableEq, Repr

/-- The buffers of a variable toward a neighbor, if there is anything to exchange, and the words
needed with them. -/
def makeNeighbor (stencil : Stencil) (s : Settings) (var : String) (left right : DimVec)
    (sharesNode : Nat → Bool) (n : Neighbor) (words : PoolWords) :
    Checked (Option NeighborBuffers × PoolWords) :=
  match n.rank with
  | none => return (none, words)
  | some rank => do
    let send ← makeBuffer stencil.catalog var n s.localDomain left right .send
    let recv ← makeBuffer stencil.catalog var n s.localDomain left right .recv
    if (← send.size) = 0 then
      if (← recv.size) = 0 then
        return (none, words)
    let shared := s.useShared && sharesNode rank
    let words ←
      if shared then do
        pure { words with shared := ← Word.add words.shared (← send.reservedWords true) }
      else do
        let both ← Word.add (← send.reservedWords false) (← recv.reservedWords false)
        pure { words with owned := ← Word.add words.owned both }
    return (some { rank, send, recv, shared }, words)

/-- The buffers of a variable toward the existing neighbors, filled into `row` by number. -/
def makeRow (stencil : Stencil) (s : Settings) (var : String) (left right : DimVec)
    (sharesNode : Nat → Bool) (row : List (Option NeighborBuffers)) (words : PoolWords) :
    List Neighbor → Checked (List (Option NeighborBuffers) × PoolWords)
  | [] => return (row, words)
  | n :: ns => do
    let (buffers, words) ← makeNeighbor stencil s var left right sharesNode n words
    makeRow stencil s var left right sharesNode (row.set n.index buffers) words ns

namespace Site

variable {ν : Type} [Transport ν]

/-- Lays out the buffers of some variables. -/
def layOut (stencil : Stencil) (s : Settings) (topology : Topology) (words : PoolWords) :
    List String → Task (Site ν) PoolWords
  | [] => return words
  | var :: vars => do
    let net := (← get).world.net
    (reserve topology.size NeighborBuffers.entryBytes : Checked _)
    let (row, words) ← (makeRow stencil s var (stencil.haloWidths var none true)
      (stencil.haloWidths var none false) (Transport.sharesNode net topology.rank)
      (List.replicate topology.size none) words topology.existing : Checked _)
    modify fun t => { t with table := { t.table with vars := t.table.vars ++ [⟨var, row⟩] } }
    layOut stencil s topology words vars

/-- How the pool of the rank's own is placed. -/
def ownedPolicy (s : Settings) (a : Allocator) (bytes : Nat) : MemoryPolicy :=
  s.haloPolicy (Word.saturatingAdd a.placedBytes bytes)

/-- Allocates the two pools, as far as they are needed. -/
def allocatePools (s : Settings) (a : Allocator) (words : PoolWords) : Task (Site ν) Unit := do
  let ownedBytes ← (Word.mul words.owned wordSize : Checked _)
  if words.owned > 0 then
    let p ← Task.zoom heap withHeap (a.allocate ownedBytes (ownedPolicy s a ownedBytes))
    modify fun t => { t with table := { t.table with owned := some p } }
  if words.shared > 0 then
    let sharedBytes ← (Word.mul words.shared wordSize : Checked _)
    let p ← Task.zoom heap withHeap (a.allocate sharedBytes .shared)
    modify fun t => { t with table := { t.table with shared := some p } }

/-- What the two pools were asked for. -/
def poolRequests (s : Settings) (a : Allocator) (words : PoolWords) : PoolRequests :=
  let ownedBytes := words.owned * wordSize
  ⟨ownedBytes, ownedPolicy s a ownedBytes, words.shared * wordSize⟩

/-- Gives the buffers at one place their windows, from given offsets on, and publishes a shared
send buffer. Yields the offsets behind them. A pool that is missing is reported with what it was
`asked` for. -/
def carve (me : Nat) (asked : PoolRequests) (slot : Slot) (used : PoolWords) :
    Task (Site ν) PoolWords := do
  let t := (← get).table
  match t.at? slot with
  | none => return used
  | some n =>
    if n.shared then
      match t.shared with
      | none =>
        .reject (.allocation asked.sharedBytes MemoryPolicy.shared.describe (.poolMissing "shared"))
      | some pool =>
        let length ← (n.send.reservedWords true : Checked _)
        onBuffer slot .send n (HaloBuffer.attach pool used.shared .owned true)
        let key : SegmentKey := ⟨me, n.rank, t.varName slot⟩
        let segment : Segment := ⟨pool, used.shared, length⟩
        modify (withHeap ((← get).heap.hold pool))
        modify fun s => { s with world := Transport.publish key segment s.world }
        return { used with shared := used.shared + length }
    else
      match t.owned with
      | none =>
        .reject (.allocation asked.ownedBytes asked.ownedPolicy.describe (.poolMissing "owned"))
      | some pool =>
        onBuffer slot .send n (HaloBuffer.attach pool used.owned .owned false)
        let middle := used.owned + (← (n.send.reservedWords false : Checked _))
        onBuffer slot .recv n (HaloBuffer.attach pool middle .owned false)
        return { used with owned := middle + (← (n.recv.reservedWords false : Checked _)) }

/-- Gives the buffers at some places their windows. -/
def carveAll (me : Nat) (asked : PoolRequests) (used : PoolWords) :
    List Slot → Task (Site ν) Unit
  | [] => pure ()
  | slot :: rest => do
    let used ← carve me asked slot used
    carveAll me asked used rest

/-- First step: drops what was there, lays out all buffers, allocates the pools and publishes the
shared send buffers. Yields the words of both pools. -/
def offer (stencil : Stencil) (s : Settings) (topology : Topology) (a : Allocator) :
    Task (Site ν) PoolWords := do
  release
  modify fun t => { t with table := { t.table with neighborhood := topology.size } }
  let words ← layOut stencil s topology ⟨0, 0⟩ stencil.vars
  allocatePools s a words
  carveAll topology.rank (poolRequests s a words) ⟨0, 0⟩ (← get).table.slots
  return words

/-- Attaches the receive buffer at one place to what the neighbor published. -/
def attachSlot (me : Nat) (slot : Slot) (n : NeighborBuffers) : Task (Site ν) Unit := do
  let key : SegmentKey := ⟨n.rank, me, (← get).table.varName slot⟩
  let fail (reason : String) : Task (Site ν) Unit :=
    .reject (.sharedAttach key.owner key.var reason)
  let found ← Task.zoom (·.world) (fun w s => { s with world := w }) (Transport.claim key)
  match found with
  | none => fail "segment was not published"
  | some seg =>
    let drop : Task (Site ν) Unit := modify fun s => withHeap (s.heap.letGo seg.pool) s
    let expected ← (n.recv.reservedWords true : Checked _)
    if seg.length ≠ expected then
      drop
      fail s!"segment holds {seg.length} words, expected {expected}"
    else
      let r ← Task.attempt
        (onBuffer slot .recv n (HaloBuffer.attach seg.pool seg.offset .attached true))
      drop
      match r with
      | .ok () => pure ()
      | .error e => fail e.message

/-- Attaches the receive buffers at some places. -/
def attachSlots (me : Nat) : List Slot → Task (Site ν) Unit
  | [] => pure ()
  | slot :: rest => do
    match (← get).table.at? slot with
    | none => pure ()
    | some n => attachSlot me slot n
    attachSlots me rest

/-- Second step, once all ranks have done the first: attaches the shared receive buffers. -/
def attachAll (me : Nat) : Task (Site ν) Unit := do
  attachSlots me (← get).table.sharedSlots

/-- Meets the other ranks. -/
def meet : Task (Site ν) Unit :=
  modify fun s => { s with world := { s.world with net := Transport.barrier s.world.net } }

/-- Says what was set up. -/
def announce (me : Nat) (words : PoolWords) : Task (Site ν) Unit := do
  let t := (← get).table
  Task.note .info (s!"rank {me}: halo buffers for {t.vars.length} var(s), " ++
    s!"{words.owned * wordSize} bytes owned, {words.shared * wordSize} bytes shared")

/-- Second step with the meetings around it: attaches the shared buffers, if there are any, and
says what was set up. -/
def settle (s : Settings) (me : Nat) (words : PoolWords) : Task (Site ν) Unit := do
  if s.useShared then
    meet
    attachAll me
    meet
  announce me words

/-- Both steps, for a rank whose network does not need the others to take them too. -/
def allocate (stencil : Stencil) (s : Settings) (topology : Topology) (a : Allocator) :
    Task (Site ν) Unit := do
  let words ← offer stencil s topology a
  settle s topology.rank words

end Site

end StencilPlan
