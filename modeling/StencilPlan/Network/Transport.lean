import StencilPlan.Memory.Heap

/-!
# What ranks can ask of a network

Messages are bytes under a tag of 16 bits; a receive is posted first and gives a handle that can
be tested and waited on. Ranks of the same node can also hand each other segments of shared pools.
A network is any state with these operations; waiting does not block but says that there is
nothing yet, so a rank that waits can be stopped and run again later.
-/

namespace StencilPlan

/-- What a segment of shared memory is published under. -/
structure SegmentKey where
  /-- The rank that allocated it and writes it. -/
  owner : Nat
  /-- The rank that may attach to it. -/
  dest : Nat
  var : String
  deriving DecidableEq, Repr

/-- A window of a shared pool, in words. Whoever has a segment holds its pool. -/
structure Segment where
  pool : PoolId
  offset : Nat
  length : Nat
  deriving DecidableEq, Repr

/-- The bytes of a message. -/
abbrev Payload := List UInt8

/-- A network together with the storage its ranks share. -/
structure World (ν : Type) where
  heap : Heap
  net : ν

/-- The operations of a network with states `ν`. -/
class Transport (ν : Type) where
  /-- A posted receive. -/
  Handle : Type
  /-- How many ranks there are. -/
  size : ν → Nat
  /-- Whether rank `me` can share memory with a peer. -/
  sharesNode : ν → (me peer : Nat) → Bool
  /-- Sends a message from `me`. -/
  send : (me peer tag : Nat) → Payload → ν → ν
  /-- Posts a receive of `length` bytes at `me`. -/
  post : (me peer tag length : Nat) → ν → Handle × ν
  /-- Whether a posted receive is complete. -/
  test : Handle → ν → Bool × Handle × ν
  /-- The data of a posted receive; `none` while there is none to be had. -/
  wait : Handle → ν → Option (Payload × ν)
  /-- Offers a segment, whose pool the caller has held for it, to the rank named in the key. -/
  publish : SegmentKey → Segment → World ν → World ν
  /-- Takes the segment published under a key; its hold goes to the caller. -/
  claim : SegmentKey → Task (World ν) (Option Segment)
  /-- Reaches the point where all ranks meet. -/
  barrier : ν → ν

end StencilPlan
