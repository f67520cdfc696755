import StencilPlan.Memory.Policy
import StencilPlan.Arith.Checked
import StencilPlan.Journal
import StencilPlan.Number.Binary64

/-!
# Storage

Storage is handed out in pools of 64-bit words, all zero at first. A pool counts its holders: the
buffers, segments and owners that keep it alive. Ranks of the same node reach the same pool through
the same number, so the heap is one value for all of them.
-/

namespace StencilPlan

/-- Bytes of a cache line; pools are whole cache lines. -/
def lineBytes : Nat := 64

/-- Bytes of a word. -/
def wordSize : Nat := 8

/-- Words of a cache line. -/
def lineWords : Nat := 8

/-- The least multiple of `m` not below `n`, in 64 bits. -/
def roundUpWords (n m : Nat) : Checked Nat := Word.mul ((n + (m - 1)) / m) m

/-- A number of bytes rounded up to whole cache lines. -/
def wholeLines (bytes : Nat) : Checked Nat := roundUpWords bytes lineBytes

/-- A pool of words. -/
structure Pool where
  policy : MemoryPolicy
  words : Array UInt64
  /-- How many keep the pool alive. -/
  holders : Nat
  deriving Repr

/-- How a pool is shown. -/
def Pool.display (p : Pool) : String :=
  s!"Allocation \x7b nbytes: {p.words.size * wordSize}, policy: {p.policy.show} \x7d"

/-- The number of a pool. -/
abbrev PoolId := Nat

/-- All pools, and every request that was made, successful or not. -/
structure Heap where
  pools : Array Pool
  requests : List (Nat × MemoryPolicy)
  deriving Repr

namespace Heap

def empty : Heap := ⟨#[], []⟩

/-- Words of a pool. -/
def length (h : Heap) (p : PoolId) : Nat :=
  match h.pools[p]? with
  | some pool => pool.words.size
  | none => 0

/-- Bytes of a pool. -/
def bytes (h : Heap) (p : PoolId) : Nat := h.length p * wordSize

/-- How many keep a pool alive. -/
def holders (h : Heap) (p : PoolId) : Nat :=
  match h.pools[p]? with
  | some pool => pool.holders
  | none => 0

/-- Adds a holder. -/
def hold (h : Heap) (p : PoolId) : Heap :=
  { h with pools := h.pools.modify p fun pool => { pool with holders := pool.holders + 1 } }

/-- Takes a holder away. -/
def letGo (h : Heap) (p : PoolId) : Heap :=
  { h with pools := h.pools.modify p fun pool => { pool with holders := pool.holders - 1 } }

/-- One word of a pool. -/
def word? (h : Heap) (p : PoolId) (i : Nat) : Option UInt64 :=
  (h.pools[p]?).bind fun pool => pool.words[i]?

/-- Sets one word of a pool; a word past the end does not exist. -/
def setWord (h : Heap) (p : PoolId) (i : Nat) (w : UInt64) : Heap :=
  { h with pools := h.pools.modify p fun pool =>
      { pool with words := pool.words.setIfInBounds i w } }

/-- The error for `len` words from `ofs` on that are not all in the pool. -/
def rangeError (pool : Pool) (ofs len : Nat) : PlanError :=
  .bufferSize s!"allocation ({pool.policy.describe})" pool.words.size (Word.saturatingAdd ofs len)

/-- The `len` reals from word `ofs` on. -/
def readReals (h : Heap) (p : PoolId) (ofs len : Nat) : Except PlanError (List Binary64) :=
  match h.pools[p]? with
  | none => .error (.bufferSize "allocation" 0 (Word.saturatingAdd ofs len))
  | some pool =>
    if ofs + len ≤ pool.words.size then
      .ok ((pool.words.extract ofs (ofs + len)).toList.map Binary64.mk)
    else
      .error (rangeError pool ofs len)

/-- Writes words one after the other. -/
def writeWords (words : Array UInt64) (ofs : Nat) : List Binary64 → Array UInt64
  | [] => words
  | v :: vs => writeWords (words.setIfInBounds ofs v.bits) (ofs + 1) vs

/-- Writes reals from word `ofs` on. -/
def writeReals (h : Heap) (p : PoolId) (ofs : Nat) (vs : List Binary64) :
    Except PlanError Heap :=
  match h.pools[p]? with
  | none => .error (.bufferSize "allocation" 0 (Word.saturatingAdd ofs vs.length))
  | some pool =>
    if ofs + vs.length ≤ pool.words.size then
      .ok { h with pools := h.pools.modify p fun pool =>
              { pool with words := writeWords pool.words ofs vs } }
    else
      .error (rangeError pool ofs vs.length)

end Heap

/-- What a host gives out memory under. -/
structure Allocator where
  /-- The largest request that is granted. -/
  limit : Option Nat
  /-- Bytes already placed in ordinary memory for other data. -/
  placedBytes : Nat
  deriving DecidableEq, Repr

namespace Allocator

/-- A host with nothing in memory and no limit. -/
def unlimited : Allocator := ⟨none, 0⟩

/-- A new pool with room for some bytes, and one holder: the caller. -/
def allocate (a : Allocator) (bytes : Nat) (policy : MemoryPolicy) : Task Heap PoolId := do
  modify fun h => { h with requests := h.requests ++ [(bytes, policy)] }
  let padded ← (wholeLines bytes : Checked _)
  match a.limit with
  | some limit =>
    if padded > limit then
      .reject (.allocation bytes policy.describe (.overLimit limit))
  | none => pure ()
  if padded > arrayBytes then
    .reject (.allocation bytes policy.describe .overCapacity)
  Task.note .debug s!"allocated {padded} bytes ({policy.describe})"
  let h ← get
  set { h with pools := h.pools.push ⟨policy, Array.replicate (padded / wordSize) 0, 1⟩ }
  return h.pools.size

end Allocator

end StencilPlan
