import StencilPlan.Halo.Slab
import StencilPlan.Dim.RowMajor
import StencilPlan.Memory.Heap

/-!
# Halo buffers

A halo buffer covers a box of points and has a window into a pool for their values, in row-major
order. A shared window is followed by two more words: a lock, and a flag that says that the writer
has filled the window and the reader has not yet drained it.
-/

namespace StencilPlan

/-- Who allocated the storage of a buffer. -/
inductive Ownership where
  /-- This rank. -/
  | owned
  /-- The neighbor, who shares it. -/
  | attached
  deriving DecidableEq, Repr

def Ownership.show : Ownership → String
  | owned => "Owned"
  | attached => "Attached"

/-- Where in a pool a buffer has its values. -/
structure Window where
  pool : PoolId
  offset : Nat
  ownership : Ownership
  shared : Bool
  deriving DecidableEq, Repr

/-- A box of points with storage for their values. -/
structure HaloBuffer where
  name : String
  direction : Direction
  /-- The first point, counted from the first point of the rank. -/
  first : DimVec
  /-- Points per dimension. -/
  extent : DimVec
  /-- Whether the box consists of whole folds. -/
  wholeFolds : Bool
  window : Option Window
  deriving DecidableEq, Repr

namespace HaloBuffer

/-- The lock word and the ready flag. -/
def controlWords : Nat := 2

/-- A buffer without storage. -/
def new (name : String) (direction : Direction) (first extent : DimVec) : HaloBuffer :=
  { name, direction, first, extent, wholeFolds := false, window := none }

/-- Whether extent and start are multiples of the fold in each dimension. -/
def alignedTo (fold first : DimVec) : List (String × Int) → Checked Bool
  | [] => return true
  | (d, n) :: rest => do
    let f := max (fold.getD d 1) 1
    if (← Idx.rem n f) ≠ 0 then return false
    if (← Idx.rem (first.getD d 0) f) ≠ 0 then return false
    alignedTo fold first rest

/-- Notes whether whole folds can be copied. -/
def foldedBy (b : HaloBuffer) (fold : DimVec) : Checked HaloBuffer := do
  return { b with wholeFolds := ← alignedTo fold b.first b.extent.entries }

/-- The last point, found from the extents that follow position `index`. -/
def lastFrom (point : DimVec) (index : Nat) : List Int → Checked DimVec
  | [] => return point
  | n :: ns => do
    let steps ← Idx.sub n 1
    let v ← point.nth index
    let point ← point.setAt index (← Idx.add v steps)
    lastFrom point (index + 1) ns

/-- The last point of the box. -/
def last (b : HaloBuffer) : Checked DimVec := lastFrom b.first 0 b.extent.values

/-- How many values the buffer holds; none if an extent is not positive. -/
def size (b : HaloBuffer) : Checked Nat :=
  if b.extent.values.any (· ≤ 0) then
    return 0
  else do
    return Word.ofIdx (← b.extent.product)

/-- Bytes of the values. -/
def bytes (b : HaloBuffer) : Checked Nat := do Word.mul (← b.size) wordSize

/-- Words a window needs: the values and, if it is shared, the control words. -/
def neededWords (b : HaloBuffer) (shared : Bool) : Checked Nat := do
  Word.add (← b.size) (if shared then controlWords else 0)

/-- Words to reserve for a window: whole cache lines. -/
def reservedWords (b : HaloBuffer) (shared : Bool) : Checked Nat := do
  roundUpWords (← b.neededWords shared) lineWords

def isShared (b : HaloBuffer) : Bool := b.window.any (·.shared)

/-- A point of the box, shifted to where the box starts. -/
def shift (first : DimVec) (offsets : DimVec) : Checked DimVec := do
  let vs ← offsets.values.zipIdx.mapM fun (v, k) => do Idx.add (← first.nth k) v
  return first.withValues vs

/-- The points of the buffer in row-major order. -/
def points (b : HaloBuffer) : Checked (List DimVec) := do
  if (← b.size) = 0 then return []
  ((b.extent.sweep (fun offsets _ (found : Checked (List DimVec)) =>
      match found, shift b.first offsets with
      | .ok ps, .ok p => (true, .ok (p :: ps))
      | .error f, _ => (false, .error f)
      | .ok _, .error f => (false, .error f))
    (.ok [])).2).map List.reverse

/-- Gives the storage up. -/
def release : Task (HaloBuffer × Heap) Unit := do
  let (b, h) ← get
  match b.window with
  | none => pure ()
  | some w =>
    Task.note .trace (s!"releasing {w.ownership.show} storage of '{b.name}' " ++
      s!"({h.holders w.pool - 1} holder(s) left)")
    set ({ b with window := none }, h.letGo w.pool)

/-- Moves the buffer to words `offset` and following of a pool. The new pool is held before the
old storage is given up, and let go again if the window does not fit. -/
def attach (pool : PoolId) (offset : Nat) (ownership : Ownership) (shared : Bool) :
    Task (HaloBuffer × Heap) Unit := do
  modify fun (b, h) => (b, h.hold pool)
  release
  let (b, h) ← get
  let needed ← (b.neededWords shared : Checked _)
  if Word.saturatingAdd offset needed > h.length pool then
    set (b, h.letGo pool)
    .reject (.bufferSize b.name (h.length pool - offset) needed)
  else
    set ({ b with window := some { pool, offset, ownership, shared } }, h)

/-- The window, or the error for a buffer without storage. -/
def storage (b : HaloBuffer) : Outcome Window :=
  match b.window with
  | some w => return w
  | none => do
    let n ← (b.size : Checked _)
    throw (.tiling (.bufferSize b.name 0 n))

/-- Refuses values that are more or fewer than the buffer holds. -/
def checkLength (b : HaloBuffer) (length : Nat) : Outcome Unit := do
  let n ← (b.size : Checked _)
  if length ≠ n then
    throw (.tiling (.bufferSize b.name n length))

/-- Reads all values; `length` is how many the caller expects. -/
def read (b : HaloBuffer) (h : Heap) (length : Nat) : Outcome (List Binary64) := do
  b.checkLength length
  let w ← b.storage
  h.readReals w.pool w.offset length

/-- Replaces all values. -/
def write (b : HaloBuffer) (h : Heap) (vs : List Binary64) : Outcome Heap := do
  b.checkLength vs.length
  let w ← b.storage
  h.writeReals w.pool w.offset vs

/-- Pool and position of a control word, if the buffer is shared and the word exists. -/
def control? (b : HaloBuffer) (h : Heap) (which : Nat) : Checked (Option (PoolId × Nat)) :=
  match b.window.filter (·.shared) with
  | none => return none
  | some w => do
    let values ← Word.add w.offset (← b.size)
    let i ← Word.add values which
    return if i < h.length w.pool then some (w.pool, i) else none

/-- Where the lock word is. -/
def lockWord? (b : HaloBuffer) (h : Heap) : Checked (Option (PoolId × Nat)) := b.control? h 0

/-- Where the ready flag is. -/
def readyWord? (b : HaloBuffer) (h : Heap) : Checked (Option (PoolId × Nat)) := b.control? h 1

/-- Whether the window is filled and not yet drained. Never true of one that is not shared. -/
def isReady (b : HaloBuffer) (h : Heap) : Checked Bool := do
  match ← b.readyWord? h with
  | some (p, i) => return h.word? p i ≠ some 0
  | none => return false

/-- Sets the ready flag of a shared window. -/
def markReady (b : HaloBuffer) (h : Heap) (ready : Bool) : Checked Heap := do
  match ← b.readyWord? h with
  | some (p, i) => return h.setWord p i (if ready then 1 else 0)
  | none => return h

/-- Takes the lock: `none` while another one has it. A window that is not shared has no lock, and
taking it changes nothing. -/
def lock? (b : HaloBuffer) (h : Heap) : Checked (Option Heap) := do
  match ← b.lockWord? h with
  | some (p, i) => return if h.word? p i = some 0 then some (h.setWord p i 1) else none
  | none => return some h

/-- Gives the lock back. -/
def unlock (b : HaloBuffer) (h : Heap) : Checked Heap := do
  match ← b.lockWord? h with
  | some (p, i) => return h.setWord p i 0
  | none => return h

end HaloBuffer

end StencilPlan
