import StencilPlan.Error

/-!
# Nested parallel programs

A program asks for numbers of threads and runs bodies in parallel, each body a program again.
Regions can only be run from the outside, at level zero, and blocks only inside a region, at
level one; any other nesting is a fault.
-/

namespace StencilPlan

/-- What a thread does. -/
inductive NestProgram where
  | done
  /-- Ask for the number of region threads, then go on. -/
  | askRegions (next : NestProgram)
  /-- Ask for the number of block threads, then go on. -/
  | askBlocks (next : NestProgram)
  /-- Run a body for each number below `n` on the region threads, then go on. -/
  | regions (n : Nat) (body : Nat → NestProgram) (next : NestProgram)
  /-- Run a body for each number below `n` on the own block threads, then go on. -/
  | blocks (n : Nat) (body : Nat → NestProgram) (next : NestProgram)

namespace NestProgram

/-- How many steps a program takes at most, with those of all its bodies. -/
def work : NestProgram → Nat
  | done => 1
  | askRegions next => 1 + next.work
  | askBlocks next => 1 + next.work
  | regions n body next => 2 + (List.range n).foldr (fun i k => 1 + (body i).work + k) 0 + next.work
  | blocks n body next => 2 + (List.range n).foldr (fun i k => 1 + (body i).work + k) 0 + next.work

end NestProgram

/-- The two kinds of parallel work. -/
inductive NestKind where
  | regions
  | blocks
  deriving DecidableEq, Repr

namespace NestKind

/-- The level at which this kind of work may be started. -/
def startLevel : NestKind → Nat
  | regions => 0
  | blocks => 1

/-- The level at which the bodies run. -/
def bodyLevel (k : NestKind) : Nat := k.startLevel + 1

/-- The name of the call that sets the number of threads. -/
def setter : NestKind → String
  | regions => "set_region_threads"
  | blocks => "set_block_threads"

/-- Refuses to start this kind of work at any level but its own. -/
def allowAt (k : NestKind) (level : Nat) : Checked Unit :=
  if level = k.startLevel then .ok ()
  else .error (.misuse (.threadNesting k.setter k.startLevel level))

end NestKind

end StencilPlan
