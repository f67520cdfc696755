/-!
# Memory policies

Where storage is to be placed. A policy is fixed for the life of what is allocated under it; it is
recorded, not enforced.
-/

namespace StencilPlan

/-- Placement asked for an allocation. -/
inductive MemoryPolicy where
  /-- Anywhere, aligned to cache lines. -/
  | aligned
  /-- Preferably on a NUMA node. -/
  | numa (node : Int)
  /-- On a device of persistent memory. -/
  | pmem (device : Int)
  /-- Where ranks of the same node can share it. -/
  | shared
  deriving DecidableEq, Repr

/-- How a policy is named in messages. -/
def MemoryPolicy.describe : MemoryPolicy → String
  | aligned => "aligned"
  | numa node => s!"NUMA node {node}"
  | pmem device => s!"PMEM device {device}"
  | shared => "shared memory"

/-- How a policy is shown inside a structure. -/
def MemoryPolicy.show : MemoryPolicy → String
  | aligned => "Aligned"
  | numa node => s!"Numa({node})"
  | pmem device => s!"Pmem({device})"
  | shared => "Shm"

end StencilPlan
