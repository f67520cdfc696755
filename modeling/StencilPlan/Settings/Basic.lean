import StencilPlan.Dim.Catalog
import StencilPlan.Memory.Policy
import StencilPlan.Number.Binary64

/-!
# Settings

The settings of a solution hold a size vector for each tiling level, the shape of the rank grid
and the knobs for threads, communication and memory. They are what a caller asks for; a size of
zero leaves the choice to the resolution.
-/

namespace StencilPlan

/-- Everything a caller can set. -/
structure Settings where
  /-- Size of the overall problem, per domain dimension. -/
  global : DimVec
  /-- Size of the local domain of a rank, per domain dimension. -/
  localDomain : DimVec
  region : DimVec
  block : DimVec
  miniBlock : DimVec
  subBlock : DimVec
  blockGroup : DimVec
  miniBlockGroup : DimVec
  subBlockGroup : DimVec
  /-- Ranks per domain dimension. -/
  numRanks : DimVec
  /-- Place of this rank in the grid, per domain dimension. -/
  rankIndices : DimVec
  /-- Set once any rank index is given; otherwise they follow from the number of the rank. -/
  explicitRankIndices : Bool
  /-- Thread budget; zero stands for all threads of the host. -/
  maxThreads : Nat
  threadDivisor : Nat
  blockThreads : Nat
  bindBlockThreads : Bool
  overlapComms : Bool
  useShared : Bool
  /-- Preferred NUMA node; below zero is the local one. -/
  numaPref : Int
  /-- GiB of ordinary memory to fill before halo storage goes to persistent memory. -/
  pmemThreshold : Int
  minExterior : Int
  /-- Least seconds of a tuning trial. -/
  autoTuneMinSecs : Binary64
  deriving DecidableEq, Repr, Inhabited

namespace Settings

/-- Block size in every domain dimension until another one is set. -/
def initialBlockSize : Int := 32

/-- A quarter of a second. -/
def defaultTrialSecs : Binary64 := ⟨0x3fd0000000000000⟩

/-- The settings before anything is set. -/
def initial (c : Catalog) (maxThreads : Nat) : Settings where
  global := c.domainVec 0
  localDomain := c.domainVec 0
  region := c.stencilVec 0
  block := (c.stencilVec initialBlockSize).set c.stepDim 0
  miniBlock := c.stencilVec 0
  subBlock := c.stencilVec 0
  blockGroup := c.stencilVec 0
  miniBlockGroup := c.stencilVec 0
  subBlockGroup := c.stencilVec 0
  numRanks := c.domainVec 0
  rankIndices := c.domainVec 0
  explicitRankIndices := false
  maxThreads := maxThreads
  threadDivisor := 1
  blockThreads := 1
  bindBlockThreads := false
  overlapComms := true
  useShared := false
  numaPref := -1
  pmemThreshold := 128
  minExterior := 0
  autoTuneMinSecs := defaultTrialSecs

/-- The size vector of a level. -/
def sizes (s : Settings) : Level → DimVec
  | .localDomain => s.localDomain
  | .region => s.region
  | .block => s.block
  | .miniBlock => s.miniBlock
  | .subBlock => s.subBlock
  | .blockGroup => s.blockGroup
  | .miniBlockGroup => s.miniBlockGroup
  | .subBlockGroup => s.subBlockGroup

/-- The settings with another size vector at a level. -/
def withSizes (s : Settings) (l : Level) (t : DimVec) : Settings :=
  match l with
  | .localDomain => { s with localDomain := t }
  | .region => { s with region := t }
  | .block => { s with block := t }
  | .miniBlock => { s with miniBlock := t }
  | .subBlock => { s with subBlock := t }
  | .blockGroup => { s with blockGroup := t }
  | .miniBlockGroup => { s with miniBlockGroup := t }
  | .subBlockGroup => { s with subBlockGroup := t }

@[simp] theorem sizes_withSizes (s : Settings) (l : Level) (t : DimVec) :
    (s.withSizes l t).sizes l = t := by
  cases l <;> rfl

theorem sizes_withSizes_of_ne (s : Settings) {l m : Level} (t : DimVec) (h : m ≠ l) :
    (s.withSizes l t).sizes m = s.sizes m := by
  cases l <;> cases m <;> first | rfl | exact absurd rfl h

/-- Sets one entry of a level, if the dimension may have a size there. -/
def resize (s : Settings) (c : Catalog) (l : Level) (dim : String) (v : Int) :
    Except PlanError Settings := do
  let _ ← c.check dim "set_size" (.tile l.spansSteps)
  return s.withSizes l ((s.sizes l).set dim v)

/-- The thread budget on a host. -/
def threadBudget (s : Settings) (hostThreads : Nat) : Nat :=
  if s.maxThreads = 0 then hostThreads else s.maxThreads

/-- Bytes in a GiB. -/
def gib : Nat := 1073741824

/-- Placement of halo storage when `placedBytes` in all would sit in ordinary memory. A threshold
of zero or less never uses persistent memory. -/
def haloPolicy (s : Settings) (placedBytes : Nat) : MemoryPolicy :=
  if s.pmemThreshold > 0 ∧ placedBytes > s.pmemThreshold.toNat * gib then
    .pmem (max s.numaPref 0)
  else if s.numaPref ≥ 0 then
    .numa s.numaPref
  else
    .aligned

end Settings

end StencilPlan
