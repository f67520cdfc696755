import StencilPlan.Settings.Basic
import StencilPlan.Dim.Codec

/-!
# Settings as JSON

The fields stand in a fixed order. A trial length that is infinite or no number has no text of its
own and is written as `null`, which cannot be read back.
-/

namespace StencilPlan.Settings

/-- The names of the fields that hold size vectors. -/
def vectorNames : List String :=
  ["global_sizes", "rank_sizes", "region_sizes", "block_sizes", "mini_block_sizes",
   "sub_block_sizes", "block_group_sizes", "mini_block_group_sizes", "sub_block_group_sizes",
   "num_ranks", "rank_indices"]

/-- The names of the other fields. -/
def knobNames : List String :=
  ["explicit_rank_indices", "max_threads", "thread_divisor", "block_threads",
   "bind_block_threads", "overlap_comms", "use_shm", "numa_pref", "pmem_threshold",
   "min_exterior", "auto_tune_min_secs"]

def fieldNames : List String := vectorNames ++ knobNames

/-- The size vectors, in the order of `vectorNames`. -/
def vectors (s : Settings) : List DimVec :=
  [s.global, s.localDomain, s.region, s.block, s.miniBlock, s.subBlock, s.blockGroup,
   s.miniBlockGroup, s.subBlockGroup, s.numRanks, s.rankIndices]

def toJson (s : Settings) : Json :=
  .record (fieldNames.zip (s.vectors.map DimVec.toJson ++
    [.bool s.explicitRankIndices, .nat s.maxThreads, .nat s.threadDivisor, .nat s.blockThreads,
     .bool s.bindBlockThreads, .bool s.overlapComms, .bool s.useShared, .int s.numaPref,
     .int s.pmemThreshold, .int s.minExterior, .real s.autoTuneMinSecs]))

def ofJson? (v : Json) : Option Settings := do
  match ← v.fields? fieldNames with
  | [g, l, r, b, mb, sb, bg, mbg, sbg, nr, ri, explicit, threads, divisor, blockThreads, bind,
      overlap, useShared, numa, pmem, exterior, secs] =>
    return {
      global := ← DimVec.ofJson? g
      localDomain := ← DimVec.ofJson? l
      region := ← DimVec.ofJson? r
      block := ← DimVec.ofJson? b
      miniBlock := ← DimVec.ofJson? mb
      subBlock := ← DimVec.ofJson? sb
      blockGroup := ← DimVec.ofJson? bg
      miniBlockGroup := ← DimVec.ofJson? mbg
      subBlockGroup := ← DimVec.ofJson? sbg
      numRanks := ← DimVec.ofJson? nr
      rankIndices := ← DimVec.ofJson? ri
      explicitRankIndices := ← explicit.bool?
      maxThreads := ← threads.word?
      threadDivisor := ← divisor.word?
      blockThreads := ← blockThreads.word?
      bindBlockThreads := ← bind.bool?
      overlapComms := ← overlap.bool?
      useShared := ← useShared.bool?
      numaPref := ← numa.int32?
      pmemThreshold := ← pmem.int32?
      minExterior := ← exterior.idx?
      autoTuneMinSecs := ← secs.real? }
  | _ => none

/-- The settings a text stands for. -/
def parse? (s : String) : Option Settings := do ofJson? (← Json.parse? s)

end StencilPlan.Settings
