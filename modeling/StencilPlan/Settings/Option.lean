import StencilPlan.Settings.Basic
import StencilPlan.Journal
import StencilPlan.Text.Numeral

/-!
# Options

Settings can be given as a name and a value, both texts. Ten names stand for single knobs. Every
other name is the letters of a size vector followed by a dimension, or by nothing to set all
domain dimensions: `bx`, `mbgz`, `g`. Of several ways to take a name apart the one with the
longest letters wins.
-/

namespace StencilPlan

/-- A size vector that options can set. -/
inductive SizeTarget where
  | global
  | numRanks
  | rankIndex
  | level (l : Level)
  /-- Another name of the local domain. -/
  | localAlias
  deriving DecidableEq, Repr

namespace SizeTarget

/-- The letters that name the vector. -/
def letters : SizeTarget → String
  | global => "g"
  | numRanks => "nr"
  | rankIndex => "ri"
  | level l => l.letters
  | localAlias => "d"

/-- All vectors, those with more letters first. -/
def byLength : List SizeTarget :=
  [.level .miniBlockGroup, .level .subBlockGroup, .level .blockGroup, .level .miniBlock,
   .level .subBlock, .numRanks, .rankIndex, .global, .level .localDomain, .localAlias,
   .level .region, .level .block]

/-- What is left of a name after the letters of this vector, if it starts with them. -/
def rest? (t : SizeTarget) (name : String) : Option String :=
  if t.letters.toList.isPrefixOf name.toList then
    some (String.ofList (name.toList.drop t.letters.toList.length))
  else none

/-- The vector and the dimension that a name stands for; no dimension stands for all. -/
def ofName? (c : Catalog) (name : String) : Option (SizeTarget × String) :=
  byLength.findSome? fun t =>
    (t.rest? name).bind fun dim =>
      if dim.isEmpty ∨ (c.kind? dim).isSome then some (t, dim) else none

/-- Every target is in the list. -/
theorem mem_byLength (t : SizeTarget) : t ∈ byLength := by
  cases t with
  | level l => cases l <;> decide
  | _ => decide

end SizeTarget

namespace Settings

/-- The vector that an option sets. -/
def target (s : Settings) : SizeTarget → DimVec
  | .global => s.global
  | .numRanks => s.numRanks
  | .rankIndex => s.rankIndices
  | .level l => s.sizes l
  | .localAlias => s.localDomain

/-- The settings with another vector for an option. -/
def withTarget (s : Settings) (target : SizeTarget) (t : DimVec) : Settings :=
  match target with
  | .global => { s with global := t }
  | .numRanks => { s with numRanks := t }
  | .rankIndex => { s with rankIndices := t }
  | .level l => s.withSizes l t
  | .localAlias => { s with localDomain := t }

/-- Sets one dimension of a vector, or all domain dimensions. Once a rank index is asked for the
indices count as explicit, even if the dimension is then refused. -/
def applySize (c : Catalog) (target : SizeTarget) (dim : String) (v : Int) :
    Task Settings Unit := do
  let func := "-" ++ target.letters
  match target with
  | .rankIndex => modify fun s => { s with explicitRankIndices := true }
  | .level l =>
    if ¬ dim.isEmpty then
      let _ ← c.check dim func (.tile l.spansSteps)
  | _ => pure ()
  let t := (← get).target target
  if dim.isEmpty then
    let t' := c.domain.names.foldl (fun t d => t.set d v) t
    modify (·.withTarget target t')
  else
    let _ ← c.check dim func (.tile (t.contains c.stepDim))
    modify (·.withTarget target (t.set dim v))

/-- The value of an option, or the error for a value that cannot be read. -/
def readValue {α : Type} (name value : String) (read? : String → Option α) : Task Settings α :=
  match read? value with
  | some v => pure v
  | none => .reject (.invalidOptionValue name value)

/-- Sets a size. A name that stands for no vector is the error even if the value is bad too. -/
def setSizeOption (c : Catalog) (name value : String) : Task Settings Unit :=
  match SizeTarget.ofName? c name with
  | none => .reject (.unknownOption name)
  | some (target, dim) => do
    let v ← readValue name value Text.idx?
    applySize c target dim v

/-- Applies one option. -/
def setOption (c : Catalog) (name value : String) : Task Settings Unit := do
  Task.note .trace s!"apply_option({name}, {value})"
  match name with
  | "max_threads" => do
    let n ← readValue name value Text.word?
    modify fun s => { s with maxThreads := n }
  | "thread_divisor" => do
    let n ← readValue name value Text.word?
    modify fun s => { s with threadDivisor := n }
  | "block_threads" => do
    let n ← readValue name value Text.word?
    modify fun s => { s with blockThreads := n }
  | "bind_block_threads" => do
    let b ← readValue name value Text.bool?
    modify fun s => { s with bindBlockThreads := b }
  | "overlap_comms" => do
    let b ← readValue name value Text.bool?
    modify fun s => { s with overlapComms := b }
  | "use_shm" => do
    let b ← readValue name value Text.bool?
    modify fun s => { s with useShared := b }
  | "numa_pref" => do
    let n ← readValue name value Text.int32?
    modify fun s => { s with numaPref := n }
  | "pmem_threshold" => do
    let n ← readValue name value Text.int32?
    modify fun s => { s with pmemThreshold := n }
  | "min_exterior" => do
    let n ← readValue name value Text.idx?
    modify fun s => { s with minExterior := n }
  | "auto_tune_min_secs" => do
    let x ← readValue name value Text.real?
    modify fun s => { s with autoTuneMinSecs := x }
  | _ => setSizeOption c name value

end Settings

end StencilPlan
