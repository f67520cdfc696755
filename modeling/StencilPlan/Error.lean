import StencilPlan.Dim.Kind
import StencilPlan.Tiling.Level

/-!
# Why a computation stops

Two kinds of failure exist. A `PlanError` is a mistake in what the caller asked for and is
reported as such; its wording is in one place, `PlanError.message`. A `Fault` is a computation
that has no answer at all: a number outside its 64-bit range, a position outside a tuple, or a
consistency check that did not hold. `Failure` is either of them.
-/

namespace StencilPlan

/-- What is wrong with a declaration of dimensions, sizes or shapes. -/
inductive DimsFlaw where
  /-- The step dimension has the empty name. -/
  | emptyStepName
  /-- No domain dimension was declared. -/
  | noDomainDims
  /-- A dimension name is empty or was declared before. -/
  | unusableName (name : String)
  /-- A fold or cluster shape (`shape`) has the wrong number of values. -/
  | shapeLength (shape : String) (given expected : Nat)
  /-- A fold or cluster shape holds a value below one. -/
  | shapeValue (shape : String) (value : Int)
  /-- A rank grid without dimensions. -/
  | emptyGrid
  /-- A variable has an extent below one. -/
  | extentNotPositive (var dim : String) (size : Int)
  /-- A variable is folded by a value below one. -/
  | foldNotPositive (var dim : String) (fold : Int)
  /-- The structure `what` fails one of its consistency checks. -/
  | inconsistent (what detail : String)
  deriving DecidableEq, Repr

/-- The wording of a flaw. -/
def DimsFlaw.message : DimsFlaw → String
  | emptyStepName => "step dimension name is empty"
  | noDomainDims => "at least one domain dimension is required"
  | unusableName name => s!"dimension name '{name}' is empty or declared twice"
  | shapeLength shape given expected =>
    s!"{shape} shape has {given} values for {expected} domain dimensions"
  | shapeValue shape value => s!"{shape} shape value {value} is not positive"
  | emptyGrid => "rank grid has no dimensions"
  | extentNotPositive var dim size =>
    s!"size {size} in '{dim}' dimension of var '{var}' is not positive"
  | foldNotPositive var dim fold =>
    s!"fold value {fold} in '{dim}' dimension of var '{var}' is not positive"
  | inconsistent what detail => s!"{what}: {detail}"

/-- What is wrong with the constants of a stencil. -/
inductive StencilFlaw where
  /-- Elements of this many bytes are not supported. -/
  | elementWidth (bytes : Nat)
  /-- A halo was given with the wrong number of sizes. -/
  | haloLength (var : String) (given expected : Nat)
  /-- A halo size is below zero. -/
  | negativeHalo (var : String) (size : Int)
  deriving DecidableEq, Repr

/-- The wording of a flaw in a stencil. -/
def StencilFlaw.message : StencilFlaw → String
  | elementWidth bytes => s!"element width of {bytes} bytes; this build uses 8-byte reals"
  | haloLength var given expected =>
    s!"halo of var '{var}' has {given} sizes for {expected} domain dimensions"
  | negativeHalo var size => s!"negative halo size {size} for var '{var}'"

/-- Why storage could not be had. -/
inductive AllocFlaw where
  /-- The request is above what the allocator may hand out. -/
  | overLimit (limit : Nat)
  /-- No array of this size can exist. -/
  | overCapacity
  /-- A buffer is to be placed in a pool that was never allocated. -/
  | poolMissing (pool : String)
  deriving DecidableEq, Repr

/-- The wording of an allocation failure. -/
def AllocFlaw.message : AllocFlaw → String
  | overLimit limit => s!"request exceeds limit of {limit} bytes"
  | overCapacity =>
    "memory allocation failed because the computed capacity exceeded the collection's maximum"
  | poolMissing pool => s!"{pool} pool missing"

/-- Why two ranks could not communicate. -/
inductive CommFlaw where
  /-- The message tag for this variable does not fit into 16 bits. -/
  | tagRange (varIndex : Nat)
  /-- A message for `buffer` has the wrong length. -/
  | payloadLength (received : Nat) (buffer : String) (expected : Nat)
  /-- A reason given by the caller. -/
  | other (reason : String)
  deriving DecidableEq, Repr

/-- The wording of a communication failure. -/
def CommFlaw.message : CommFlaw → String
  | tagRange varIndex => s!"message tag for var #{varIndex} exceeds the tag range"
  | payloadLength received buffer expected =>
    s!"received {received} bytes for '{buffer}', expected {expected}"
  | other reason => reason

/-- A mistake in what the caller asked for. -/
inductive PlanError where
  /-- A dimension of the wrong kind was passed to `func`. -/
  | wrongDimKind (func dim : String) (kind : DimKind)
  /-- A dimension name that the catalog or a tuple does not know. -/
  | unknownDim (func dim : String)
  /-- A malformed declaration of dimensions. -/
  | invalidDims (flaw : DimsFlaw)
  /-- An option name that is not recognised. -/
  | unknownOption (name : String)
  /-- A recognised option with a value that cannot be read. -/
  | invalidOptionValue (name value : String)
  /-- `func` needs a prepared solution. -/
  | notPrepared (func : String)
  /-- A tile level has no positive size. -/
  | unresolvedSize (level : Level) (dim : String) (size : Int)
  /-- A size is not a multiple of the cluster shape. -/
  | notMultiple (level : Level) (dim : String) (size mult : Int)
  /-- A tile level is larger than the level that contains it. -/
  | nestingViolation (outer inner : Level) (dim : String) (outerSize innerSize : Int)
  /-- A rank index outside the rank grid. -/
  | invalidRankIndex (dim : String) (index count : Int)
  /-- A number of ranks that is not positive. -/
  | invalidRankCount (dim : String) (count : Int)
  /-- The rank grid holds another number of ranks than there are. -/
  | rankCountMismatch (grid : Int) (ranks : Nat)
  /-- Explicit rank indices that belong to another rank. -/
  | rankIndexMismatch (indices : String) (expected found : Nat)
  /-- Neither a global nor a local domain size was given. -/
  | domainSizeMissing (dim : String)
  /-- A thread-count setter was called at the wrong nesting level. -/
  | threadNesting (setter : String) (expected found : Nat)
  /-- A pool of threads could not be built. -/
  | threadPool (reason : String)
  /-- Storage could not be allocated. -/
  | allocation (bytes : Nat) (policy : String) (flaw : AllocFlaw)
  /-- The shared segment of a neighbor could not be used. -/
  | sharedAttach (owner : Nat) (var reason : String)
  /-- Communication with a neighbor failed. -/
  | communication (neighbor : Nat) (flaw : CommFlaw)
  /-- An access outside a buffer or of the wrong length. -/
  | bufferSize (name : String) (length requested : Nat)
  /-- Stencil constants that cannot be used. -/
  | invalidStencil (flaw : StencilFlaw)
  deriving DecidableEq, Repr

/-- The name of the kind of an error. -/
def PlanError.name : PlanError → String
  | wrongDimKind .. => "WrongDimKind"
  | unknownDim .. => "UnknownDim"
  | invalidDims .. => "InvalidDims"
  | unknownOption .. => "UnknownOption"
  | invalidOptionValue .. => "InvalidOptionValue"
  | notPrepared .. => "NotPrepared"
  | unresolvedSize .. => "UnresolvedSize"
  | notMultiple .. => "NotMultiple"
  | nestingViolation .. => "NestingViolation"
  | invalidRankIndex .. => "InvalidRankIndex"
  | invalidRankCount .. => "InvalidRankCount"
  | rankCountMismatch .. => "RankCountMismatch"
  | rankIndexMismatch .. => "RankIndexMismatch"
  | domainSizeMissing .. => "DomainSizeMissing"
  | threadNesting .. => "ThreadNesting"
  | threadPool .. => "ThreadPool"
  | allocation .. => "Alloc"
  | sharedAttach .. => "ShmAttach"
  | communication .. => "CommError"
  | bufferSize .. => "BufferSize"
  | invalidStencil .. => "InvalidStencil"

/-- The text of an error. -/
def PlanError.message : PlanError → String
  | wrongDimKind func dim kind =>
    s!"Error in {func}(): dimension '{dim}' is {kind.describe}, which is not allowed"
  | unknownDim func dim => s!"Error in {func}(): unknown dimension '{dim}'"
  | invalidDims flaw => s!"Invalid dimension declaration: {flaw.message}"
  | unknownOption name => s!"Unknown settings option '{name}'"
  | invalidOptionValue name value => s!"Invalid value '{value}' for settings option '{name}'"
  | notPrepared func => s!"Error: '{func}()' called before calling 'prepare_solution()'"
  | unresolvedSize level dim size =>
    s!"Unresolved {level.name} size in '{dim}' dimension (value {size})"
  | notMultiple level dim size mult =>
    s!"{level.name} size {size} in '{dim}' dimension is not a multiple of the cluster size {mult}"
  | nestingViolation outer inner dim outerSize innerSize =>
    s!"{inner.name} size {innerSize} exceeds {outer.name} size {outerSize} in '{dim}' dimension"
  | invalidRankIndex dim index count =>
    s!"Rank index {index} in '{dim}' dimension is outside [0, {count})"
  | invalidRankCount dim count =>
    s!"Number of ranks in '{dim}' dimension must be positive, got {count}"
  | rankCountMismatch grid ranks =>
    s!"Rank grid holds {grid} ranks but the communicator has {ranks}"
  | rankIndexMismatch indices expected found =>
    s!"Rank indices {indices} linearise to rank {found}, but this is rank {expected}"
  | domainSizeMissing dim =>
    s!"Domain size in '{dim}' dimension is not set (global and local sizes are both 0)"
  | threadNesting setter expected found =>
    s!"{setter}() called at nesting level {found}, expected level {expected}"
  | threadPool reason => s!"Failed to configure thread pool: {reason}"
  | allocation bytes policy flaw =>
    s!"Failed to allocate {bytes} bytes with policy {policy}: {flaw.message}"
  | sharedAttach owner var reason =>
    s!"Failed to attach shared-memory halo buffer from rank {owner} for var '{var}': {reason}"
  | communication neighbor flaw => s!"Communication error with rank {neighbor}: {flaw.message}"
  | bufferSize name length requested =>
    s!"Halo buffer '{name}' holds {length} elements, access of {requested}"
  | invalidStencil flaw => s!"Invalid stencil constants: {flaw.message}"

/-- A computation that has no answer. -/
inductive Fault where
  /-- A number left its 64-bit range, or something was divided by zero. -/
  | arithmetic
  /-- Position `index` of a tuple with `length` entries. -/
  | position (length index : Nat)
  /-- More bytes than any array can have. -/
  | capacity
  /-- A number of seconds that no duration can hold. -/
  | duration
  /-- A wait for another rank that can never end. -/
  | stalled
  /-- A call that is never legal where it was made. -/
  | misuse (error : PlanError)
  /-- The structure `what` failed its own consistency check. -/
  | broken (what : String) (error : PlanError)
  deriving DecidableEq, Repr

/-- The text of a fault. -/
def Fault.message : Fault → String
  | arithmetic => "arithmetic overflow or division by zero"
  | position length index =>
    s!"index out of bounds: the len is {length} but the index is {index}"
  | capacity => "capacity overflow"
  | duration =>
    "cannot convert float seconds to Duration: value is either too big or NaN"
  | stalled => "waiting for another rank that does not come"
  | misuse error => error.message
  | broken what error => s!"[invariants] {what}: {error.message}"

/-- Either kind of failure. -/
inductive Failure where
  | tiling (error : PlanError)
  | fault (fault : Fault)
  deriving DecidableEq, Repr

/-- Whether a failure is a fault. -/
def Failure.isFault : Failure → Bool
  | tiling _ => false
  | fault _ => true

/-- A computation that may fault but never finds a mistake of the caller. -/
abbrev Checked (α : Type) := Except Fault α

/-- A computation that may stop for either reason. -/
abbrev Outcome (α : Type) := Except Failure α

instance : MonadLift (Except Fault) (Except Failure) where
  monadLift
    | .ok a => .ok a
    | .error f => .error (.fault f)

instance : MonadLift (Except PlanError) (Except Failure) where
  monadLift
    | .ok a => .ok a
    | .error e => .error (.tiling e)

/-- Passes when `holds`; otherwise names the broken rule of `what`. -/
def ensure (holds : Bool) (what detail : String) : Except PlanError Unit :=
  if holds then .ok () else .error (.invalidDims (.inconsistent what detail))

end StencilPlan
