/-!
# Kinds of dimension

A stencil runs over one step dimension, one or more domain dimensions and any number of
misc dimensions. The kind of a dimension decides which sizes may be given for it.
-/

namespace StencilPlan

/-- The three disjoint kinds of dimension. -/
inductive DimKind where
  /-- The dimension the stencil steps along, usually time. -/
  | step
  /-- A spatial dimension of the domain. -/
  | domain
  /-- Any other dimension a variable may have. -/
  | misc
  deriving DecidableEq, Repr

/-- The name of a kind. -/
def DimKind.name : DimKind → String
  | .step => "Step"
  | .domain => "Domain"
  | .misc => "Misc"

/-- How a kind is named inside a message. -/
def DimKind.describe : DimKind → String
  | .step => "the step dimension"
  | .domain => "a domain dimension"
  | .misc => "a misc dimension"

end StencilPlan
