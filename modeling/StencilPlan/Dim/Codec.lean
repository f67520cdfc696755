import StencilPlan.Dim.Catalog
import StencilPlan.Json.Codec

/-!
# Dimension vectors and catalogs as JSON

Field names and their order are part of the format. Whoever reads a vector gets its entries as
they stand, repeated names included, and a catalog is not checked for consistency.
-/

namespace StencilPlan

namespace DimVec

def toJson (t : DimVec) : Json :=
  .record [("dims", .array (t.entries.map fun e => .array [.str e.1, .int e.2]))]

/-- One entry: an array of a name and a value. -/
def entryOfJson? : Json → Option (String × Int)
  | .array [n, v] => do return (← n.text?, ← v.idx?)
  | _ => none

def ofJson? (v : Json) : Option DimVec := do
  match ← v.fields? ["dims"] with
  | [es] => return ⟨← es.list? entryOfJson?⟩
  | _ => none

/-- The vector a text stands for. -/
def parse? (s : String) : Option DimVec := do ofJson? (← Json.parse? s)

end DimVec

namespace Catalog

def fieldNames : List String :=
  ["step_dim", "domain_dims", "stencil_dims", "misc_dims", "inner_dim", "outer_dim", "fold_pts",
   "cluster_mults", "cluster_pts"]

def toJson (c : Catalog) : Json :=
  .record (fieldNames.zip
    [.str c.stepDim, c.domain.toJson, c.stencil.toJson, c.misc.toJson, .str c.innerDim,
     .str c.outerDim, c.fold.toJson, c.clusterFolds.toJson, c.cluster.toJson])

def ofJson? (v : Json) : Option Catalog := do
  match ← v.fields? fieldNames with
  | [step, domain, stencil, misc, inner, outer, fold, mults, cluster] =>
    return {
      stepDim := ← step.text?
      domain := ← DimVec.ofJson? domain
      stencil := ← DimVec.ofJson? stencil
      misc := ← DimVec.ofJson? misc
      innerDim := ← inner.text?
      outerDim := ← outer.text?
      fold := ← DimVec.ofJson? fold
      clusterFolds := ← DimVec.ofJson? mults
      cluster := ← DimVec.ofJson? cluster }
  | _ => none

/-- The catalog a text stands for. -/
def parse? (s : String) : Option Catalog := do ofJson? (← Json.parse? s)

end Catalog

end StencilPlan
