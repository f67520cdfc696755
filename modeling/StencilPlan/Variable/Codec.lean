import StencilPlan.Variable.Shape
import StencilPlan.Dim.Codec

/-!
# Shapes of variables as JSON

A layout is its name, with the fold beside it where there is one. A shape that is read is not
checked for consistency.
-/

namespace StencilPlan

namespace StorageOrder

def toJson : StorageOrder → Json
  | .scalar => .str "Scalar"
  | .folded fold => .record [("Folded", .record [("fold", fold.toJson)])]
  | .traditional => .str "Traditional"

/-- A layout without a fold may also stand as a field with nothing in it. -/
def ofJson? : Json → Option StorageOrder
  | .text (some "Scalar") => some .scalar
  | .text (some "Traditional") => some .traditional
  | .object [(some "Scalar", .null)] => some .scalar
  | .object [(some "Traditional", .null)] => some .traditional
  | .object [(some "Folded", v)] => do
    match ← v.fields? ["fold"] with
    | [fold] => return .folded (← DimVec.ofJson? fold)
    | _ => none
  | _ => none

end StorageOrder

namespace Variable

def fieldNames : List String := ["name", "dims", "layout", "vec_sizes", "fold_full"]

def toJson (s : Variable) : Json :=
  .record (fieldNames.zip
    [.str s.name, s.dims.toJson, s.layout.toJson, s.folds.toJson, s.foldPoints.toJson])

/-- The shape a text stands for. -/
def parse? (text : String) : Option Variable := do
  match ← (← Json.parse? text).fields? fieldNames with
  | [name, dims, layout, folds, points] =>
    return {
      name := ← name.text?
      dims := ← DimVec.ofJson? dims
      layout := ← StorageOrder.ofJson? layout
      folds := ← DimVec.ofJson? folds
      foldPoints := ← DimVec.ofJson? points }
  | _ => none

end Variable

end StencilPlan
