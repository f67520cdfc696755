import StencilPlan.Stencil.Basic
import StencilPlan.Dim.Codec

/-!
# Stencils as JSON

The halos of a stencil are a map from variables to maps from requirements to sizes. A requirement
becomes a record, and a record cannot be a key, so a stencil has a text only while none of its
variables has a halo (`HaloNeed.key?_toJson`).
-/

namespace StencilPlan

namespace HaloNeed

def fieldNames : List String := ["stage", "left", "step_ofs"]

def toJson (need : HaloNeed) : Json :=
  .record (fieldNames.zip [.str need.stage, .bool need.left, .int need.stepOffset])

def ofJson? (v : Json) : Option HaloNeed := do
  match ← v.fields? fieldNames with
  | [stage, left, stepOffset] =>
    return { stage := ← stage.text?, left := ← left.bool?, stepOffset := ← stepOffset.idx? }
  | _ => none

/-- No requirement can be the key of a field. -/
theorem key?_toJson (need : HaloNeed) : need.toJson.key? = none := rfl

/-- No key of a field is a requirement. -/
theorem ofJson?_text (key : Option String) : ofJson? (.text key) = none := rfl

end HaloNeed

namespace Stencil

def fieldNames : List String :=
  ["name", "dims", "elem_bytes", "fpops_per_point", "vars", "halos"]

/-- The requirements of one variable as a value. -/
def needsJson? (needs : List (HaloNeed × DimVec)) : Option Json :=
  Json.ofEntries? HaloNeed.toJson (fun widths => some widths.toJson) needs

/-- The stencil as a value, if it has one. Variables with requirements stand in the order of their
names. -/
def toJson? (s : Stencil) : Option Json := do
  let halos ← Json.ofEntries? .str needsJson? (s.halos.mergeSort fun a b => a.1 ≤ b.1)
  return .record (fieldNames.zip
    [.str s.name, s.catalog.toJson, .nat s.elementBytes, .nat s.flopsPerPoint,
     .array (s.vars.map .str), halos])

/-- A map with some entries; of a repeated key the last one counts. -/
def collect {κ α : Type} [DecidableEq κ] (es : List (κ × α)) : List (κ × α) :=
  es.foldl (fun m e => putKey e.1 e.2 m) []

/-- The requirements of one variable. -/
def needs? (v : Json) : Option (List (HaloNeed × DimVec)) := do
  return collect (← v.entries? HaloNeed.ofJson? DimVec.ofJson?)

/-- The requirements by variable. -/
def halos? (v : Json) : Option (List (String × List (HaloNeed × DimVec))) := do
  return collect (← v.entries? Json.text? needs?)

/-- The stencil a text stands for. -/
def parse? (text : String) : Option Stencil := do
  match ← (← Json.parse? text).fields? fieldNames with
  | [name, dims, bytes, flops, vars, halos] =>
    return {
      name := ← name.text?
      catalog := ← Catalog.ofJson? dims
      elementBytes := ← bytes.word?
      flopsPerPoint := ← flops.word?
      vars := ← vars.list? Json.text?
      halos := ← halos? halos }
  | _ => none

end Stencil

end StencilPlan
