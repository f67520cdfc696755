/-!
# Tiling levels

The domain of a rank is cut into regions, regions into blocks, blocks into mini-blocks and
mini-blocks into sub-blocks. Three further levels group tiles for the order in which they are
traversed; they do not cut anything.
-/

namespace StencilPlan

/-- The sized levels of the tiling hierarchy, largest first, then the group levels. -/
inductive Level where
  | localDomain
  | region
  | block
  | miniBlock
  | subBlock
  | blockGroup
  | miniBlockGroup
  | subBlockGroup
  deriving DecidableEq, Repr

namespace Level

/-- The levels that must nest, outer to inner. -/
def nested : List Level := [.localDomain, .region, .block, .miniBlock, .subBlock]

/-- Every level: the nested ones, then the groups. -/
def all : List Level := nested ++ [.blockGroup, .miniBlockGroup, .subBlockGroup]

/-- The name of a level in messages and reports. -/
def name : Level → String
  | localDomain => "local-domain"
  | region => "region"
  | block => "block"
  | miniBlock => "mini-block"
  | subBlock => "sub-block"
  | blockGroup => "block-group"
  | miniBlockGroup => "mini-block-group"
  | subBlockGroup => "sub-block-group"

/-- The letters that an option name for this level starts with, as in `mbx`. -/
def letters : Level → String
  | localDomain => "l"
  | region => "r"
  | block => "b"
  | miniBlock => "mb"
  | subBlock => "sb"
  | blockGroup => "bg"
  | miniBlockGroup => "mbg"
  | subBlockGroup => "sbg"

/-- Only regions, blocks and mini-blocks may span several steps. -/
def spansSteps : Level → Bool
  | region | block | miniBlock => true
  | _ => false

theorem mem_all (l : Level) : l ∈ all := by
  cases l <;> decide

/-- Different levels have different option letters. -/
theorem letters_injective {l m : Level} (h : l.letters = m.letters) : l = m := by
  cases l <;> cases m <;> first | rfl | exact absurd h (by decide)

end Level

end StencilPlan
