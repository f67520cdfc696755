import StencilPlan.Settings.Basic

/-!
# The parts of the settings

The sizes of tiles, from regions down to groups of sub-blocks, are one part of the settings. It is
all that a resolution changes and all that a candidate can touch. The overall domain, the local
domain, the rank grid and the place in it are another part: it is what placing a rank changes.
-/

namespace StencilPlan.Settings

variable {s t u : Settings}

/-- The settings with the sizes of tiles of other ones. -/
def withTilesOf (s t : Settings) : Settings :=
  { s with
    region := t.region
    block := t.block
    miniBlock := t.miniBlock
    subBlock := t.subBlock
    blockGroup := t.blockGroup
    miniBlockGroup := t.miniBlockGroup
    subBlockGroup := t.subBlockGroup }

/-- The settings with the domain, the rank grid and the place in it of other ones. -/
def withPlaceOf (s t : Settings) : Settings :=
  { s with
    global := t.global
    localDomain := t.localDomain
    numRanks := t.numRanks
    rankIndices := t.rankIndices }

/-- Settings that differ in the sizes of tiles at most. -/
def SameButTiles (s t : Settings) : Prop := s.withTilesOf t = t

namespace SameButTiles

theorem refl (s : Settings) : SameButTiles s s := rfl

theorem symm (h : SameButTiles s t) : SameButTiles t s := by
  rw [SameButTiles, ← h]
  rfl

theorem trans (h : SameButTiles s t) (h' : SameButTiles t u) : SameButTiles s u := by
  rw [SameButTiles, ← h', ← h]
  rfl

theorem withPlaceOf (h : SameButTiles s t) (u : Settings) :
    SameButTiles (s.withPlaceOf u) (t.withPlaceOf u) := by
  rw [← h]
  rfl

/-- What the tiles have no part in is the same in both. -/
theorem proj {α : Type} (h : SameButTiles s t) {f : Settings → α}
    (hf : ∀ u v, f (u.withTilesOf v) = f u) : f t = f s := by
  rw [← h, hf]

/-- The place of settings that agree in everything else is the same. -/
theorem withPlaceOf_eq (h : SameButTiles s t) (u : Settings) :
    u.withPlaceOf t = u.withPlaceOf s := by
  rw [← h]
  rfl

end SameButTiles

theorem sameButTiles_withSizes {l : Level} (hl : l ≠ .localDomain) (sizes : DimVec) :
    SameButTiles s (s.withSizes l sizes) := by
  cases l <;> first | rfl | exact absurd rfl hl

end StencilPlan.Settings
