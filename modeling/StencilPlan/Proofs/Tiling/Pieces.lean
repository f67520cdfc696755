import Mathlib.Algebra.Order.BigOperators.Group.List
import Mathlib.Algebra.Order.Group.Nat
import Mathlib.Data.List.Sections
import StencilPlan.Proofs.Tiling.Covering

/-!
# Cutting into pieces

What a report counts can be laid out: pieces of one size are cut off a length until nothing is
left, and the last of them is as large as what was left by then. A box is cut in each dimension by
itself, so its tiles are all choices of one piece per dimension, and the tiles of an inner level
are cut from the tiles around them, clipped ones included.

An inner tile that is clipped by the one around it may be smaller than its size, but never larger.
So a nested cut has at most as many tiles as if every tile around them were full, and exactly as
many if each of them is.
-/

namespace StencilPlan

/-- The lengths of the pieces of one size that are cut off a length until nothing is left. -/
def pieceExtents (size extent : Int) : List Int :=
  if 0 < size ∧ 0 < extent then min size extent :: pieceExtents size (extent - size) else []
termination_by extent.toNat
decreasing_by omega

section Lengths

variable {size extent : Int}

theorem pieceExtents_of_pos (hs : 0 < size) (he : 0 < extent) :
    pieceExtents size extent = min size extent :: pieceExtents size (extent - size) := by
  rw [pieceExtents, if_pos ⟨hs, he⟩]

theorem pieceExtents_of_nonpos (he : extent ≤ 0) : pieceExtents size extent = [] := by
  rw [pieceExtents, if_neg (by omega)]

/-- No piece is empty, and none is larger than its size. -/
theorem of_mem_pieceExtents {n : Int} (h : n ∈ pieceExtents size extent) :
    0 < n ∧ n ≤ size := by
  fun_induction pieceExtents size extent with
  | case1 extent hpos ih =>
    rcases List.mem_cons.mp h with rfl | h
    · omega
    · exact ih h
  | case2 extent hpos => cases h

/-- As many pieces as it takes to cover the length. -/
theorem length_pieceExtents (hs : 0 < size) (he : 0 < extent) :
    extent ≤ (pieceExtents size extent).length * size ∧
      ((pieceExtents size extent).length - 1) * size < extent := by
  fun_induction pieceExtents size extent with
  | case1 extent hpos ih =>
    rw [List.length_cons, Nat.cast_add, Nat.cast_one, Int.add_sub_cancel, Int.add_mul, Int.one_mul]
    by_cases hrest : 0 < extent - size
    · have h := ih hrest
      rw [Int.sub_mul, Int.one_mul] at h
      omega
    · rw [pieceExtents_of_nonpos (by omega), List.length_nil, Nat.cast_zero]
      omega
  | case2 extent hpos => omega

/-- No other number of pieces covers the length and still does not cover it with one piece less. -/
theorem eq_length_pieceExtents {n : Int} (hs : 0 < size) (he : 0 < extent)
    (henough : extent ≤ n * size) (hneeded : (n - 1) * size < extent) :
    n = (pieceExtents size extent).length := by
  obtain ⟨hcovers, hless⟩ := length_pieceExtents hs he
  generalize ((pieceExtents size extent).length : Int) = k at *
  have hle : n - 1 < k := by
    by_contra h
    have := Int.mul_le_mul_of_nonneg_right (show k ≤ n - 1 by omega) hs.le
    omega
  have hge : k - 1 < n := by
    by_contra h
    have := Int.mul_le_mul_of_nonneg_right (show n ≤ k - 1 by omega) hs.le
    omega
  omega

theorem length_pieceExtents_mono {extent' : Int} (h : extent ≤ extent') :
    (pieceExtents size extent).length ≤ (pieceExtents size extent').length := by
  fun_induction pieceExtents size extent generalizing extent' with
  | case1 extent hpos ih =>
    have hrest : (pieceExtents size (extent - size)).length ≤
        (pieceExtents size (extent' - size)).length := ih (by omega)
    rw [@pieceExtents_of_pos size extent' hpos.1 (by omega)]
    simp only [List.length_cons]
    omega
  | case2 extent hpos => simp

/-- A length that is a multiple is cut into full pieces. -/
theorem pieceExtents_of_dvd (h : size ∣ extent) : ∀ n ∈ pieceExtents size extent, n = size := by
  fun_induction pieceExtents size extent with
  | case1 extent hpos ih =>
    have hle := Int.le_of_dvd hpos.2 h
    rw [List.forall_mem_cons]
    constructor
    · omega
    · exact ih (Int.dvd_sub h (Int.dvd_refl size))
  | case2 extent hpos => simp

/-- All of the length is cut up. -/
theorem sum_pieceExtents (hs : 0 < size) (he : 0 ≤ extent) :
    (pieceExtents size extent).sum = extent := by
  fun_induction pieceExtents size extent with
  | case1 extent hpos ih =>
    rw [List.sum_cons]
    by_cases hrest : 0 ≤ extent - size
    · have h := ih hrest
      omega
    · rw [pieceExtents_of_nonpos (by omega), List.sum_nil]
      omega
  | case2 extent hpos =>
    rw [List.sum_nil]
    omega

example : pieceExtents 64 160 = [64, 64, 32] := by simp [pieceExtents]

/-! ### Groups of pieces -/

/-- The first pieces of a length, and those of what is left after them. -/
theorem pieceExtents_eq_append (hs : 0 < size) (k : Nat) :
    pieceExtents size extent =
      pieceExtents size (min (size * k) extent) ++ pieceExtents size (extent - size * k) := by
  -- The induction is on the number of pieces that go into the first part.
  induction k generalizing extent with
  | zero =>
    rw [Nat.cast_zero, Int.mul_zero, Int.sub_zero, pieceExtents_of_nonpos (min_le_left 0 extent),
      List.nil_append]
  | succ k ih =>
    have hk : 0 ≤ size * k := Int.mul_nonneg hs.le (Int.natCast_nonneg k)
    rw [Nat.cast_add, Nat.cast_one, Int.mul_add, Int.mul_one]
    by_cases he : 0 < extent
    · -- both begin with the same piece, as there is at least one in the first part
      have hrest : min (size * k + size) extent - size = min (size * k) (extent - size) := by
        omega
      have hpiece : min size (min (size * k + size) extent) = min size extent := by
        omega
      rw [pieceExtents_of_pos hs he, @pieceExtents_of_pos size (min _ extent) hs (by omega),
        hrest, hpiece, List.cons_append, ih]
      congr 3
      omega
    · rw [pieceExtents_of_nonpos (by omega), pieceExtents_of_nonpos (by omega),
        pieceExtents_of_nonpos (by omega), List.append_nil]

/-- A length that is cut into groups of whole pieces, and each group into its pieces, comes to the
same pieces as if there were no groups. -/
theorem flatMap_pieceExtents {group : Int} (hs : 0 < size) (hpos : 0 < group) (hg : size ∣ group) :
    (pieceExtents group extent).flatMap (pieceExtents size) = pieceExtents size extent := by
  obtain ⟨k, rfl⟩ := hg
  lift k to Nat using ((mul_pos_iff_of_pos_left hs).mp hpos).le
  fun_induction pieceExtents (size * k) extent with
  | case1 extent _ ih => rw [List.flatMap_cons, ih, ← pieceExtents_eq_append hs k]
  | case2 extent hnone => rw [pieceExtents_of_nonpos (by omega), List.flatMap_nil]

/-- A group of whole pieces is no smaller than a piece, so there are no more groups than pieces. -/
theorem length_pieceExtents_le {group : Int} (hs : 0 < size) (hpos : 0 < group)
    (hg : size ∣ group) :
    (pieceExtents group extent).length ≤ (pieceExtents size extent).length := by
  have hone : ∀ n ∈ pieceExtents group extent, 1 ≤ (pieceExtents size n).length := by
    intro n hn
    rw [pieceExtents_of_pos hs (of_mem_pieceExtents hn).1, List.length_cons]
    omega
  have hsum := List.card_nsmul_le_sum _ _ (List.forall_mem_map.mpr hone)
  rwa [List.length_map, Nat.nsmul_eq_mul, Nat.mul_one, ← List.length_flatMap,
    flatMap_pieceExtents hs hpos hg] at hsum

end Lengths

/-! ### Boxes -/

/-- The tiles of one size that a box is cut into: in each dimension one of the pieces. -/
def boxTiles (sizes box : List Int) : List (List Int) :=
  (List.zipWith pieceExtents sizes box).sections

section Boxes

variable {sizes box : List Int}

theorem length_boxTiles_cons (size extent : Int) :
    (boxTiles (size :: sizes) (extent :: box)).length =
      (pieceExtents size extent).length * (boxTiles sizes box).length := by
  simp [boxTiles, List.sections, List.length_flatMap, Nat.mul_comm]

/-- As many tiles as all choices of pieces. -/
theorem length_boxTiles_map (dims : List String) (size extent : String → Int) :
    (boxTiles (dims.map size) (dims.map extent)).length =
      (dims.map fun dim => (pieceExtents (size dim) (extent dim)).length).prod := by
  induction dims with
  | nil => rfl
  | cons dim dims ih =>
    rw [List.map_cons, List.map_cons, length_boxTiles_cons, ih, List.map_cons, List.prod_cons]

/-- No tile of a box is empty, and none is larger than its size. -/
theorem of_mem_boxTiles (hlen : sizes.length = box.length) {tile : List Int}
    (h : tile ∈ boxTiles sizes box) : (∀ n ∈ tile, 0 < n) ∧ List.Forall₂ (· ≤ ·) tile sizes := by
  rw [boxTiles, List.mem_sections] at h
  -- A tile takes one piece in each dimension.
  induction sizes generalizing box tile with
  | nil =>
    cases h
    simp
  | cons size sizes ih =>
    cases box with
    | nil => cases hlen
    | cons extent box =>
      cases h with
      | cons hn hrest =>
        obtain ⟨hpos, hle⟩ := of_mem_pieceExtents hn
        obtain ⟨hpos', hle'⟩ := ih (Nat.succ.inj hlen) hrest
        constructor
        · exact List.forall_mem_cons.mpr ⟨hpos, hpos'⟩
        · exact .cons hle hle'

/-- A smaller box is not cut into more tiles. -/
theorem length_boxTiles_mono {box' : List Int} (h : List.Forall₂ (· ≤ ·) box box') :
    (boxTiles sizes box).length ≤ (boxTiles sizes box').length := by
  induction h generalizing sizes with
  | nil => exact le_rfl
  | cons hle _ ih =>
    cases sizes with
    | nil => exact le_rfl
    | cons size sizes =>
      rw [length_boxTiles_cons, length_boxTiles_cons]
      exact Nat.mul_le_mul (length_pieceExtents_mono hle) ih

/-- A box that is a multiple in each dimension is cut into full tiles. -/
theorem boxTiles_of_dvd (h : List.Forall₂ (· ∣ ·) sizes box) :
    ∀ tile ∈ boxTiles sizes box, tile = sizes := by
  intro tile htile
  rw [boxTiles, List.mem_sections] at htile
  induction h generalizing tile with
  | nil =>
    cases htile
    rfl
  | cons hdvd _ ih =>
    cases htile with
    | cons hn hrest => rw [pieceExtents_of_dvd hdvd _ hn, ih _ hrest]

end Boxes

/-! ### Tiles inside tiles -/

/-- The tiles of the innermost of some levels, given by their sizes from the outermost one inward.
Each tile is cut as it is, whether full or clipped. -/
def nestedTiles : List (List Int) → List Int → List (List Int)
  | [], box => [box]
  | sizes :: inner, box => (boxTiles sizes box).flatMap (nestedTiles inner)

/-- How many of them there are if each tile is taken for a full one. -/
def nestedCount : List (List Int) → List Int → Nat
  | [], _ => 1
  | sizes :: inner, box => (boxTiles sizes box).length * nestedCount inner sizes

section Nested

variable {levels : List (List Int)} {box parent : List Int}

/-- Clipped tiles are not cut into more tiles than full ones. -/
theorem length_nestedTiles_le (hlen : ∀ sizes ∈ levels, sizes.length = box.length)
    (h : List.Forall₂ (· ≤ ·) box parent) :
    (nestedTiles levels box).length ≤ nestedCount levels parent := by
  -- The box may be clipped while the parent is the full tile it was cut from.
  induction levels generalizing box parent with
  | nil => exact le_rfl
  | cons sizes inner ih =>
    obtain ⟨hsizes, hinner⟩ := List.forall_mem_cons.mp hlen
    have htile : ∀ tile ∈ boxTiles sizes box,
        (nestedTiles inner tile).length ≤ nestedCount inner sizes := by
      intro tile htile
      have hle := (of_mem_boxTiles hsizes htile).2
      apply ih
      · intro t ht
        rw [hinner t ht, ← hsizes, hle.length_eq]
      · exact hle
    calc (nestedTiles (sizes :: inner) box).length
        = ((boxTiles sizes box).map fun tile => (nestedTiles inner tile).length).sum := by
          rw [nestedTiles, List.length_flatMap]
      _ ≤ (boxTiles sizes box).length * nestedCount inner sizes := by
          have hsum := List.sum_le_card_nsmul _ _ (List.forall_mem_map.mpr htile)
          rwa [List.length_map, Nat.nsmul_eq_mul] at hsum
      _ ≤ nestedCount (sizes :: inner) parent :=
          Nat.mul_le_mul_right _ (length_boxTiles_mono h)

/-- Where every level but the innermost one divides the level around it, all of these tiles are
full. -/
theorem length_nestedTiles_eq
    (h : (box :: levels.dropLast).IsChain fun parent child => List.Forall₂ (· ∣ ·) child parent) :
    (nestedTiles levels box).length = nestedCount levels box := by
  induction levels generalizing box with
  | nil => rfl
  | cons sizes inner ih =>
    have htile : ∀ tile ∈ boxTiles sizes box,
        (nestedTiles inner tile).length = nestedCount inner sizes := by
      -- At the innermost level the tiles may be clipped, as they are not cut any more.
      cases inner with
      | nil => exact fun _ _ => rfl
      | cons next inner =>
        rw [List.dropLast_cons_cons, List.isChain_cons_cons] at h
        intro tile htile
        rw [boxTiles_of_dvd h.1 tile htile]
        exact ih h.2
    rw [nestedTiles, List.length_flatMap, List.map_congr_left htile, List.map_const',
      List.sum_replicate_nat, nestedCount]

/-- No tile of any level is empty. -/
theorem pos_of_mem_nestedTiles (hlen : ∀ sizes ∈ levels, sizes.length = box.length)
    (hbox : ∀ n ∈ box, 0 < n) {tile : List Int} (h : tile ∈ nestedTiles levels box) :
    ∀ n ∈ tile, 0 < n := by
  induction levels generalizing box with
  | nil =>
    rw [nestedTiles, List.mem_singleton] at h
    rwa [h]
  | cons sizes inner ih =>
    obtain ⟨hsizes, hinner⟩ := List.forall_mem_cons.mp hlen
    rw [nestedTiles, List.mem_flatMap] at h
    obtain ⟨outer, houter, htile⟩ := h
    obtain ⟨hpos, hle⟩ := of_mem_boxTiles hsizes houter
    apply ih _ hpos htile
    intro t ht
    rw [hinner t ht, ← hsizes, hle.length_eq]

end Nested

/-! ### What a report counts -/

/-- In each of the dimensions the report counts the pieces of one size inside another. -/
structure CutReport.Counts (r : CutReport) (dims : List String) (parent child : DimVec) :
    Prop where
  dims : r.cuts.map (·.dim) = dims
  pieces : ∀ d ∈ r.cuts,
    d.pieces = (pieceExtents (child.getD d.dim 0) (parent.getD d.dim 0)).length
  whole : ∀ d ∈ r.cuts, d.remainder = 0 → child.getD d.dim 0 ∣ parent.getD d.dim 0
  total : r.total = (r.cuts.map (·.pieces)).prod

/-- The children that cover a parent are its pieces. -/
theorem DimCut.Covers.pieces_eq {d : DimCut} {asked mult : Int} (h : d.Covers asked mult)
    (hpos : 0 < d.parentExtent) :
    d.pieces = (pieceExtents d.childExtent d.parentExtent).length :=
  eq_length_pieceExtents h.least.1.1 hpos h.enough h.needed

/-- Without a remainder the parent is a multiple of the child. -/
theorem DimCut.Covers.dvd {d : DimCut} {asked mult : Int} (h : d.Covers asked mult)
    (hzero : d.remainder = 0) : d.childExtent ∣ d.parentExtent := by
  have hdivided := h.divided
  rw [hzero, Int.add_zero] at hdivided
  exact ⟨d.wholePieces, by rw [← hdivided, Int.mul_comm]⟩

theorem counts_of_cutInto {parent child mults t : DimVec} {stepDim label label' : String}
    {report : CutReport} (hchild : child.names.Nodup)
    (hparent : ∀ dim ∈ child.names, dim ≠ stepDim → 0 < parent.getD dim 0)
    (h : cutInto parent label child label' mults stepDim = .ok (t, report)) :
    report.Counts (child.names.filter (· ≠ stepDim)) parent t := by
  simp only [cutInto, bind_eq_ok, pure_eq_ok] at h
  obtain ⟨⟨es, ds, total⟩, hentries, heq⟩ := h
  obtain ⟨rfl, rfl⟩ := Prod.mk.inj heq
  obtain ⟨hcut, htotal⟩ := (gives_cutFrom 1).of_ok hentries
  dsimp only at hcut htotal
  -- what a dimension comes to is said of the extents that stand in the report
  have hsettled : ∀ d ∈ ds, d.parentExtent = parent.getD d.dim 0 ∧
      d.childExtent = (⟨es⟩ : DimVec).getD d.dim 0 ∧ 0 < d.parentExtent ∧
        ∃ asked mult, d.Covers asked mult := by
    intro d hd
    obtain ⟨hmem, asked, -, hsettles⟩ := hcut.settles d hd
    have hdim : d.dim ∈ (child.entries.map (·.1)).filter (· ≠ stepDim) :=
      hcut.dims ▸ List.mem_map_of_mem hd
    obtain ⟨hdim, hne⟩ := List.mem_filter.mp hdim
    have hpos := hparent d.dim hdim (by simpa using hne)
    have hes : (⟨es⟩ : DimVec).names.Nodup := by
      rw [DimVec.names, hcut.names]
      exact hchild
    exact ⟨hsettles.parentExtent, (DimVec.getD_of_mem_entries hes hmem).symm,
      hsettles.parentExtent ▸ hpos, _, _, hsettles.covers hpos⟩
  constructor
  case dims => exact hcut.dims
  case pieces =>
    intro d hd
    obtain ⟨hp, hn, hpos, _, _, hcovers⟩ := hsettled d hd
    rw [← hp, ← hn]
    exact hcovers.pieces_eq hpos
  case whole =>
    intro d hd hzero
    obtain ⟨hp, hn, -, _, _, hcovers⟩ := hsettled d hd
    rw [← hp, ← hn]
    exact hcovers.dvd hzero
  case total => rw [htotal, Int.one_mul]

namespace CutReport.Counts

variable {r : CutReport} {dims : List String} {parent child : DimVec}

/-- A report has a part on each of its dimensions. -/
theorem exists_dim? (h : r.Counts dims parent child) {dim : String} (hdim : dim ∈ dims) :
    ∃ d, r.dim? dim = some d ∧
      d.pieces = (pieceExtents (child.getD dim 0) (parent.getD dim 0)).length := by
  rw [← h.dims] at hdim
  obtain ⟨e, he, rfl⟩ := List.mem_map.mp hdim
  obtain ⟨d, hd⟩ := Option.isSome_iff_exists.mp
    (List.find?_isSome.mpr ⟨e, he, decide_eq_true rfl⟩ : (r.dim? e.dim).isSome)
  have hname : d.dim = e.dim := by simpa using List.find?_some hd
  have hpieces := h.pieces d (List.mem_of_find?_eq_some hd)
  rw [hname] at hpieces
  exact ⟨d, hd, hpieces⟩

/-- The total counts the tiles of a box. -/
theorem total_eq (h : r.Counts dims parent child) :
    r.total = (boxTiles (dims.map (child.getD · 0)) (dims.map (parent.getD · 0))).length := by
  rw [h.total, List.map_congr_left h.pieces, length_boxTiles_map, ← h.dims, List.map_map]
  induction r.cuts with
  | nil => rfl
  | cons d ds ih => simp [ih]

end CutReport.Counts

end StencilPlan
