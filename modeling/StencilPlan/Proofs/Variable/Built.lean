import StencilPlan.Proofs.Variable.Folding
import StencilPlan.Variable.Shape

/-!
# Shapes that are built

Whatever the storage order, a shape that is built consists of folds that cover its extents
(`Variable.Covers`): in a plain order the folds are single points. In a folded order the points of a
fold are those asked for, and one in each dimension that is not folded.
-/

namespace StencilPlan

/-- Setting a value exchanges it for the old one in the product. -/
theorem DimVec.prod_values_set {t : DimVec} {dim : String} {w : Int} (v : Int)
    (h : t.get? dim = some w) : (t.set dim v).values.prod * w = t.values.prod * v := by
  obtain ⟨es⟩ := t
  simp only [DimVec.set, DimVec.get?, DimVec.values] at h ⊢
  induction es with
  | nil => simp at h
  | cons e es ih =>
    obtain ⟨k, x⟩ := e
    rw [DimVec.lookup_cons_eq] at h
    rw [DimVec.replaceFirst]
    -- Only the first entry of the dimension is set, which is the one that is found.
    by_cases hk : dim = k
    · rw [if_pos hk] at h
      obtain rfl := Option.some.inj h
      rw [if_pos hk.symm, List.map_cons, List.map_cons, List.prod_cons, List.prod_cons]
      simp only [Int.mul_comm, Int.mul_left_comm]
    · rw [if_neg hk] at h
      rw [if_neg (Ne.symm hk), List.map_cons, List.map_cons, List.prod_cons, List.prod_cons,
        Int.mul_assoc, ih h, Int.mul_assoc]

namespace Variable

variable {name : String} {dims fold points : DimVec} {s : Variable}

/-! ### The parts of a shape -/

theorem checkExtents_eq_ok :
    checkExtents name dims = .ok () ↔ ∀ n ∈ dims.values, 1 ≤ n := by
  have hfind : dims.entries.find? (·.2 < 1) = none ↔ ∀ n ∈ dims.values, 1 ≤ n := by
    simp only [DimVec.values, List.find?_eq_none, List.forall_mem_map, decide_eq_true_eq,
      Int.not_lt]
  unfold checkExtents
  split
  · next d v hsome =>
    rw [← hfind, hsome]
    simp
  · next hnone => simp [← hfind, hnone]

theorem foldExtents_cons_eq_ok {dim : String} {v : Int} {es : List (String × Int)} {r : DimVec} :
    foldExtents name points ((dim, v) :: es) = .ok r ↔
      1 ≤ v ∧ dim ∈ points.names ∧ foldExtents name (points.set dim v) es = .ok r := by
  rw [foldExtents]
  split
  · next hv => simp [show ¬ 1 ≤ v by omega]
  · next hv =>
    split
    · next hc => simp [DimVec.contains_iff.mp hc, show 1 ≤ v by omega]
    · next hc => simp [mt DimVec.contains_iff.mpr hc]

variable {es : List (String × Int)} {r : DimVec}

theorem names_foldExtents (h : foldExtents name points es = .ok r) : r.names = points.names := by
  induction es generalizing points with
  | nil =>
    obtain rfl := Except.ok.inj h
    rfl
  | cons e es ih => rw [ih (foldExtents_cons_eq_ok.mp h).2.2, DimVec.names_set]

/-- The points of a fold are positive. -/
theorem one_le_foldExtents (hpoints : ∀ n ∈ points.values, 1 ≤ n)
    (h : foldExtents name points es = .ok r) : ∀ n ∈ r.values, 1 ≤ n := by
  induction es generalizing points with
  | nil =>
    obtain rfl := Except.ok.inj h
    exact hpoints
  | cons e es ih =>
    obtain ⟨hv, -, h⟩ := foldExtents_cons_eq_ok.mp h
    refine ih (fun n hn => ?_) h
    rcases DimVec.mem_values_set hn with rfl | hn
    · exact hv
    · exact hpoints n hn

/-- A fold that names no dimension twice has its values in the dimensions it names. -/
theorem getD_foldExtents (hd : (es.map (·.1)).Nodup) (h : foldExtents name points es = .ok r)
    {dim : String} (hdim : dim ∈ points.names) :
    r.getD dim 1 = (es.lookup dim).getD (points.getD dim 1) := by
  induction es generalizing points with
  | nil =>
    obtain rfl := Except.ok.inj h
    rfl
  | cons e es ih =>
    obtain ⟨k, v⟩ := e
    obtain ⟨-, hk, h⟩ := foldExtents_cons_eq_ok.mp h
    rw [List.map_cons, List.nodup_cons] at hd
    rw [ih hd.2 h (by rwa [DimVec.names_set]), DimVec.lookup_cons_eq]
    by_cases hdk : dim = k
    · subst hdk
      -- The dimension is not named again, so the rest of the fold leaves its value.
      have hlookup : es.lookup dim = none := DimVec.get?_eq_none_iff (t := ⟨es⟩).mpr hd.1
      rw [if_pos rfl, hlookup, Option.getD_none, DimVec.getD_set_self hk, Option.getD_some]
    · rw [if_neg hdk, DimVec.getD_set_of_ne hdk]

/-- Where all dimensions have one point to begin with, a fold has as many points as it says. -/
theorem prod_foldExtents (hd : (es.map (·.1)).Nodup)
    (hone : ∀ e ∈ es, e.1 ∈ points.names → points.get? e.1 = some 1)
    (h : foldExtents name points es = .ok r) :
    r.values.prod = points.values.prod * (es.map (·.2)).prod := by
  induction es generalizing points with
  | nil =>
    obtain rfl := Except.ok.inj h
    simp
  | cons e es ih =>
    obtain ⟨k, v⟩ := e
    obtain ⟨-, hk, h⟩ := foldExtents_cons_eq_ok.mp h
    rw [List.map_cons, List.nodup_cons] at hd
    obtain ⟨hthis, hrest⟩ := List.forall_mem_cons.mp hone
    have hset := DimVec.prod_values_set v (hthis hk)
    rw [Int.mul_one] at hset
    rw [ih hd.2 (fun e he hmem => ?_) h, hset, List.map_cons, List.prod_cons, Int.mul_assoc]
    -- The dimensions that are still to come are others.
    have hne : e.1 ≠ k := by
      rintro rfl
      exact hd.1 (List.mem_map.mpr ⟨e, he, rfl⟩)
    rw [DimVec.get?_set, if_neg fun hboth => hne hboth.1]
    exact hrest e he (by rwa [DimVec.names_set] at hmem)

/-! ### Whole shapes -/

/-- A shape that one of the three ways to build one came to. -/
inductive Built : Variable → Prop
  | scalar (name : String) : Built (scalar name)
  | traditional {name : String} {dims : DimVec} {s : Variable}
      (h : traditional name dims = .ok s) : Built s
  | folded {name : String} {dims fold : DimVec} {s : Variable}
      (h : folded name dims fold = .ok s) : Built s

/-- The folds cover the extents. -/
structure Covers (s : Variable) : Prop where
  one_le_dims : ∀ n ∈ s.dims.values, 1 ≤ n
  one_le_points : ∀ f ∈ s.foldPoints.values, 1 ≤ f
  names_points : s.foldPoints.names = s.dims.names
  names_folds : s.folds.names = s.dims.names
  values_folds : s.folds.values = coverings s.dims.values s.foldPoints.values

namespace Covers

theorem length_points (h : s.Covers) : s.foldPoints.length = s.dims.length := by
  rw [← DimVec.length_names, h.names_points, DimVec.length_names]

theorem length_folds (h : s.Covers) : s.folds.length = s.dims.length := by
  rw [← DimVec.length_names, h.names_folds, DimVec.length_names]

theorem length_folds_eq (h : s.Covers) : s.folds.values.length = s.foldPoints.values.length := by
  rw [DimVec.length_values, DimVec.length_values, h.length_folds, h.length_points]

theorem pos (h : s.Covers) :
    List.Forall₂ (fun n f => 1 ≤ n ∧ 1 ≤ f) s.dims.values s.foldPoints.values := by
  rw [List.forall₂_iff_zip, DimVec.length_values, DimVec.length_values]
  exact ⟨h.length_points.symm, fun hnf =>
    ⟨h.one_le_dims _ (List.of_mem_zip hnf).1, h.one_le_points _ (List.of_mem_zip hnf).2⟩⟩

theorem one_le_folds (h : s.Covers) : ∀ c ∈ s.folds.values, 1 ≤ c := by
  rw [h.values_folds]
  exact one_le_coverings h.pos

end Covers

theorem covers_scalar (name : String) : (scalar name).Covers where
  one_le_dims := by simp [scalar, DimVec.values, DimVec.empty]
  one_le_points := by simp [scalar, DimVec.values, DimVec.empty]
  names_points := rfl
  names_folds := rfl
  values_folds := rfl

theorem traditional_eq_ok : traditional name dims = .ok s ↔ (∀ n ∈ dims.values, 1 ≤ n) ∧
    s = { name, dims, layout := .traditional, folds := dims, foldPoints := dims.fill 1 } := by
  simp only [traditional, bind_eq_ok, pure_eq_ok]
  constructor
  · rintro ⟨_, hcheck, rfl⟩
    exact ⟨checkExtents_eq_ok.mp hcheck, rfl⟩
  · rintro ⟨hpos, rfl⟩
    exact ⟨(), checkExtents_eq_ok.mpr hpos, rfl⟩

theorem one_le_fill (dims : DimVec) : ∀ f ∈ (dims.fill 1).values, 1 ≤ f := by
  rw [DimVec.values_fill]
  intro f hf
  rw [(List.mem_replicate.mp hf).2]

theorem covers_of_traditional (h : traditional name dims = .ok s) : s.Covers := by
  obtain ⟨hdims, rfl⟩ := traditional_eq_ok.mp h
  refine ⟨hdims, one_le_fill dims, DimVec.names_fill dims 1, rfl, ?_⟩
  show dims.values = coverings dims.values (dims.fill 1).values
  rw [DimVec.values_fill, ← DimVec.length_values, coverings_ones]

/-- What a folded shape is made of. -/
theorem folded_eq_ok (h : folded name dims fold = .ok s) :
    (∀ n ∈ dims.values, 1 ≤ n) ∧ foldExtents name (dims.fill 1) fold.entries = .ok s.foldPoints ∧
      ∃ counts, List.Forall₂ (fun (nf : Int × Int) c => ceilDiv nf.1 nf.2 = .ok c)
          (dims.values.zip s.foldPoints.values) counts ∧
        s = { name, dims, layout := .folded fold, folds := dims.withValues counts,
              foldPoints := s.foldPoints } := by
  simp only [folded, bind_eq_ok, pure_eq_ok, liftM_planError_eq_ok, liftM_checked_eq_ok,
    mapM_eq_ok] at h
  obtain ⟨_, hcheck, points, hpoints, counts, hcounts, rfl⟩ := h
  exact ⟨checkExtents_eq_ok.mp hcheck, hpoints, counts, hcounts, rfl⟩

theorem eq_coverings {ns fs cs : List Int} (hlength : ns.length = fs.length)
    (hfs : ∀ f ∈ fs, 1 ≤ f)
    (h : List.Forall₂ (fun (nf : Int × Int) c => ceilDiv nf.1 nf.2 = .ok c) (ns.zip fs) cs) :
    cs = coverings ns fs := by
  induction ns generalizing fs cs with
  | nil =>
    cases h
    rfl
  | cons n ns ih =>
    obtain _ | ⟨f, fs⟩ := fs
    · cases hlength
    · obtain ⟨hf, hfs⟩ := List.forall_mem_cons.mp hfs
      rw [List.zip_cons_cons] at h
      cases h with
      | cons hc hcs =>
        exact congrArg₂ List.cons ((gives_ceilDiv n f).of_ok hc (by omega))
          (ih (by simpa using hlength) hfs hcs)

theorem covers_of_folded (h : folded name dims fold = .ok s) : s.Covers := by
  obtain ⟨hdims, hpoints, counts, hcounts, hs⟩ := folded_eq_ok h
  have hnames := names_foldExtents hpoints
  rw [DimVec.names_fill] at hnames
  have hone := one_le_foldExtents (one_le_fill dims) hpoints
  have hlength : s.foldPoints.values.length = dims.values.length := by
    rw [DimVec.length_values, DimVec.length_values, ← DimVec.length_names, hnames,
      DimVec.length_names]
  have hcovering := eq_coverings hlength.symm hone hcounts
  have hvalues : (dims.withValues counts).values = counts := by
    apply DimVec.values_withValues
    rw [hcovering, coverings, List.length_zipWith, hlength, Nat.min_self, DimVec.length_values]
  rw [hs]
  exact ⟨hdims, hone, hnames, DimVec.names_withValues _ _, hvalues.trans hcovering⟩

theorem Built.covers (h : s.Built) : s.Covers := by
  cases h with
  | scalar name => exact covers_scalar name
  | traditional h => exact covers_of_traditional h
  | folded h => exact covers_of_folded h

end Variable

end StencilPlan
