import StencilPlan.Proofs.Dim.Vec

/-!
# Edited vectors

Whoever builds a vector by its operations gets one that names each dimension once, whatever vectors
with repeated names are brought in on the way: no operation adds a name that is there already. So a
name and its position determine each other in such a vector, and what is looked up under a name is
the value at its position.
-/

namespace StencilPlan.DimVec

variable {t u : DimVec} {dim : String} {v : Int} {i : Nat}

/-- An operation that makes a vector or changes one. -/
inductive Edit where
  | ofNames (names : List String) (v : Int)
  | ofPairs (pairs : List (String × Int))
  | append (dim : String) (v : Int)
  | prepend (dim : String) (v : Int)
  | set (dim : String) (v : Int)
  | fill (v : Int)
  | setAt (i : Nat) (v : Int)
  | eraseAt (i : Nat)
  | sup (other : DimVec)
  | union (other : DimVec)
  deriving DecidableEq, Repr

/-- What an operation makes of a vector. -/
def edit (t : DimVec) : Edit → Checked DimVec
  | .ofNames names v => .ok (ofNames names v)
  | .ofPairs pairs => .ok (ofPairs pairs)
  | .append dim v => .ok (t.append dim v)
  | .prepend dim v => .ok (t.prepend dim v)
  | .set dim v => .ok (t.set dim v)
  | .fill v => .ok (t.fill v)
  | .setAt i v => t.setAt i v
  | .eraseAt i => .ok (t.eraseAt i)
  | .sup other => .ok (t.sup other)
  | .union other => .ok (t.union other)

/-- The vector after an operation, which leaves it as it is if it faults. -/
def edited (t : DimVec) (e : Edit) : DimVec :=
  match t.edit e with
  | .ok u => u
  | .error _ => t

/-- The vector after a sequence of operations. -/
def after (t : DimVec) (es : List Edit) : DimVec := es.foldl edited t

/-- Only a write at a position past the end faults. -/
theorem edit_eq_error_iff {e : Edit} {f : Fault} :
    t.edit e = .error f ↔ ∃ i v, e = .setAt i v ∧ t.length ≤ i ∧ f = .position t.length i := by
  cases e with
  | setAt i v =>
    simp only [edit, Edit.setAt.injEq]
    constructor
    · intro h
      unfold setAt at h
      split at h
      · cases h
      · next hnone =>
        cases h
        exact ⟨i, v, ⟨rfl, rfl⟩, List.getElem?_eq_none_iff.mp hnone, rfl⟩
    · rintro ⟨_, _, ⟨rfl, rfl⟩, hle, rfl⟩
      rw [setAt, List.getElem?_eq_none hle]
  | _ => simp [edit]

/-! ### No name is repeated -/

/-- A new name stays the only one. -/
theorem nodup_names_concat (hd : t.names.Nodup) {e : String × Int} (hnew : e.1 ∉ t.names) :
    (⟨t.entries ++ [e]⟩ : DimVec).names.Nodup := by
  have hnames : (⟨t.entries ++ [e]⟩ : DimVec).names = t.names.concat e.1 := by simp [names]
  rw [hnames]
  exact hd.concat hnew

theorem nodup_names_append (hd : t.names.Nodup) (dim : String) (v : Int) :
    (t.append dim v).names.Nodup := by
  unfold append
  split
  · rwa [names_set]
  · next hnew => exact nodup_names_concat hd (by rwa [contains_iff] at hnew)

theorem nodup_names_prepend (hd : t.names.Nodup) (dim : String) (v : Int) :
    (t.prepend dim v).names.Nodup := by
  unfold prepend
  split
  · rwa [names_set]
  · next hnew =>
    rw [contains_iff] at hnew
    exact List.nodup_cons.mpr ⟨hnew, hd⟩

/-- A repeated name among the pairs only sets its value again. -/
theorem nodup_names_ofPairs (pairs : List (String × Int)) : (ofPairs pairs).names.Nodup :=
  List.foldlRecOn (motive := fun t : DimVec => t.names.Nodup) pairs _ List.nodup_nil
    fun _ hd e _ => nodup_names_append hd e.1 e.2

theorem nodup_names_eraseAt (hd : t.names.Nodup) (i : Nat) : (t.eraseAt i).names.Nodup := by
  have hsub : (t.eraseAt i).names.Sublist t.names := (List.eraseIdx_sublist t.entries i).map _
  exact hd.sublist hsub

/-- The other vector may repeat names: the second time a name is there already. -/
theorem nodup_names_union (hd : t.names.Nodup) (other : DimVec) : (t.union other).names.Nodup := by
  refine List.foldlRecOn (motive := fun t : DimVec => t.names.Nodup) other.entries _ hd
    fun t hd e _ => ?_
  split
  · exact hd
  · next hnew => exact nodup_names_concat hd (by rwa [contains_iff] at hnew)

/-- No operation repeats a name. -/
theorem nodup_names_edit {e : Edit} (hd : t.names.Nodup) (h : t.edit e = .ok u) :
    u.names.Nodup := by
  -- Operations on values keep the names; the others are those with lemmas of their own.
  cases e with
  | ofNames names v => cases h; exact nodup_names_ofPairs _
  | ofPairs pairs => cases h; exact nodup_names_ofPairs pairs
  | append dim v => cases h; exact nodup_names_append hd dim v
  | prepend dim v => cases h; exact nodup_names_prepend hd dim v
  | set dim v => cases h; rwa [names_set]
  | fill v => cases h; rwa [names_fill]
  | setAt i v => rwa [(setAt_eq_ok_iff.mp h).2.1]
  | eraseAt i => cases h; exact nodup_names_eraseAt hd i
  | sup other => cases h; rwa [names_sup]
  | union other => cases h; exact nodup_names_union hd other

theorem nodup_names_edited (hd : t.names.Nodup) (e : Edit) : (t.edited e).names.Nodup := by
  unfold edited
  split
  · next h => exact nodup_names_edit hd h
  · exact hd

theorem nodup_names_after (hd : t.names.Nodup) (es : List Edit) : (t.after es).names.Nodup :=
  List.foldlRecOn (motive := fun t : DimVec => t.names.Nodup) es _ hd
    fun _ hd e _ => nodup_names_edited hd e

/-! ### Names and positions -/

/-- A name that is not repeated is found at the position where it stands. -/
theorem indexOf?_eq_some_iff (hd : t.names.Nodup) :
    t.indexOf? dim = some i ↔ t.name? i = some dim := by
  rw [indexOf?, name?, List.idxOf?_eq_some_iff, List.getElem?_eq_some_iff]
  constructor
  · rintro ⟨hi, hname, -⟩
    exact ⟨hi, hname⟩
  · rintro ⟨hi, hname⟩
    refine ⟨hi, hname, fun j hj hsame => ?_⟩
    -- An earlier position with this name would be the same one.
    have hij := hd.getElem_inj_iff.mp (hsame.trans hname.symm)
    omega

/-- However a vector came about by its operations, beginning with the empty one: no name occurs
twice, a name is found at a position exactly if it stands there, and then the value that is looked
up under it is the value at this position. -/
theorem names_positions_after (es : List Edit) :
    (empty.after es).names.Nodup ∧
    ∀ dim i, ((empty.after es).indexOf? dim = some i ↔ (empty.after es).name? i = some dim) ∧
      ((empty.after es).indexOf? dim = some i →
        ∃ v, (empty.after es).nth i = .ok v ∧ (empty.after es).get? dim = some v) := by
  have hd : (empty.after es).names.Nodup := nodup_names_after (t := empty) List.nodup_nil es
  refine ⟨hd, fun dim i => ⟨indexOf?_eq_some_iff hd, fun hindex => ?_⟩⟩
  have hname : (empty.after es).names[i]? = some dim := (indexOf?_eq_some_iff hd).mp hindex
  obtain ⟨v, hv⟩ := exists_value rfl hname
  exact ⟨v, nth_eq_ok_iff.mpr hv, (get?_of_nodup hd hname).trans hv⟩

/-- Of a name that another vector repeats only the first entry comes in, and a write past the end is
as if it had not been tried. -/
example : (empty.after [.ofNames ["x", "x"] 1, .prepend "y" 2, .union ⟨[("z", 3), ("z", 4)]⟩,
    .setAt 3 5]).entries = [("y", 2), ("x", 1), ("z", 3)] := by decide

end StencilPlan.DimVec
