import StencilPlan.Dim.Codec
import StencilPlan.Proofs.Dim.Catalog
import StencilPlan.Proofs.Json.Codec

/-!
# Dimension vectors and catalogs that are read back

A vector of 64-bit values is what its text stands for, whatever the names of its dimensions are.
All vectors of a catalog are such vectors, so a catalog is what its text stands for too.
-/

namespace StencilPlan

namespace DimVec

variable {t : DimVec}

theorem written_toJson (t : DimVec) : t.toJson.Written := by
  refine .record fun f hf => ?_
  obtain rfl := List.mem_singleton.mp hf
  refine .array fun v hv => ?_
  obtain ⟨e, -, rfl⟩ := List.mem_map.mp hv
  refine .array fun w hw => ?_
  rcases List.mem_cons.mp hw with rfl | hw
  · exact .str e.1
  · obtain rfl := List.mem_singleton.mp hw
    exact Json.written_int e.2

theorem ofJson?_toJson (h : ∀ n ∈ t.values, Idx.InRange n) : ofJson? t.toJson = some t := by
  have hentry : ∀ e ∈ t.entries, entryOfJson? (.array [.str e.1, .int e.2]) = some e := by
    intro e he
    have hvalue : (Json.int e.2).idx? = some e.2 :=
      Json.between?_int (h e.2 (List.mem_map_of_mem he))
    rw [entryOfJson?, hvalue]
    rfl
  have hfields : t.toJson.fields? ["dims"] = some _ :=
    @Json.fields?_record ["dims"] [_] (by decide) rfl
  rw [ofJson?, hfields, Option.bind_eq_bind, Option.bind_some]
  dsimp only
  rw [Json.list?_array hentry]
  rfl

end DimVec

namespace Catalog

variable {c : Catalog}

/-- The vectors that a catalog has for the kinds of its dimensions. -/
def kinds (c : Catalog) : List DimVec := [c.domain, c.stencil, c.misc]

/-- These vectors only list dimensions, so all their values are zero. -/
theorem Built.eq_zero (h : c.Built) : ∀ t ∈ c.kinds, ∀ n ∈ t.values, n = 0 := by
  refine h.of_declared (P := fun c => ∀ t ∈ c.kinds, ∀ n ∈ t.values, n = 0) (fun hd => ?_)
    fun _ _ _ _ ih => ih
  have hzeros : ∀ names : List String, names.Nodup →
      ∀ n ∈ (DimVec.ofNames names 0).values, n = 0 := fun names hnodup n hn => by
    rw [DimVec.values_ofNames hnodup] at hn
    exact List.eq_of_mem_replicate hn
  have hdomain := hzeros _ hd.nodup_domain
  have hmisc := hzeros _ hd.nodup_misc
  rw [← hd.domain_eq] at hdomain
  rw [← hd.misc_eq] at hmisc
  simp only [kinds, List.forall_mem_cons]
  refine ⟨hdomain, ?_, hmisc, fun _ h => absurd h List.not_mem_nil⟩
  rw [DimVec.values, hd.entries_stencil, List.map_cons, List.forall_mem_cons]
  exact ⟨rfl, hdomain⟩

/-- Factors are not greater than their products. -/
theorem le_of_zipWith_mul_le {as bs : List Int} {m : Int} (hlen : as.length = bs.length)
    (ha : ∀ a ∈ as, 0 < a) (hb : ∀ b ∈ bs, 0 < b)
    (h : ∀ p ∈ List.zipWith (· * ·) as bs, p ≤ m) : (∀ a ∈ as, a ≤ m) ∧ ∀ b ∈ bs, b ≤ m := by
  induction as generalizing bs with
  | nil =>
    obtain rfl := List.length_eq_zero_iff.mp hlen.symm
    simp
  | cons a as ih =>
    cases bs with
    | nil => cases hlen
    | cons b bs =>
      rw [List.forall_mem_cons] at ha hb
      rw [List.zipWith_cons_cons, List.forall_mem_cons] at h
      obtain ⟨has, hbs⟩ := ih (Nat.succ.inj hlen) ha.2 hb.2 h.2
      have hleft : a * 1 ≤ a * b := Int.mul_le_mul_of_nonneg_left hb.1 (Int.le_of_lt ha.1)
      have hright : 1 * b ≤ a * b := Int.mul_le_mul_of_nonneg_right ha.1 (Int.le_of_lt hb.1)
      rw [Int.mul_one] at hleft
      rw [Int.one_mul] at hright
      exact ⟨List.forall_mem_cons.mpr ⟨Int.le_trans hleft h.1, has⟩,
        List.forall_mem_cons.mpr ⟨Int.le_trans hright h.1, hbs⟩⟩

/-- A cluster that fits is made of folds that fit, and their numbers fit as well. -/
theorem WellFormed.inRange (h : c.WellFormed) :
    ∀ t ∈ [c.fold, c.clusterFolds, c.cluster], ∀ n ∈ t.values, Idx.InRange n := by
  have hlen : c.fold.values.length = c.clusterFolds.values.length := by
    rw [DimVec.length_values, DimVec.length_values, ← DimVec.length_names,
      ← DimVec.length_names, h.fold.names, h.clusterFolds.names]
  obtain ⟨hfold, hfolds⟩ := le_of_zipWith_mul_le hlen h.fold.pos h.clusterFolds.pos
    (h.cluster_values ▸ h.cluster_le)
  have hmin : Idx.min < 0 := by decide
  simp only [List.forall_mem_cons]
  exact ⟨fun n hn => ⟨by have := h.fold.pos n hn; omega, hfold n hn⟩,
    fun n hn => ⟨by have := h.clusterFolds.pos n hn; omega, hfolds n hn⟩,
    fun n hn => ⟨by have := h.cluster.pos n hn; omega, h.cluster_le n hn⟩,
    fun _ h => absurd h List.not_mem_nil⟩

theorem written_toJson (c : Catalog) : c.toJson.Written := by
  refine Json.written_record ?_
  simp only [List.forall_mem_cons]
  exact ⟨.str _, DimVec.written_toJson _, DimVec.written_toJson _, DimVec.written_toJson _, .str _,
    .str _, DimVec.written_toJson _, DimVec.written_toJson _, DimVec.written_toJson _,
    fun _ h => absurd h List.not_mem_nil⟩

theorem ofJson?_toJson (h : c.Built) : ofJson? c.toJson = some c := by
  have hkinds : ∀ t ∈ c.kinds, DimVec.ofJson? t.toJson = some t := fun t ht =>
    DimVec.ofJson?_toJson fun n hn => h.eq_zero t ht n hn ▸ by decide
  have hshapes : ∀ t ∈ [c.fold, c.clusterFolds, c.cluster], DimVec.ofJson? t.toJson = some t :=
    fun t ht => DimVec.ofJson?_toJson (h.wellFormed.inRange t ht)
  simp only [kinds, List.forall_mem_cons] at hkinds hshapes
  rw [ofJson?, toJson, Json.fields?_record (by decide) rfl, Option.bind_eq_bind, Option.bind_some]
  simp only [hkinds, hshapes, Json.text?, Json.str, Option.bind_eq_bind, Option.bind_some]
  rfl

end Catalog

end StencilPlan
