import Mathlib.Order.Bounds.Basic
import StencilPlan.Proofs.Returns
import StencilPlan.Proofs.Stencil.Built

/-!
# Halo widths

A stencil is told about halos call by call, and for each requirement it keeps the sizes that were
recorded last. The width of a halo is worked out from what is kept. So it can be said from the
calls alone: it is the least that is enough for all requirements of the stages that are asked for,
and the order of calls that record different requirements has no part in it.
-/

namespace StencilPlan

/-! ### Values under keys -/

section Keys

variable {κ α : Type} [DecidableEq κ] {k : κ} {v : α} {es : List (κ × α)}

theorem lookup_cons_eq_ite [BEq κ] [LawfulBEq κ] (l k : κ) (v : α) (es : List (κ × α)) :
    ((l, v) :: es).lookup k = if k = l then some v else es.lookup k := by
  rw [List.lookup_cons]
  by_cases h : k = l
  · simp [h]
  · simp [h, beq_false_of_ne h]

/-- What is put under a key is found there, and nothing else changes. -/
theorem lookup_putKey [BEq κ] [LawfulBEq κ] (k k' : κ) (v : α) (es : List (κ × α)) :
    (putKey k v es).lookup k' = if k' = k then some v else es.lookup k' := by
  induction es with
  | nil => exact lookup_cons_eq_ite k k' v []
  | cons e es ih =>
    obtain ⟨l, w⟩ := e
    by_cases hl : l = k
    · subst hl
      rw [putKey, if_pos rfl, lookup_cons_eq_ite, lookup_cons_eq_ite]
      split <;> rfl
    · rw [putKey, if_neg hl, lookup_cons_eq_ite, lookup_cons_eq_ite, ih]
      by_cases h : k' = l
      · rw [if_pos h, if_neg fun hk => hl (h.symm.trans hk), if_pos h]
      · rw [if_neg h, if_neg h]

/-- A key stays in its place; a new one comes behind the others. -/
theorem map_fst_putKey (k : κ) (v : α) (es : List (κ × α)) :
    (putKey k v es).map (·.1) =
      if k ∈ es.map (·.1) then es.map (·.1) else es.map (·.1) ++ [k] := by
  induction es with
  | nil => rfl
  | cons e es ih =>
    by_cases hk : e.1 = k
    · simp [putKey, hk]
    · rw [putKey, if_neg hk, List.map_cons, List.map_cons, ih]
      by_cases hmem : k ∈ es.map (·.1)
      · rw [if_pos hmem, if_pos (List.mem_cons_of_mem _ hmem)]
      · rw [if_neg hmem, if_neg (by simpa [Ne.symm hk] using hmem), List.cons_append]

theorem mem_putKey {e : κ × α} (h : e ∈ putKey k v es) : e = (k, v) ∨ e ∈ es := by
  induction es with
  | nil => exact .inl (List.mem_singleton.mp h)
  | cons f es ih =>
    rw [putKey] at h
    split at h
    · exact (List.mem_cons.mp h).imp_right (List.mem_cons_of_mem _)
    · rcases List.mem_cons.mp h with rfl | h
      · exact .inr List.mem_cons_self
      · exact (ih h).imp_right (List.mem_cons_of_mem _)

theorem nodup_putKey (h : (es.map (·.1)).Nodup) (k : κ) (v : α) :
    ((putKey k v es).map (·.1)).Nodup := by
  rw [map_fst_putKey]
  split
  · exact h
  · next hnew => exact List.nodup_append.mpr ⟨h, List.nodup_singleton k, by grind⟩

/-- With distinct keys, looking a key up finds its value. -/
theorem lookup_eq_some_iff_mem [BEq κ] [LawfulBEq κ] (h : (es.map (·.1)).Nodup) :
    es.lookup k = some v ↔ (k, v) ∈ es := by
  induction es with
  | nil => simp
  | cons e es ih =>
    obtain ⟨l, w⟩ := e
    rw [List.map_cons, List.nodup_cons] at h
    rw [lookup_cons_eq_ite, List.mem_cons, Prod.mk.injEq]
    by_cases hk : k = l
    · subst hk
      have hnot : (k, v) ∉ es := fun hmem => h.1 (List.mem_map_of_mem (f := (·.1)) hmem)
      simp [hnot, eq_comm]
    · simp [hk, ih h.2]

end Keys

/-! ### The greater values of several vectors -/

namespace DimVec

variable {t u : DimVec} {j : Nat} {n m : Int}

/-- Vectors over the same dimensions are compared place by place. -/
theorem getElem?_values_sup (hd : t.names.Nodup) (hu : u.names = t.names)
    (hn : t.values[j]? = some n) (hm : u.values[j]? = some m) :
    (t.sup u).values[j]? = some (max n m) := by
  have hj : j < t.names.length := by
    rw [length_names, ← length_values]
    exact (List.getElem?_eq_some_iff.mp hn).1
  have hname := List.getElem?_eq_getElem hj
  have hget : u.get? t.names[j] = some m := by
    rw [get?_of_nodup (i := j) (by rwa [hu]) (by rw [hu, hname]), hm]
  rw [sup, getElem?_values_map, hname, hn]
  simp [hget]

section Fold

variable {α : Type} {f : α → DimVec} {as : List α}

theorem names_foldl_sup (f : α → DimVec) (as : List α) (t : DimVec) :
    (as.foldl (fun t a => t.sup (f a)) t).names = t.names := by
  induction as generalizing t with
  | nil => rfl
  | cons a as ih => rw [List.foldl_cons, ih, names_sup]

/-- In each place the fold comes to the greatest value there is. -/
theorem isGreatest_foldl_sup (hd : t.names.Nodup) (has : ∀ a ∈ as, (f a).names = t.names)
    (hn : (as.foldl (fun t a => t.sup (f a)) t).values[j]? = some n) :
    IsGreatest {k | t.values[j]? = some k ∨ ∃ a ∈ as, (f a).values[j]? = some k} n := by
  induction as generalizing t with
  | nil =>
    refine ⟨.inl hn, ?_⟩
    rintro k (hk | ⟨a, ha, -⟩)
    · exact Int.le_of_eq (Option.some.inj (hk.symm.trans hn))
    · cases ha
  | cons a as ih =>
    obtain ⟨ha, hrest⟩ := List.forall_mem_cons.mp has
    -- Both vectors have a value in the place, because the result of the fold has one.
    have hlt := (List.getElem?_eq_some_iff.mp hn).1
    rw [length_values, ← length_names, names_foldl_sup, length_names] at hlt
    obtain ⟨x, hx⟩ : ∃ x, t.values[j]? = some x :=
      ⟨_, List.getElem?_eq_getElem (by rw [length_values]; exact hlt)⟩
    obtain ⟨y, hy⟩ : ∃ y, (f a).values[j]? = some y :=
      ⟨_, List.getElem?_eq_getElem (by rw [length_values, ← length_names, ha, length_names]
                                       exact hlt)⟩
    have hmax := getElem?_values_sup hd ha hx hy
    obtain ⟨hmem, hupper⟩ := ih (t := t.sup (f a)) (by rwa [names_sup])
      (fun b hb => (hrest b hb).trans (names_sup _ _).symm) hn
    refine ⟨?_, ?_⟩
    · rcases hmem with hmem | ⟨b, hb, hvalue⟩
      · obtain rfl := Option.some.inj (hmax.symm.trans hmem)
        rcases Int.le_total x y with hle | hle
        · exact .inr ⟨a, List.mem_cons_self, by rw [hy, Int.max_eq_right hle]⟩
        · exact .inl (by rw [hx, Int.max_eq_left hle])
      · exact .inr ⟨b, List.mem_cons_of_mem _ hb, hvalue⟩
    · have hle := hupper (.inl hmax)
      rintro k (hk | ⟨b, hb, hk⟩)
      · obtain rfl := Option.some.inj (hx.symm.trans hk)
        exact Int.le_trans (Int.le_max_left _ _) hle
      · rcases List.mem_cons.mp hb with rfl | hb
        · obtain rfl := Option.some.inj (hy.symm.trans hk)
          exact Int.le_trans (Int.le_max_right _ _) hle
        · exact hupper (.inr ⟨b, hb, hk⟩)

end Fold

end DimVec

namespace Stencil

variable {c : Catalog} {s : Stencil} {var var' : String} {need need' : HaloNeed}
  {sizes : List Int}

/-! ### Calls -/

/-- One call on a stencil. -/
inductive Call where
  | var (name : String)
  | halo (var : String) (need : HaloNeed) (sizes : List Int)

/-- What a call does. -/
def Call.task : Call → Task Stencil Unit
  | .var name => addVar name
  | .halo var need sizes => addHalo var need sizes

/-- The stencil after some calls, whatever each of them returned. -/
def after (s : Stencil) (calls : List Call) : Stencil :=
  calls.foldl (fun s call => (call.task.run none s).state) s

/-- Sizes that can be recorded: one for each domain dimension, and none of them negative. -/
def Accepts (c : Catalog) (sizes : List Int) : Prop :=
  sizes.length = c.domainCount ∧ ∀ n ∈ sizes, 0 ≤ n

instance (c : Catalog) (sizes : List Int) : Decidable (Accepts c sizes) :=
  inferInstanceAs (Decidable (_ ∧ _))

/-- What a call records for a requirement of a variable, if it does. -/
def Call.recorded? (c : Catalog) (var : String) (need : HaloNeed) : Call → Option (List Int)
  | .var _ => none
  | .halo v n sizes => if v = var ∧ n = need ∧ Accepts c sizes then some sizes else none

/-- All that some calls record for a requirement of a variable, in order. -/
def recordedBy (c : Catalog) (var : String) (need : HaloNeed) (calls : List Call) :
    List (List Int) :=
  calls.filterMap (·.recorded? c var need)

/-- The sizes that some calls recorded last for a requirement of a variable. -/
def lastRecorded (c : Catalog) (var : String) (need : HaloNeed) (calls : List Call) :
    Option (List Int) :=
  (recordedBy c var need calls).getLast?

/-- What is kept for a requirement of a variable. -/
def requirement? (s : Stencil) (var : String) (need : HaloNeed) : Option DimVec :=
  (s.halos.lookup var).bind (·.lookup need)

/-- The declared variables are those with requirements, of which no key is there twice. -/
structure Keyed (s : Stencil) : Prop where
  declared : ∀ var, (s.halos.lookup var).isSome ↔ var ∈ s.vars
  vars : (s.halos.map (·.1)).Nodup
  needs : ∀ var needs, s.halos.lookup var = some needs → (needs.map (·.1)).Nodup

theorem keyed_new (name : String) (c : Catalog) : (new name c).Keyed :=
  ⟨fun _ => by simp [new], List.nodup_nil, fun _ _ h => by simp [new] at h⟩

/-- A variable that is declared has requirements, if only none. -/
theorem Keyed.exists_lookup (h : s.Keyed) (hvar : var ∈ s.vars) :
    ∃ needs, s.halos.lookup var = some needs :=
  Option.isSome_iff_exists.mp ((h.declared var).mpr hvar)

theorem lookup_withVar (h : s.Keyed) (name var : String) : (s.withVar name).halos.lookup var =
    if var = name then some ((s.halos.lookup name).getD []) else s.halos.lookup var := by
  unfold withVar
  split
  · next hmem =>
    obtain ⟨needs, hneeds⟩ := h.exists_lookup hmem
    by_cases hvar : var = name
    · rw [if_pos hvar, hvar, hneeds, Option.getD_some]
    · rw [if_neg hvar]
  · next hnew =>
    have hnone : s.halos.lookup name = none :=
      Option.not_isSome_iff_eq_none.mp fun hsome => hnew ((h.declared name).mp hsome)
    rw [hnone, Option.getD_none]
    exact lookup_putKey name var [] s.halos

theorem mem_vars_withVar (s : Stencil) (name var : String) :
    var ∈ (s.withVar name).vars ↔ var = name ∨ var ∈ s.vars := by
  unfold withVar
  split
  · next hmem =>
    constructor
    · exact .inr
    · rintro (rfl | h)
      · exact hmem
      · exact h
  · rw [List.mem_append, List.mem_singleton, or_comm]

theorem Keyed.withVar (h : s.Keyed) (name : String) : (s.withVar name).Keyed := by
  refine ⟨fun var => ?_, ?_, fun var needs hneeds => ?_⟩
  · rw [lookup_withVar h, mem_vars_withVar]
    by_cases hvar : var = name
    · simp [hvar]
    · simp [hvar, h.declared]
  · unfold Stencil.withVar
    split
    · exact h.vars
    · exact nodup_putKey h.vars name []
  · rw [lookup_withVar h] at hneeds
    split at hneeds
    · obtain rfl := Option.some.inj hneeds
      cases hname : s.halos.lookup name with
      | none => exact List.nodup_nil
      | some needs => exact h.needs name needs hname
    · exact h.needs var needs hneeds

theorem Keyed.exists_lookup_withVar (h : s.Keyed) (var : String) :
    ∃ needs, (s.withVar var).halos.lookup var = some needs :=
  (h.withVar var).exists_lookup ((mem_vars_withVar s var var).mpr (.inl rfl))

theorem requirement?_withVar (h : s.Keyed) (name var : String) (need : HaloNeed) :
    (s.withVar name).requirement? var need = s.requirement? var need := by
  rw [requirement?, requirement?, lookup_withVar h]
  split
  · next hvar =>
    rw [hvar]
    cases s.halos.lookup name <;> rfl
  · rfl

/-- The stencil with other sizes for one requirement of a variable that is declared. -/
def withNeed (s : Stencil) (var : String) (need : HaloNeed) (widths : DimVec)
    (needs : List (HaloNeed × DimVec)) : Stencil :=
  { s with halos := putKey var (putKey need widths needs) s.halos }

section WithNeed

variable {widths : DimVec} {needs : List (HaloNeed × DimVec)}

theorem Keyed.withNeed (h : s.Keyed) (hneeds : s.halos.lookup var = some needs) (need : HaloNeed)
    (widths : DimVec) : (s.withNeed var need widths needs).Keyed := by
  have hvar : var ∈ s.vars := (h.declared var).mp (by rw [hneeds]; rfl)
  refine ⟨fun v => ?_, nodup_putKey h.vars _ _, fun v ns hns => ?_⟩
  · rw [Stencil.withNeed, lookup_putKey]
    by_cases hv : v = var
    · simp [hv, hvar]
    · simp [hv, h.declared]
  · rw [Stencil.withNeed, lookup_putKey] at hns
    split at hns
    · obtain rfl := Option.some.inj hns
      exact nodup_putKey (h.needs var needs hneeds) _ _
    · exact h.needs v ns hns

theorem requirement?_withNeed (hneeds : s.halos.lookup var = some needs) (var' : String)
    (need' : HaloNeed) : (s.withNeed var need widths needs).requirement? var' need' =
      if var' = var ∧ need' = need then some widths else s.requirement? var' need' := by
  rw [requirement?, requirement?, withNeed, lookup_putKey]
  by_cases hvar : var' = var
  · subst hvar
    rw [if_pos rfl, hneeds, Option.bind_some, Option.bind_some, lookup_putKey]
    by_cases hneed : need' = need <;> simp [hneed]
  · rw [if_neg hvar, if_neg fun h => hvar h.1]

end WithNeed

/-! ### What the calls come to -/

/-- Nothing is wrong with the sizes exactly if they can be recorded. -/
theorem haloFlaw?_eq_none : s.haloFlaw? var sizes = none ↔ Accepts s.catalog sizes := by
  unfold haloFlaw? Accepts
  split
  · next hlen => exact iff_of_false nofun fun haccepts => hlen haccepts.1
  · next hlen => simp [not_not.mp hlen]

/-- In place or not, recording a halo is the same: all checks are made before anything is
changed. -/
theorem run_addHalo (s : Stencil) (var : String) (need : HaloNeed) (sizes : List Int)
    (v : Verbosity) : (addHalo var need sizes).run v s =
      match s.withHalo var need.stage need.left need.stepOffset sizes with
      | .ok s' => ⟨.ok (), s', []⟩
      | .error e => ⟨.error (.tiling e), s, []⟩ := by
  rw [run_addHalo_eq, withHalo_eq]
  cases s.haloFlaw? var sizes <;> rfl

/-- However recording a halo fails, the stencil is as it was. -/
theorem failsAt_addHalo (var : String) (need : HaloNeed) (sizes : List Int) :
    Task.FailsAt id (addHalo var need sizes) := by
  intro v s f hf
  rw [run_addHalo] at hf ⊢
  split at hf
  · cases hf
  · rfl

/-- A halo is recorded exactly if its sizes can be recorded, and then the variable is declared and
the sizes are kept. -/
theorem withHalo_eq_ok (h : s.Keyed) (need : HaloNeed) {s' : Stencil} :
    s.withHalo var need.stage need.left need.stepOffset sizes = .ok s' ↔
      Accepts s.catalog sizes ∧ ∃ needs, (s.withVar var).halos.lookup var = some needs ∧
        s' = (s.withVar var).withNeed var need ((s.catalog.domainVec 0).withValues sizes)
          needs := by
  rw [withHalo_eq, ← @haloFlaw?_eq_none s var sizes]
  cases s.haloFlaw? var sizes with
  | some flaw => exact iff_of_false nofun nofun
  | none =>
    obtain ⟨needs, hneeds⟩ := h.exists_lookup_withVar var
    simp only [putSizes, hneeds, Except.ok.injEq, Option.some.injEq, exists_eq_left', withNeed,
      catalog_withVar, eq_comm (b := s'), true_and]

/-- Nothing but the sizes decides whether a halo can be recorded. -/
theorem exists_withHalo_iff (h : s.Keyed) (var : String) (need : HaloNeed) (sizes : List Int) :
    (∃ s', s.withHalo var need.stage need.left need.stepOffset sizes = .ok s') ↔
      Accepts s.catalog sizes := by
  obtain ⟨needs, hneeds⟩ := h.exists_lookup_withVar var
  exact ⟨fun ⟨_, hok⟩ => ((withHalo_eq_ok h need).mp hok).1,
    fun haccepts => ⟨_, (withHalo_eq_ok h need).mpr ⟨haccepts, needs, hneeds, rfl⟩⟩⟩

/-! ### What is kept after some calls -/

variable {calls : List Call} {stage : Option String} {left : Bool}

theorem recordedBy_cons_halo (calls : List Call) (var var' : String) (need need' : HaloNeed)
    (sizes : List Int) : recordedBy c var' need' (.halo var need sizes :: calls) =
      (if var = var' ∧ need = need' ∧ Accepts c sizes then [sizes] else []) ++
        recordedBy c var' need' calls := by
  by_cases h : var = var' ∧ need = need' ∧ Accepts c sizes <;>
    simp [recordedBy, Call.recorded?, h]

theorem recordedBy_append_halo (calls : List Call) (var var' : String) (need need' : HaloNeed)
    (sizes : List Int) : recordedBy c var' need' (calls ++ [.halo var need sizes]) =
      recordedBy c var' need' calls ++
        if var = var' ∧ need = need' ∧ Accepts c sizes then [sizes] else [] := by
  have hlast := recordedBy_cons_halo (c := c) [] var var' need need' sizes
  rw [show recordedBy c var' need' [] = [] from rfl, List.append_nil] at hlast
  rw [← hlast, recordedBy, List.filterMap_append]
  rfl

/-- What is recorded comes from one of the calls. -/
theorem of_lastRecorded (h : lastRecorded c var need calls = some sizes) :
    .halo var need sizes ∈ calls ∧ Accepts c sizes := by
  obtain ⟨call, hmem, hcall⟩ := List.mem_filterMap.mp (List.mem_of_getLast? h)
  cases call with
  | var => cases hcall
  | halo v n ns =>
    rw [Call.recorded?] at hcall
    split at hcall
    · next hall =>
      obtain ⟨rfl, rfl, haccepts⟩ := hall
      obtain rfl := Option.some.inj hcall
      exact ⟨hmem, haccepts⟩
    · cases hcall

theorem values_of_lastRecorded (h : lastRecorded c var need calls = some sizes) :
    ((c.domainVec 0).withValues sizes).values = sizes :=
  DimVec.values_withValues ((of_lastRecorded h).2.1.trans (c.length_domainVec 0).symm)

/-- The stencil keeps what some calls have recorded last. -/
structure Recalls (c : Catalog) (calls : List Call) (s : Stencil) : Prop where
  catalog : s.catalog = c
  keyed : s.Keyed
  requirement : ∀ var need, s.requirement? var need =
    (lastRecorded c var need calls).map (c.domainVec 0).withValues

theorem Recalls.addVar (h : Recalls c calls s) (name : String) :
    Recalls c (calls ++ [.var name]) (s.withVar name) := by
  refine ⟨(catalog_withVar s name).trans h.catalog, h.keyed.withVar name, fun var need => ?_⟩
  rw [requirement?_withVar h.keyed, h.requirement, lastRecorded, lastRecorded, recordedBy,
    recordedBy, List.filterMap_append]
  simp [Call.recorded?]

theorem Recalls.addHalo (h : Recalls c calls s) (var : String) (need : HaloNeed)
    (sizes : List Int) :
    Recalls c (calls ++ [.halo var need sizes]) ((addHalo var need sizes).run none s).state := by
  rw [run_addHalo]
  cases hrun : s.withHalo var need.stage need.left need.stepOffset sizes with
  | error e =>
    -- A call that fails records nothing.
    have hno : ¬ Accepts c sizes := by
      rw [← h.catalog, ← exists_withHalo_iff h.keyed var need, hrun]
      exact nofun
    refine ⟨h.catalog, h.keyed, fun var' need' => ?_⟩
    rw [h.requirement, lastRecorded, lastRecorded, recordedBy_append_halo,
      if_neg fun hall => hno hall.2.2, List.append_nil]
  | ok s' =>
    obtain ⟨haccepts, needs, hneeds, rfl⟩ := (withHalo_eq_ok h.keyed need).mp hrun
    rw [h.catalog] at haccepts
    refine ⟨(catalog_withVar s var).trans h.catalog,
      (h.keyed.withVar var).withNeed hneeds need _, fun var' need' => ?_⟩
    dsimp only
    rw [requirement?_withNeed hneeds, requirement?_withVar h.keyed, h.requirement, h.catalog,
      lastRecorded, lastRecorded, recordedBy_append_halo]
    by_cases hkey : var' = var ∧ need' = need
    · rw [if_pos hkey, if_pos ⟨hkey.1.symm, hkey.2.symm, haccepts⟩, List.getLast?_append]
      rfl
    · rw [if_neg hkey, if_neg fun hall => hkey ⟨hall.1.symm, hall.2.1.symm⟩, List.append_nil]

theorem recalls_after (c : Catalog) (name : String) (calls : List Call) :
    Recalls c calls ((new name c).after calls) := by
  induction calls using List.reverseRecOn with
  | nil => exact ⟨rfl, keyed_new name c, fun _ _ => rfl⟩
  | append_singleton calls call ih =>
    rw [after, List.foldl_append]
    cases call with
    | var name => exact ih.addVar name
    | halo var need sizes => exact ih.addHalo var need sizes

/-! ### The least widths that are enough -/

/-- The calls ask for the sizes on a side of a variable, in the stage or in any of the stages. -/
def Asks (c : Catalog) (calls : List Call) (var : String) (stage : Option String) (left : Bool)
    (sizes : List Int) : Prop :=
  ∃ need : HaloNeed, need.left = left ∧ (∀ st, stage = some st → need.stage = st) ∧
    lastRecorded c var need calls = some sizes

/-- Zero, and the sizes for one dimension that the calls ask for. -/
def asked (c : Catalog) (calls : List Call) (var : String) (stage : Option String) (left : Bool)
    (j : Nat) : Set Int :=
  {k | k = 0 ∨ ∃ sizes : List Int, Asks c calls var stage left sizes ∧ sizes[j]? = some k}

/-- A dimension has the greatest of zero and the sizes that are asked for. So the widths are enough
for all of these, and no smaller ones are. -/
structure LeastWidths (c : Catalog) (calls : List Call) (var : String) (stage : Option String)
    (left : Bool) (t : DimVec) : Prop where
  names : t.names = c.domain.names
  greatest : ∀ j n, t.values[j]? = some n → IsGreatest (asked c calls var stage left j) n
  covers : ∀ sizes, Asks c calls var stage left sizes → List.Forall₂ (· ≤ ·) sizes t.values
  least : ∀ u : DimVec, u.names = c.domain.names → (∀ n ∈ u.values, 0 ≤ n) →
    (∀ sizes, Asks c calls var stage left sizes → List.Forall₂ (· ≤ ·) sizes u.values) →
      List.Forall₂ (· ≤ ·) t.values u.values

theorem forall₂_le_iff {ns ms : List Int} : List.Forall₂ (· ≤ ·) ns ms ↔
    ns.length = ms.length ∧ ∀ (j : Nat) n m, ns[j]? = some n → ms[j]? = some m → n ≤ m := by
  rw [List.forall₂_iff_get]
  refine and_congr_right fun _ => ⟨fun h j n m hn hm => ?_, fun h j hn hm => ?_⟩
  · obtain ⟨hj, rfl⟩ := List.getElem?_eq_some_iff.mp hn
    obtain ⟨hj', rfl⟩ := List.getElem?_eq_some_iff.mp hm
    exact h j hj hj'
  · exact h j _ _ (List.getElem?_eq_getElem hn) (List.getElem?_eq_getElem hm)

theorem Asks.length (h : Asks c calls var stage left sizes) : sizes.length = c.domain.length := by
  obtain ⟨need, -, -, hlast⟩ := h
  exact (of_lastRecorded hlast).2.1

theorem length_values_of_names {t : DimVec} (h : t.names = c.domain.names) :
    t.values.length = c.domain.length := by
  rw [DimVec.length_values, ← DimVec.length_names, h, DimVec.length_names]

theorem lt_length_domain {t : DimVec} (h : t.names = c.domain.names) {j : Nat} {n : Int}
    (hn : t.values[j]? = some n) : j < c.domain.length :=
  length_values_of_names h ▸ (List.getElem?_eq_some_iff.mp hn).1

/-- What holds of the single places is all that there is to show. -/
theorem leastWidths_of_greatest {t : DimVec} (hnames : t.names = c.domain.names)
    (hgreatest : ∀ j n, t.values[j]? = some n → IsGreatest (asked c calls var stage left j) n) :
    LeastWidths c calls var stage left t := by
  refine ⟨hnames, hgreatest, fun sizes hsizes => ?_, fun u hu hnonneg hcovers => ?_⟩
  · refine forall₂_le_iff.mpr ⟨hsizes.length.trans (length_values_of_names hnames).symm, ?_⟩
    exact fun j n m hn hm => (hgreatest j m hm).2 (.inr ⟨sizes, hsizes, hn⟩)
  · refine forall₂_le_iff.mpr
      ⟨(length_values_of_names hnames).trans (length_values_of_names hu).symm, ?_⟩
    intro j n m hn hm
    rcases (hgreatest j n hn).1 with rfl | ⟨sizes, hsizes, hsize⟩
    · exact hnonneg m (List.mem_of_getElem? hm)
    · exact (forall₂_le_iff.mp (hcovers sizes hsizes)).2 j n m hsize hm

/-- Vectors over the domain dimensions are equal if the same is the greatest in each place. -/
theorem eq_of_isGreatest {t u : DimVec} (ht : t.names = c.domain.names)
    (hu : u.names = c.domain.names) {P : Nat → Set Int}
    (htg : ∀ j n, t.values[j]? = some n → IsGreatest (P j) n)
    (hug : ∀ j n, u.values[j]? = some n → IsGreatest (P j) n) : t = u := by
  refine DimVec.eq_of_names_of_values (ht.trans hu.symm) (List.ext_getElem ?_ fun j hj hj' => ?_)
  · rw [length_values_of_names ht, length_values_of_names hu]
  · exact (htg j _ (List.getElem?_eq_getElem hj)).unique (hug j _ (List.getElem?_eq_getElem hj'))

theorem names_haloWidths (s : Stencil) (var : String) (stage : Option String) (left : Bool) :
    (s.haloWidths var stage left).names = s.catalog.domain.names := by
  rw [haloWidths, DimVec.names_foldl_sup, Catalog.names_domainVec]

/-- The widths are worked out from what is asked for. -/
theorem Recalls.mem_iff (h : Recalls c calls s) {e : HaloNeed × DimVec} :
    (e ∈ ((s.halos.lookup var).getD []).filter fun e =>
      e.1.left = left ∧ stage.all (· = e.1.stage)) ↔
    e.1.left = left ∧ (∀ st, stage = some st → e.1.stage = st) ∧
      ∃ sizes, lastRecorded c var e.1 calls = some sizes ∧
        e.2 = (c.domainVec 0).withValues sizes := by
  have hkept : e ∈ (s.halos.lookup var).getD [] ↔ s.requirement? var e.1 = some e.2 := by
    rw [requirement?]
    cases hneeds : s.halos.lookup var with
    | none => simp
    | some needs => exact (lookup_eq_some_iff_mem (h.keyed.needs var needs hneeds)).symm
  have hstage : stage.all (· = e.1.stage) = true ↔ ∀ st, stage = some st → e.1.stage = st := by
    cases stage <;> simp [eq_comm]
  rw [List.mem_filter, hkept, h.requirement, Option.map_eq_some_iff]
  simp only [decide_eq_true_eq, hstage, eq_comm (b := e.2)]
  tauto

/-- The stencil has the widths that its calls ask for. -/
theorem Recalls.leastWidths (hc : c.WellFormed) (h : Recalls c calls s) (var : String)
    (stage : Option String) (left : Bool) :
    LeastWidths c calls var stage left (s.haloWidths var stage left) := by
  have hzero : (s.catalog.domainVec 0).names = c.domain.names := by
    rw [Catalog.names_domainVec, h.catalog]
  have hnames : (s.haloWidths var stage left).names = c.domain.names := by
    rw [names_haloWidths, h.catalog]
  refine leastWidths_of_greatest hnames fun j n hn => ?_
  have hlt := lt_length_domain hnames hn
  have hgreatest := DimVec.isGreatest_foldl_sup (hzero ▸ hc.nodup) (fun e he => by
    obtain ⟨-, -, sizes, -, hwidths⟩ := h.mem_iff.mp he
    rw [hwidths, DimVec.names_withValues, Catalog.names_domainVec, hzero]) hn
  -- In this place the vectors of the fold have the zero and the sizes that are asked for.
  have hset : {k | (s.catalog.domainVec 0).values[j]? = some k ∨
      ∃ e ∈ ((s.halos.lookup var).getD []).filter fun e =>
        e.1.left = left ∧ stage.all (· = e.1.stage), e.2.values[j]? = some k} =
      asked c calls var stage left j := by
    ext k
    refine or_congr ?_ ⟨?_, ?_⟩
    · rw [h.catalog, Catalog.domainVec, DimVec.values_fill, List.getElem?_replicate, if_pos hlt,
        Option.some.injEq, eq_comm]
    · rintro ⟨e, he, hk⟩
      obtain ⟨hleft, hstage, sizes, hlast, hwidths⟩ := h.mem_iff.mp he
      rw [hwidths, values_of_lastRecorded hlast] at hk
      exact ⟨sizes, ⟨e.1, hleft, hstage, hlast⟩, hk⟩
    · rintro ⟨sizes, ⟨need, hleft, hstage, hlast⟩, hk⟩
      refine ⟨(need, (c.domainVec 0).withValues sizes),
        h.mem_iff.mpr ⟨hleft, hstage, sizes, hlast, rfl⟩, ?_⟩
      rw [values_of_lastRecorded hlast, hk]
  exact hset ▸ hgreatest

/-- Asking for no stage in particular is asking for all that there are. -/
theorem Recalls.haloWidths_eq_foldl (hc : c.WellFormed) (h : Recalls c calls s) (var : String)
    (left : Bool) {stages : List String}
    (hstages : ∀ need sizes, need.left = left → lastRecorded c var need calls = some sizes →
      need.stage ∈ stages) : s.haloWidths var none left =
        stages.foldl (fun t st => t.sup (s.haloWidths var (some st) left)) (c.domainVec 0) := by
  have hall := h.leastWidths hc var none left
  have hone := fun st => h.leastWidths hc var (some st) left
  have hnames := (DimVec.names_foldl_sup (fun st => s.haloWidths var (some st) left) stages
    (c.domainVec 0)).trans (c.names_domainVec 0)
  refine eq_of_isGreatest hall.names hnames hall.greatest fun j n hn => ?_
  have hlt := lt_length_domain hnames hn
  obtain ⟨hmem, hupper⟩ := DimVec.isGreatest_foldl_sup (c.names_domainVec 0 ▸ hc.nodup)
    (fun st _ => (hone st).names.trans (c.names_domainVec 0).symm) hn
  -- In each dimension both sides are the greatest of the same widths.
  have hzero : (c.domainVec 0).values[j]? = some 0 := by
    rw [Catalog.domainVec, DimVec.values_fill, List.getElem?_replicate, if_pos hlt]
  refine ⟨?_, ?_⟩
  · rcases hmem with hmem | ⟨st, -, hst⟩
    · exact .inl (Option.some.inj (hmem.symm.trans hzero))
    · refine ((hone st).greatest j n hst).1.imp_right ?_
      rintro ⟨sizes, ⟨need, hleft, -, hlast⟩, hsize⟩
      exact ⟨sizes, ⟨need, hleft, nofun, hlast⟩, hsize⟩
  · rintro k (rfl | ⟨sizes, ⟨need, hleft, -, hlast⟩, hsize⟩)
    · exact hupper (.inl hzero)
    · obtain ⟨m, hm⟩ : ∃ m, (s.haloWidths var (some need.stage) left).values[j]? = some m :=
        ⟨_, List.getElem?_eq_getElem
          (by rw [length_values_of_names (hone need.stage).names]; exact hlt)⟩
      have hasks : Asks c calls var (some need.stage) left sizes :=
        ⟨need, hleft, fun st hst => Option.some.inj hst, hlast⟩
      exact Int.le_trans (((hone need.stage).greatest j m hm).2 (.inr ⟨sizes, hasks, hsize⟩))
        (hupper (.inr ⟨need.stage, hstages need sizes hleft hlast, hm⟩))

/-- The widths of a stencil are the least that are enough for what its calls have recorded last. All
stages together need the greater of what the single stages need. Calls may be made in another order,
as long as those that record the same requirement keep theirs. A call that fails leaves the stencil
as it was. -/
theorem haloWidths_least (hc : c.Built) (name : String) (calls : List Call) :
    (∀ var stage left, LeastWidths c calls var stage left
      (((new name c).after calls).haloWidths var stage left)) ∧
    (∀ var left (stages : List String), (∀ need sizes, need.left = left →
        lastRecorded c var need calls = some sizes → need.stage ∈ stages) →
      ((new name c).after calls).haloWidths var none left =
        stages.foldl (fun t st => t.sup (((new name c).after calls).haloWidths var (some st) left))
          (c.domainVec 0)) ∧
    (∀ calls', (∀ var need, recordedBy c var need calls' = recordedBy c var need calls) →
      ∀ var stage left, ((new name c).after calls').haloWidths var stage left =
        ((new name c).after calls).haloWidths var stage left) ∧
    ∀ var need sizes, Task.FailsAt id (addHalo var need sizes) ∧
      ((((addHalo var need sizes).run none ((new name c).after calls)).result = .ok ()) ↔
        Accepts c sizes) := by
  have hwell := hc.wellFormed
  have hrecalls := recalls_after c name
  refine ⟨(hrecalls calls).leastWidths hwell, fun var left stages hstages =>
    (hrecalls calls).haloWidths_eq_foldl hwell var left hstages,
    fun calls' hsame var stage left => ?_, fun var need sizes =>
    ⟨failsAt_addHalo var need sizes, ?_⟩⟩
  · -- Widths depend on a sequence of calls only by what was recorded last.
    have hasked : asked c calls' var stage left = asked c calls var stage left := by
      funext j
      simp only [asked, Asks, lastRecorded, hsame]
    have hwidths' := (hrecalls calls').leastWidths hwell var stage left
    have hwidths := (hrecalls calls).leastWidths hwell var stage left
    exact eq_of_isGreatest hwidths'.names hwidths.names (hasked ▸ hwidths'.greatest)
      hwidths.greatest
  · obtain ⟨hcatalog, hkeyed, -⟩ := hrecalls calls
    have hok := exists_withHalo_iff hkeyed var need sizes
    rw [hcatalog] at hok
    rw [← hok, run_addHalo]
    cases ((new name c).after calls).withHalo var need.stage need.left need.stepOffset sizes with
    | ok s' => exact iff_of_true rfl ⟨s', rfl⟩
    | error e => exact iff_of_false nofun nofun

namespace Staged

def catalog : Catalog := (Catalog.declare "t" ["x", "y"] []).toOption.getD default

/-- Two stages need points on the left. The last call is refused. -/
def requests : List Call :=
  [.halo "p" ⟨"main", true, 0⟩ [2, 1], .halo "p" ⟨"main", true, 1⟩ [4, 0],
    .halo "p" ⟨"bc", true, 0⟩ [1, 3], .halo "p" ⟨"bc", true, 0⟩ [9, -1]]

/-- The stencil when all these calls were made. -/
def stencil : Stencil := (new "staged" catalog).after requests

/-- The calls that are accepted, from the last one to the first. -/
def swapped : List Call :=
  [.halo "p" ⟨"bc", true, 0⟩ [1, 3], .halo "p" ⟨"main", true, 1⟩ [4, 0],
    .halo "p" ⟨"main", true, 0⟩ [2, 1]]

theorem built : catalog.Built :=
  .declare (show Catalog.declare "t" ["x", "y"] [] = .ok catalog by decide +kernel)

theorem recordedBy_swapped (var : String) (need : HaloNeed) :
    recordedBy catalog var need swapped = recordedBy catalog var need requests := by
  have hlast : ¬ Accepts catalog [9, -1] := by decide +kernel
  -- The requirements of the three calls are distinct, so at most one of them has this key.
  simp only [swapped, requests, recordedBy_cons_halo, hlast, and_false, if_false]
  by_cases hbc : (⟨"bc", true, 0⟩ : HaloNeed) = need
  · subst hbc
    simp
  · by_cases hmain : (⟨"main", true, 0⟩ : HaloNeed) = need
    · subst hmain
      simp
    · simp [hbc, hmain]

end Staged

theorem haloWidths_least_staged :
    LeastWidths Staged.catalog Staged.requests "p" none true
      (Staged.stencil.haloWidths "p" none true) ∧
    (Staged.stencil.haloWidths "p" none true).values = [4, 3] ∧
    Staged.stencil.haloWidths "p" none true =
      (["main", "bc"].foldl (fun t st => t.sup (Staged.stencil.haloWidths "p" (some st) true))
        (Staged.catalog.domainVec 0)) ∧
    ((new "staged" Staged.catalog).after Staged.swapped).haloWidths "p" none true =
      Staged.stencil.haloWidths "p" none true ∧
    (((addHalo "p" ⟨"bc", true, 0⟩ [9, -1]).run none Staged.stencil).result ≠ .ok ()) := by
  obtain ⟨hleast, hstages, horder, hfails⟩ :=
    haloWidths_least Staged.built "staged" Staged.requests
  refine ⟨hleast "p" none true, by decide +kernel, hstages "p" true _ fun need sizes _ hlast => ?_,
    horder _ Staged.recordedBy_swapped "p" none true,
    fun hok => absurd ((hfails "p" ⟨"bc", true, 0⟩ [9, -1]).2.mp hok) (by decide +kernel)⟩
  have hmem := (of_lastRecorded hlast).1
  simp only [Staged.requests, List.mem_cons, Call.halo.injEq, List.not_mem_nil, or_false] at hmem
  rcases hmem with ⟨-, rfl, -⟩ | ⟨-, rfl, -⟩ | ⟨-, rfl, -⟩ | ⟨-, rfl, -⟩ <;> decide

end Stencil

end StencilPlan
