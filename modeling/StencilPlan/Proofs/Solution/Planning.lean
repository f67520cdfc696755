import StencilPlan.Proofs.Follows
import StencilPlan.Proofs.Solution.Phases
import StencilPlan.Proofs.Threads.Budget
import StencilPlan.Solution.Tuning

/-!
# What a rank plans by itself

Up to the meeting with the others a rank works out its place, its plan and its threads from the
settings alone (`Designs`): the verbosity has no part in it (`Station.yields_draft`), and there is
one such design at most. Placing the rank never looks at the sizes of tiles, so for other sizes of
tiles the design is the old one with a new plan, and that plan is what the levels resolve to on the
old place (`Designs.retuned`).
-/

namespace StencilPlan

open StencilPlan.Task

variable {c : Catalog}

/-! ### Placing a rank -/

theorem follows_fillGrid (ranks : Nat) : Follows id (fillGrid ranks) (fillGrid ranks) := by
  refine follows_bind_get fun grid => ?_
  dsimp only [id]
  split
  · exact follows_reject _
  · refine follows_bind (follows_checked _) fun fixed => follows_ite ?_ (follows_guard ?_)
    · exact follows_ite (follows_reject _) (follows_pure _)
    · exact follows_bind (follows_set rfl) fun _ => follows_bind (follows_checked _) fun _ =>
        follows_bind (follows_checked _) fun _ => follows_bind (follows_set rfl) fun _ =>
          follows_note _ _

theorem follows_build (grid indices : DimVec) :
    Follows id (Topology.build grid indices) (Topology.build grid indices) := by
  refine follows_guard (follows_bind (follows_planError _) fun _ => ?_)
  refine follows_bind (follows_checked _) fun rank => ?_
  cases rank with
  | none => exact follows_bind (follows_checked _) fun _ => follows_reject _
  | some rank =>
    exact follows_bind (follows_checked _) fun _ => follows_bind (follows_checked _) fun _ =>
      follows_bind (follows_checked _) fun _ => follows_bind (follows_checked _) fun _ =>
        follows_bind (follows_note _ _) fun _ => follows_pure _

/-- The sizes of tiles have no part in the share of a rank. -/
theorem follows_placeDim (topology : Topology) (offsets : DimVec) (d : DimPlace) (t : Settings) :
    Follows (·.withTilesOf t) (placeDim c topology offsets d) (placeDim c topology offsets d) := by
  refine follows_bind_get fun s => follows_bind (follows_checked _) fun _ =>
    follows_bind (follows_checked _) fun _ => ?_
  dsimp only
  refine follows_ite (follows_bind (follows_outcome _) fun share => ?_)
    (follows_bind (follows_checked _) fun _ => follows_ite
      (follows_bind (follows_checked _) fun _ => follows_bind (follows_modify fun _ => rfl) fun _ =>
        follows_bind (follows_checked _) fun _ => follows_bind (follows_pure _) fun share => ?_)
      (follows_ite
        (follows_bind (follows_note _ _) fun _ => follows_bind (follows_checked _) fun _ =>
          follows_bind (follows_pure _) fun share => ?_)
        (follows_bind (follows_checked _) fun _ => follows_bind (follows_pure _) fun share => ?_)))
  -- However the share was found, it is entered in the same way.
  all_goals
    obtain ⟨size, offset⟩ := share
    exact follows_bind (follows_checked _) fun _ => follows_bind (follows_checked _) fun _ =>
      follows_guard (follows_bind (follows_checked _) fun _ =>
        follows_bind (follows_modify fun _ => rfl) fun _ => follows_pure _)

theorem follows_placeDims (topology : Topology) (offsets : DimVec) (ds : List DimPlace)
    (t : Settings) : Follows (·.withTilesOf t) (placeDims c topology offsets ds)
      (placeDims c topology offsets ds) := by
  induction ds generalizing offsets with
  | nil => exact follows_pure _
  | cons d ds ih => exact follows_bind (follows_placeDim topology offsets d t) fun _ => ih _

/-- The sizes of tiles have no part in where a rank is placed. -/
theorem follows_placeRank (me ranks : Nat) (t : Settings) :
    Follows (·.withTilesOf t) (placeRank c me ranks) (placeRank c me ranks) := by
  refine follows_bind (follows_zoom (follows_fillGrid ranks) (fun _ => rfl) fun _ _ => rfl)
    fun _ => follows_bind_get fun s => ?_
  refine follows_ite (follows_bind (follows_modify fun _ => rfl) fun _ => ?_) ?_
  -- The rank indices are there now, given or not.
  all_goals
    exact follows_bind_get fun s => follows_bind (follows_stateless (follows_build _ _)) fun _ =>
      follows_guard (follows_bind (follows_placeDims _ _ _ t) fun _ =>
        follows_bind (follows_modify fun _ => rfl) fun _ => follows_bind_get fun _ =>
          follows_bind (follows_note _ _) fun _ => follows_pure _)

/-! ### Resolving the levels -/

theorem follows_clampEntries (parent : DimVec) (level : Level) (stepDim : String)
    (es : List (String × Int)) : Follows id (clampEntries parent level stepDim es)
      (clampEntries parent level stepDim es) := by
  induction es with
  | nil => exact follows_pure _
  | cons e es ih =>
    obtain ⟨dim, size⟩ := e
    refine follows_ite (follows_bind (follows_note _ _) fun _ => ?_) ?_
    all_goals
      exact follows_bind (follows_pure _) fun _ => follows_bind ih fun _ => follows_pure _

theorem follows_cutTiles (parent : DimVec) (parentLabel : String) (child : DimVec)
    (childLabel : String) (mults : DimVec) (stepDim : String) :
    Follows id (cutTiles parent parentLabel child childLabel mults stepDim)
      (cutTiles parent parentLabel child childLabel mults stepDim) :=
  follows_bind (follows_checked _) fun _ => follows_bind (follows_note _ _) fun _ => follows_pure _

namespace Settings

variable (s : Settings)

theorem follows_cutLevel (parent child : Level) (mults : DimVec) (stepDim : String) :
    Follows id (s.cutLevel parent child mults stepDim) (s.cutLevel parent child mults stepDim) :=
  follows_bind (follows_clampEntries _ _ _ _) fun _ =>
    follows_bind (follows_cutTiles _ _ _ _ _ _) fun _ => follows_pure _

theorem follows_cutGroup (parent group grouped : Level) (stepDim : String) :
    Follows id (s.cutGroup parent group grouped stepDim)
      (s.cutGroup parent group grouped stepDim) :=
  follows_bind (follows_cutTiles _ _ _ _ _ _) fun _ => follows_pure _

theorem follows_resolveSteps (stepDim : String) :
    Follows id (s.resolveSteps stepDim) (s.resolveSteps stepDim) := by
  refine follows_ite (follows_bind (follows_note _ _) fun _ => ?_) ?_
  all_goals exact follows_bind (follows_pure _) fun _ => follows_pure _

/-- What the levels resolve to does not depend on what is written about it. -/
theorem follows_resolve : Follows id (s.resolve c) (s.resolve c) := by
  refine follows_bind (follows_outcome _) fun _ => follows_bind (s.follows_resolveSteps _) fun s =>
    follows_bind (s.follows_cutLevel _ _ _ _) fun _ => follows_bind (follows_note _ _) fun _ =>
    follows_bind (follows_cutLevel _ _ _ _ _) fun _ => follows_bind (follows_note _ _) fun _ =>
    follows_bind (follows_cutLevel _ _ _ _ _) fun _ => follows_bind (follows_note _ _) fun _ =>
    follows_bind (follows_checked _) fun _ =>
    follows_bind (follows_cutLevel _ _ _ _ _) fun _ => follows_bind (follows_note _ _) fun _ =>
    follows_ite (follows_bind (follows_checked _) fun _ => follows_bind (follows_note _ _) fun _ =>
      ?_) ?_
  all_goals
    exact follows_bind (follows_pure _) fun _ =>
      follows_bind (follows_cutGroup _ _ _ _ _) fun _ =>
      follows_bind (follows_cutGroup _ _ _ _ _) fun _ =>
      follows_bind (follows_cutGroup _ _ _ _ _) fun _ =>
      follows_bind (follows_outcome _) fun _ => follows_bind (follows_note _ _) fun _ =>
      follows_pure _

end Settings

/-! ### The design of a rank -/

section Designs

variable {host : Host} {me ranks : Nat} {s s' : Settings} {placement placement' : Placement}
  {plan plan' : Plan} {p q : Prepared} {v : Verbosity}

/-- What a rank plans for some settings: they are resolved once the place and the domain that were
found for the rank are in them. -/
structure Plans (c : Catalog) (me ranks : Nat) (s : Settings) (placement : Placement)
    (plan : Plan) : Prop where
  placed : (placeRank c me ranks).Yields none s placement (s.placedAs plan)
  resolved : ((s.placedAs plan).resolve c).Yields none () plan ()

theorem plans_of_yields {placed : Settings}
    (hplace : (placeRank c me ranks).Yields v s placement placed)
    (hresolve : (placed.resolve c).Yields v () plan ()) : Plans c me ranks s placement plan := by
  -- Placing the rank changes its place and its domain, and resolving keeps both.
  have hplaced : s.withPlaceOf placed = placed := by
    have hsettings := (Placed.of_yields hplace).settings
    rw [hsettings]
    rfl
  have hsame : s.placedAs plan = placed :=
    ((Settings.of_resolve hresolve).1.withPlaceOf_eq s).trans hplaced
  have htiles : placed.withTilesOf s = placed := by
    rw [← hplaced]
    rfl
  constructor
  · rw [hsame]
    exact htiles ▸ (follows_placeRank me ranks s).yields none hplace
  · rw [hsame]
    exact placed.follows_resolve.yields none hresolve

namespace Plans

theorem unique (h : Plans c me ranks s placement plan) (h' : Plans c me ranks s placement' plan') :
    placement = placement' ∧ plan = plan' := by
  obtain ⟨rfl, hplaced⟩ := h.placed.unique h'.placed
  have hresolved : ((s.placedAs plan).resolve c).Yields none () plan' () := by
    rw [hplaced]
    exact h'.resolved
  exact ⟨rfl, (h.resolved.unique hresolved).1⟩

/-- A plan changes the sizes of tiles of the settings in the place that was found. -/
theorem sameButTiles (h : Plans c me ranks s placement plan) :
    Settings.SameButTiles (s.placedAs plan) plan.sizes := (Settings.of_resolve h.resolved).1

/-- With other sizes of tiles the rank is placed as before, and it plans what the levels resolve to
on that place. -/
theorem retuned (h : Plans c me ranks s placement plan) (hs : Settings.SameButTiles s s')
    (hresolve : ((s'.placedAs plan).resolve c).Yields v () plan' ()) :
    Plans c me ranks s' placement plan' := by
  have hplaced := (follows_placeRank me ranks s').yields none h.placed
  have htiles : (s.placedAs plan).withTilesOf s' = s'.placedAs plan := by
    rw [← hs]
    rfl
  have hplace : s'.placedAs plan' = s'.placedAs plan :=
    (Settings.of_resolve hresolve).1.withPlaceOf_eq s'
  constructor
  · rw [hplace, ← htiles]
    exact hs ▸ hplaced
  · rw [hplace]
    exact (s'.placedAs plan).follows_resolve.yields none hresolve

end Plans

/-- What a rank drafts for some settings: what it plans, with the threads for that. -/
structure Designs (c : Catalog) (host : Host) (ranks : Nat) (s : Settings) (p : Prepared) :
    Prop where
  plans : Plans c host.rank ranks s ⟨p.topology, p.offsets⟩ p.plan
  threads : p.threads = .split (p.plan.sizes.threadBudget host.threads)
    p.plan.sizes.threadDivisor p.plan.sizes.blockThreads

namespace Designs

theorem unique (h : Designs c host ranks s p) (h' : Designs c host ranks s q) : p = q := by
  obtain ⟨hplacement, hplan⟩ := h.plans.unique h'.plans
  obtain ⟨htopology, hoffsets⟩ := Placement.mk.inj hplacement
  have hthreads := h.threads
  rw [hplan, ← h'.threads] at hthreads
  cases p
  cases q
  simp_all

theorem sound (h : Designs c host ranks s p) : p.topology.Sound p.topology.grid := by
  have hplaced := Placed.of_yields h.plans.placed
  exact hplaced.topology_grid ▸ hplaced.topology

/-- For other sizes of tiles only the plan is another one. -/
theorem retuned (h : Designs c host ranks s p) (hs : Settings.SameButTiles s s')
    (hresolve : ((s'.placedAs p.plan).resolve c).Yields v () plan' ()) :
    Settings.SameButTiles p.plan.sizes plan'.sizes ∧
      Designs c host ranks s' { p with plan := plan' } := by
  have hsame : Settings.SameButTiles p.plan.sizes plan'.sizes :=
    h.plans.sameButTiles.symm.trans <| (hs.withPlaceOf p.plan.sizes).trans <|
      (Settings.of_resolve hresolve).1
  refine ⟨hsame, h.plans.retuned hs hresolve, ?_⟩
  -- The tiles have no part in the threads.
  exact h.threads.trans (hsame.proj (f := fun u => ThreadSplit.split (u.threadBudget host.threads)
    u.threadDivisor u.blockThreads) fun _ _ => rfl).symm

end Designs

/-! ### Drafting -/

namespace Station

variable {ν : Type} [Transport ν] {st st' : Station ν}

theorem yields_planAhead : planAhead.Yields v st (placement, plan) st' ↔
    st' = st ∧ Plans st.solution.catalog st.solution.host.rank st.ranks st.solution.settings
      placement plan := by
  simp only [planAhead, Task.yields_bind_get, Task.yields_bind (x := Task.apart _ _),
    Task.yields_apart, Task.yields_bind_stateless, Task.yields_pure, Prod.mk.injEq]
  constructor
  · rintro ⟨⟨_, placed⟩, _, ⟨hplace, rfl⟩, _, hresolve, ⟨rfl, rfl⟩, rfl⟩
    exact ⟨rfl, plans_of_yields hplace hresolve⟩
  · rintro ⟨rfl, h⟩
    have htiles : (st'.solution.settings.placedAs plan).withTilesOf st'.solution.settings =
        st'.solution.settings.placedAs plan := rfl
    refine ⟨⟨placement, st'.solution.settings.placedAs plan⟩, st', ⟨?_, rfl⟩, plan, ?_, ⟨rfl, rfl⟩,
      rfl⟩
    · exact htiles ▸ (follows_placeRank _ _ st'.solution.settings).yields v h.placed
    · exact (Settings.follows_resolve _).yields v h.resolved

theorem yields_draft : draft.Yields v st p st' ↔ unprepare.Yields v st () st' ∧
    Designs st.solution.catalog st.solution.host st.ranks st.solution.settings p := by
  simp only [draft, Task.yields_bind (x := unprepare), Task.yields_bind_get, Task.yields_bind_note,
    Task.yields_bind (x := planAhead), Task.yields_bind_stateless, Task.yields_pure,
    ThreadSplit.yields_compute]
  constructor
  · rintro ⟨_, st₁, hunprepare, ⟨placement, plan⟩, _, hplan, _, rfl, rfl, rfl⟩
    obtain ⟨rfl, hplans⟩ := yields_planAhead.mp hplan
    have hkeeps := of_unprepare hunprepare
    rw [hkeeps.catalog, hkeeps.ranks, hkeeps.host, hkeeps.settings] at hplans
    exact ⟨hunprepare, hplans, by rw [hkeeps.host]⟩
  · rintro ⟨hunprepare, hdesigns⟩
    have hkeeps := of_unprepare hunprepare
    refine ⟨(), st', hunprepare, ⟨⟨p.topology, p.offsets⟩, p.plan⟩, st',
      yields_planAhead.mpr ⟨rfl, ?_⟩, _, rfl, ?_, rfl⟩
    · rw [hkeeps.catalog, hkeeps.ranks, hkeeps.host, hkeeps.settings]
      exact hdesigns.plans
    · rw [hkeeps.host, ← hdesigns.threads]

end Station

end Designs

end StencilPlan
