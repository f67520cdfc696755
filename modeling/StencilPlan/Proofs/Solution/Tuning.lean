import Mathlib.Logic.Relation
import StencilPlan.Proofs.Solution.Calls
import StencilPlan.Proofs.Solution.Sending

/-!
# Trials of a tuner

A trial resolves the levels again on the place that was found when the solution was prepared. That
this is what a preparation would come to rests on two facts: a candidate changes sizes of tiles
only, which have no part in placing a rank, and a trial starts from the settings of the caller, so
nothing that was resolved before gets into it. Both are in one invariant (`Solution.Designed`): what
is prepared is designed for settings that differ from the present ones in tiles at most.
-/

namespace StencilPlan

open StencilPlan.Task

/-! ### Candidates -/

theorem Settings.sameButTiles_withCandidate {s : Settings} (c : Catalog) {l : Level}
    (hl : l ≠ .localDomain) (dim : String) (n : Int) :
    SameButTiles s (s.withCandidate c l dim n) := by
  cases l <;> first | rfl | exact absurd rfl hl

namespace Station

variable {ν : Type} {st st' : Station ν} {v : Verbosity} {l : Level} {dim : String} {n : Int}
  {report : CandidateReport}

/-- The station with other settings. -/
def withSettings (st : Station ν) (settings : Settings) : Station ν :=
  { st with solution := { st.solution with settings } }

theorem of_propose {a : Unit} (h : (propose l dim n).Yields v st a st') : l ≠ .localDomain ∧
    st' = st.withSettings
      (st.solution.settings.withCandidate st.solution.catalog l dim n) := by
  simp only [propose, yields_guard, yields_bind_get, yields_bind_planError, yields_bind_note,
    onSettings, yields_zoom, yields_modify] at h
  obtain ⟨hl, _, -, _, rfl, rfl⟩ := h
  exact ⟨hl, rfl⟩

theorem failsAt_propose : FailsAt id (propose l dim n : Task (Station ν) Unit) :=
  failsAt_guard <| failsAt_bind_get fun _ => failsAt_bind_planError fun _ =>
    failsAt_bind_note fun _ _ _ _ hf => by cases hf

theorem of_resolveTrial (h : resolveTrial.Yields v st report st') : ∃ p plan,
    st.solution.prepared = some p ∧
      ((st.solution.settings.placedAs p.plan).resolve st.solution.catalog).Yields v () plan () ∧
      st' = { st with solution := { st.solution with prepared := some { p with plan } } } := by
  simp only [resolveTrial, yields_bind_get, yields_bind_planError, yields_bind_stateless,
    yields_bind_checked, yields_bind_modify, yields_pure] at h
  obtain ⟨p, hp, plan, hresolve, _, -, -, rfl⟩ := h
  refine ⟨p, plan, ?_, hresolve, rfl⟩
  unfold Solution.require at hp
  split at hp
  · next p' hprepared =>
    rw [hprepared, Except.ok.inj hp]
  · cases hp

theorem failsAt_resolveTrial : FailsAt id (resolveTrial : Task (Station ν) CandidateReport) :=
  failsAt_bind_get fun _ => failsAt_bind_planError fun _ => failsAt_bind_stateless fun _ =>
    failsAt_bind_checked fun _ _ _ _ hf => by cases hf

end Station

/-! ### What trials keep -/

namespace Solution

variable {ν : Type} {ranks : Nat} {s s₁ s₂ s' : Solution} {p : Prepared}

/-- What is prepared is designed for settings that differ from the present ones in tiles at most. -/
def Designed (ranks : Nat) (s : Solution) (p : Prepared) : Prop :=
  ∃ asked, Settings.SameButTiles asked s.settings ∧ Designs s.catalog s.host ranks asked p

variable (ν) in
/-- A call of a tuner: a candidate or a trial, with whatever comes of it. -/
inductive Tunes (s : Solution) : Solution → Prop
  | propose (l : Level) (dim : String) (n : Int) (v : Verbosity) (w : World ν) :
      Tunes s ((Station.propose l dim n).run v ⟨s, w⟩).state.solution
  | resolve (v : Verbosity) (w : World ν) :
      Tunes s (Station.resolveTrial.run v ⟨s, w⟩).state.solution

theorem tunes_of_propose {l : Level} {dim : String} {n : Int} {r : Except PlanError Unit}
    (h : Answers ν (Station.propose l dim n) s r s') : Tunes ν s s' := by
  obtain ⟨v, w, w', hreturns⟩ := h
  have hstep : Tunes ν s _ := .propose l dim n v w
  rwa [(returns_iff.mp hreturns).2] at hstep

theorem tunes_of_resolveTrial {r : Except PlanError CandidateReport}
    (h : Answers ν Station.resolveTrial s r s') : Tunes ν s s' := by
  obtain ⟨v, w, w', hreturns⟩ := h
  have hstep : Tunes ν s _ := .resolve v w
  rwa [(returns_iff.mp hreturns).2] at hstep

/-- What was prepared by `s₁` is there, but for the plan. -/
structure Tuned (ranks : Nat) (s₁ : Solution) (p : Prepared) (s : Solution) : Prop where
  host : s.host = s₁.host
  stencil : s.stencil = s₁.stencil
  halos : s.halos = s₁.halos
  prepared : ∃ plan, s.prepared = some { p with plan } ∧ s.Designed ranks { p with plan }

/-- What a call of a tuner can do: nothing, set a candidate, or put in another plan. -/
theorem of_tunes (h : Tunes ν s s') : s' = s ∨
    (∃ (l : Level) (dim : String) (n : Int), l ≠ .localDomain ∧
      s' = { s with settings := s.settings.withCandidate s.catalog l dim n }) ∨
    ∃ (v : Verbosity) (p : Prepared) (plan : Plan), s.prepared = some p ∧
      ((s.settings.placedAs p.plan).resolve s.catalog).Yields v () plan () ∧
      s' = { s with prepared := some { p with plan } } := by
  cases h with
  | propose l dim n v w =>
    cases hresult : ((Station.propose l dim n).run v ⟨s, w⟩).result with
    | error f => exact .inl (by rw [Station.failsAt_propose v _ f hresult, id])
    | ok a =>
      obtain ⟨hl, hst⟩ := Station.of_propose (yields_of_result hresult)
      exact .inr (.inl ⟨l, dim, n, hl, by rw [hst, Station.withSettings]⟩)
  | resolve v w =>
    cases hresult : (Station.resolveTrial.run v ⟨s, w⟩).result with
    | error f => exact .inl (by rw [Station.failsAt_resolveTrial v _ f hresult, id])
    | ok report =>
      obtain ⟨p, plan, hp, hresolve, hst⟩ := Station.of_resolveTrial (yields_of_result hresult)
      exact .inr (.inr ⟨v, p, plan, hp, hresolve, by rw [hst]⟩)

/-- A candidate has no part in what is designed up to tiles. -/
theorem Designed.withCandidate (h : s.Designed ranks p) {l : Level} (hl : l ≠ .localDomain)
    (dim : String) (n : Int) : Designed ranks
      { s with settings := s.settings.withCandidate s.catalog l dim n } p := by
  obtain ⟨asked, hsame, hdesigns⟩ := h
  exact ⟨asked, hsame.trans (Settings.sameButTiles_withCandidate _ hl dim n), hdesigns⟩

/-- A trial comes to what is designed for the present settings. -/
theorem Designed.retuned (h : s.Designed ranks p) {v : Verbosity} {plan : Plan}
    (hresolve : ((s.settings.placedAs p.plan).resolve s.catalog).Yields v () plan ()) :
    Settings.SameButTiles p.plan.sizes plan.sizes ∧
      Designs s.catalog s.host ranks s.settings { p with plan } := by
  obtain ⟨asked, hsame, hdesigns⟩ := h
  exact hdesigns.retuned hsame hresolve

theorem Tuned.step (h : Tuned ranks s₁ p s) (htunes : Tunes ν s s') : Tuned ranks s₁ p s' := by
  obtain ⟨plan, hprepared, hdesigned⟩ := h.prepared
  rcases of_tunes htunes with rfl | ⟨l, dim, n, hl, rfl⟩ | ⟨v, q, plan', hq, hresolve, rfl⟩
  · exact h
  · exact ⟨h.host, h.stencil, h.halos, plan, hprepared, hdesigned.withCandidate hl dim n⟩
  · obtain rfl := Option.some.inj (hq.symm.trans hprepared)
    exact ⟨h.host, h.stencil, h.halos, plan', rfl, s.settings, .refl _,
      (hdesigned.retuned hresolve).2⟩

theorem Tuned.run (h : Tuned ranks s₁ p s) (htunes : Relation.ReflTransGen (Tunes ν) s s') :
    Tuned ranks s₁ p s' := by
  induction htunes with
  | refl => exact h
  | tail _ hstep ih => exact ih.step hstep

section Network

variable [Transport ν]

/-- What is designed for the settings is what every draft comes to. -/
theorem exists_draft (v : Verbosity) (w : World ν)
    (h : Designs s.catalog s.host (Transport.size w.net) s.settings p) :
    ∃ st, Station.draft.Yields v ⟨s, w⟩ p st := by
  obtain ⟨_, st, hunprepare⟩ := Station.exists_unprepare v ⟨s, w⟩
  exact ⟨st, Station.yields_draft.mpr ⟨hunprepare, h⟩⟩

/-- What is designed for the settings is what every preparation that goes through comes to. -/
theorem prepared_of_prepare (h : Designs s.catalog s.host ranks s.settings p)
    (hprepare : PrepareAnswers ν ranks s (.ok ()) s') : s'.prepared = some p := by
  obtain ⟨q, hequips⟩ := equips_of_prepare hprepare
  rw [hequips.prepared, h.unique hequips.designs]

theorem Equips.designed (h : Equips ranks s p s') : s'.Designed ranks p := by
  refine ⟨s'.settings, .refl _, ?_⟩
  rw [catalog, h.stencil, h.host, h.settings]
  exact h.designs

theorem tuned_of_prepare (h : PrepareAnswers ν ranks s (.ok ()) s₁) :
    ∃ p, s₁.prepared = some p ∧ Tuned ranks s₁ p s₁ := by
  obtain ⟨p, hequips⟩ := equips_of_prepare h
  exact ⟨p, hequips.prepared, rfl, rfl, rfl, p.plan, hequips.prepared, hequips.designed⟩

/-- After a preparation and any number of candidates and trials, a trial that succeeds puts in the
plan that a preparation would come to from the present settings, and nothing else of what was
prepared changes; the halo buffers are the same too. A trial that fails changes nothing. -/
theorem trials_plan_as_prepare (hprepare : PrepareAnswers ν ranks s (.ok ()) s₁)
    (htunes : Relation.ReflTransGen (Tunes ν) s₁ s₂) : ∃ p, s₁.prepared = some p ∧
      (∀ (v : Verbosity) (w : World ν) (report : CandidateReport) (st : Station ν),
        Station.resolveTrial.Yields v ⟨s₂, w⟩ report st → ∃ plan,
          st.solution.prepared = some { p with plan } ∧ st.solution.halos = s₁.halos ∧
            (∀ (v : Verbosity) (w : World ν), Transport.size w.net = ranks →
              ∃ st', Station.draft.Yields v ⟨st.solution, w⟩ { p with plan } st') ∧
            ∀ s', PrepareAnswers ν ranks st.solution (.ok ()) s' →
              s'.prepared = some { p with plan }) ∧
      ∀ (v : Verbosity) (w : World ν) (f : Failure),
        (Station.resolveTrial.run v ⟨s₂, w⟩).result = .error f →
          (Station.resolveTrial.run v ⟨s₂, w⟩).state = ⟨s₂, w⟩ := by
  obtain ⟨p, hp, htuned⟩ := tuned_of_prepare hprepare
  have hkept := htuned.run htunes
  obtain ⟨plan₀, hprepared, hdesigned⟩ := hkept.prepared
  refine ⟨p, hp, fun v w report st htrial => ?_,
    fun v w f hf => Station.failsAt_resolveTrial v _ f hf⟩
  obtain ⟨q, plan, hq, hresolve, rfl⟩ := Station.of_resolveTrial htrial
  obtain rfl := Option.some.inj (hq.symm.trans hprepared)
  have hdesigns : Designs s₂.catalog s₂.host ranks s₂.settings { p with plan } :=
    (hdesigned.retuned hresolve).2
  exact ⟨plan, rfl, hkept.halos, fun v w hw => exists_draft v w (hw ▸ hdesigns),
    fun _ hagain => prepared_of_prepare (s := { s₂ with prepared := some { p with plan } })
      hdesigns hagain⟩

end Network

end Solution

namespace Wide

/-- The prepared rank with blocks of two points to be tried. -/
def candidate : Station Universe := ((Station.propose .block "x" 2).run none prepared).state

/-- The rank after that trial. -/
def tried : Station Universe := (Station.resolveTrial.run none candidate).state

theorem yields_tried : ∃ report, Station.resolveTrial.Yields none candidate report tried :=
  exists_yields_of_isSome (by decide +kernel)

theorem tunes_candidate : Solution.Tunes Universe prepared.solution candidate.solution :=
  .propose .block "x" 2 none prepared.world

end Wide

/-- Of the rank with four points, for which another plan is found by a trial. -/
theorem trials_plan_as_prepare_wide :
    Solution.PrepareAnswers Universe 2 Wide.station.solution (.ok ()) Wide.prepared.solution ∧
    Relation.ReflTransGen (Solution.Tunes Universe) Wide.prepared.solution
      Wide.candidate.solution ∧
    (Wide.tried.solution.prepared.map fun p => p.plan.counts) ≠
      (Wide.prepared.solution.prepared.map fun p => p.plan.counts) ∧
    ∃ p plan, Wide.prepared.solution.prepared = some p ∧
      Wide.tried.solution.prepared = some { p with plan } ∧
      ∀ s', Solution.PrepareAnswers Universe 2 Wide.tried.solution (.ok ()) s' →
        s'.prepared = some { p with plan } := by
  have hprepare : Solution.PrepareAnswers Universe 2 Wide.station.solution (.ok ())
      Wide.prepared.solution :=
    Solution.prepareAnswers_of_prepare (w := Wide.station.world)
      (returns_ok.mpr Wide.yields_prepared)
  have htunes := Relation.ReflTransGen.single Wide.tunes_candidate
  obtain ⟨p, hp, htrial, -⟩ := Solution.trials_plan_as_prepare hprepare htunes
  obtain ⟨report, hyields⟩ := Wide.yields_tried
  obtain ⟨plan, hplan, -, -, hagain⟩ := htrial none _ report _ hyields
  exact ⟨hprepare, htunes, by decide +kernel, p, plan, hp, hplan, hagain⟩

end StencilPlan
