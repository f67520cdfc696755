import StencilPlan.Proofs.Halo.Matching
import StencilPlan.Proofs.Halo.Refusal
import StencilPlan.Proofs.Tiling.Resolution
import StencilPlan.Solution.Prepare
import StencilPlan.Solution.Run

/-!
# The phases of preparing a solution

A rank prepares in four phases: it drafts a plan, offers its buffers, settles them and concludes.
For each phase that goes through there is one lemma that says what it comes to. The settings of the
caller stay what they are in all of them, and so do the words of the pools that were there before.
-/

namespace StencilPlan

theorem Task.of_noteWith {σ : Type} {k : Severity} {text : Checked String} {v : Verbosity}
    {s s' : σ} {a : Unit} (h : (noteWith k text : Task σ Unit).Yields v s a s') : s' = s := by
  obtain ⟨-, hstate⟩ := h
  rw [← hstate]
  unfold run noteWith
  split
  · cases text <;> rfl
  · rfl

namespace Station

open Heap

variable {ν : Type} {st st' : Station ν} {v : Verbosity} {p : Prepared}

/-- The station with other buffers in another world. -/
def withSite (st : Station ν) (site : Site ν) : Station ν :=
  ⟨{ st.solution with halos := site.table }, site.world⟩

theorem yields_onSite {α : Type} {x : Task (Site ν) α} {a : α} :
    (onSite x).Yields v st a st' ↔
      ∃ site, x.Yields v ⟨st.solution.halos, st.world⟩ a site ∧ st' = st.withSite site := by
  rw [onSite, Task.yields_zoom]
  rfl

/-- What the caller gave to a solution is still there, and no word of a pool was changed. -/
structure Keeps (st st' : Station ν) : Prop where
  host : st'.solution.host = st.solution.host
  stencil : st'.solution.stencil = st.solution.stencil
  settings : st'.solution.settings = st.solution.settings
  heap : SameWords st.world.heap st'.world.heap
  net : st'.world.net = st.world.net

theorem Keeps.refl (st : Station ν) : Keeps st st := ⟨rfl, rfl, rfl, .refl _, rfl⟩

theorem Keeps.catalog (h : Keeps st st') : st'.solution.catalog = st.solution.catalog :=
  congrArg Stencil.catalog h.stencil

theorem Keeps.ranks [Transport ν] (h : Keeps st st') : st'.ranks = st.ranks :=
  congrArg Transport.size h.net

theorem of_unprepare {a : Unit} (h : unprepare.Yields v st a st') : Keeps st st' := by
  simp only [unprepare, Task.yields_bind_get] at h
  split at h
  · simp only [Task.yields_bind_modify, Task.yields_bind_note, Task.yields_bind (x := onSite _),
      yields_onSite, Task.yields_modify] at h
    obtain ⟨_, _, ⟨site, hrelease, rfl⟩, rfl⟩ := h
    obtain ⟨-, -, -, hheap, hnet⟩ := Site.of_release hrelease
    exact ⟨rfl, rfl, rfl, hheap, hnet⟩
  · simp only [Task.yields_pure] at h
    obtain ⟨-, rfl⟩ := h
    exact .refl _

/-- What a rank drafts follows from the settings and its number. -/
def Drafts (stencil : Stencil) (s : Settings) (me ranks : Nat) (p : Prepared) : Prop :=
  ∃ (v : Verbosity) (placement : Placement) (placed : Settings),
    (placeRank stencil.catalog me ranks).Yields v s placement placed ∧
      p.topology = placement.topology ∧ p.offsets = placement.offsets ∧
      p.plan.sizes.localDomain = placed.localDomain ∧ p.plan.sizes.useShared = placed.useShared

theorem of_planAhead [Transport ν] {placement : Placement} {plan : Plan}
    (h : planAhead.Yields v st (placement, plan) st') : st' = st ∧ ∃ placed : Settings,
      (placeRank st.solution.stencil.catalog st.solution.host.rank st.ranks).Yields v
        st.solution.settings placement placed ∧
      plan.sizes.localDomain = placed.localDomain ∧ plan.sizes.useShared = placed.useShared := by
  simp only [planAhead, Task.yields_bind_get, Task.yields_bind (x := Task.apart _ _),
    Task.yields_apart, Task.yields_bind_stateless, Task.yields_pure, Prod.mk.injEq] at h
  obtain ⟨⟨_, placed⟩, _, ⟨hplace, rfl⟩, _, hresolve, ⟨rfl, rfl⟩, rfl⟩ := h
  have hsame := (Settings.of_resolve hresolve).1
  exact ⟨rfl, placed, hplace, hsame.proj fun _ _ => rfl, hsame.proj fun _ _ => rfl⟩

theorem of_draft [Transport ν] (h : draft.Yields v st p st') : Keeps st st' ∧
    Drafts st.solution.stencil st.solution.settings st.solution.host.rank st.ranks p := by
  simp only [draft, Task.yields_bind (x := unprepare), Task.yields_bind_get,
    Task.yields_bind_note, Task.yields_bind (x := planAhead)] at h
  obtain ⟨_, st₁, hunprepare, ⟨placement, plan⟩, st₂, hplan, h⟩ := h
  have hkeeps := of_unprepare hunprepare
  obtain ⟨rfl, placed, hplace, hlocal, hshared⟩ := of_planAhead hplan
  rw [hkeeps.stencil, hkeeps.settings, hkeeps.host, hkeeps.ranks] at hplace
  simp only [Task.yields_bind_stateless, Task.yields_pure] at h
  obtain ⟨_, -, rfl, rfl⟩ := h
  exact ⟨hkeeps, v, placement, placed, hplace, rfl, rfl, hlocal, hshared⟩

/-- Work on the buffers that goes through is not taken back. -/
theorem of_orRelease {α : Type} {x : Task (Site ν) α} {a : α}
    (h : (orRelease x).Yields v st a st') :
    ∃ site, x.Yields v ⟨st.solution.halos, st.world⟩ a site ∧ st' = st.withSite site := by
  simp only [orRelease, Task.yields_bind (x := Task.attempt _), Task.yields_attempt] at h
  obtain ⟨r, _, ⟨hstate, hresult⟩, h⟩ := h
  cases r with
  | ok b =>
    simp only [Task.yields_pure] at h
    obtain ⟨rfl, rfl⟩ := h
    exact yields_onSite.mp ⟨hresult, hstate⟩
  | error e =>
    simp only [Task.yields_bind (x := onSite _), Task.not_yields_reject, and_false,
      exists_false] at h

/-- Work on the buffers that is taken back has found the mistake that is passed on. -/
theorem failsOnly_orRelease {α : Type} {x : Task (Site ν) α} {E : PlanError → Prop}
    (hx : x.FailsOnly E v ⟨st.solution.halos, st.world⟩) : (orRelease x).FailsOnly E v st := by
  refine Task.failsOnly_bind (Task.failsOnly_attempt (Task.failsOnly_zoom hx)) fun r st₁ hr => ?_
  cases r with
  | ok a => exact Task.failsOnly_pure a
  | error e =>
    obtain ⟨-, hresult⟩ := Task.yields_attempt.mp hr
    obtain ⟨e', heq, he⟩ := hx _ hresult
    obtain rfl := Failure.tiling.inj heq
    exact Task.failsOnly_bind (Task.failsOnly_zoom Site.failsOnly_release) fun _ _ _ =>
      Task.failsOnly_reject he

theorem of_offerHalos [Transport ν] {words : PoolWords} (h : (offerHalos p).Yields v st words st') :
    ∃ site, (Site.offer st.solution.stencil p.plan.sizes p.topology
        st.solution.host.allocator).Yields v ⟨st.solution.halos, st.world⟩ words site ∧
      st' = st.withSite site := by
  simp only [offerHalos, Task.yields_bind_get] at h
  exact of_orRelease h

theorem of_settleHalos [Transport ν] {words : PoolWords} {a : Unit}
    (h : (settleHalos p words).Yields v st a st') :
    ∃ site, (Site.settle p.plan.sizes p.topology.rank words).Yields v
        ⟨st.solution.halos, st.world⟩ a site ∧ st' = st.withSite site :=
  of_orRelease h

/-- A rank that settles fails only if it cannot attach a shared buffer. -/
theorem failsOnly_settleHalos {st : Station Universe} {words : PoolWords}
    (hroomy : ∀ slot n, st.solution.halos.at? slot = some n → n.shared = true →
      n.recv.Roomy true) :
    (settleHalos p words).FailsOnly
      (st.solution.halos.Refuses st.solution.halos.sharedSlots) v st :=
  failsOnly_orRelease (Site.failsOnly_settle hroomy)

/-- The solution with what was prepared for it. -/
def withPrepared (st : Station ν) (p : Prepared) : Station ν :=
  { st with solution := { st.solution with totals := .zero, prepared := some p } }

/-- The station after all ranks have met. -/
def met [Transport ν] (st : Station ν) : Station ν :=
  { st with world := { st.world with net := Transport.barrier st.world.net } }

theorem met_of_conclude [Transport ν] {a : Unit} (h : (conclude p).Yields v st a st') :
    st' = st.met.withPrepared p := by
  simp only [conclude, meet, Task.yields_bind (x := _ >>= _), Task.yields_bind_get,
    Task.yields_bind_note, Task.yields_modify, Task.yields_bind (x := Task.noteWith _ _)] at h
  obtain ⟨_, _, rfl, _, _, hnote, rfl⟩ := h
  rw [Task.of_noteWith hnote]
  rfl

/-- In a universe a meeting leaves no trace. -/
theorem of_conclude {st st' : Station Universe} {a : Unit} (h : (conclude p).Yields v st a st') :
    st' = st.withPrepared p := met_of_conclude h

end Station

end StencilPlan
