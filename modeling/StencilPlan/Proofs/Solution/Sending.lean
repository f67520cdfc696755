import StencilPlan.Proofs.Halo.Shell
import StencilPlan.Proofs.Solution.Phases

/-!
# What a prepared rank sends

Preparation gives a rank the buffers of its topology and its sizes, and nothing in it compares the
width of a halo with the size of a local domain. So it depends on these two whether a rank owns all
the points it sends: the halo on the far side of a neighbor must not be wider than the domain.
-/

namespace StencilPlan

namespace Station

variable {st st' : Station Universe} {v : Verbosity}

/-- A rank goes through the four phases of its preparation, and other ranks may change the world
from one phase to the next. -/
inductive Prepares (st : Station Universe) : Station Universe → Prop
  | intro {v₁ v₂ v₃ v₄ : Verbosity} {p : Prepared} {words : PoolWords}
      {st₁ st₂ st₃ st₄ : Station Universe} {w₁ w₂ w₃ : World Universe}
      (hdraft : draft.Yields v₁ st p st₁)
      (hoffer : (offerHalos p).Yields v₂ ⟨st₁.solution, w₁⟩ words st₂)
      (hsettle : (settleHalos p words).Yields v₃ ⟨st₂.solution, w₂⟩ () st₃)
      (hconclude : (conclude p).Yields v₄ ⟨st₃.solution, w₃⟩ () st₄) : Prepares st st₄

/-- A rank that prepares alone is one that nobody disturbs between the phases. -/
theorem prepares_of_prepare {a : Unit} (h : prepare.Yields v st a st') : Prepares st st' := by
  simp only [prepare, Task.yields_bind (x := draft), Task.yields_bind (x := offerHalos _),
    Task.yields_bind (x := settleHalos _ _)] at h
  obtain ⟨p, st₁, hdraft, words, st₂, hoffer, _, st₃, hsettle, hconclude⟩ := h
  exact .intro hdraft hoffer hsettle hconclude

/-- A rank that is prepared has the buffers of its plan. -/
theorem Prepares.allocated (hs : st.solution.settings.Shaped st.solution.stencil.catalog)
    (h : Prepares st st') : ∃ p, st'.solution.prepared = some p ∧
      p.topology.SoundOver st.solution.stencil.catalog ∧
      Allocated st.solution.stencil p.plan.sizes p.topology st'.solution.halos := by
  cases h with
  | intro hdraft hoffer hsettle hconclude =>
    obtain ⟨hkeeps, _, placement, placed, hplace, htopology, -⟩ := of_draft hdraft
    obtain ⟨site, hoffered, rfl⟩ := of_offerHalos hoffer
    obtain ⟨site', hsettled, rfl⟩ := of_settleHalos hsettle
    rw [of_conclude hconclude]
    rw [hkeeps.stencil] at hoffered
    have hplaced := placed_of_yields (hs.inRange .numRanks) hplace
    refine ⟨_, rfl, ⟨_, hplaced.names_numRanks hs, htopology ▸ hplaced.topology⟩, ?_⟩
    exact .intro hoffered hsettled

/-- A prepared rank owns all the points of a send buffer that is not empty if and only if, in each
dimension in which the neighbor lies before or behind it, the halo that the neighbor fills from
there is no wider than the local domain. -/
theorem sends_own_points_iff (hc : st.solution.stencil.Built)
    (hs : st.solution.settings.Reachable st.solution.stencil.catalog)
    (h : Prepares st st') : ∃ p, st'.solution.prepared = some p ∧
      ∀ var ∈ st.solution.stencil.vars, ∀ n ∈ p.topology.existing, ∀ b,
        st'.solution.halos.get? var n.index = some b → b.send.count ≠ 0 →
        ((∀ x, InBox st.solution.catalog.domain.names b.send.first b.send.extent x →
            InBox st.solution.catalog.domain.names (st.solution.catalog.domainVec 0)
              p.plan.sizes.localDomain x) ↔
          ∀ dim ∈ st.solution.catalog.domain.names,
            (n.offset.getD dim 0 < 0 → (st.solution.stencil.haloWidths var none false).getD dim 0 ≤
              p.plan.sizes.localDomain.getD dim 0) ∧
            (0 < n.offset.getD dim 0 → (st.solution.stencil.haloWidths var none true).getD dim 0 ≤
              p.plan.sizes.localDomain.getD dim 0)) := by
  obtain ⟨p, hp, ht, hallocated⟩ := h.allocated hs.shaped
  refine ⟨p, hp, fun var hvar n hn b hb hsome => ?_⟩
  obtain ⟨hsend, -, hsize⟩ := hallocated.covers ht hvar hn hb
  exact hsend.send_inside_iff hc.catalog.wellFormed hsize hsome

end Station

namespace Wide

/-- Points in a line, with a time step. -/
def catalog : Catalog := (Catalog.declare "t" ["x"] []).toOption.getD default

/-- One variable with a halo of five points on the left. -/
def stencil : Stencil :=
  ((Stencil.new "wide" catalog).withHalo "u" "next" true 0 [5]).toOption.getD (.new "wide" catalog)

/-- Four points for each rank. -/
def settings : Settings :=
  ((Settings.initial catalog 1).resize catalog .localDomain "x" 4).toOption.getD default

/-- The first of two ranks, before it is prepared. -/
def station : Station Universe :=
  ⟨{ Solution.new (.new 0 1 .unlimited) stencil 1 with settings }, ⟨.empty, .oneNode 2⟩⟩

theorem catalog_built : catalog.Built :=
  .declare (show Catalog.declare "t" ["x"] [] = .ok catalog by decide +kernel)

theorem built : stencil.Built := by
  have h : (Stencil.new "wide" catalog).withHalo "u" "next" true 0 [5] = .ok stencil := by
    rfl
  exact .halo (.new catalog_built "wide") h

theorem reachable : settings.Reachable catalog :=
  .resize (.initial 1) (show Idx.InRange 4 by decide)
    (show Settings.resize _ catalog .localDomain "x" 4 = _ by decide +kernel)

/-- The first rank after its preparation. -/
def prepared : Station Universe := (Station.prepare.run none station).state

theorem yields_prepared : Station.prepare.Yields none station () prepared := by
  have hok : (Station.prepare.run none station).result.toOption.isSome = true := by decide +kernel
  obtain ⟨_, hyields⟩ := Task.exists_yields_of_isSome hok
  exact hyields

end Wide

/-- Of the rank with four points and a halo of five. -/
theorem sends_own_points_iff_wide : Wide.station.solution.stencil.Built ∧
    Wide.station.solution.settings.Reachable Wide.station.solution.stencil.catalog ∧
    Station.Prepares Wide.station Wide.prepared ∧
    ∃ p, Wide.prepared.solution.prepared = some p ∧
      ∀ var ∈ Wide.stencil.vars, ∀ n ∈ p.topology.existing, ∀ b,
        Wide.prepared.solution.halos.get? var n.index = some b → b.send.count ≠ 0 →
        ((∀ x, InBox Wide.catalog.domain.names b.send.first b.send.extent x →
            InBox Wide.catalog.domain.names (Wide.catalog.domainVec 0)
              p.plan.sizes.localDomain x) ↔
          ∀ dim ∈ Wide.catalog.domain.names,
            (n.offset.getD dim 0 < 0 → (Wide.stencil.haloWidths var none false).getD dim 0 ≤
              p.plan.sizes.localDomain.getD dim 0) ∧
            (0 < n.offset.getD dim 0 → (Wide.stencil.haloWidths var none true).getD dim 0 ≤
              p.plan.sizes.localDomain.getD dim 0)) :=
  ⟨Wide.built, Wide.reachable, Station.prepares_of_prepare Wide.yields_prepared,
    Station.sends_own_points_iff Wide.built Wide.reachable
      (Station.prepares_of_prepare Wide.yields_prepared)⟩

/-- A rank with four points sends five of them to the rank behind it. The first one is the point
before its own first point. -/
theorem sends_unowned_point : ∃ (st st' : Station Universe) (p : Prepared) (n : Neighbor)
    (b : NeighborBuffers), st.solution.stencil.Built ∧
      st.solution.settings.Reachable st.solution.stencil.catalog ∧
      Station.prepare.Yields none st () st' ∧ st'.solution.prepared = some p ∧
      n ∈ p.topology.existing ∧ st'.solution.halos.get? "u" n.index = some b ∧
      b.send.count = 5 ∧
      InBox st.solution.catalog.domain.names b.send.first b.send.extent (fun _ => -1) ∧
      ¬ InBox st.solution.catalog.domain.names (st.solution.catalog.domainVec 0)
        p.plan.sizes.localDomain fun _ => -1 := by
  -- One check finds the neighbor and its buffer, whatever number it has.
  have hcheck : (Wide.prepared.solution.prepared.any fun p => p.topology.existing.any fun n =>
      (Wide.prepared.solution.halos.get? "u" n.index).any fun b =>
        b.send.count = 5 ∧
        InBox Wide.catalog.domain.names b.send.first b.send.extent (fun _ => -1) ∧
        ¬ InBox Wide.catalog.domain.names (Wide.catalog.domainVec 0)
          p.plan.sizes.localDomain fun _ => -1) = true := by decide +kernel
  simp only [Option.any_eq_true, List.any_eq_true, decide_eq_true_eq] at hcheck
  obtain ⟨p, hp, n, hn, b, hb, hcount, hin, hout⟩ := hcheck
  exact ⟨Wide.station, Wide.prepared, p, n, b, Wide.built, Wide.reachable, Wide.yields_prepared, hp,
    hn, hb, hcount, hin, hout⟩

end StencilPlan
