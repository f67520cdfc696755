import StencilPlan.Proofs.Solution.Tuning

/-!
# The life of a solution

From the moment it is made a solution goes through calls in any order, and each of them may find a
mistake. What was prepared, the halo buffers and the settings belong together all the time
(`Solution.Coupled`): every call keeps that, by what is known of it. So after any calls the solution
is either idle, without buffers and refusing whatever needs a preparation, or it is ready, with a
valid plan and buffers for that plan.
-/

namespace StencilPlan

open StencilPlan.Task

/-! ### What needs a preparation -/

namespace Station

variable {ν : Type} {st : Station ν} {v : Verbosity}

theorem returns_require {α : Type} (hnone : st.solution.prepared = none) (func : String)
    (f : Prepared → Task (Station ν) α) :
    ((liftM (st.solution.require func) : Task (Station ν) Prepared) >>= f).Returns v st
      (.error (.notPrepared func)) st := by
  have hrequire : st.solution.require func = .error (.notPrepared func) := by
    rw [Solution.require, hnone]
  rw [hrequire]
  exact Returns.bind_error (returns_iff.mpr ⟨rfl, rfl⟩) f

theorem returns_runNested (hnone : st.solution.prepared = none) (func : String)
    (program : NestProgram) :
    (runNested func program).Returns v st (.error (.notPrepared func)) st :=
  Returns.bind_error (returns_bind_get.mpr (returns_require hnone func _)) _

end Station

namespace Solution

variable {ν : Type} {ranks : Nat} {s s' : Solution} {p : Prepared}

/-- A solution that is not prepared has no buffers, and refuses whatever needs a preparation. -/
structure Idle (ν : Type) [Transport ν] (s : Solution) : Prop where
  vars : s.halos.vars = []
  bytes : ∀ h, s.halos.poolBytes h = 0
  require : ∀ func, s.require func = .error (.notPrepared func)
  get : ∀ (q : Quantity) (dim : String) (k : DimKind), q.needsPrepared = true →
    s.catalog.check dim q.getter (.tile q.spansSteps) = .ok k →
      s.get q dim = .error (.notPrepared q.getter)
  firstIndex : ∀ (dim : String) (k : DimKind),
    s.catalog.check dim "get_first_rank_domain_index" .domainOnly = .ok k →
      s.firstIndex dim = .error (.notPrepared "get_first_rank_domain_index")
  lastIndex : ∀ (dim : String) (k : DimKind),
    s.catalog.check dim "get_last_rank_domain_index" .domainOnly = .ok k →
      s.lastIndex dim = .error (.tiling (.notPrepared "get_last_rank_domain_index"))
  exchange : ∀ (packer : Packer) (v : Verbosity) (w : World ν),
    (Station.exchange packer).Returns v ⟨s, w⟩ (.error (.notPrepared "exchange_halos")) ⟨s, w⟩
  openExchange : ∀ (packer : Packer) (v : Verbosity) (w : World ν),
    (Station.openExchange packer).Returns v ⟨s, w⟩ (.error (.notPrepared "exchange_halos")) ⟨s, w⟩
  eachRegion : ∀ (n : Nat) (body : Nat → NestProgram) (v : Verbosity) (w : World ν),
    (Station.eachRegion n body).Returns v ⟨s, w⟩ (.error (.notPrepared "run_regions")) ⟨s, w⟩
  eachBlock : ∀ (n : Nat) (body : Nat → NestProgram) (v : Verbosity) (w : World ν),
    (Station.eachBlock n body).Returns v ⟨s, w⟩ (.error (.notPrepared "run_blocks")) ⟨s, w⟩
  resolveTrial : ∀ (v : Verbosity) (w : World ν),
    Station.resolveTrial.Returns v ⟨s, w⟩ (.error (.notPrepared "resolve_and_report")) ⟨s, w⟩
  measure : ∀ (least : Nat) (clock : List Nat) (step : Nat → Outcome Unit) (v : Verbosity)
    (w : World ν),
    (Station.measure least clock step).Returns v ⟨s, w⟩ (.error (.notPrepared "measure")) ⟨s, w⟩

theorem idle_of_none [Transport ν] (hnone : s.prepared = none) (hvacant : s.halos.Vacant) :
    Idle ν s := by
  -- Every call that needs the plan asks for it here, before it has changed anything.
  have hrequire : ∀ func, s.require func = .error (.notPrepared func) := fun func => by
    rw [Solution.require, hnone]
  constructor
  case vars => exact hvacant.vars
  case bytes =>
    intro h
    rw [HaloTable.poolBytes, hvacant.owned, hvacant.shared]
    rfl
  case require => exact hrequire
  case get =>
    intro q dim k hq hcheck
    unfold get
    simp only [hcheck, hrequire, hq, if_true]
    rfl
  case firstIndex =>
    intro dim k hcheck
    simp only [firstIndex, hcheck, hrequire]
    rfl
  case lastIndex =>
    intro dim k hcheck
    simp only [lastIndex, hcheck, hrequire]
    rfl
  case exchange =>
    intro packer v w
    exact Returns.bind_error (returns_bind_get.mpr (Station.returns_require hnone _ _)) _
  case openExchange =>
    intro packer v w
    exact returns_bind_get.mpr (Station.returns_require hnone _ _)
  case eachRegion =>
    intro n body v w
    exact Station.returns_runNested hnone _ _
  case eachBlock =>
    intro n body v w
    exact Station.returns_runNested hnone _ _
  case resolveTrial =>
    intro v w
    exact returns_bind_get.mpr (Station.returns_require hnone _ _)
  case measure =>
    intro least clock step v w
    exact returns_bind_get.mpr (Station.returns_require hnone _ _)

/-! ### What a preparation leaves -/

/-- What was prepared fits together: the plan is valid and stands where the topology says, the
threads are shared out as it asks for, and each buffer toward a neighbor covers the slab that
follows from the local domain of the plan and from the halos of its variable. Where there is no
buffer there is nothing to exchange. -/
structure Ready (s : Solution) (p : Prepared) : Prop where
  valid : p.plan.validate = .ok ()
  numRanks : p.plan.sizes.numRanks = p.topology.grid
  rankIndices : p.plan.sizes.rankIndices = p.topology.indices
  threads : p.threads = .split (p.plan.sizes.threadBudget s.host.threads)
    p.plan.sizes.threadDivisor p.plan.sizes.blockThreads
  buffer : ∀ slot n, s.halos.at? slot = some n → ∃ var neighbor,
    s.stencil.vars[slot.var]? = some var ∧ neighbor ∈ p.topology.existing ∧
      neighbor.index = slot.neighbor ∧ neighbor.rank = some n.rank ∧
      ∀ d, bufferBox s.catalog neighbor.offset p.plan.sizes.localDomain
          (s.stencil.haloWidths var none true) (s.stencil.haloWidths var none false) d =
        .ok ((n.buffer d).first, (n.buffer d).extent)
  blank : ∀ i var neighbor, s.stencil.vars[i]? = some var → neighbor ∈ p.topology.existing →
    s.halos.at? ⟨i, neighbor.index⟩ = none → ∀ d, ∃ b : HaloBuffer, b.size = .ok 0 ∧
      bufferBox s.catalog neighbor.offset p.plan.sizes.localDomain
          (s.stencil.haloWidths var none true) (s.stencil.haloWidths var none false) d =
        .ok (b.first, b.extent)

theorem ready_of_designed (hdesigned : s.Designed ranks p)
    (hfits : s.halos.Fits s.stencil p.plan.sizes p.topology) : Ready s p := by
  obtain ⟨asked, -, hplans, hthreads⟩ := hdesigned
  have hplaced := Placed.of_yields hplans.placed
  obtain ⟨sizes, sharesNode, words, vs, hsame, hlaid, houtline⟩ := hfits
  -- The buffers were made for the sizes at the time, which agree with those of the plan on this.
  have hlocal : p.plan.sizes.localDomain = sizes.localDomain := hsame.proj fun _ _ => rfl
  constructor
  case valid => exact (Settings.of_resolve hplans.resolved).2
  case numRanks => exact hplaced.topology_grid.symm
  case rankIndices => exact congrArg Settings.rankIndices hplaced.settings
  case threads => exact hthreads
  case buffer =>
    intro slot n hn
    obtain ⟨var, neighbor, hmade⟩ := hlaid.madeFor houtline hn
    obtain ⟨hsend, hrecv, hrank, -⟩ := hmade.makes.of_some
    refine ⟨var, neighbor, hmade.declared, hmade.existing, hmade.index, hrank, fun d => ?_⟩
    rw [hlocal]
    cases d with
    | send => exact hsend.box
    | recv => exact hrecv.box
  case blank =>
    intro i var neighbor hvar hex hnone d
    have hmakes := hlaid.makes_at houtline hvar hex
    rw [hnone, Option.map_none] at hmakes
    rw [hlocal]
    cases hmakes with
    | @nothing send recv hsend hrecv hempty hempty' =>
      cases d with
      | send => exact ⟨send, hempty, hsend.box⟩
      | recv => exact ⟨recv, hempty', hrecv.box⟩

/-! ### All calls -/

/-- What was prepared, the halo buffers and the settings belong together. -/
structure Coupled (s : Solution) : Prop where
  vacant : s.prepared = none → s.halos.Vacant
  designed : ∀ p, s.prepared = some p → ∃ ranks, s.Designed ranks p
  fits : ∀ p, s.prepared = some p → s.halos.Fits s.stencil p.plan.sizes p.topology

theorem coupled_of_none (hnone : s.prepared = none) (hvacant : s.halos.Vacant) : s.Coupled :=
  ⟨fun _ => hvacant, fun _ hp => absurd (hnone.symm.trans hp) nofun,
    fun _ hp => absurd (hnone.symm.trans hp) nofun⟩

theorem coupled_of_some (hp : s.prepared = some p) (hdesigned : s.Designed ranks p)
    (hfits : s.halos.Fits s.stencil p.plan.sizes p.topology) : s.Coupled := by
  refine ⟨fun hnone => absurd (hnone.symm.trans hp) nofun, fun q hq => ?_, fun q hq => ?_⟩
  all_goals obtain rfl := Option.some.inj (hp.symm.trans hq)
  · exact ⟨ranks, hdesigned⟩
  · exact hfits

theorem coupled_new (host : Host) (stencil : Stencil) (maxThreads : Nat) :
    (new host stencil maxThreads).Coupled := coupled_of_none rfl ⟨rfl, rfl, rfl⟩

namespace Coupled

theorem clears (h : s.Coupled) (hclears : s.Clears s') : s'.Coupled := by
  refine coupled_of_none hclears.prepared ?_
  obtain hvacant | ⟨hnone, hhalos⟩ := hclears.halos
  · exact hvacant
  · rw [hhalos]
    exact h.vacant hnone

theorem counts (h : s.Coupled) (hcounts : s.Counts s') : s'.Coupled := by
  obtain ⟨totals, rfl⟩ := hcounts
  exact ⟨h.vacant, h.designed, h.fits⟩

theorem tunes (h : s.Coupled) (htunes : Tunes ν s s') : s'.Coupled := by
  rcases of_tunes htunes with rfl | ⟨l, dim, n, hl, rfl⟩ | ⟨v, p, plan, hp, hresolve, rfl⟩
  · exact h
  · refine ⟨h.vacant, fun p hp => ?_, h.fits⟩
    obtain ⟨ranks, hdesigned⟩ := h.designed p hp
    exact ⟨ranks, hdesigned.withCandidate hl dim n⟩
  · obtain ⟨ranks, hdesigned⟩ := h.designed p hp
    obtain ⟨hsame, hdesigns⟩ := hdesigned.retuned hresolve
    obtain ⟨asked, sharesNode, words, vs, hasked, hlaid, houtline⟩ := h.fits p hp
    exact coupled_of_some rfl ⟨s.settings, .refl _, hdesigns⟩
      ⟨asked, sharesNode, words, vs, hasked.trans hsame, hlaid, houtline⟩

end Coupled

section Network

variable [Transport ν]

theorem coupled_of_equips (h : Equips ranks s p s') : s'.Coupled :=
  coupled_of_some h.prepared h.designed (h.stencil ▸ h.fits)

variable (ν) in
/-- A call that returns, with a result or with a mistake. -/
inductive Step (s s' : Solution) : Prop
  | set {q : Quantity} {dim : String} {n : Int} {r : Except PlanError Unit}
      (h : Answers ν (Station.set q dim n) s r s')
  | setOption {name value : String} {r : Except PlanError Unit}
      (h : Answers ν (Station.setOption name value) s r s')
  | edit {f : Settings → Settings} {r : Except PlanError Unit}
      (h : Answers ν (Station.edit f) s r s')
  | propose {l : Level} {dim : String} {n : Int} {r : Except PlanError Unit}
      (h : Answers ν (Station.propose l dim n) s r s')
  | prepare {ranks : Nat} {r : Except PlanError Unit} (h : PrepareAnswers ν ranks s r s')
  | resolveTrial {r : Except PlanError CandidateReport}
      (h : Answers ν Station.resolveTrial s r s')
  | exchange {packer : Packer} {r : Except PlanError (List ExchangeEvent)}
      (h : ExchangeAnswers ν packer s r s')
  | exchangeAlone {packer : Packer} {r : Except PlanError (Traffic × List ExchangeEvent)}
      (h : Answers ν (Station.exchange packer) s r s')
  | finish {r : Except PlanError Unit} (h : Answers ν Station.finish s r s')

theorem Coupled.step (h : s.Coupled) (hstep : Step ν s s') : s'.Coupled := by
  cases hstep with
  | set hset =>
    obtain ⟨_, _, _, hset⟩ := hset
    -- A setter that refuses its dimension does nothing, and any other one withdraws the plan.
    obtain hsame | hclears := Station.clears_of_set hset
    · have heq : s' = s := hsame
      exact heq ▸ h
    · exact h.clears hclears
  | setOption hset =>
    obtain ⟨_, _, _, hset⟩ := hset
    exact h.clears (Station.clears_of_setOption hset)
  | edit hedit =>
    obtain ⟨_, _, _, hedit⟩ := hedit
    exact h.clears (Station.clears_of_edit hedit)
  | propose hpropose => exact h.tunes (tunes_of_propose hpropose)
  | resolveTrial htrial => exact h.tunes (tunes_of_resolveTrial htrial)
  | @prepare ranks r hprepare =>
    cases r with
    | ok u =>
      obtain ⟨p, hequips⟩ := equips_of_prepare hprepare
      exact coupled_of_equips hequips
    | error e => exact h.clears (clears_of_prepare_error hprepare)
  | exchange hexchange => exact h.counts (counts_of_exchange hexchange)
  | exchangeAlone hexchange => exact h.counts (counts_of_exchangeAlone hexchange)
  | finish hfinish =>
    obtain ⟨_, _, _, hfinish⟩ := hfinish
    exact h.clears (Station.clears_of_finish hfinish)

variable (ν) in
/-- What some calls make of a new solution. -/
def Reachable (host : Host) (stencil : Stencil) (maxThreads : Nat) : Solution → Prop :=
  Relation.ReflTransGen (Step ν) (new host stencil maxThreads)

theorem coupled_of_reachable {host : Host} {stencil : Stencil} {maxThreads : Nat}
    (h : Reachable ν host stencil maxThreads s) : s.Coupled := by
  induction h with
  | refl => exact coupled_new host stencil maxThreads
  | tail _ hstep ih => exact ih.step hstep

/-- Whatever calls were made on a solution, and whatever they returned, it is idle or ready. -/
theorem idle_or_ready_of_reachable {host : Host} {stencil : Stencil} {maxThreads : Nat}
    (h : Reachable ν host stencil maxThreads s) :
    (s.prepared = none → Idle ν s) ∧ ∀ p, s.prepared = some p → Ready s p := by
  have hcoupled := coupled_of_reachable h
  refine ⟨fun hnone => idle_of_none hnone (hcoupled.vacant hnone), fun p hp => ?_⟩
  obtain ⟨ranks, hdesigned⟩ := hcoupled.designed p hp
  exact ready_of_designed hdesigned (hcoupled.fits p hp)

end Network

end Solution

namespace Wide

/-- The rank after its trial, and after it has ended. -/
def ended : Station Universe := (Station.finish.run none tried).state

/-- The first of two ranks, as it is made. -/
def fresh : Solution := .new (.new 0 1 .unlimited) stencil 1

theorem answers_of_isSome {α : Type} (x : Task (Station Universe) α) (st : Station Universe)
    (h : (x.run none st).result.toOption.isSome = true) :
    ∃ r, Solution.Answers Universe x st.solution r (x.run none st).state.solution := by
  obtain ⟨a, hyields⟩ := exists_yields_of_isSome h
  exact ⟨.ok a, none, st.world, _, returns_ok.mpr hyields⟩

theorem reachable_tried :
    Solution.Reachable Universe (.new 0 1 .unlimited) stencil 1 tried.solution := by
  have hedit : Solution.Step Universe fresh station.solution :=
    .edit (f := fun _ => settings) (r := .ok ())
      ⟨none, station.world, station.world, returns_ok.mpr ⟨rfl, rfl⟩⟩
  have hprepare : Solution.Step Universe station.solution prepared.solution :=
    .prepare (Solution.prepareAnswers_of_prepare (w := station.world)
      (returns_ok.mpr yields_prepared))
  obtain ⟨_, hpropose⟩ := answers_of_isSome (Station.propose .block "x" 2) prepared
    (by decide +kernel)
  obtain ⟨_, htrial⟩ := answers_of_isSome Station.resolveTrial candidate (by decide +kernel)
  exact .tail (.tail (.tail (.single hedit) hprepare) (.propose hpropose)) (.resolveTrial htrial)

end Wide

/-- Of a rank that is prepared, tuned and ended: it is ready before the end and idle after it. -/
theorem idle_or_ready_wide :
    Solution.Reachable Universe (.new 0 1 .unlimited) Wide.stencil 1 Wide.tried.solution ∧
    Solution.Reachable Universe (.new 0 1 .unlimited) Wide.stencil 1 Wide.ended.solution ∧
    (∃ p, Wide.tried.solution.prepared = some p ∧ Wide.tried.solution.halos.slots ≠ [] ∧
      Solution.Ready Wide.tried.solution p) ∧
    Wide.ended.solution.prepared = none ∧ Solution.Idle Universe Wide.ended.solution := by
  have htried := Wide.reachable_tried
  obtain ⟨_, hfinish⟩ := Wide.answers_of_isSome Station.finish Wide.tried (by decide +kernel)
  have hended := htried.tail (.finish hfinish)
  obtain ⟨p, hp⟩ : ∃ p, Wide.tried.solution.prepared = some p :=
    Option.isSome_iff_exists.mp (by decide +kernel)
  have hnone : Wide.ended.solution.prepared = none := by decide +kernel
  exact ⟨htried, hended,
    ⟨p, hp, by decide +kernel, (Solution.idle_or_ready_of_reachable htried).2 p hp⟩,
    hnone, (Solution.idle_or_ready_of_reachable hended).1 hnone⟩

end StencilPlan
