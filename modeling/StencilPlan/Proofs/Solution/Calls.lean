import StencilPlan.Proofs.Returns
import StencilPlan.Proofs.Solution.Planning
import StencilPlan.Solution.Quantity

/-!
# Calls on a solution

A caller sees a solution from one call to the next. A call returns a result or a mistake, and what
it has done to the solution by then is said here once for each of them: it clears the solution, it
adds what was prepared, it proposes a candidate, it puts another plan in, or it does nothing at all.
Other ranks may change the world between two calls, and between the phases of preparing and of
exchanging.
-/

namespace StencilPlan

open StencilPlan.Task

/-! ### Giving up what was prepared -/

/-- There are no buffers and no pools. -/
structure HaloTable.Vacant (t : HaloTable) : Prop where
  vars : t.vars = []
  owned : t.owned = none
  shared : t.shared = none

theorem Site.vacant_of_release {ν : Type} {site site' : Site ν} {v : Verbosity} {a : Unit}
    (h : release.Yields v site a site') : site'.table.Vacant := by
  obtain ⟨hvars, howned, hshared, -⟩ := of_release h
  exact ⟨hvars, howned, hshared⟩

namespace Solution

/-- What was prepared is gone, and the buffers with it if it was there. The settings may be other
ones. -/
structure Clears (s s' : Solution) : Prop where
  host : s'.host = s.host
  stencil : s'.stencil = s.stencil
  prepared : s'.prepared = none
  halos : s'.halos.Vacant ∨ s.prepared = none ∧ s'.halos = s.halos

end Solution

namespace Station

variable {ν : Type} {st st' : Station ν} {v : Verbosity}

theorem exists_unprepare (v : Verbosity) (st : Station ν) :
    ∃ a st', unprepare.Yields v st a st' := by
  refine exists_yields_of_failsOnly (failsOnly_bind_get (failsOnly_ite (fun _ => ?_) fun _ =>
    failsOnly_pure _))
  exact failsOnly_bind_modify (failsOnly_bind (failsOnly_note _ _) fun _ _ _ =>
    failsOnly_bind (failsOnly_zoom Site.failsOnly_release) fun _ _ _ => failsOnly_modify _)

theorem blameless_unprepare : Blameless (unprepare : Task (Station ν) Unit) :=
  blameless_of_yields exists_unprepare

theorem clears_of_unprepare {a : Unit} (h : unprepare.Yields v st a st') :
    st.solution.Clears st'.solution := by
  simp only [unprepare, Task.yields_bind_get] at h
  split at h
  · simp only [Task.yields_bind_modify, Task.yields_bind_note, Task.yields_bind (x := onSite _),
      yields_onSite, Task.yields_modify] at h
    obtain ⟨_, _, ⟨site, hrelease, rfl⟩, rfl⟩ := h
    exact ⟨rfl, rfl, rfl, .inl (Site.vacant_of_release hrelease)⟩
  · next hprepared =>
    simp only [Task.yields_pure] at h
    obtain ⟨-, rfl⟩ := h
    have hnone : st'.solution.prepared = none := by
      rwa [Solution.isPrepared, Bool.not_eq_true, Option.isSome_eq_false_iff,
        Option.isNone_iff_eq_none] at hprepared
    exact ⟨rfl, rfl, hnone, .inr ⟨hnone, rfl⟩⟩

end Station

/-! ### What a call is -/

namespace Solution

variable {ν : Type} {α β : Type} {s s' : Solution}

variable (ν) in
/-- A call on the solution returns `r` and leaves the solution `s'`, in some world and under some
verbosity. -/
def Answers (x : Task (Station ν) α) (s : Solution) (r : Except PlanError α) (s' : Solution) :
    Prop :=
  ∃ (v : Verbosity) (w w' : World ν), x.Returns v ⟨s, w⟩ r ⟨s', w'⟩

/-- What is done after something else, unless that finds a mistake. -/
def AndThen (P : Solution → Except PlanError α → Solution → Prop)
    (Q : α → Solution → Except PlanError β → Solution → Prop) (s : Solution)
    (r : Except PlanError β) (s' : Solution) : Prop :=
  (∃ e, P s (.error e) s' ∧ r = .error e) ∨ ∃ a s₁, P s (.ok a) s₁ ∧ Q a s₁ r s'

/-- A bind is two calls with nobody in between. -/
theorem andThen_of_returns {P : Solution → Except PlanError α → Solution → Prop}
    {Q : α → Solution → Except PlanError β → Solution → Prop} {x : Task (Station ν) α}
    {f : α → Task (Station ν) β} {v : Verbosity} {w w' : World ν} {r : Except PlanError β}
    (h : (x >>= f).Returns v ⟨s, w⟩ r ⟨s', w'⟩)
    (hP : ∀ r s₁ w₁, x.Returns v ⟨s, w⟩ r ⟨s₁, w₁⟩ → P s r s₁)
    (hQ : ∀ a s₁ w₁, (f a).Returns v ⟨s₁, w₁⟩ r ⟨s', w'⟩ → Q a s₁ r s') : AndThen P Q s r s' := by
  rcases returns_bind.mp h with ⟨e, he, rfl⟩ | ⟨a, ⟨s₁, w₁⟩, ha, hrest⟩
  · exact .inl ⟨e, hP _ _ _ he, rfl⟩
  · exact .inr ⟨a, s₁, hP _ _ _ (returns_ok.mpr ha), hQ a s₁ w₁ hrest⟩

section Network

variable [Transport ν]

variable (ν) in
/-- Drafting on one of `ranks` ranks. -/
def DraftAnswers (ranks : Nat) (s : Solution) (r : Except PlanError Prepared) (s' : Solution) :
    Prop :=
  ∃ (v : Verbosity) (w w' : World ν), Transport.size w.net = ranks ∧
    (Station.draft : Task (Station ν) Prepared).Returns v ⟨s, w⟩ r ⟨s', w'⟩

variable (ν) in
/-- Preparing on one of `ranks` ranks, phase by phase. The others change the world between the
phases. -/
def PrepareAnswers (ranks : Nat) : Solution → Except PlanError Unit → Solution → Prop :=
  AndThen (DraftAnswers ν ranks) fun p =>
    AndThen (Answers ν (Station.offerHalos p)) fun words =>
      AndThen (Answers ν (Station.settleHalos p words)) fun _ => Answers ν (Station.conclude p)

variable (ν) in
/-- Exchanging halos. Between opening an exchange and closing it the ranks make their moves, which
touch no solution; nothing is closed if a move finds a mistake. -/
def ExchangeAnswers (packer : Packer) :
    Solution → Except PlanError (List ExchangeEvent) → Solution → Prop :=
  AndThen (Answers ν (Station.openExchange packer)) fun _ s r s' =>
    (∃ e, r = .error e ∧ s' = s) ∨ ∃ x : Exchange ν, Answers ν (Station.closeExchange x) s r s'

/-- A rank that prepares without stopping is one that nobody disturbs between the phases. -/
theorem prepareAnswers_of_prepare {v : Verbosity} {w w' : World ν} {r : Except PlanError Unit}
    (h : Station.prepare.Returns v ⟨s, w⟩ r ⟨s', w'⟩) :
    PrepareAnswers ν (Transport.size w.net) s r s' :=
  andThen_of_returns h (fun _ _ _ hdraft => ⟨_, _, _, rfl, hdraft⟩) fun _ _ _ h =>
    andThen_of_returns h (fun _ _ _ hoffer => ⟨_, _, _, hoffer⟩) fun _ _ _ h =>
      andThen_of_returns h (fun _ _ _ hsettle => ⟨_, _, _, hsettle⟩) fun _ _ _ hconclude =>
        ⟨_, _, _, hconclude⟩

end Network

end Solution

/-! ### Changing the settings -/

namespace Station

variable {ν : Type} {α : Type} {s : Solution} {st st' : Station ν} {v : Verbosity}

theorem keeps_clears_onSettings (s : Solution) (x : Task Settings α) :
    Task.Keeps (fun st : Station ν => s.Clears st.solution) (onSettings x) :=
  fun _ _ h => ⟨h.host, h.stencil, h.prepared, h.halos⟩

/-- What begins with giving up what was prepared, and touches the settings at most after that. -/
theorem clears_of_returns {f : Unit → Task (Station ν) α} {r : Except PlanError α}
    (h : (unprepare >>= f).Returns v st r st')
    (hf : ∀ a, Task.Keeps (fun st' => st.solution.Clears st'.solution) (f a)) :
    st.solution.Clears st'.solution := by
  obtain ⟨a, st₁, hunprepare, hrest⟩ := blameless_unprepare.returns_bind.mp h
  rw [← (returns_iff.mp hrest).2]
  exact hf a v st₁ (clears_of_unprepare hunprepare)

theorem clears_of_edit {f : Settings → Settings} {r : Except PlanError Unit}
    (h : (edit f).Returns v st r st') : st.solution.Clears st'.solution :=
  clears_of_returns h fun _ => keeps_clears_onSettings _ _

theorem clears_of_setOption {name value : String} {r : Except PlanError Unit}
    (h : (setOption name value).Returns v st r st') : st.solution.Clears st'.solution :=
  clears_of_returns h fun _ => keeps_bind_get fun _ => keeps_clears_onSettings _ _

/-- A setter that refuses its dimension does nothing. -/
theorem clears_of_set {q : Quantity} {dim : String} {n : Int} {r : Except PlanError Unit}
    (h : (Station.set q dim n).Returns v st r st') :
    st'.solution = st.solution ∨ st.solution.Clears st'.solution := by
  simp only [Station.set, returns_bind_get] at h
  rcases returns_bind.mp h with ⟨e, he, -⟩ | ⟨_, _, hcheck, hrest⟩
  · obtain rfl := (failsAt_planError _).state he
    exact .inl rfl
  · obtain ⟨-, rfl⟩ := yields_planError.mp hcheck
    obtain ⟨_, _, hnote, hedit⟩ := (blameless_note _ _).returns_bind.mp hrest
    obtain rfl := yields_note.mp hnote
    exact .inr (clears_of_edit hedit)

end Station

/-! ### Preparing -/

/-- The buffers are those of a stencil toward the neighbors in a topology. What storage they have,
and the sizes of tiles, have no part in that. -/
def HaloTable.Fits (t : HaloTable) (stencil : Stencil) (sizes : Settings) (topology : Topology) :
    Prop :=
  ∃ (asked : Settings) (sharesNode : Nat → Bool) (words : PoolWords) (vs : List VarBuffers),
    Settings.SameButTiles asked sizes ∧
      LaidOut stencil asked topology sharesNode words stencil.vars vs ∧
      t.outline = ⟨vs, topology.size, none, none⟩

namespace Station

variable {ν : Type} {st st' : Station ν} {v : Verbosity} {p : Prepared} {e : PlanError}

/-- Work on the buffers that finds a mistake leaves none of them. -/
theorem vacant_of_orRelease_error {α : Type} {x : Task (Site ν) α}
    (h : (orRelease x).Returns v st (.error e) st') :
    ∃ t : HaloTable, t.Vacant ∧ st'.solution = { st.solution with halos := t } := by
  obtain ⟨r, _, hattempt, h⟩ := (blameless_attempt _).returns_bind.mp h
  obtain ⟨rfl, -⟩ := yields_attempt.mp hattempt
  cases r with
  | ok a => exact (blameless_pure a _ _ _ _ h).elim
  | error e' =>
    have hblameless : Blameless (onSite Site.release : Task (Station ν) Unit) :=
      blameless_of_yields fun _ _ => exists_yields_of_failsOnly
        (failsOnly_zoom Site.failsOnly_release)
    obtain ⟨_, _, hsite, h⟩ := hblameless.returns_bind.mp h
    obtain ⟨site, hrelease, rfl⟩ := yields_onSite.mp hsite
    obtain rfl := (failsAt_reject e').state h
    exact ⟨site.table, Site.vacant_of_release hrelease, rfl⟩

variable [Transport ν]

theorem keeps_planAhead (P : Station ν → Prop) : Task.Keeps P planAhead :=
  keeps_bind_get fun _ => keeps_bind (keeps_apart _ _) fun _ =>
    keeps_bind (keeps_stateless _) fun _ => keeps_pure _

/-- Drafting gives up what was prepared before, even if it finds a mistake then. -/
theorem clears_of_draft {r : Except PlanError Prepared} (h : draft.Returns v st r st') :
    st.solution.Clears st'.solution :=
  clears_of_returns h fun _ => keeps_bind_get fun _ => keeps_bind (keeps_note _ _) fun _ =>
    keeps_bind (keeps_planAhead _) fun _ => keeps_bind (keeps_stateless _) fun _ => keeps_pure _

theorem vacant_of_offerHalos_error (h : (offerHalos p).Returns v st (.error e) st') :
    ∃ t : HaloTable, t.Vacant ∧ st'.solution = { st.solution with halos := t } := by
  rw [offerHalos, returns_bind_get] at h
  exact vacant_of_orRelease_error h

theorem vacant_of_settleHalos_error {words : PoolWords}
    (h : (settleHalos p words).Returns v st (.error e) st') :
    ∃ t : HaloTable, t.Vacant ∧ st'.solution = { st.solution with halos := t } := by
  rw [settleHalos] at h
  exact vacant_of_orRelease_error h

theorem fits_of_offerHalos {grid : DimVec} (ht : p.topology.Sound grid) {words : PoolWords}
    (h : (offerHalos p).Yields v st words st') : ∃ t : HaloTable,
      t.Fits st.solution.stencil p.plan.sizes p.topology ∧
        st'.solution = { st.solution with halos := t } := by
  obtain ⟨site, hoffer, rfl⟩ := of_offerHalos h
  obtain ⟨vs, hlaid, houtline⟩ := laidOut_of_offer ht hoffer
  exact ⟨site.table, ⟨_, _, _, vs, .refl _, hlaid, houtline⟩, rfl⟩

theorem outline_of_settleHalos {words : PoolWords} {a : Unit}
    (h : (settleHalos p words).Yields v st a st') : ∃ t : HaloTable,
      t.outline = st.solution.halos.outline ∧ st'.solution = { st.solution with halos := t } := by
  obtain ⟨site, hsettle, rfl⟩ := of_settleHalos h
  refine ⟨site.table, ?_, rfl⟩
  have hattach := Site.attachesAll_of_settle hsettle
  split at hattach
  · obtain ⟨site₁, hall, rfl⟩ := hattach
    exact hall.outline
  · rw [hattach]

theorem blameless_conclude : Blameless (conclude p : Task (Station ν) Unit) := by
  have hmeet : Blameless (meet : Task (Station ν) Unit) :=
    blameless_bind_get fun _ => blameless_bind (blameless_note _ _) fun _ => blameless_modify _
  exact blameless_bind hmeet fun _ => blameless_bind_get fun _ =>
    blameless_bind (blameless_noteWith _ _) fun _ => blameless_modify _

end Station

namespace Solution

variable {ν : Type} [Transport ν] {ranks : Nat} {s s' : Solution} {p : Prepared} {e : PlanError}

/-- A solution was prepared: what was added is designed for its settings, and the buffers fit. -/
structure Equips (ranks : Nat) (s : Solution) (p : Prepared) (s' : Solution) : Prop where
  host : s'.host = s.host
  stencil : s'.stencil = s.stencil
  settings : s'.settings = s.settings
  prepared : s'.prepared = some p
  designs : Designs s.catalog s.host ranks s.settings p
  fits : s'.halos.Fits s.stencil p.plan.sizes p.topology

theorem equips_of_prepare (h : PrepareAnswers ν ranks s (.ok ()) s') :
    ∃ p, Equips ranks s p s' := by
  obtain ⟨_, -, hno⟩ | ⟨p, s₁, ⟨v, w, w', rfl, hdraft⟩, h⟩ := h
  · cases hno
  obtain ⟨_, -, hno⟩ | ⟨words, s₂, ⟨_, _, _, hoffer⟩, h⟩ := h
  · cases hno
  obtain ⟨_, -, hno⟩ | ⟨_, s₃, ⟨_, _, _, hsettle⟩, ⟨_, _, _, hconclude⟩⟩ := h
  · cases hno
  -- Each of the four parts went through; what they leave is put together.
  obtain ⟨hunprepare, hdesigns⟩ := Station.yields_draft.mp (returns_ok.mp hdraft)
  have hkeeps := Station.of_unprepare hunprepare
  obtain ⟨t, hfits, rfl⟩ := Station.fits_of_offerHalos hdesigns.sound (returns_ok.mp hoffer)
  obtain ⟨t', houtline, rfl⟩ := Station.outline_of_settleHalos (returns_ok.mp hsettle)
  have hst' := Station.met_of_conclude (returns_ok.mp hconclude)
  rw [Station.mk.injEq] at hst'
  obtain ⟨rfl, -⟩ := hst'
  obtain ⟨asked, sharesNode, words, vs, hsame, hlaid, ht⟩ := hfits
  exact ⟨p, hkeeps.host, hkeeps.stencil, hkeeps.settings, rfl, hdesigns,
    asked, sharesNode, words, vs, hsame, hkeeps.stencil ▸ hlaid, houtline.trans ht⟩

/-- However far a preparation came before it found a mistake, nothing is prepared after it. -/
theorem clears_of_prepare_error (h : PrepareAnswers ν ranks s (.error e) s') : s.Clears s' := by
  obtain ⟨_, ⟨_, _, _, -, hdraft⟩, -⟩ | ⟨p, s₁, ⟨_, _, _, -, hdraft⟩, h⟩ := h
  · exact Station.clears_of_draft hdraft
  obtain ⟨hhost, hstencil, hprepared, -⟩ := Station.clears_of_draft hdraft
  obtain ⟨_, ⟨_, _, _, hoffer⟩, -⟩ | ⟨words, s₂, ⟨_, _, _, hoffer⟩, h⟩ := h
  · obtain ⟨t, ht, rfl⟩ := Station.vacant_of_offerHalos_error hoffer
    exact ⟨hhost, hstencil, hprepared, .inl ht⟩
  obtain ⟨_, ⟨_, _, _, hsettle⟩, -⟩ | ⟨_, _, -, ⟨_, _, _, hconclude⟩⟩ := h
  · obtain ⟨site, -, hst₂⟩ := Station.of_offerHalos (returns_ok.mp hoffer)
    obtain ⟨t, ht, rfl⟩ := Station.vacant_of_settleHalos_error hsettle
    obtain ⟨rfl, -⟩ := Station.mk.inj hst₂
    exact ⟨hhost, hstencil, hprepared, .inl ht⟩
  · exact (Station.blameless_conclude _ _ _ _ hconclude).elim

end Solution

namespace Station

variable {ν : Type} [Transport ν] {st st' : Station ν} {v : Verbosity}

theorem keeps_clears_meet (s : Solution) :
    Task.Keeps (fun st : Station ν => s.Clears st.solution) meet := by
  refine keeps_bind_get fun _ => keeps_bind (keeps_note _ _) fun _ => keeps_modify ?_
  exact fun _ h => h

theorem clears_of_finish {r : Except PlanError Unit} (h : finish.Returns v st r st') :
    st.solution.Clears st'.solution :=
  clears_of_returns h fun _ => keeps_bind (keeps_clears_meet _) fun _ =>
    keeps_bind_get fun _ => keeps_note _ _

end Station

/-! ### Exchanging -/

/-- An exchange changes nothing of a solution but the totals. -/
def Solution.Counts (s s' : Solution) : Prop := ∃ totals, s' = { s with totals }

namespace Station

variable {ν : Type} [Transport ν] {packer : Packer}

theorem keeps_counts_openExchange (s : Solution) :
    Task.Keeps (fun st : Station ν => s.Counts st.solution) (openExchange packer) :=
  keeps_bind_get fun _ => keeps_bind (keeps_planError _) fun _ => keeps_checked _

theorem keeps_counts_closeExchange (s : Solution) (x : Exchange ν) :
    Task.Keeps (fun st : Station ν => s.Counts st.solution) (closeExchange x) := by
  refine keeps_bind_get fun _ => keeps_bind (keeps_checked _) fun totals =>
    keeps_bind (keeps_modify ?_) fun _ => keeps_pure _
  rintro ⟨_, world⟩ ⟨_, rfl⟩
  exact ⟨totals, rfl⟩

theorem keeps_counts_exchange (s : Solution) :
    Task.Keeps (fun st : Station ν => s.Counts st.solution) (exchange packer) := by
  refine keeps_bind (keeps_counts_openExchange s) fun x => keeps_bind_get fun st => ?_
  generalize x.run st.world = moved
  obtain ⟨x, world, failure⟩ := moved
  dsimp only
  refine keeps_bind (keeps_modify ?_) fun _ => ?_
  · exact fun _ h => h
  cases failure with
  | some e => exact keeps_fail e
  | none =>
    refine keeps_ite (keeps_bind (keeps_fail _) fun _ => ?_) ?_
    all_goals
      exact keeps_bind (keeps_counts_closeExchange s x) fun _ => keeps_pure _

end Station

namespace Solution

variable {ν : Type} {α : Type} {s s' : Solution} {packer : Packer}

/-- What a call keeps, whatever it returns. -/
theorem Answers.keeps {x : Task (Station ν) α} {r : Except PlanError α} {P : Solution → Prop}
    (h : Answers ν x s r s') (hx : Task.Keeps (fun st : Station ν => P st.solution) x) (hs : P s) :
    P s' := by
  obtain ⟨v, w, w', hr⟩ := h
  have hkept := hx v ⟨s, w⟩ hs
  rwa [(returns_iff.mp hr).2] at hkept

variable [Transport ν]

theorem counts_of_exchangeAlone {r : Except PlanError (Traffic × List ExchangeEvent)}
    (h : Answers ν (Station.exchange packer) s r s') : s.Counts s' :=
  h.keeps (Station.keeps_counts_exchange s) ⟨s.totals, rfl⟩

theorem counts_of_exchange {r : Except PlanError (List ExchangeEvent)}
    (h : ExchangeAnswers ν packer s r s') : s.Counts s' := by
  obtain ⟨_, hopen, -⟩ | ⟨_, s₁, hopen, h⟩ := h
  · exact hopen.keeps (Station.keeps_counts_openExchange s) ⟨s.totals, rfl⟩
  have hs₁ : s.Counts s₁ := hopen.keeps (Station.keeps_counts_openExchange s) ⟨s.totals, rfl⟩
  obtain ⟨_, -, rfl⟩ | ⟨x, hclose⟩ := h
  · exact hs₁
  · exact hclose.keeps (Station.keeps_counts_closeExchange s x) hs₁

end Solution

end StencilPlan
