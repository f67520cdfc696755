import StencilPlan.Proofs.Solution.Lifecycle

/-!
# The totals of a solution

Exchanges that succeed are added up, component by component. A preparation that succeeds begins the
sums anew; nothing else touches them, not even giving up what was prepared. So the totals are the
sums over all exchanges that succeeded since the solution was last prepared (`Tallied`), whatever
calls were made and whatever they returned.
-/

namespace StencilPlan

open StencilPlan.Task

namespace Traffic

/-- All of it added up, without a bound. -/
def sum (ts : List Traffic) : Traffic where
  sentBytes := (ts.map (·.sentBytes)).sum
  receivedBytes := (ts.map (·.receivedBytes)).sum
  sharedCopies := (ts.map (·.sharedCopies)).sum
  messages := (ts.map (·.messages)).sum

/-- Adding one more, as long as it fits. -/
theorem sum_concat {ts : List Traffic} {t u : Traffic} (h : (sum ts).add t = .ok u) :
    u = sum (ts ++ [t]) := by
  obtain ⟨rfl, -⟩ := add_eq_ok.mp h
  simp [sum]

end Traffic

/-! ### What leaves the totals alone -/

namespace Station

variable {ν : Type} {α : Type} {t : Traffic} {st st' : Station ν} {v : Verbosity}

/-- The totals come to `t`. -/
def Totals (t : Traffic) (st : Station ν) : Prop := st.solution.totals = t

theorem keeps_totals_onSite (x : Task (Site ν) α) :
    Task.Keeps (Totals t) (onSite x : Task (Station ν) α) := fun _ _ h => h

theorem keeps_totals_onSettings (x : Task Settings α) :
    Task.Keeps (Totals t) (onSettings x : Task (Station ν) α) := fun _ _ h => h

theorem keeps_totals_unprepare : Task.Keeps (Totals t) (unprepare : Task (Station ν) Unit) := by
  refine keeps_bind_get fun _ => keeps_ite ?_ (keeps_pure _)
  refine keeps_bind (keeps_modify fun _ h => h) fun _ => keeps_bind (keeps_note _ _) fun _ => ?_
  exact keeps_bind (keeps_totals_onSite _) fun _ => keeps_modify fun _ h => h

theorem keeps_totals_edit (f : Settings → Settings) :
    Task.Keeps (Totals t) (edit f : Task (Station ν) Unit) :=
  keeps_bind keeps_totals_unprepare fun _ => keeps_totals_onSettings _

theorem keeps_totals_setOption (name value : String) :
    Task.Keeps (Totals t) (setOption name value : Task (Station ν) Unit) :=
  keeps_bind keeps_totals_unprepare fun _ => keeps_bind_get fun _ => keeps_totals_onSettings _

theorem keeps_totals_set (q : Quantity) (dim : String) (n : Int) :
    Task.Keeps (Totals t) (Station.set q dim n : Task (Station ν) Unit) :=
  keeps_bind_get fun _ => keeps_bind (keeps_planError _) fun _ =>
    keeps_bind (keeps_note _ _) fun _ => keeps_totals_edit _

theorem keeps_totals_propose (l : Level) (dim : String) (n : Int) :
    Task.Keeps (Totals t) (propose l dim n : Task (Station ν) Unit) := by
  have hset : ∀ u : PUnit, Task.Keeps (Totals t) (do
      let catalog := (← get).solution.catalog
      let _ ← catalog.check dim "set_candidate" (.tile l.spansSteps)
      Task.note .debug s!"tuning candidate: {l.name} size {n} in '{dim}' dimension"
      onSettings (modify (·.withCandidate catalog l dim n)) : Task (Station ν) Unit) := fun _ =>
    keeps_bind_get fun _ => keeps_bind (keeps_planError _) fun _ =>
      keeps_bind (keeps_note _ _) fun _ => keeps_totals_onSettings _
  exact keeps_ite (keeps_bind (keeps_reject _) hset) (hset ⟨⟩)

theorem keeps_totals_resolveTrial :
    Task.Keeps (Totals t) (resolveTrial : Task (Station ν) CandidateReport) :=
  keeps_bind_get fun _ => keeps_bind (keeps_planError _) fun _ =>
    keeps_bind (keeps_stateless _) fun _ => keeps_bind (keeps_checked _) fun _ =>
      keeps_bind (keeps_modify fun _ h => h) fun _ => keeps_pure _

theorem keeps_totals_measure (least : Nat) (clock : List Nat) (step : Nat → Outcome Unit) :
    Task.Keeps (Totals t) (measure least clock step : Task (Station ν) Nat) :=
  keeps_bind_get fun _ => keeps_bind (keeps_planError _) fun _ => keeps_outcome _

theorem keeps_totals_needTeams (func : String) :
    Task.Keeps (Totals t) (needTeams func : Task (Station ν) ThreadTeams) := by
  refine keeps_bind_get fun st => keeps_bind (keeps_planError _) fun p => ?_
  cases st.solution.teams with
  | some _ => exact keeps_pure _
  | none =>
    exact keeps_bind (keeps_stateless _) fun _ => keeps_bind (keeps_modify fun _ h => h) fun _ =>
      keeps_pure _

theorem keeps_totals_runNested (func : String) (program : NestProgram) :
    Task.Keeps (Totals t) (runNested func program : Task (Station ν) (List NestEvent × Nat)) :=
  keeps_bind (keeps_totals_needTeams func) fun _ => keeps_bind (keeps_checked _) fun _ =>
    keeps_pure _

theorem keeps_totals_orRelease (x : Task (Site ν) α) :
    Task.Keeps (Totals t) (orRelease x : Task (Station ν) α) := by
  refine keeps_bind (keeps_attempt (keeps_totals_onSite x)) fun r => ?_
  cases r with
  | ok a => exact keeps_pure a
  | error e => exact keeps_bind (keeps_totals_onSite _) fun _ => keeps_reject e

section Network

variable [Transport ν]

theorem keeps_totals_meet : Task.Keeps (Totals t) (meet : Task (Station ν) Unit) :=
  keeps_bind_get fun _ => keeps_bind (keeps_note _ _) fun _ => keeps_modify fun _ h => h

theorem keeps_totals_finish : Task.Keeps (Totals t) (finish : Task (Station ν) Unit) :=
  keeps_bind keeps_totals_unprepare fun _ => keeps_bind keeps_totals_meet fun _ =>
    keeps_bind_get fun _ => keeps_note _ _

theorem keeps_totals_draft : Task.Keeps (Totals t) (draft : Task (Station ν) Prepared) :=
  keeps_bind keeps_totals_unprepare fun _ => keeps_bind_get fun _ =>
    keeps_bind (keeps_note _ _) fun _ => keeps_bind (keeps_planAhead _) fun _ =>
      keeps_bind (keeps_stateless _) fun _ => keeps_pure _

theorem keeps_totals_openExchange (packer : Packer) :
    Task.Keeps (Totals t) (openExchange packer : Task (Station ν) (Exchange ν)) :=
  keeps_bind_get fun _ => keeps_bind (keeps_planError _) fun _ => keeps_checked _

end Network

end Station

/-! ### What counts -/

namespace Solution

variable {ν : Type} [Transport ν] {host : Host} {stencil : Stencil} {maxThreads : Nat}
  {s s' : Solution} {log : List Traffic} {packer : Packer} {ranks : Nat}

variable (ν) in
/-- A call that returns and is neither a preparation nor an exchange that succeeds. -/
inductive Passes (s s' : Solution) : Prop
  | prepare {ranks : Nat} {e : PlanError} (h : PrepareAnswers ν ranks s (.error e) s')
  | exchange {packer : Packer} {e : PlanError} (h : ExchangeAnswers ν packer s (.error e) s')
  | exchangeAlone {packer : Packer} {e : PlanError}
      (h : Answers ν (Station.exchange packer) s (.error e) s')
  | set {q : Quantity} {dim : String} {n : Int} {r : Except PlanError Unit}
      (h : Answers ν (Station.set q dim n) s r s')
  | setOption {name value : String} {r : Except PlanError Unit}
      (h : Answers ν (Station.setOption name value) s r s')
  | edit {f : Settings → Settings} {r : Except PlanError Unit}
      (h : Answers ν (Station.edit f) s r s')
  | propose {l : Level} {dim : String} {n : Int} {r : Except PlanError Unit}
      (h : Answers ν (Station.propose l dim n) s r s')
  | resolveTrial {r : Except PlanError CandidateReport}
      (h : Answers ν Station.resolveTrial s r s')
  | measure {least : Nat} {clock : List Nat} {step : Nat → Outcome Unit}
      {r : Except PlanError Nat} (h : Answers ν (Station.measure least clock step) s r s')
  | runNested {func : String} {program : NestProgram}
      {r : Except PlanError (List NestEvent × Nat)}
      (h : Answers ν (Station.runNested func program) s r s')
  | finish {r : Except PlanError Unit} (h : Answers ν Station.finish s r s')

variable (ν) in
/-- Nested programs run on the solution, as they may while it exchanges. -/
def Works : Solution → Solution → Prop :=
  Relation.ReflTransGen fun s s' =>
    ∃ func program r, Answers ν (Station.runNested func program) s r s'

variable (ν) in
/-- Some calls were made on a new solution. The exchanges that succeeded since it was last prepared
came to `log`. -/
inductive Tallied (host : Host) (stencil : Stencil) (maxThreads : Nat) :
    Solution → List Traffic → Prop
  | new : Tallied host stencil maxThreads (.new host stencil maxThreads) []
  | prepare {s s' : Solution} {log : List Traffic} {ranks : Nat}
      (h : Tallied host stencil maxThreads s log) (hcall : PrepareAnswers ν ranks s (.ok ()) s') :
      Tallied host stencil maxThreads s' []
  /-- The exchange `x` was opened, the ranks made their moves, and it was closed. -/
  | exchange {s s₁ s₂ s' : Solution} {log : List Traffic} {packer : Packer} {x₀ x : Exchange ν}
      {events : List ExchangeEvent} (h : Tallied host stencil maxThreads s log)
      (hopen : Answers ν (Station.openExchange packer) s (.ok x₀) s₁) (hworks : Works ν s₁ s₂)
      (hclose : Answers ν (Station.closeExchange x) s₂ (.ok events) s') :
      Tallied host stencil maxThreads s' (log ++ [x.stats])
  | exchangeAlone {s s' : Solution} {log : List Traffic} {packer : Packer} {t : Traffic}
      {events : List ExchangeEvent} (h : Tallied host stencil maxThreads s log)
      (hcall : Answers ν (Station.exchange packer) s (.ok (t, events)) s') :
      Tallied host stencil maxThreads s' (log ++ [t])
  | pass {s s' : Solution} {log : List Traffic} (h : Tallied host stencil maxThreads s log)
      (hcall : Passes ν s s') : Tallied host stencil maxThreads s' log

/-- What is closed is added. -/
theorem totals_of_close {x : Exchange ν} {events : List ExchangeEvent}
    (h : Answers ν (Station.closeExchange x) s (.ok events) s') :
    s.totals.add x.stats = .ok s'.totals := by
  obtain ⟨v, w, w', h⟩ := h
  replace h := returns_ok.mp h
  simp only [Station.closeExchange, yields_bind_get, yields_bind_checked, yields_bind_modify,
    yields_pure, Station.mk.injEq] at h
  obtain ⟨u, hadd, -, rfl, -⟩ := h
  exact hadd

theorem blameless_closeExchange (x : Exchange ν) : Blameless (Station.closeExchange x) := by
  have hchecked : ∀ c : Checked Traffic, Blameless (liftM c : Task (Station ν) Traffic) := by
    intro c v st e st' h
    obtain ⟨hresult, -⟩ := returns_iff.mp h
    cases c <;> cases hresult
  exact blameless_bind_get fun _ => blameless_bind (hchecked _) fun _ =>
    blameless_bind (blameless_modify _) fun _ => blameless_pure _

omit [Transport ν] in
theorem Answers.totals_eq {α : Type} {x : Task (Station ν) α} {r : Except PlanError α}
    (h : Answers ν x s r s') (hx : ∀ t, Task.Keeps (Station.Totals t) x) :
    s'.totals = s.totals := h.keeps (P := fun s' => s'.totals = s.totals) (hx s.totals) rfl

theorem totals_of_prepare (h : PrepareAnswers ν ranks s (.ok ()) s') : s'.totals = .zero := by
  obtain ⟨_, -, hno⟩ | ⟨p, s₁, -, h⟩ := h
  · cases hno
  obtain ⟨_, -, hno⟩ | ⟨words, s₂, -, h⟩ := h
  · cases hno
  obtain ⟨_, -, hno⟩ | ⟨_, s₃, -, ⟨_, _, _, hconclude⟩⟩ := h
  · cases hno
  exact congrArg (·.solution.totals) (Station.met_of_conclude (returns_ok.mp hconclude))

theorem totals_of_prepare_error {e : PlanError} (h : PrepareAnswers ν ranks s (.error e) s') :
    s'.totals = s.totals := by
  have hdrafted : ∀ {r s₁}, DraftAnswers ν ranks s r s₁ → s₁.totals = s.totals := by
    rintro r s₁ ⟨v, w, w', -, hdraft⟩
    exact Answers.totals_eq ⟨v, w, w', hdraft⟩ fun _ => Station.keeps_totals_draft
  have hoffered : ∀ {p r s₁ s₂}, Answers ν (Station.offerHalos p) s₁ r s₂ →
      s₂.totals = s₁.totals := fun h =>
    h.totals_eq fun _ => keeps_bind_get fun _ => Station.keeps_totals_orRelease _
  have hsettled : ∀ {p words r s₂ s₃}, Answers ν (Station.settleHalos p words) s₂ r s₃ →
      s₃.totals = s₂.totals := fun h => h.totals_eq fun _ => Station.keeps_totals_orRelease _
  obtain ⟨_, hdraft, -⟩ | ⟨p, s₁, hdraft, h⟩ := h
  · exact hdrafted hdraft
  obtain ⟨_, hoffer, -⟩ | ⟨words, s₂, hoffer, h⟩ := h
  · exact (hoffered hoffer).trans (hdrafted hdraft)
  -- The totals begin anew in the last phase, which finds no mistake.
  obtain ⟨_, hsettle, -⟩ | ⟨_, s₃, -, ⟨_, _, _, hconclude⟩⟩ := h
  · exact (hsettled hsettle).trans ((hoffered hoffer).trans (hdrafted hdraft))
  · exact (Station.blameless_conclude _ _ _ _ hconclude).elim

theorem totals_of_exchange_error {e : PlanError} (h : ExchangeAnswers ν packer s (.error e) s') :
    s'.totals = s.totals := by
  obtain ⟨_, hopen, -⟩ | ⟨x₀, s₁, hopen, h⟩ := h
  · exact hopen.totals_eq fun _ => Station.keeps_totals_openExchange packer
  have hopened := hopen.totals_eq fun _ => Station.keeps_totals_openExchange packer
  obtain ⟨_, -, rfl⟩ | ⟨x, v, w, w', hclose⟩ := h
  · exact hopened
  · exact (blameless_closeExchange x v _ e _ hclose).elim

/-- A rank that exchanges alone either adds what the exchange came to, or nothing. -/
theorem totals_of_exchangeAlone {r : Except PlanError (Traffic × List ExchangeEvent)}
    (h : Answers ν (Station.exchange packer) s r s') :
    (∃ e, r = .error e ∧ s'.totals = s.totals) ∨
      ∃ t events, r = .ok (t, events) ∧ s.totals.add t = .ok s'.totals := by
  obtain ⟨v, w, w', h⟩ := h
  rcases returns_bind.mp h with ⟨e, he, rfl⟩ | ⟨x₀, ⟨s₁, w₁⟩, hopen, h⟩
  · refine .inl ⟨e, rfl, ?_⟩
    exact Answers.totals_eq ⟨v, w, w', he⟩ fun _ => Station.keeps_totals_openExchange packer
  have hopened : s₁.totals = s.totals := Answers.totals_eq ⟨v, w, w₁, returns_ok.mpr hopen⟩
    fun _ => Station.keeps_totals_openExchange packer
  -- Whatever the moves come to, they leave the solution alone.
  rw [returns_bind_get] at h
  generalize x₀.run w₁ = moved at h
  obtain ⟨x, world, failure⟩ := moved
  dsimp only at h
  obtain ⟨_, _, hmodify, h⟩ := (blameless_modify _).returns_bind.mp h
  obtain rfl := yields_modify.mp hmodify
  cases failure with
  | some e =>
    obtain ⟨hresult, hstate⟩ := returns_iff.mp h
    obtain ⟨rfl, -⟩ := Station.mk.inj hstate
    cases r with
    | ok a => cases hresult
    | error e' => exact .inl ⟨e', rfl, hopened⟩
  | none =>
    dsimp only at h
    split at h
    · -- A rank that waits for ever does not return.
      obtain ⟨hresult, -⟩ := returns_iff.mp h
      cases r <;> cases hresult
    · obtain ⟨events, ⟨s₂, w₂⟩, hclose, h⟩ := (blameless_closeExchange x).returns_bind.mp h
      obtain ⟨hresult, hstate⟩ := returns_iff.mp h
      obtain ⟨rfl, -⟩ := Station.mk.inj hstate
      cases r with
      | error e => cases hresult
      | ok a =>
        obtain rfl := Except.ok.inj hresult
        refine .inr ⟨x.stats, events, rfl, ?_⟩
        rw [← hopened]
        exact totals_of_close ⟨v, world, w₂, returns_ok.mpr hclose⟩

theorem Passes.totals_eq (h : Passes ν s s') : s'.totals = s.totals := by
  cases h with
  | prepare h => exact totals_of_prepare_error h
  | exchange h => exact totals_of_exchange_error h
  | exchangeAlone h =>
    obtain ⟨_, -, htotals⟩ | ⟨_, _, hno, -⟩ := totals_of_exchangeAlone h
    · exact htotals
    · cases hno
  | set h => exact h.totals_eq fun _ => Station.keeps_totals_set _ _ _
  | setOption h => exact h.totals_eq fun _ => Station.keeps_totals_setOption _ _
  | edit h => exact h.totals_eq fun _ => Station.keeps_totals_edit _
  | propose h => exact h.totals_eq fun _ => Station.keeps_totals_propose _ _ _
  | resolveTrial h => exact h.totals_eq fun _ => Station.keeps_totals_resolveTrial
  | measure h => exact h.totals_eq fun _ => Station.keeps_totals_measure _ _ _
  | runNested h => exact h.totals_eq fun _ => Station.keeps_totals_runNested _ _
  | finish h => exact h.totals_eq fun _ => Station.keeps_totals_finish

omit [Transport ν] in
theorem Works.totals_eq (h : Works ν s s') : s'.totals = s.totals := by
  induction h with
  | refl => rfl
  | tail _ hstep ih =>
    obtain ⟨func, program, r, hcall⟩ := hstep
    exact (hcall.totals_eq fun _ => Station.keeps_totals_runNested _ _).trans ih

/-- The totals are the sums over the exchanges that count. -/
theorem Tallied.totals_eq (h : Tallied ν host stencil maxThreads s log) :
    s.totals = Traffic.sum log := by
  induction h with
  | new => rfl
  | prepare _ hcall _ => exact totals_of_prepare hcall
  | exchange _ hopen hworks hclose ih =>
    -- Opening and working leave the totals alone; closing adds the traffic once.
    have hopened := hopen.totals_eq fun _ => Station.keeps_totals_openExchange _
    have hadd := totals_of_close hclose
    rw [hworks.totals_eq, hopened, ih] at hadd
    exact Traffic.sum_concat hadd
  | exchangeAlone _ hcall ih =>
    obtain ⟨_, hno, -⟩ | ⟨t, events, heq, hadd⟩ := totals_of_exchangeAlone hcall
    · cases hno
    · obtain ⟨rfl, -⟩ := Prod.mk.inj (Except.ok.inj heq)
      rw [ih] at hadd
      exact Traffic.sum_concat hadd
  | pass _ hcall ih => exact hcall.totals_eq.trans ih

/-- Whatever a call returns, it is known what counts after it. -/
theorem Tallied.step (h : Tallied ν host stencil maxThreads s log) (hstep : Step ν s s') :
    ∃ log', Tallied ν host stencil maxThreads s' log' := by
  cases hstep with
  | set hcall => exact ⟨log, h.pass (.set hcall)⟩
  | setOption hcall => exact ⟨log, h.pass (.setOption hcall)⟩
  | edit hcall => exact ⟨log, h.pass (.edit hcall)⟩
  | propose hcall => exact ⟨log, h.pass (.propose hcall)⟩
  | resolveTrial hcall => exact ⟨log, h.pass (.resolveTrial hcall)⟩
  | finish hcall => exact ⟨log, h.pass (.finish hcall)⟩
  | @prepare ranks r hcall =>
    cases r with
    | ok u => exact ⟨[], h.prepare hcall⟩
    | error e => exact ⟨log, h.pass (.prepare hcall)⟩
  | @exchange packer r hcall =>
    cases r with
    | error e => exact ⟨log, h.pass (.exchange hcall)⟩
    | ok events =>
      obtain ⟨_, -, hno⟩ | ⟨x₀, s₁, hopen, hrest⟩ := hcall
      · cases hno
      obtain ⟨_, hno, -⟩ | ⟨x, hclose⟩ := hrest
      · cases hno
      · exact ⟨_, h.exchange hopen .refl hclose⟩
  | @exchangeAlone packer r hcall =>
    cases r with
    | error e => exact ⟨log, h.pass (.exchangeAlone hcall)⟩
    | ok a => exact ⟨_, h.exchangeAlone hcall⟩

/-- Of every solution that some calls can make it is known what counts. -/
theorem exists_tallied_of_reachable (h : Reachable ν host stencil maxThreads s) :
    ∃ log, Tallied ν host stencil maxThreads s log := by
  induction h with
  | refl => exact ⟨[], .new⟩
  | tail _ hstep ih =>
    obtain ⟨log, htallied⟩ := ih
    exact htallied.step hstep

end Solution

end StencilPlan
