import StencilPlan.Proofs.Solution.Rounds

/-!
# The tags of prepared ranks

A tag has sixteen bits, and the number of a variable times the size of the neighborhood may need
more. Preparing does not look at tags: a rank finds out when it posts its receives. For prepared
ranks that exchange by messages this is all that can go wrong. They get through any number of
exchanges exactly if the tag of every message that is received is in range, until the totals that a
solution keeps outgrow a word.
-/

namespace StencilPlan

/-! ### Exchanges that are over -/

/-- The rank has come to the end of an exchange. -/
def CrewMember.Ended (m : CrewMember Universe) (y : Exchange Universe) : Prop :=
  y ∈ m.past ∨ y = m.exchange ∧ y.finished = true

theorem CrewMember.ended_of_finished {m : CrewMember Universe} (h : m.finished = true) :
    m.Ended m.exchange := by
  simp only [finished, Bool.and_eq_true] at h
  exact .inr ⟨rfl, h.1.2⟩

/-- What holds of the exchanges before the present one holds of that one too once it is over. -/
theorem Crew.Keeps.of_ended {Now Over : Nat → Nat → Exchange Universe → Prop} {c : Crew Universe}
    (h : c.Keeps Now Over) {k : Nat} {m : CrewMember Universe} (hm : c.members[k]? = some m)
    (hover : ∀ r (x : Exchange Universe), Now k r x → x.todo = [] → Over k r x)
    {y : Exchange Universe} (hy : m.Ended y) : ∃ r, Over k r y := by
  rcases hy with hy | ⟨rfl, hfinished⟩
  · obtain ⟨r, hr⟩ := List.mem_iff_getElem?.mp hy
    exact ⟨r, h.past k m hm r y hr⟩
  · exact ⟨_, hover _ _ (h.current k m hm) (List.isEmpty_iff.mp hfinished)⟩

/-! ### What an exchange adds to the totals -/

/-- What an exchange of the rank comes to. -/
def Party.amount (p : Party) : Traffic where
  sentBytes := (p.tasks.map fun k => (p.table.traffic k).sentBytes).sum
  receivedBytes := (p.tasks.map fun k => (p.table.traffic k).receivedBytes).sum
  sharedCopies := (p.tasks.map fun k => (p.table.traffic k).sharedCopies).sum
  messages := (p.tasks.map fun k => (p.table.traffic k).messages).sum

theorem Exchange.Complete.stats {parties : Nat → Party} {p : Party} {round : Nat}
    {x : Exchange Universe} (h : x.Complete parties p round) : x.stats = p.amount := by
  have hpart : ∀ f, Traffic.Counted f →
      f x.stats = (p.tasks.map fun k => f (p.table.traffic k)).sum :=
    fun f hf => h.traffic f hf.additive
  rw [Party.amount, ← hpart _ (.inl rfl), ← hpart _ (.inr (.inl rfl)),
    ← hpart _ (.inr (.inr (.inl rfl))), ← hpart _ (.inr (.inr (.inr rfl)))]

/-- Every exchange of a rank comes to the same. -/
theorem Crew.Ledger.stats_of_ended {parties : Nat → Party} {c : Crew Universe}
    (h : c.Ledger parties) {k : Nat} {m : CrewMember Universe} (hm : c.members[k]? = some m)
    {y : Exchange Universe} (hy : m.Ended y) : y.stats = (parties k).amount := by
  obtain ⟨r, hcomplete⟩ := h.of_ended hm (fun r x hx htodo => hx.complete htodo) hy
  exact hcomplete.stats

/-- An exchange that came to its end is added to the totals as long as they fit into a word. -/
theorem Station.close_yields {sol : Solution} {t u : Traffic} {y : Exchange Universe}
    (htotals : t.add y.stats = .ok u) (v : Verbosity) (w : World Universe) :
    (Station.closeExchange y).Yields v ⟨{ sol with totals := t }, w⟩
      (if sol.current.overlapComms then y.events else y.events ++ [.interior])
      ⟨{ sol with totals := u }, w⟩ := by
  simp only [closeExchange, Task.yields_bind_get, Task.yields_bind_checked,
    Task.yields_bind_modify, Task.yields_pure]
  exact ⟨u, htotals, rfl, rfl⟩

/-! ### Posting a receive tells that its tag is in range -/

/-- The tags of all messages that the rank receives are in range. -/
def Party.TagsInRange (p : Party) : Prop := ∀ s ∈ p.table.incoming, p.tag s < tagLimit

/-- The tags of the receives that are no longer to be posted are in range. -/
def Exchange.Cleared (p : Party) (x : Exchange Universe) : Prop :=
  ∀ s ∈ p.table.incoming, .act s .post ∉ x.todo → p.tag s < tagLimit

namespace Exchange

variable {p : Party} {round : Nat} {x x' : Exchange Universe} {w w' : World Universe}

/-- Before the first move everything is still to be posted. -/
theorem cleared_of_start (htodo : x.todo = p.table.script p.interior) : x.Cleared p := by
  intro s hs hpost
  rw [htodo] at hpost
  exact absurd (HaloTable.mem_script.mpr (.inl ⟨s, hs, .inl rfl⟩)) hpost

theorem Cleared.tagsInRange (h : x.Cleared p) (htodo : x.todo = []) : p.TagsInRange :=
  fun s hs => h s hs (by rw [htodo]; exact List.not_mem_nil)

theorem Cleared.advance (hx : x.Follows p round) (h : x.Cleared p)
    (hstep : Advances x w x' w') : x'.Cleared p := by
  intro s hs hpost
  by_cases hold : .act s .post ∈ x.todo
  · obtain ⟨n, hn, -⟩ := HaloTable.mem_incoming.mp hs
    -- The receive was to be posted and is not any more, so the move was to post it.
    cases hstep with
    | interior htodo =>
      rw [htodo, List.mem_cons] at hold
      exact absurd (hold.resolve_left nofun) hpost
    | skip htodo hnone =>
      rw [htodo, List.mem_cons] at hold
      rcases hold with heq | hrest
      · obtain ⟨rfl, -⟩ := Move.act.inj heq
        rw [hx.table, hn] at hnone
        cases hnone
      · exact absurd hrest hpost
    | act htodo hn' hperforms =>
      rw [htodo, List.mem_cons] at hold
      rcases hold with heq | hrest
      · obtain ⟨rfl, rfl⟩ := Move.act.inj heq
        cases hperforms with
        | post htag =>
          obtain ⟨rfl, hlt⟩ := messageTag_eq_ok.mp htag
          rwa [hx.table] at hlt
        | taken ha | take ha => rcases ha with ha | ha <;> cases ha
      · refine absurd ?_ hpost
        rcases hperforms.todo with htodo' | ⟨-, htodo'⟩
        · rw [htodo']
          exact hrest
        · rw [htodo']
          exact List.mem_cons_of_mem _ hrest
  · exact h s hs hold

end Exchange

namespace Crew

variable {size : Nat} {parties : Nat → Party} {c d : Crew Universe} {i : Nat}

/-- The receives that were posted have tags in range, and after an exchange all of them were. -/
def Posted (parties : Nat → Party) (c : Crew Universe) : Prop :=
  c.Keeps (fun k _ x => x.Cleared (parties k)) fun k _ _ => (parties k).TagsInRange

theorem posted_enlist {w : World Universe} : Posted parties (enlist size parties w) :=
  keeps_enlist fun _ _ => Exchange.cleared_of_start rfl

theorem Posted.step (hc : Manned size parties c) (h : Posted parties c)
    (hstep : c.step i = some d) : Posted parties d := by
  refine Keeps.step hc h hstep (fun m q hm => ?_) (fun r x hx htodo => hx.tagsInRange htodo)
    fun m x w hm hold hadvance => ?_
  · exact Exchange.cleared_of_start hm.exchange.moves
  · exact hold.advance (hc.follows i m hm).exchange hadvance

theorem Posted.reaches (hl : Linked size parties) (hc : Sound size parties c)
    (h : Posted parties c) (hreach : Reaches c d) : Posted parties d := by
  induction hreach with
  | refl => exact h
  | step _ hreach hstep ih => exact ih.step (hc.reaches hl hreach).manned hstep

/-- A rank ends no exchange if the tag of some message that it should receive is out of range. -/
theorem Posted.tagsInRange (h : Posted parties c) {k : Nat} {m : CrewMember Universe}
    (hm : c.members[k]? = some m) {y : Exchange Universe} (hy : m.Ended y) :
    (parties k).TagsInRange := by
  obtain ⟨r, htags⟩ := h.of_ended hm (fun r x hx htodo => hx.tagsInRange htodo) hy
  exact htags

end Crew

/-! ### Prepared ranks -/

namespace Muster

variable {stencil : Stencil} {s : Settings} {solutions : List Solution} {w : World Universe}
  {m : Muster}

/-- The tag of every buffer that receives anything fits into sixteen bits. -/
def TagsInRange (m : Muster) : Prop :=
  ∀ r ∈ m.recruits, ∀ e ∈ r.solution.halos.entries, e.2.recv.count ≠ 0 →
    e.1.var * r.solution.halos.neighborhood + e.1.neighbor < tagLimit

instance (m : Muster) : Decidable m.TagsInRange :=
  inferInstanceAs (Decidable (∀ r ∈ m.recruits, ∀ e ∈ r.solution.halos.entries,
    e.2.recv.count ≠ 0 → e.1.var * r.solution.halos.neighborhood + e.1.neighbor < tagLimit))

/-- All ranks get through one exchange after the other, in whatever order they make their moves. The
three fields go through a call from its beginning to its end. -/
structure Returns (m : Muster) (pack : Nat → Nat → String → HaloBuffer → List Binary64)
    (rounds : Nat) : Prop where
  /-- An exchange of any round begins with what the rank brings, whatever it has counted so far. -/
  opens : ∀ k (r : Recruit), m.recruits[k]? = some r → ∀ (round : Nat) (t : Traffic) v w,
    (Station.openExchange ((m.party pack rounds k).packer round)).Yields v
      ⟨{ r.solution with totals := t }, w⟩
      ((m.party pack rounds k).enlist.exchange.again ((m.party pack rounds k).packer round))
      ⟨{ r.solution with totals := t }, w⟩
  /-- No move fails, and all can still come to the end of all rounds. So ranks that can make no more
  moves are at that end. -/
  goesOn : ∀ c, (m.crew pack rounds).Reaches c →
    c.Unfailing ∧ ∃ d, c.Reaches d ∧ ∀ x ∈ d.members, x.finished = true
  /-- An exchange that came to its end is counted, as long as the totals fit into a word. -/
  closes : ∀ c, (m.crew pack rounds).Reaches c → ∀ k (r : Recruit) x, m.recruits[k]? = some r →
    c.members[k]? = some x → ∀ y, x.Ended y → ∀ t u : Traffic,
      t.add (m.party pack rounds k).amount = .ok u → ∀ v w,
        (Station.closeExchange y).Yields v ⟨{ r.solution with totals := t }, w⟩
          (if r.solution.current.overlapComms then y.events else y.events ++ [.interior])
          ⟨{ r.solution with totals := u }, w⟩

section Parties

variable {u : Universe} (pack : Nat → Nat → String → HaloBuffer → List Binary64) (rounds : Nat)

/-- Each rank receives with the tags of its table. -/
theorem Sound.tagsInRange (h : Sound (fun _ => stencil) (fun _ => s) u m) (hall : m.AllSettled)
    (hs : s.Shaped stencil.catalog) (hoff : s.useShared = false) :
    m.TagsInRange ↔ ∀ k < u.size, (m.party pack rounds k).TagsInRange := by
  have hset := h.setUpAll pack rounds hall
  constructor
  · intro htags k hk slot hslot
    obtain ⟨r, p, hr, -, -, hparty⟩ := h.brings pack rounds hall hk
    rw [hparty] at hslot ⊢
    obtain ⟨n, hn, -, hcount⟩ := HaloTable.mem_incoming.mp hslot
    exact htags r (List.mem_of_getElem? hr) (slot, n) (HaloTable.mem_entries.mpr hn) hcount
  · intro htags r hr e he hcount
    obtain ⟨k, hk⟩ := List.mem_iff_getElem?.mp hr
    have hlt := h.lt hk
    obtain ⟨r', p, hr', -, -, hparty⟩ := h.brings pack rounds hall hlt
    obtain rfl := Option.some.inj (hk.symm.trans hr')
    have hn := HaloTable.mem_entries.mp he
    -- Nothing is shared, so what the buffer receives comes as a message.
    have hno : e.2.shared = false := hset.notShared hs hoff hlt (by rw [hparty]; exact hn)
    have htag := htags k hlt e.1 (by
      rw [hparty]
      exact HaloTable.mem_incoming.mpr ⟨e.2, hn, hno, hcount⟩)
    rwa [hparty] at htag

end Parties

/-- Prepared ranks that exchange by messages get through all their exchanges exactly if every tag is
in range. -/
theorem returns_iff_tagsInRange (hstencil : stencil.Built) (hs : s.Reachable stencil.catalog)
    (hoff : s.useShared = false) (hstart : Assembled stencil s solutions w)
    (hreach : (ofSolutions solutions w).Reaches m) (hready : m.AllReady)
    (pack : Nat → Nat → String → HaloBuffer → List Binary64) (rounds : Nat) :
    m.Returns pack rounds ↔ m.TagsInRange := by
  have hc := hstencil.catalog.wellFormed
  have hsound := (sound_of_assembled hstart).reaches (fun _ _ => hs.shaped)
    (fun _ _ => hstencil.nodup) hreach
  have hset := hsound.setUpAll pack rounds hready.settled
  have hl := linked_of_setUp hc hs.shaped hset
  have hcrew := hsound.crew pack rounds hc hs.shaped hstart.inFlight hready.settled
  have hrounds := hsound.sameRounds pack rounds hready.settled
  rw [hsound.tagsInRange pack rounds hready.settled hs.shaped hoff]
  constructor
  · intro hreturns k hk
    -- In the end every rank has ended an exchange, and so has posted all its receives.
    obtain ⟨-, d, hd, hdone⟩ := hreturns.goesOn _ .refl
    obtain ⟨x, hx⟩ := (hcrew.reaches hl hd).manned.member hk
    have hposted : Crew.Posted (m.party pack rounds) d :=
      Crew.posted_enlist.reaches hl hcrew hd
    exact hposted.tagsInRange hx (CrewMember.ended_of_finished (hdone x (List.mem_of_getElem? hx)))
  · intro htags
    have hrange : ∀ k < w.net.size, (m.party pack rounds k).InRange := by
      intro k hk
      refine hset.inRange hc hs.shaped hoff (fun j hj slot n hn hcount => htags j hj slot ?_) hk
      exact HaloTable.mem_incoming.mpr ⟨n, hn, hset.notShared hs.shaped hoff hj hn, hcount⟩
    have hstarts : Crew.Unfailing (m.crew pack rounds) := Crew.unfailing_enlist
    constructor
    case opens =>
      intro k r hr round t v w
      exact hsound.opensRound pack rounds hc hs.shaped hready hr round t v w
    case goesOn =>
      intro c hreached
      have hok := hcrew.unfailing_reaches hl hrange hstarts hreached
      exact ⟨hok, (hcrew.reaches hl hreached).exists_finished hl hrange hrounds hok⟩
    case closes =>
      intro c hreached k r x hr hx y hy t u htotals v w
      have hstats := (hcrew.reaches hl hreached).ledger.stats_of_ended hx hy
      exact Station.close_yields (hstats ▸ htotals) v w

end Muster

/-- Of two ranks the second one receives a message, and its tag is in range. -/
theorem Muster.returns_iff_tagsInRange_couple :
    (Couple.muster Couple.apart).TagsInRange ∧
      (∃ r ∈ (Couple.muster Couple.apart).recruits, ∃ e ∈ r.solution.halos.entries,
        e.2.recv.count ≠ 0) ∧
      (Couple.muster Couple.apart).Returns Couple.pack 1 := by
  have htags : (Couple.muster Couple.apart).TagsInRange := by decide +kernel
  have hiff := Muster.returns_iff_tagsInRange Couple.built Couple.reachable_apart
    (by decide +kernel) (Couple.assembled _) (Couple.reaches (by decide +kernel))
    (by decide +kernel) Couple.pack 1
  exact ⟨htags, by decide +kernel, hiff.mpr htags⟩

namespace Crowd

/-- Points in six dimensions, with a time step. -/
def catalog : Catalog :=
  (Catalog.declare "t" ["a", "b", "c", "x", "y", "z"] []).toOption.getD default

/-- Ninety variables without a halo. -/
def bare : Stencil :=
  (List.range 90).foldl (fun s k => s.withVar (toString k)) (.new "crowd" catalog)

/-- The last variable has a halo of one point on the left. A neighborhood has 729 places, so the
tags of this variable begin at 65610. -/
def stencil : Stencil := (bare.withHalo "u" "next" true 0 [1, 1, 1, 1, 1, 1]).toOption.getD bare

/-- One point for each rank. -/
def settings : Settings :=
  ((Settings.setOption stencil.catalog "l" "1").run none (.initial stencil.catalog 1)).state

/-- One solution for each of two ranks. -/
def pair (stencil : Stencil) (s : Settings) : List Solution :=
  [0, 1].map fun k => { Solution.new (.new k 1 .unlimited) stencil 1 with settings := s }

def solutions : List Solution := pair stencil settings

/-- Whether the halo is accepted or refused, the stencil is one that can be built. -/
theorem built_getD {bare : Stencil} (h : bare.Built) (sizes : List Int) :
    ((bare.withHalo "u" "next" true 0 sizes).toOption.getD bare).Built := by
  cases hhalo : bare.withHalo "u" "next" true 0 sizes with
  | ok s => exact .halo h hhalo
  | error e => exact h

theorem built : stencil.Built := by
  have hcatalog : catalog.Built :=
    .declare (show Catalog.declare "t" ["a", "b", "c", "x", "y", "z"] [] = .ok catalog by
      decide +kernel)
  exact built_getD (List.foldlRecOn (motive := Stencil.Built) (List.range 90)
    (fun s k => s.withVar (toString k)) (.new hcatalog "crowd")
    fun s hs k _ => .var hs (toString k)) _

theorem reachable : settings.Reachable stencil.catalog := .option (.initial 1) "l" "1" none

theorem assembled_pair (stencil : Stencil) (s : Settings) :
    Assembled stencil s (pair stencil s) Couple.world :=
  (gathered_map Couple.world
    (fun k => { Solution.new (.new k 1 .unlimited) stencil 1 with settings := s })
    (fun _ => rfl) rfl List.nodup_nil).assembled

theorem assembled : Assembled stencil settings solutions Couple.world := assembled_pair _ _

end Crowd

/-- Two ranks prepare for 91 variables in six dimensions. The second one waits for the left halo of
the last variable, so it fails when it posts the receive, which is its first move. -/
theorem Muster.prepared_rank_fails : Crowd.stencil.Built ∧
    Crowd.settings.Reachable Crowd.stencil.catalog ∧ Crowd.settings.useShared = false ∧
    Assembled Crowd.stencil Crowd.settings Crowd.solutions Couple.world ∧
    ∃ m, (Muster.ofSolutions Crowd.solutions Couple.world).Reaches m ∧ m.AllReady ∧
      ∃ d x, (m.crew Couple.pack 0).Reaches d ∧ d.members[1]? = some x ∧
        x.failure = some (.tiling (.communication 0 (.tagRange 90))) := by
  have hcheck : ((Muster.ofSolutions Crowd.solutions Couple.world).follow none
      [0, 1, 0, 1, 0, 1, 0, 1]).any (fun m => decide m.AllReady &&
        ((m.crew Couple.pack 0).step 1).any fun d => d.members[1]?.any fun x =>
          decide (x.failure = some (.tiling (.communication 0 (.tagRange 90))))) = true := by
    decide +kernel
  obtain ⟨m, hm, hcheck⟩ := (Option.any_eq_true _ _).mp hcheck
  obtain ⟨hready, hcheck⟩ := (Bool.and_eq_true _ _).mp hcheck
  obtain ⟨d, hd, hcheck⟩ := (Option.any_eq_true _ _).mp hcheck
  obtain ⟨x, hx, hfailure⟩ := (Option.any_eq_true _ _).mp hcheck
  exact ⟨Crowd.built, Crowd.reachable, by decide +kernel, Crowd.assembled, m,
    Muster.reaches_of_follow hm, of_decide_eq_true hready, d, x, .step 1 .refl hd, hx,
    of_decide_eq_true hfailure⟩

end StencilPlan
