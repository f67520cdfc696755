import StencilPlan.Proofs.Solution.Rounds

/-!
# Prepared ranks never all wait

Prepared ranks exchange with some neighbors by messages and with others in shared memory, for any
number of rounds, and a rank may be rounds ahead of another one. A rank that cannot go on waits for
one that has come less far, so somebody can always go on. It takes neighbors that do the same number
of rounds: otherwise a rank can be left waiting for one that has done all of its own.
-/

namespace StencilPlan

namespace Muster

variable {stencil : Stencil} {s : Settings} {solutions : List Solution} {w : World Universe}
  {m : Muster}

/-- Bytes of the pools of all ranks. -/
def poolBytes (m : Muster) : Nat :=
  (m.recruits.map fun r => r.solution.halos.poolBytes m.world.heap).sum

/-- Where the pools of all ranks lie in one address space, nothing that a rank counts is out of
range. -/
theorem Sound.inRange {u : Universe} (h : Sound (fun _ => stencil) (fun _ => s) u m)
    (hc : stencil.catalog.WellFormed) (hs : s.Shaped stencil.catalog) (hall : m.AllSettled)
    (pack : Nat → Nat → String → HaloBuffer → List Binary64) (rounds : Nat → Nat)
    (htags : ∀ r ∈ m.recruits, ∀ e ∈ r.solution.halos.entries, e.2.shared = false →
      e.1.var * r.solution.halos.neighborhood + e.1.neighbor < tagLimit)
    (hfits : m.poolBytes < Word.bound) {k : Nat} (hk : k < u.size) :
    (m.party pack (rounds k) k).InRange := by
  have hset := h.setUpEach pack hall rounds
  have hl := linked_of_setUp hc hs hset
  have htable : ∀ j < u.size, ∃ r ∈ m.recruits, m.recruits[j]? = some r ∧
      (m.party pack (rounds j) j).table = r.solution.halos := by
    intro j hj
    obtain ⟨r, p, hr, -, -, hparty⟩ := h.brings pack (rounds j) hall hj
    exact ⟨r, List.mem_of_getElem? hr, hr, by rw [hparty]⟩
  have htag : ∀ j < u.size, ∀ slot n, (m.party pack (rounds j) j).table.at? slot = some n →
      n.shared = false → n.recv.count ≠ 0 → (m.party pack (rounds j) j).tag slot < tagLimit := by
    intro j hj slot n hn hno _
    obtain ⟨r, hmem, -, ht⟩ := htable j hj
    rw [ht] at hn
    rw [Party.tag, ht]
    exact htags r hmem (slot, n) (HaloTable.mem_entries.mpr hn) hno
  -- a message that is sent bears the tag under which the other rank receives it
  refine ⟨htag k hk, fun slot n hn hno hcount => hl.sendTag htag hk hn hno hcount,
    fun f hf => ?_⟩
  · refine Nat.lt_of_le_of_lt (Nat.le_trans (hl.traffic_le hk (fun slot n hn => ?_)
      (fun j hj => ?_) hf (h := m.world.heap)) (Nat.le_of_eq ?_)) hfits
    · obtain ⟨placement, hsetup, -⟩ := hset k hk
      obtain ⟨neighbor, htoward⟩ := hsetup.toward hs hn
      exact htoward.rank_ne
    · exact (h.stocked.furnished j _ (h.hallEach pack hall rounds j hj).1).berthed
    · refine congrArg List.sum (List.ext_getElem (by simp [h.length]) fun j hj hj' => ?_)
      rw [List.length_map, List.length_range] at hj
      obtain ⟨r, -, hr, ht⟩ := htable j hj
      rw [List.getElem_map, List.getElem_map, List.getElem_range, ht,
        (List.getElem?_eq_some_iff.mp hr).2]

/-- Nobody fails then. -/
theorem Sound.unfailing {u : Universe} (h : Sound (fun _ => stencil) (fun _ => s) u m)
    (hc : stencil.catalog.WellFormed) (hs : s.Shaped stencil.catalog)
    (hinFlight : u.inFlight = []) (hall : m.AllSettled)
    (pack : Nat → Nat → String → HaloBuffer → List Binary64) (rounds : Nat → Nat)
    (htags : ∀ r ∈ m.recruits, ∀ e ∈ r.solution.halos.entries, e.2.shared = false →
      e.1.var * r.solution.halos.neighborhood + e.1.neighbor < tagLimit)
    (hfits : m.poolBytes < Word.bound) {c : Crew Universe}
    (hreached : (m.crewOf pack rounds).Reaches c) : c.Unfailing := by
  have hl := linked_of_setUp hc hs (h.setUpEach pack hall rounds)
  have hcrew := h.crewEach pack hc hs hinFlight hall rounds
  refine hcrew.unfailing_reaches hl (fun k hk => ?_) ?_ hreached
  · exact h.inRange hc hs hall pack rounds htags hfits hk
  · rw [h.length]
    exact Crew.unfailing_enlist

/-- Either somebody can go on or somebody waits for a rank that does fewer rounds and is done. -/
theorem Sound.goes_on_or_abandoned {u : Universe} (h : Sound (fun _ => stencil) (fun _ => s) u m)
    (hc : stencil.catalog.WellFormed) (hs : s.Shaped stencil.catalog)
    (hinFlight : u.inFlight = []) (hall : m.AllSettled)
    (pack : Nat → Nat → String → HaloBuffer → List Binary64) (rounds : Nat → Nat)
    {c : Crew Universe} (hreached : (m.crewOf pack rounds).Reaches c) (hok : c.Unfailing)
    (hsome : ∃ x ∈ c.members, x.finished = false) :
    (∃ k, c.Enabled k) ∨ ∃ k slot n, k < u.size ∧
      (m.party pack (rounds k) k).table.at? slot = some n ∧ rounds n.rank < rounds k ∧
        ∃ x, c.members[n.rank]? = some x ∧ x.finished = true := by
  have hl := linked_of_setUp hc hs (h.setUpEach pack hall rounds)
  have hnow := (h.crewEach pack hc hs hinFlight hall rounds).reaches hl hreached
  have hrounds : ∀ k < u.size, (m.party pack (rounds k) k).rounds = rounds k := by
    intro k hk
    obtain ⟨_, _, -, -, -, hparty⟩ := h.brings pack (rounds k) hall hk
    rw [hparty]
  obtain ⟨x, hx, hunfinished⟩ := hsome
  refine (hnow.enabled_or_abandoned hl hok hx hunfinished).imp_right ?_
  rintro ⟨k, y, slot, n, a, rest, hhalts, hlt, hdone⟩
  have hk := hnow.manned.lt hhalts.member
  refine ⟨k, slot, n, hk, hhalts.entry, ?_, hdone⟩
  rwa [hrounds k hk, hrounds _ (hl.inRange k hk slot n hhalts.entry)] at hlt

section Prepared

variable (hstencil : stencil.Built) (hs : s.Reachable stencil.catalog)
  (hstart : Assembled stencil s solutions w) (hreach : (ofSolutions solutions w).Reaches m)
  (hready : m.AllReady)
  (htags : ∀ r ∈ m.recruits, ∀ e ∈ r.solution.halos.entries, e.2.shared = false →
    e.1.var * r.solution.halos.neighborhood + e.1.neighbor < tagLimit)
  (pack : Nat → Nat → String → HaloBuffer → List Binary64)

include hstencil hs hstart hreach

theorem sound_of_reaches : Sound (fun _ => stencil) (fun _ => s) w.net m :=
  (sound_of_assembled hstart).reaches (fun _ _ => hs.shaped) (fun _ _ => hstencil.nodup) hreach

include hready htags

/-- Whatever the order in which prepared ranks make their moves, by messages and in shared memory:
as long as not all of them have done their rounds somebody can make the next step. Nobody fails
where the pools of all ranks lie in one address space. Only a neighbor that does fewer rounds and
has done them can leave a rank waiting. -/
theorem exchanges_go_on (rounds : Nat → Nat) :
    (∀ k (r : Recruit), m.recruits[k]? = some r → ∀ v,
      (Station.openExchange ((m.party pack (rounds k) k).packer 0)).Yields v
        ⟨r.solution, m.world⟩ (m.party pack (rounds k) k).enlist.exchange
        ⟨r.solution, m.world⟩) ∧
    ∀ c, (m.crewOf pack rounds).Reaches c →
      (m.poolBytes < Word.bound → c.Unfailing) ∧
      (c.Unfailing → (∃ x ∈ c.members, x.finished = false) →
        ((∀ k < w.net.size, ∀ slot n, (m.party pack (rounds k) k).table.at? slot = some n →
          rounds n.rank = rounds k) → ∃ k, c.Enabled k) ∧
        ((∃ k, c.Enabled k) ∨ ∃ k slot n, (m.party pack (rounds k) k).table.at? slot = some n ∧
          rounds n.rank < rounds k ∧ ∃ x, c.members[n.rank]? = some x ∧ x.finished = true)) := by
  have hc := hstencil.catalog.wellFormed
  have hsound := sound_of_reaches hstencil hs hstart hreach
  refine ⟨fun k r hr v => hsound.opens pack (rounds k) hc hs.shaped hready hr v,
    fun c hreached => ⟨fun hfits => hsound.unfailing hc hs.shaped hstart.inFlight hready.settled
      pack rounds htags hfits hreached, fun hok hsome => ?_⟩⟩
  have hgoes := hsound.goes_on_or_abandoned hc hs.shaped hstart.inFlight hready.settled pack
    rounds hreached hok hsome
  -- With the same rounds on both sides nobody is left behind.
  refine ⟨fun hsame => hgoes.resolve_right ?_, hgoes.imp_right ?_⟩
  · rintro ⟨k, slot, n, hk, hn, hlt, -⟩
    exact Nat.ne_of_lt hlt (hsame k hk slot n hn)
  · rintro ⟨k, slot, n, -, hleft⟩
    exact ⟨k, slot, n, hleft⟩

/-- Where all ranks do the same number of rounds, and their pools lie in one address space, the
exchange does not come to a halt before all of them are done. -/
theorem same_rounds_go_on (rounds : Nat) (hfits : m.poolBytes < Word.bound) {c : Crew Universe}
    (hreached : (m.crewOf pack fun _ => rounds).Reaches c)
    (hsome : ∃ x ∈ c.members, x.finished = false) : ∃ k, c.Enabled k := by
  have hc := hstencil.catalog.wellFormed
  have hsound := sound_of_reaches hstencil hs hstart hreach
  have hok := hsound.unfailing hc hs.shaped hstart.inFlight hready.settled pack (fun _ => rounds)
    htags hfits hreached
  refine (hsound.goes_on_or_abandoned hc hs.shaped hstart.inFlight hready.settled pack
    (fun _ => rounds) hreached hok hsome).resolve_right ?_
  rintro ⟨_, _, _, -, -, hlt, -⟩
  exact Nat.lt_irrefl _ hlt

end Prepared

end Muster

namespace Trio

/-- One solution for each of three ranks. -/
def solutions : List Solution :=
  [0, 1, 2].map fun k =>
    { Solution.new (.new k 1 .unlimited) Couple.stencil 1 with settings := Couple.together }

/-- The first two of the ranks are on one node. -/
def world : World Universe := ⟨.empty, .withNodes 3 2⟩

/-- The ranks after their preparation, which they do phase by phase in turn. -/
def muster : Muster :=
  ((Muster.ofSolutions solutions world).follow none
    [0, 1, 2, 0, 1, 2, 0, 1, 2, 0, 1, 2]).getD ⟨[], world⟩

theorem assembled : Assembled Couple.stencil Couple.together solutions world :=
  (gathered_map world (fun k =>
      { Solution.new (.new k 1 .unlimited) Couple.stencil 1 with settings := Couple.together })
    (fun _ => rfl) rfl List.nodup_nil).assembled

theorem reaches : (Muster.ofSolutions solutions world).Reaches muster :=
  Muster.reaches_getD (by decide +kernel)

end Trio

/-- The third of three ranks is a round ahead and waits for the second message of the second one,
which waits until the first one has filled their window. So it is the first one that goes on. -/
theorem Muster.exchanges_go_on_trio : ∃ d,
    (Trio.muster.crewOf Couple.pack fun _ => 1).Reaches d ∧ d.step 2 = none ∧ d.step 1 = none ∧
      (∃ x ∈ d.members, x.finished = false) ∧ d.Unfailing ∧ ∃ k, d.Enabled k := by
  have hready : Trio.muster.AllReady := by decide +kernel
  obtain ⟨-, hruns⟩ := Muster.exchanges_go_on Couple.built Couple.reachable_together
    Trio.assembled Trio.reaches hready (by decide +kernel) Couple.pack fun _ => 1
  have hfollow : ((Trio.muster.crewOf Couple.pack fun _ => 1).follow
      (.replicate 3 1 ++ .replicate 9 2)).any (fun d =>
        (d.step 2).isNone && (d.step 1).isNone && d.members.any fun x => !x.finished) = true := by
    decide +kernel
  obtain ⟨d, hd, hcheck⟩ := (Option.any_eq_true _ _).mp hfollow
  simp only [Bool.and_eq_true, Option.isNone_iff_eq_none, List.any_eq_true,
    Bool.not_eq_true'] at hcheck
  obtain ⟨⟨hwaits₂, hwaits₁⟩, hsome⟩ := hcheck
  have hreach := Crew.reaches_of_follow hd
  obtain ⟨hfits, hgoes⟩ := hruns d hreach
  have hok := hfits (by decide +kernel)
  exact ⟨d, hreach, hwaits₂, hwaits₁, hsome, hok, (hgoes hok hsome).1 fun _ _ _ _ _ => rfl⟩

end StencilPlan
