import StencilPlan.Proofs.Halo.Deeds
import StencilPlan.Proofs.Solution.Deadlock
import StencilPlan.Proofs.Solution.Tags
import StencilPlan.Proofs.Solution.Totals

/-!
# The accounts of exchanges

What the ranks count in a round of exchanges is compared with what they were seen to do: between
them they have received the bytes that they have sent, and each message put under way, as each
window written, was counted twice, where it came from and where it went. What a rank has counted is
added to the totals of its solution.
-/

namespace StencilPlan

theorem CrewMember.ended_of_mem {m : CrewMember Universe} {y : Exchange Universe}
    (h : y ∈ m.ended) : m.Ended y := by
  unfold ended at h
  split at h
  · next hfinished =>
    rcases List.mem_append.mp h with h | h
    · exact .inl h
    · exact .inr ⟨List.mem_singleton.mp h, List.mem_singleton.mp h ▸ hfinished⟩
  · exact .inl h

namespace Crew

variable {size : Nat} {parties : Nat → Party} {c : Crew Universe} {log : List Deed} {r : Nat}
  {ts : List Traffic}

/-- All ranks have ended a round, which came to `ts`, rank by rank. -/
def CameTo (c : Crew Universe) (r : Nat) (ts : List Traffic) : Prop :=
  (c.members.map fun m => (m.ended[r]?).map (·.stats)) = ts.map some

instance : Decidable (c.CameTo r ts) := inferInstanceAs (Decidable (_ = _))

/-- What a round came to agrees with what was done in it. -/
structure Balances (log : List Deed) (r : Nat) (ts : List Traffic) : Prop where
  bytes : (Traffic.sum ts).sentBytes = (Traffic.sum ts).receivedBytes
  messages : (Traffic.sum ts).messages = 2 * log.countP fun e => e.round = r ∧ e.put
  windows : (Traffic.sum ts).sharedCopies = 2 * log.countP fun e => e.round = r ∧ e.writes

theorem CameTo.ended (h : c.CameTo r ts) : ∀ m ∈ c.members, r < m.ended.length := by
  intro m hm
  have hstats : (m.ended[r]?).map (·.stats) ∈ ts.map some :=
    h ▸ List.mem_map.mpr ⟨m, hm, rfl⟩
  obtain ⟨t, -, ht⟩ := List.mem_map.mp hstats
  obtain ⟨y, hy, -⟩ := Option.map_eq_some_iff.mp ht.symm
  exact (List.getElem?_eq_some_iff.mp hy).1

/-- Every rank has counted what its tasks come to. -/
theorem Sound.eq_amounts (hc : Sound size parties c) (h : c.CameTo r ts) :
    ts = (List.range size).map fun k => (parties k).amount := by
  refine List.map_injective_iff.mpr (Option.some_injective _) (h.symm.trans ?_)
  refine List.ext_getElem (by simp [hc.manned.length]) fun k hk _ => ?_
  rw [List.length_map] at hk
  have hlt := h.ended _ (List.getElem_mem hk)
  have hended := CrewMember.ended_of_mem (List.getElem_mem hlt)
  simp only [List.getElem_map, List.getElem_range, List.getElem?_eq_getElem hlt, Option.map_some,
    hc.ledger.stats_of_ended (List.getElem?_eq_getElem hk) hended]

/-- The parts of what the ranks have counted. -/
theorem Sound.sum_eq (hc : Sound size parties c) (h : c.CameTo r ts) : Traffic.sum ts =
    { sentBytes := trafficOf size parties (·.sentBytes)
      receivedBytes := trafficOf size parties (·.receivedBytes)
      sharedCopies := trafficOf size parties (·.sharedCopies)
      messages := trafficOf size parties (·.messages) } := by
  rw [hc.eq_amounts h]
  simp only [Traffic.sum, List.map_map]
  rfl

theorem Sound.balances (hl : Linked size parties) (hc : Sound size parties c)
    (hlog : Logged size parties log c) (h : c.CameTo r ts) : Balances log r ts := by
  constructor
  case bytes => rw [hc.sum_eq h, hl.sentBytes_eq]
  case messages => rw [hc.sum_eq h, hlog.countP_put hc.manned h.ended, hl.messages_eq]
  case windows => rw [hc.sum_eq h, hlog.countP_writes hc.manned h.ended, hl.sharedCopies_eq]

end Crew

namespace Muster

variable {stencil : Stencil} {s : Settings} {solutions : List Solution} {w : World Universe}
  {m : Muster}

/-- Whatever the order in which the ranks make their moves, and however many rounds each of them
does: once a round has ended everywhere, what the ranks have counted in it balances, and agrees with
the messages that were put under way in it and with the windows that were written. And whatever
calls are made on a solution, its totals are the sums over the exchanges that succeeded since it was
last prepared. -/
theorem accounts_balance (hstencil : stencil.Built) (hs : s.Reachable stencil.catalog)
    (hstart : Assembled stencil s solutions w) (hreach : (ofSolutions solutions w).Reaches m)
    (hsettled : m.AllSettled) (pack : Nat → Nat → String → HaloBuffer → List Binary64)
    (rounds : Nat → Nat) :
    (∀ {log : List Deed} {c : Crew Universe}, (m.crewOf pack rounds).Runs log c →
      ∀ r ts, c.CameTo r ts → Crew.Balances log r ts) ∧
    ∀ {ν : Type} [Transport ν] {host : Host} {stencil : Stencil} {maxThreads : Nat}
      {sol : Solution} {log : List Traffic},
      Solution.Tallied ν host stencil maxThreads sol log → sol.totals = Traffic.sum log := by
  have hc := hstencil.catalog.wellFormed
  have hsound := (sound_of_assembled hstart).reaches (fun _ _ => hs.shaped)
    (fun _ _ => hstencil.nodup) hreach
  have hset := hsound.setUpEach pack hsettled rounds
  have hl := linked_of_setUp hc hs.shaped hset
  have hcrew := hsound.crewEach pack hc hs.shaped hstart.inFlight hsettled rounds
  refine ⟨fun {log c} hruns r ts hround => ?_, fun htallied => htallied.totals_eq⟩
  -- The log and the crew are followed side by side; the log says what was sent in a round.
  have hlog := hcrew.logged hl (hsound.length ▸ Crew.logged_enlist) hruns
  exact (hcrew.reaches hl hruns.reaches).balances hl hlog hround

end Muster

namespace Wide

/-- The prepared rank after an exchange, which it gets through by itself: it only sends. -/
def exchanged : Station Universe := ((Station.exchange fun _ _ => .ok []).run none prepared).state

/-- What it has sent: one message of five values. -/
def stats : Traffic := ⟨40, 0, 0, 1⟩

/-- The rank after it has ended. -/
def left : Station Universe := (Station.finish.run none exchanged).state

theorem tallied_left :
    Solution.Tallied Universe (.new 0 1 .unlimited) stencil 1 left.solution [stats] := by
  have hstation : Solution.Tallied Universe (.new 0 1 .unlimited) stencil 1 station.solution [] :=
    .pass .new (.edit (f := fun _ => settings) (r := .ok ())
      ⟨none, station.world, station.world, Task.returns_ok.mpr ⟨rfl, rfl⟩⟩)
  have hprepared := hstation.prepare (Solution.prepareAnswers_of_prepare (w := station.world)
    (Task.returns_ok.mpr yields_prepared))
  have hresult : ((Station.exchange fun _ _ => .ok []).run none prepared).result.toOption.map
      (·.1) = some stats := by decide +kernel
  obtain ⟨⟨t, events⟩, hyields⟩ := Task.exists_yields_of_isSome
    (show ((Station.exchange fun _ _ => .ok []).run none prepared).result.toOption.isSome = true by
      decide +kernel)
  -- Only the traffic is looked at, so the events may be any.
  obtain rfl : t = stats := by
    rw [hyields.1] at hresult
    exact Option.some.inj hresult
  obtain ⟨_, hfinish⟩ := answers_of_isSome Station.finish exchanged (by decide +kernel)
  have hexchange : Solution.Answers Universe (Station.exchange fun _ _ => .ok [])
      prepared.solution (.ok (stats, events)) exchanged.solution :=
    ⟨none, prepared.world, exchanged.world, Task.returns_ok.mpr hyields⟩
  exact .pass (hprepared.exchangeAlone hexchange) (.finish hfinish)

end Wide

/-- Of three ranks the first two share a window, and the second one sends the third one a message.
The third one is a round ahead when the first round has ended everywhere. A solution that has ended
still has its totals. -/
theorem Muster.accounts_balance_trio :
    (∃ log d, (Trio.muster.crewOf Couple.pack fun _ => 1).Runs log d ∧
      d.members.map (·.ended.length) = [1, 1, 2] ∧
      d.CameTo 0 [⟨8, 0, 1, 0⟩, ⟨8, 8, 1, 1⟩, ⟨0, 8, 0, 1⟩] ∧
      Crew.Balances log 0 [⟨8, 0, 1, 0⟩, ⟨8, 8, 1, 1⟩, ⟨0, 8, 0, 1⟩]) ∧
    Solution.Tallied Universe (.new 0 1 .unlimited) Wide.stencil 1 Wide.left.solution
      [Wide.stats] ∧
    Wide.left.solution.isPrepared = false ∧ Wide.left.solution.totals = Wide.stats := by
  have hsettled : Trio.muster.AllSettled := by decide +kernel
  obtain ⟨hruns, htotals⟩ := Muster.accounts_balance Couple.built Couple.reachable_together
    Trio.assembled Trio.reaches hsettled Couple.pack fun _ => 1
  have hfollow : ((Trio.muster.crewOf Couple.pack fun _ => 1).follow
      (.replicate 9 0 ++ .replicate 13 1 ++ .replicate 11 2)).any (fun d =>
        decide (d.members.map (·.ended.length) = [1, 1, 2] ∧
          d.CameTo 0 [⟨8, 0, 1, 0⟩, ⟨8, 8, 1, 1⟩, ⟨0, 8, 0, 1⟩])) = true := by
    decide +kernel
  obtain ⟨d, hd, hcheck⟩ := (Option.any_eq_true _ _).mp hfollow
  obtain ⟨hended, hround⟩ := of_decide_eq_true hcheck
  obtain ⟨log, hlog⟩ := (Crew.reaches_of_follow hd).exists_runs
  exact ⟨⟨log, d, hlog, hended, hround, hruns hlog 0 _ hround⟩, Wide.tallied_left,
    by decide +kernel, htotals Wide.tallied_left⟩

end StencilPlan
