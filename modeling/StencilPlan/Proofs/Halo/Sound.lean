import StencilPlan.Proofs.Halo.Ledger
import StencilPlan.Proofs.Halo.Shared

/-!
# What a crew keeps

The facts about the members, the messages, the windows and what the callers see support each
other: `Sound` collects them. They hold before the first exchange and after every step of any rank,
so they hold in every state that the crew can come to.
-/

namespace StencilPlan.Crew

open Heap

/-- Everything that a crew keeps. -/
structure Sound (size : Nat) (parties : Nat → Party) (c : Crew Universe) : Prop where
  manned : Manned size parties c
  mail : Mail size parties c
  addressed : Addressed size parties c
  housed : Housed size parties c.world.heap
  shakes : Shakes size parties c
  ledger : Ledger parties c

variable {size : Nat} {parties : Nat → Party} {c d : Crew Universe} {i : Nat}

/-- What is delivered or unpacked is the vector of the round. -/
theorem Sound.truthful (hl : Linked size parties) (h : Sound size parties c) :
    Truthful parties c := by
  intro j m k rest hm htodo
  have hj := h.manned.lt hm
  have hfollows := (h.manned.follows j m hm).exchange
  cases k with
  | interior => rfl
  | act s a =>
    cases hn : (parties j).table.at? s with
    | none => cases a <;> simp [Exchange.shows, Party.shows, hfollows.table, hn]
    | some n =>
      -- Only packing, delivering and unpacking show anything.
      cases a with
      | pack =>
        simp only [Exchange.shows, Party.shows, hfollows.table, Exchange.varName]
      | deliver =>
        obtain ⟨n', hpartner⟩ := hl.partner j hj s n hn
        have hlength : ((parties n.rank).vector m.past.length ((parties j).mirror s)).length =
            n.recv.count := by
          rw [Party.length_vector hpartner.entry, (hpartner.symm hl hj hn).count]
        have harrived := h.mail.arrived_eq hl hj hm hn (by rw [htodo]; exact List.mem_cons_self)
        simp only [Exchange.shows, Party.shows, hfollows.table, Exchange.varName, hn,
          Option.map_some, harrived, ← hlength, wordsOf_payload]
      | unpack =>
        obtain ⟨n', hn', hshared, hcount⟩ :=
          HaloTable.allows_of_mem_script (hfollows.mem_script htodo (by simp))
        obtain rfl := Option.some.inj (hn.symm.trans hn')
        -- Unpacking is the last move of its block: the five before it are made, reading among them.
        have hfive : doneOf m.exchange.todo (block s drainActions) = 5 :=
          hfollows.doneOf_head htodo (HaloTable.drainBlock_within hn hshared hcount) rfl
        have hread := h.shakes.read j m s n hm hn hshared hcount (by omega) (by omega)
        simp only [Exchange.shows, Party.shows, hfollows.table, Exchange.varName, hn,
          Option.map_some, hread]
      | _ => rfl

/-- The pools keep their sizes. -/
theorem Sound.length (h : Sound size parties c) (hstep : c.step i = some d) (q : PoolId) :
    d.world.heap.length q = c.world.heap.length q := by
  obtain ⟨m, m', hr, hsteps⟩ := h.manned.steps hstep
  have hfollows := (h.manned.follows i m hr.old).exchange
  generalize d.world = w at hsteps
  cases hsteps with
  | again | fail => rfl
  | advance _ hadvance =>
    cases hadvance with
    | interior | skip => rfl
    | @act s n a _ _ _ htodo hn hperf =>
      rw [hfollows.table] at hn
      -- A write into a window changes words, and never how many there are.
      obtain ⟨u, u', hsend, hrecv, hu, hu'⟩ := h.housed.lodged i (h.manned.lt hr.old) s n hn
      rcases hperf.alters hsend hrecv with
        hsame | ⟨-, halters⟩ | ⟨-, halters⟩
      · rw [hsame]
      · exact halters.length q
      · exact halters.length q

theorem Sound.step (hl : Linked size parties) (h : Sound size parties c)
    (hstep : c.step i = some d) : Sound size parties d where
  manned := h.manned.step hl.meshed hstep
  mail := h.mail.step hl.meshed h.manned hstep
  addressed := h.addressed.step hl h.manned hstep
  housed := h.housed.of_length (h.length hstep)
  shakes := h.shakes.step hl h.manned h.housed hstep
  ledger := h.ledger.step hl h.manned (h.truthful hl) hstep

/-- Whatever the ranks do in whatever order, it all stays true. -/
theorem Sound.reaches (hl : Linked size parties) (h : Sound size parties c)
    (hreach : Reaches c d) : Sound size parties d := by
  induction hreach with
  | refl => exact h
  | step _ _ hstep ih => exact ih.step hl hstep

/-- The control words of all shared windows are zero. -/
def Idle (size : Nat) (parties : Nat → Party) (h : Heap) : Prop :=
  ∀ k < size, ∀ s n w, (parties k).table.at? s = some n → n.shared = true →
    n.send.window = some w → h.word? w.pool (w.offset + n.send.count) = some 0 ∧
      h.word? w.pool (w.offset + n.send.count + 1) = some 0

/-- It all holds before the first exchange. -/
theorem sound_enlist (hl : Linked size parties) {w : World Universe}
    (hnet : w.net.inFlight = []) (hh : Housed size parties w.heap)
    (hidle : Idle size parties w.heap) : Sound size parties (enlist size parties w) where
  manned := manned_enlist
  mail := mail_enlist hl.meshed hnet
  addressed := addressed_enlist hnet
  housed := hh
  shakes := by
    have hmember : ∀ k < size, (enlist size parties w).members[k]? = some (parties k).enlist :=
      fun k hk => member_enlist.mpr ⟨hk, rfl⟩
    refine ⟨fun k hk s n v hn hshared hcount hv => ?_, fun j m s n hm hn hshared hcount hge => ?_⟩
    · -- Both ends of a window have made no move yet.
      rw [tally_of_member (hmember k hk), tally_of_member (hmember _ (hl.inRange k hk s n hn)),
        CrewMember.writes, CrewMember.reads, Party.turns_enlist (fills_within hn hshared hcount),
        Party.turns_enlist (drains_mirror hl hk hn hshared hcount)]
      obtain ⟨hlock, hready⟩ := hidle k hk s n v hn hshared hv
      exact .start hlock hready
    · -- Nothing was drained, so there is nothing that a reader should have at hand.
      rw [(member_enlist.mp hm).2, doneOf_eq_zero] at hge
      · cases hge
      · exact fun k hk => (HaloTable.drainBlock_within hn hshared hcount).subset hk
  ledger := ledger_enlist

end StencilPlan.Crew
