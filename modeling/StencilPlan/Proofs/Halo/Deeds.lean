import StencilPlan.Proofs.Halo.Balance
import StencilPlan.Proofs.Halo.Sound

/-!
# What the ranks of a crew have done

A course of a crew is written down move by move: who made it, in which of its rounds, and whether a
message was put under way. Ranks can be in different rounds at the same time, so the moves of one
round are picked out of all the others. Those of a rank in a round that is over are the script of
the rank, apart from the deliveries, which are in no script.
-/

namespace StencilPlan

/-- A move that was made. -/
structure Deed where
  rank : Nat
  round : Nat
  move : Move
  /-- Whether a message was put under way. -/
  put : Bool
  deriving DecidableEq, Repr

/-- Whether a shared window was written. -/
def Deed.writes (e : Deed) : Bool := e.move.fills

def Move.delivers : Move → Bool
  | .act _ .deliver => true
  | _ => false

/-- The deliveries aside. -/
def scripted (moves : List Move) : List Move := moves.filter (!·.delivers)

/-- What a rank did in a round. -/
def deedsOf (log : List Deed) (k r : Nat) : List Move :=
  (log.filter fun e => e.rank = k ∧ e.round = r).map (·.move)

theorem scripted_append (ms ms' : List Move) : scripted (ms ++ ms') = scripted ms ++ scripted ms' :=
  List.filter_append _ _

theorem scripted_script {t : HaloTable} {interior : Bool} :
    scripted (t.script interior) = t.script interior := by
  refine List.filter_eq_self.mpr fun m hm => ?_
  unfold Move.delivers
  split
  · exact absurd hm HaloTable.deliver_notMem_script
  · rfl

theorem deedsOf_append_self (log : List Deed) (k r : Nat) (move : Move) (put : Bool) :
    deedsOf (log ++ [⟨k, r, move, put⟩]) k r = deedsOf log k r ++ [move] := by
  simp [deedsOf]

theorem deedsOf_append_of_ne {log : List Deed} {e : Deed} {k r : Nat}
    (h : e.rank ≠ k ∨ e.round ≠ r) : deedsOf (log ++ [e]) k r = deedsOf log k r := by
  have hno : ¬ (e.rank = k ∧ e.round = r) := fun ⟨hk, hr⟩ => h.elim (· hk) (· hr)
  simp [deedsOf, hno]

/-- The rounds that a rank has ended, the earliest first. -/
def CrewMember.ended (m : CrewMember Universe) : List (Exchange Universe) :=
  if m.exchange.finished then m.past ++ [m.exchange] else m.past

namespace Crew

/-- What the member with a number did between two states, unless it failed or went on to its next
round. -/
def deed? (c d : Crew Universe) (i : Nat) : Option Deed := do
  let m ← c.members[i]?
  let m' ← d.members[i]?
  let move ← m.exchange.todo.head?
  guard m'.failure.isNone
  return {
    rank := i
    round := m.past.length
    move
    put := decide (c.world.net.inFlight.length < d.world.net.inFlight.length) }

/-- A course that a crew can take from the state `c`, with what was done on the way. -/
inductive Runs (c : Crew Universe) : List Deed → Crew Universe → Prop
  | refl : Runs c [] c
  | step {log : List Deed} {d e : Crew Universe} (i : Nat) (h : Runs c log d)
      (hstep : d.step i = some e) : Runs c (log ++ (d.deed? e i).toList) e

variable {c d : Crew Universe} {log : List Deed}

theorem Runs.reaches (h : Runs c log d) : c.Reaches d := by
  induction h with
  | refl => exact .refl
  | step i _ hstep ih => exact .step i ih hstep

theorem Reaches.exists_runs (h : c.Reaches d) : ∃ log, Runs c log d := by
  induction h with
  | refl => exact ⟨[], .refl⟩
  | step i _ hstep ih =>
    obtain ⟨log, hruns⟩ := ih
    exact ⟨_, .step i hruns hstep⟩

end Crew

/-! ### One move -/

section Move

variable {p : Party} {round : Nat} {x x' : Exchange Universe} {w w' : World Universe} {k : Move}
  {rest : List Move}

theorem Performs.length_inFlight {s : Slot} {n : NeighborBuffers} {a : Action}
    (h : Performs x w s n a x' w') :
    a = .send ∧ w'.net.inFlight.length = w.net.inFlight.length + 1 ∨
      a ≠ .send ∧ w'.net.inFlight.length ≤ w.net.inFlight.length := by
  cases h with
  | send => exact .inl ⟨rfl, List.length_append⟩
  | take ha _ hqueue =>
    -- A message that is taken leaves the others under way.
    obtain ⟨before, behind, hall, rfl, -⟩ := Universe.takeFirst?_eq_some_iff.mp hqueue
    refine .inr ⟨by rcases ha with rfl | rfl <;> decide, ?_⟩
    simp only [hall, List.length_append, List.length_cons]
    omega
  | taken ha => exact .inr ⟨by rcases ha with rfl | rfl <;> decide, Nat.le_refl _⟩
  | _ => exact .inr ⟨by decide, Nat.le_refl _⟩

/-- A message is put under way by a move that sends, and by no other one. -/
theorem Advances.put_eq (hx : x.Follows p round) (h : Advances x w x' w')
    (htodo : x.todo = k :: rest) :
    decide (w.net.inFlight.length < w'.net.inFlight.length) = k.sends := by
  have hother : ∀ {s a}, a ≠ .send → (Move.act s a).sends = false := by
    intro s a ha
    cases a <;> first | rfl | exact absurd rfl ha
  cases h with
  | interior h =>
    obtain ⟨rfl, -⟩ := List.cons.inj (htodo.symm.trans h)
    exact decide_eq_false (Nat.lt_irrefl _)
  | @skip s a _ h hnone =>
    obtain ⟨rfl, -⟩ := List.cons.inj (htodo.symm.trans h)
    rw [decide_eq_false (Nat.lt_irrefl _)]
    refine (hother ?_).symm
    -- Nothing is sent where there are no buffers.
    rintro rfl
    obtain ⟨n, hn, -⟩ := HaloTable.allows_of_mem_script (hx.mem_script htodo nofun)
    rw [hx.table, hn] at hnone
    cases hnone
  | act h _ hperforms =>
    obtain ⟨rfl, -⟩ := List.cons.inj (htodo.symm.trans h)
    rcases hperforms.length_inFlight with ⟨rfl, hlength⟩ | ⟨ha, hle⟩
    · exact decide_eq_true (hlength ▸ Nat.lt_succ_self _)
    · rw [hother ha]
      exact decide_eq_false (Nat.not_lt.mpr hle)

end Move

namespace Crew

variable {size : Nat} {parties : Nat → Party} {c d : Crew Universe} {i : Nat} {log : List Deed}

/-- In a step a rank fails, goes on to its next round, or makes the next one of its moves. -/
theorem Manned.deed_cases (h : Manned size parties c) (hstep : c.step i = some d) :
    ∃ m m', Replaces c d i m m' ∧
      ((c.deed? d i = none ∧ m'.past = m.past ∧ m'.exchange = m.exchange) ∨
        (c.deed? d i = none ∧ m.exchange.todo = [] ∧ m'.past = m.past ++ [m.exchange] ∧
          m'.exchange.todo = m.exchange.moves) ∨
        ∃ k rest, c.deed? d i = some ⟨i, m.past.length, k, k.sends⟩ ∧
          m.exchange.todo = k :: rest ∧ m'.past = m.past ∧
          (m'.exchange.todo = rest ∨ ∃ s, m'.exchange.todo = .act s .deliver :: rest)) := by
  obtain ⟨m, m', hr, hsteps⟩ := h.steps hstep
  have hself : d.members[i]? = some m' := by rw [hr.members, if_pos rfl]
  refine ⟨m, m', hr, ?_⟩
  generalize hworld : d.world = w at hsteps
  -- What a step logs is computed from the members before and after it.
  cases hsteps with
  | fail hok => exact .inl ⟨by simp [deed?, hr.old, hself], rfl, rfl⟩
  | again hok htodo =>
    exact .inr (.inl ⟨by simp [deed?, hr.old, htodo], htodo, rfl, rfl⟩)
  | advance hok hadvance =>
    obtain ⟨k, rest, htodo, -, htake, -⟩ := hadvance.local
    have hput := hadvance.put_eq (h.follows i m hr.old).exchange htodo
    refine .inr (.inr ⟨k, rest, ?_, htodo, rfl, htake.imp_right fun ⟨s, _, _, _, h⟩ => ⟨s, h⟩⟩)
    simp [deed?, hr.old, hself, htodo, hok, hworld, hput]

/-- What is written down of each rank, and what is still ahead of it, are its scripts, one for each
round. -/
structure Logged (size : Nat) (parties : Nat → Party) (log : List Deed) (c : Crew Universe) :
    Prop where
  own : ∀ e ∈ log, e.rank < size ∧ e.put = e.move.sends
  past : ∀ k (m : CrewMember Universe), c.members[k]? = some m → ∀ r < m.past.length,
    scripted (deedsOf log k r) = (parties k).table.script (parties k).interior
  current : ∀ k (m : CrewMember Universe), c.members[k]? = some m →
    scripted (deedsOf log k m.past.length) ++ scripted m.exchange.todo =
      (parties k).table.script (parties k).interior
  coming : ∀ k (m : CrewMember Universe), c.members[k]? = some m → ∀ r, m.past.length < r →
    deedsOf log k r = []

theorem logged_enlist {w : World Universe} : Logged size parties [] (enlist size parties w) := by
  refine ⟨nofun, fun k m hm => ?_, fun k m hm => ?_, fun k m hm r _ => rfl⟩
  all_goals rw [(member_enlist.mp hm).2]
  · exact nofun
  · exact scripted_script

/-- In a round that has ended a rank has done its script. -/
theorem Logged.of_ended (h : Logged size parties log c) {k : Nat} {m : CrewMember Universe}
    (hm : c.members[k]? = some m) {r : Nat} (hr : r < m.ended.length) :
    scripted (deedsOf log k r) = (parties k).table.script (parties k).interior := by
  unfold CrewMember.ended at hr
  split at hr
  · next hfinished =>
    rw [List.length_append, List.length_singleton] at hr
    by_cases heq : r = m.past.length
    · have hcurrent := h.current k m hm
      rw [List.isEmpty_iff.mp hfinished] at hcurrent
      rw [heq, ← hcurrent]
      exact (List.append_nil _).symm
    · exact h.past k m hm r (by omega)
  · exact h.past k m hm r hr

/-- It is enough to look at the rank that takes the step. -/
theorem Logged.of_replaces (h : Logged size parties log c) {log' : List Deed}
    {m m' : CrewMember Universe} (hr : Replaces c d i m m')
    (hown : ∀ e ∈ log', e.rank < size ∧ e.put = e.move.sends)
    (hothers : ∀ k r, k ≠ i → deedsOf log' k r = deedsOf log k r)
    (hpast : ∀ r < m'.past.length,
      scripted (deedsOf log' i r) = (parties i).table.script (parties i).interior)
    (hcurrent : scripted (deedsOf log' i m'.past.length) ++ scripted m'.exchange.todo =
      (parties i).table.script (parties i).interior)
    (hcoming : ∀ r, m'.past.length < r → deedsOf log' i r = []) : Logged size parties log' d := by
  refine ⟨hown, fun k n hn => ?_, fun k n hn => ?_, fun k n hn => ?_⟩
  all_goals rcases hr.cases hn with ⟨rfl, rfl⟩ | ⟨hne, hn⟩
  · exact hpast
  · simpa only [hothers k _ hne] using h.past k n hn
  · exact hcurrent
  · simpa only [hothers k _ hne] using h.current k n hn
  · exact hcoming
  · simpa only [hothers k _ hne] using h.coming k n hn

/-- A move that is made is the next one of the round that the rank is in. -/
theorem Logged.of_deed (h : Logged size parties log c) {m m' : CrewMember Universe}
    (hr : Replaces c d i m m') (hi : i < size) {k : Move} {rest : List Move}
    (htodo : m.exchange.todo = k :: rest) (hpast : m'.past = m.past)
    (htodo' : m'.exchange.todo = rest ∨ ∃ s, m'.exchange.todo = .act s .deliver :: rest) :
    Logged size parties (log ++ [⟨i, m.past.length, k, k.sends⟩]) d := by
  refine h.of_replaces hr (fun e he => ?_) (fun j r hne => ?_) ?_ ?_ ?_
  · rcases List.mem_append.mp he with he | he
    · exact h.own e he
    · rw [List.mem_singleton.mp he]
      exact ⟨hi, rfl⟩
  · exact deedsOf_append_of_ne (.inl (Ne.symm hne))
  -- Rounds that are over and rounds to come are untouched: the deed belongs to the present one.
  all_goals rw [hpast]
  · intro r hlt
    rw [deedsOf_append_of_ne (.inr (Nat.ne_of_gt hlt))]
    exact h.past i m hr.old r hlt
  · -- The move is no longer ahead, and a delivery that is ahead instead does not matter.
    have hahead : scripted m'.exchange.todo = scripted rest := by
      rcases htodo' with htodo' | ⟨s, htodo'⟩ <;> rw [htodo']
      rfl
    rw [deedsOf_append_self, scripted_append, List.append_assoc, hahead, ← scripted_append,
      List.singleton_append, ← h.current i m hr.old, htodo]
  · intro r hlt
    rw [deedsOf_append_of_ne (.inr (Nat.ne_of_lt hlt))]
    exact h.coming i m hr.old r hlt

theorem Logged.step (hc : Manned size parties c) (h : Logged size parties log c)
    (hstep : c.step i = some d) : Logged size parties (log ++ (c.deed? d i).toList) d := by
  obtain ⟨m, m', hr, hcases⟩ := hc.deed_cases hstep
  have hcoming := h.coming i m hr.old
  rcases hcases with ⟨hnone, hpast', hx⟩ | ⟨hnone, htodo, hpast', htodo'⟩ |
    ⟨k, rest, hsome, htodo, hpast', htodo'⟩
  · -- A rank that fails leaves everything as it is.
    rw [hnone, Option.toList_none, List.append_nil]
    refine h.of_replaces hr h.own (fun _ _ _ => rfl) ?_ ?_ ?_ <;> rw [hpast']
    · exact h.past i m hr.old
    · rw [hx]
      exact h.current i m hr.old
    · exact hcoming
  · -- A rank that goes on adds its exchange to the past, and a whole script lies ahead.
    rw [hnone, Option.toList_none, List.append_nil]
    have hlength : m'.past.length = m.past.length + 1 := by
      rw [hpast', List.length_append, List.length_singleton]
    have hended : m.ended = m'.past := by
      rw [hpast', CrewMember.ended, if_pos (show m.exchange.finished = true by
        rw [Exchange.finished, htodo, List.isEmpty_nil])]
    refine h.of_replaces hr h.own (fun _ _ _ => rfl) (fun r hlt => ?_) ?_
      fun r hlt => hcoming r (by omega)
    · exact h.of_ended hr.old (hended ▸ hlt)
    · rw [hcoming _ (by omega), htodo', (hc.follows i m hr.old).exchange.moves]
      exact scripted_script
  · -- A rank that moves takes the move off its list and logs it.
    rw [hsome, Option.toList_some]
    exact h.of_deed hr (hc.lt hr.old) htodo hpast' htodo'

/-- Whatever the ranks do, what is written down stays true. -/
theorem Sound.logged (hl : Linked size parties) (hc : Sound size parties c)
    (hstart : Logged size parties [] c) (hruns : Runs c log d) : Logged size parties log d := by
  induction hruns with
  | refl => exact hstart
  | step i h hstep ih => exact ih.step (hc.reaches hl h.reaches).manned hstep

/-! ### A round that is over -/

/-- What is counted over all ranks is counted rank by rank. -/
theorem countP_deedsOf (hown : ∀ e ∈ log, e.rank < size) (r : Nat) (q : Move → Bool) :
    log.countP (fun e => e.round = r ∧ q e.move) =
      ((List.range size).map fun k => (deedsOf log k r).countP q).sum := by
  induction log with
  | nil => simp [deedsOf]
  | cons e es ih =>
    -- The first deed adds to the sum what it adds for its own rank.
    have hhead : ∀ k, (deedsOf (e :: es) k r).countP q =
        (deedsOf es k r).countP q + if e.rank = k ∧ e.round = r ∧ q e.move then 1 else 0 := by
      intro k
      by_cases hk : e.rank = k <;> by_cases hround : e.round = r <;>
        simp [deedsOf, hk, hround, List.countP_cons]
    have hone : ((List.range size).map fun k =>
        if e.rank = k ∧ e.round = r ∧ q e.move then 1 else 0).sum =
          if e.round = r ∧ q e.move then 1 else 0 := by
      rw [← List.sum_map_erase _ (List.mem_range.mpr (hown e List.mem_cons_self)),
        List.sum_eq_zero fun x hx => ?_]
      · simp
      · obtain ⟨k, hk, rfl⟩ := List.mem_map.mp hx
        rw [if_neg fun hall => List.nodup_range.not_mem_erase (hall.1 ▸ hk)]
    rw [List.countP_cons, ih fun e he => hown e (List.mem_cons_of_mem _ he),
      List.map_congr_left fun k _ => hhead k, List.sum_map_add, hone]
    simp

/-- In a round that all ranks have ended, moves of a kind were made as often as the scripts say. -/
theorem Logged.countP_round (hc : Manned size parties c) (h : Logged size parties log c) {r : Nat}
    (hended : ∀ m ∈ c.members, r < m.ended.length)
    {q : Move → Bool} (hq : ∀ m, q m = true → m.delivers = false) :
    log.countP (fun e => e.round = r ∧ q e.move) = scriptedOf size parties q := by
  rw [countP_deedsOf (fun e he => (h.own e he).1), scriptedOf]
  refine congrArg List.sum (List.map_congr_left fun k hk => ?_)
  obtain ⟨m, hm⟩ := hc.member (List.mem_range.mp hk)
  -- The deliveries that are not in the script are not counted.
  rw [← h.of_ended hm (hended m (List.mem_of_getElem? hm)), scripted, List.countP_filter]
  refine List.countP_congr fun move _ => ?_
  by_cases hmove : q move = true
  · simp [hmove, hq move hmove]
  · simp [hmove]

/-- As often as the scripts say messages are put under way. -/
theorem Logged.countP_put (hc : Manned size parties c) (h : Logged size parties log c) {r : Nat}
    (hended : ∀ m ∈ c.members, r < m.ended.length) :
    log.countP (fun e => e.round = r ∧ e.put) = scriptedOf size parties Move.sends := by
  rw [← h.countP_round hc hended fun m hm => ?_]
  · exact List.countP_congr fun e he => by rw [(h.own e he).2]
  · unfold Move.sends at hm
    split at hm
    · rfl
    · cases hm

/-- So are windows written. -/
theorem Logged.countP_writes (hc : Manned size parties c) (h : Logged size parties log c) {r : Nat}
    (hended : ∀ m ∈ c.members, r < m.ended.length) :
    log.countP (fun e => e.round = r ∧ e.writes) = scriptedOf size parties Move.fills := by
  refine h.countP_round hc hended fun m hm => ?_
  unfold Move.fills at hm
  split at hm
  · rfl
  · cases hm

end Crew

end StencilPlan
