import StencilPlan.Proofs.Halo.Turn
import StencilPlan.Proofs.Halo.Unfailing

/-!
# Nobody waits for ever

A rank waits for a message, for a flag or for a lock. Whoever has a lock can go on until it gives it
back. A rank that waits until its window was drained waits for a rank in an earlier round, and one
that waits for a message or a filled window waits for a rank in an earlier round or for one of the
same round that has not sent everything yet. So among ranks that all wait there would be one that
waits for nobody.
-/

namespace StencilPlan

/-- What an action waits for. -/
inductive Waits (x : Exchange Universe) (w : World Universe) (s : Slot) (n : NeighborBuffers) :
    Action → Prop
  | drained (hready : n.send.isReady w.heap = .ok true) : Waits x w s n .drained
  | lockSend (hlock : n.send.lock? w.heap = .ok none) : Waits x w s n .lockSend
  | await {r : Receive} (hposted : x.posted? s = some r)
      (hqueue : Universe.takeFirst? r.channel w.net.inFlight = none) : Waits x w s n .await
  | filled (hready : n.recv.isReady w.heap = .ok false) : Waits x w s n .filled
  | lockRecv (hlock : n.recv.lock? w.heap = .ok none) : Waits x w s n .lockRecv

section Step

variable {x : Exchange Universe} {w : World Universe} {s : Slot} {n : NeighborBuffers} {a : Action}

theorem waits_of_perform (hx : x.Awaits) (h : x.perform w s n a = .ok none) : Waits x w s n a := by
  cases a with
  | drained =>
    simp only [Exchange.perform, bind_eq_ok, liftM_checked_eq_ok] at h
    obtain ⟨ready, hready, h⟩ := h
    cases ready with
    | true => exact .drained hready
    | false => simp [pure_eq_ok] at h
  | filled =>
    simp only [Exchange.perform, bind_eq_ok, liftM_checked_eq_ok] at h
    obtain ⟨ready, hready, h⟩ := h
    cases ready with
    | true => simp [pure_eq_ok] at h
    | false => exact .filled hready
  | lockSend =>
    simp only [Exchange.perform, bind_eq_ok, liftM_checked_eq_ok, pure_eq_ok] at h
    obtain ⟨heap?, hlock, h⟩ := h
    obtain rfl := Option.map_eq_none_iff.mp h.symm
    exact .lockSend hlock
  | lockRecv =>
    simp only [Exchange.perform, bind_eq_ok, liftM_checked_eq_ok, pure_eq_ok] at h
    obtain ⟨heap?, hlock, h⟩ := h
    obtain rfl := Option.map_eq_none_iff.mp h.symm
    exact .lockRecv hlock
  | await =>
    cases hposted : x.posted? s with
    | none => simp [Exchange.perform, hposted, pure_eq_ok] at h
    | some r =>
      have hfresh := hx.fresh_of_posted hposted
      cases hqueue : Universe.takeFirst? r.channel w.net.inFlight with
      | none => exact .await hposted hqueue
      | some found =>
        simp [Exchange.perform, hposted, Exchange.take?, Transport.wait, Universe.poll, hfresh,
          hqueue, pure_eq_ok] at h
  | poll =>
    cases hposted : x.posted? s with
    | none => simp [Exchange.perform, hposted, pure_eq_ok] at h
    | some r =>
      have hfresh := hx.fresh_of_posted hposted
      -- A message that is there when it is asked for is taken at once.
      cases hqueue : Universe.takeFirst? r.channel w.net.inFlight <;>
        simp [Exchange.perform, hposted, Exchange.take?, Transport.test, Transport.wait,
          Universe.poll, hfresh, hqueue, pure_eq_ok] at h
  | deliver =>
    simp [Exchange.perform, bind_eq_ok, liftM_checked_eq_ok] at h
  | _ => simp [Exchange.perform, bind_eq_ok, liftM_checked_eq_ok] at h

theorem perform_of_waits (hx : x.Awaits) (h : Waits x w s n a) : x.perform w s n a = .ok none := by
  cases h with
  | drained hready =>
    simp only [Exchange.perform, bind_eq_ok, liftM_checked_eq_ok]
    exact ⟨true, hready, rfl⟩
  | filled hready =>
    simp only [Exchange.perform, bind_eq_ok, liftM_checked_eq_ok]
    exact ⟨false, hready, rfl⟩
  | lockSend hlock =>
    simp only [Exchange.perform, bind_eq_ok, liftM_checked_eq_ok]
    exact ⟨none, hlock, rfl⟩
  | lockRecv hlock =>
    simp only [Exchange.perform, bind_eq_ok, liftM_checked_eq_ok]
    exact ⟨none, hlock, rfl⟩
  | await hposted hqueue =>
    simp [Exchange.perform, hposted, Exchange.take?, Transport.wait, Universe.poll,
      hx.fresh_of_posted hposted, hqueue, pure_eq_ok]

/-- A rank that makes a step has what it needs for it. -/
theorem CrewMember.not_waits_of_step {m : CrewMember Universe} (hx : m.exchange.Awaits)
    (hstep : (m.step w).isSome = true) {rest : List Move}
    (htodo : m.exchange.todo = .act s a :: rest) (hn : m.exchange.table.at? s = some n) :
    ¬ Waits { m.exchange with todo := rest } w s n a := by
  intro hwaits
  have hperform :=
    perform_of_waits (x := { m.exchange with todo := rest }) ⟨hx.nodup, hx.fresh⟩ hwaits
  cases hfailure : m.failure with
  | some e => simp [step, hfailure] at hstep
  | none => simp [step, hfailure, Exchange.finished, htodo, Exchange.step, hn, hperform] at hstep

/-- A rank that cannot make a step has done all its rounds or waits. -/
theorem CrewMember.finished_or_waits {m : CrewMember Universe} (hx : m.exchange.Awaits)
    (hok : m.failure = none) (h : m.step w = none) : m.finished = true ∨
      ∃ s n a rest, m.exchange.todo = .act s a :: rest ∧ m.exchange.table.at? s = some n ∧
        Waits { m.exchange with todo := rest } w s n a := by
  simp only [step, hok] at h
  by_cases hfinished : m.exchange.finished
  · rw [if_pos hfinished] at h
    cases hcoming : m.coming with
    | cons p ps => simp [hcoming] at h
    | nil => exact .inl (by simp [finished, hok, hfinished, hcoming])
  · rw [if_neg hfinished] at h
    right
    cases htodo : m.exchange.todo with
    | nil => simp [Exchange.finished, htodo] at hfinished
    | cons k rest =>
      -- Computing the interior and passing over a place without buffers can always be done.
      cases k with
      | interior => simp [Exchange.step, htodo, pure, Except.pure] at h
      | act s a =>
        cases hn : m.exchange.table.at? s with
        | none => simp [Exchange.step, htodo, hn, pure, Except.pure] at h
        | some n =>
          refine ⟨s, n, a, rest, rfl, hn, waits_of_perform ⟨hx.nodup, hx.fresh⟩ ?_⟩
          simp only [Exchange.step, htodo, hn] at h
          split at h
          · next hwait => exact hwait
          · cases h
          · cases h

end Step

/-! ### Where a rank stands that waits -/

section Stand

variable {p : Party} {round : Nat} {x : Exchange Universe} {k : Move} {b rest : List Move}

/-- In the middle of a block the next move is one of the block, unless there is a message in
hand. -/
theorem Exchange.Follows.head_of_middle (hx : x.Follows p round)
    (hb : b <:+: p.table.script p.interior) (hpos : 0 < doneOf x.todo b)
    (hlt : doneOf x.todo b < b.length) (htodo : x.todo = k :: rest)
    (hk : ∀ s, k ≠ .act s .deliver) : b[doneOf x.todo b]? = some k := by
  obtain ⟨done, rest', hscript, hahead⟩ := hx.course
  -- Moves of a block stand next to each other, so only a delivery can come between two of them.
  rcases hahead with hahead | ⟨s, hahead⟩
  · rw [hahead] at hpos hlt ⊢
    obtain ⟨k', rest'', hrest, hget⟩ :=
      head_of_doneOf (p.table.nodup_script _) hscript hb hpos hlt
    rw [hahead, hrest] at htodo
    rw [hget, (List.cons.inj htodo).1]
  · rw [htodo] at hahead
    exact absurd (List.cons.inj hahead).1 (hk s)

/-- A rank that waits for a message or a filled window has sent everything in this round. -/
theorem Exchange.Follows.sent_all (hx : x.Follows p round) {s : Slot} {a : Action}
    (htodo : x.todo = .act s a :: rest) (ha : a = .await ∨ a = .filled)
    (hk : k ∈ p.table.entries.flatMap HaloTable.sendBlock) : k ∉ x.todo := by
  have hdeliver : ∀ s', Move.act s a ≠ .act s' .deliver := by
    rcases ha with rfl | rfl <;> exact nofun
  have hmem := hx.mem_script htodo hdeliver
  -- The sends stand before all receives but the posts.
  have hsplit : p.table.script p.interior =
      (p.table.incoming.map (.act · .post) ++ p.table.entries.flatMap HaloTable.sendBlock) ++
        ((if p.interior then [Move.interior] else []) ++ p.table.incoming.map (.act · .poll) ++
          p.table.incoming.map (.act · .await) ++
          p.table.draining.flatMap fun s => block s drainActions) := by
    simp only [HaloTable.script, List.append_assoc]
  have hbefore : k ∈ p.table.incoming.map (Move.act · .post) ++
      p.table.entries.flatMap HaloTable.sendBlock := List.mem_append_right _ hk
  have hafter : .act s a ∈ (if p.interior then [Move.interior] else []) ++
      p.table.incoming.map (Move.act · .poll) ++ p.table.incoming.map (.act · .await) ++
        p.table.draining.flatMap fun s => block s drainActions := by
    rw [hsplit] at hmem
    refine (List.mem_append.mp hmem).resolve_left fun hfirst => ?_
    rcases List.mem_append.mp hfirst with hpost | hsend
    · obtain ⟨_, -, heq⟩ := List.mem_map.mp hpost
      obtain ⟨-, rfl⟩ := Move.act.inj heq
      simp at ha
    · have := HaloTable.part_of_mem_sends hsend
      rcases ha with rfl | rfl <;> simp [HaloTable.part, drainActions] at this
  exact hx.notMem_todo_of_before htodo hdeliver hsplit hbefore hafter

end Stand

namespace Crew

variable {size : Nat} {parties : Nat → Party} {c : Crew Universe}

/-- Rank `k` waits to do something with the buffers at a place. -/
structure Halts (parties : Nat → Party) (c : Crew Universe) (k : Nat) (m : CrewMember Universe)
    (s : Slot) (n : NeighborBuffers) (a : Action) (rest : List Move) : Prop where
  member : c.members[k]? = some m
  entry : (parties k).table.at? s = some n
  todo : m.exchange.todo = .act s a :: rest
  waits : Waits { m.exchange with todo := rest } c.world s n a

/-- Every rank has done all its rounds or waits. -/
def Halted (parties : Nat → Party) (c : Crew Universe) : Prop :=
  ∀ (k : Nat) (m : CrewMember Universe), c.members[k]? = some m → m.finished = true ∨
    ∃ s n a rest, Halts parties c k m s n a rest

theorem Sound.halted_of_stuck (h : Sound size parties c) (hok : c.Unfailing)
    (hstuck : c.stuck = true) : Halted parties c := by
  intro k m hm
  have hx := (h.manned.follows k m hm).exchange
  have hnone : m.step c.world = none := by
    have := List.all_eq_true.mp hstuck m (List.mem_of_getElem? hm)
    rwa [Option.isNone_iff_eq_none] at this
  apply (CrewMember.finished_or_waits hx.awaits (hok k m hm) hnone).imp_right
  rintro ⟨s, n, a, rest, htodo, hn, hwaits⟩
  exact ⟨s, n, a, rest, hm, hx.table ▸ hn, htodo, hwaits⟩

section Halted

variable {k : Nat} {m m' : CrewMember Universe} {s : Slot} {n : NeighborBuffers} {a : Action}
  {rest : List Move}

/-- When all ranks wait, none of them stands where nothing is waited for. -/
theorem Sound.not_inside (h : Sound size parties c) (hh : Halted parties c)
    (hm : c.members[k]? = some m) {actions : List Action} {i j : Nat} {first last : Action}
    (hb : block s actions <:+: (parties k).table.script (parties k).interior)
    (hi : actions[i]? = some first) (hj : actions[j]? = some last)
    (hfree : ∀ e b, i < e → e ≤ j → actions[e]? = some b → ∀ x w n, ¬ Waits x w s n b)
    (hfirst : .act s first ∉ m.exchange.todo) (hlast : .act s last ∈ m.exchange.todo) : False := by
  have hx := (h.manned.follows k m hm).exchange
  have hget : ∀ (e : Nat) (b : Action), actions[e]? = some b →
      (block s actions)[e]? = some (Move.act s b) := by
    intro e b he
    rw [getElem?_block, he, Option.map_some]
  have hlow := (hx.notMem_todo_iff hb (hget i first hi)).mp hfirst
  have hhigh : ¬ j < doneOf m.exchange.todo (block s actions) := fun hlt =>
    (hx.notMem_todo_iff hb (hget j last hj)).mpr hlt hlast
  have hlt := (List.getElem?_eq_some_iff.mp (hget j last hj)).1
  rcases hh k m hm with hfinished | ⟨s', n', a', rest', hhalts⟩
  · rw [((h.manned.follows k m hm).of_finished hfinished).2.1] at hlast
    exact List.not_mem_nil hlast
  · have hwaits := hhalts.waits
    -- Such a rank stands in the middle of the block, and its next move would be a free one.
    have hhead := hx.head_of_middle hb (by omega) (by omega) hhalts.todo (by
      rintro s'' heq
      obtain ⟨-, rfl⟩ := Move.act.inj heq
      cases hwaits)
    rw [getElem?_block, Option.map_eq_some_iff] at hhead
    obtain ⟨b, hb', heq⟩ := hhead
    obtain ⟨rfl, rfl⟩ := Move.act.inj heq
    exact hfree _ _ hlow (by omega) hb' _ _ _ hwaits

variable (hl : Linked size parties) (h : Sound size parties c)

include hl h

/-- The lock of a window is free when all ranks wait. -/
theorem Sound.lock_free (hh : Halted parties c) (hm : c.members[k]? = some m)
    (hn : (parties k).table.at? s = some n) (hshared : n.shared = true)
    (hcount : n.send.count ≠ 0) : ∃ v, n.send.window = some v ∧
      c.world.heap.word? v.pool (v.offset + n.send.count) = some 0 := by
  have hk := h.manned.lt hm
  obtain ⟨m', hm'⟩ := h.manned.member (hl.inRange k hk s n hn)
  obtain ⟨v, hv, -, hword⟩ := h.lockWord hl hm hn hm' hshared hcount
  refine ⟨v, hv, ?_⟩
  rw [hword, if_neg]
  -- Whoever holds the lock stands between locking and unlocking, where nothing is waited for.
  rintro (⟨hlock, hunlock⟩ | ⟨hlock, hunlock⟩)
  · apply h.not_inside hh hm (fills_within hn hshared hcount) (i := 2) (j := 5) rfl rfl ?_
      hlock hunlock
    intro e b hlow hhigh hb x w n hwaits
    obtain rfl | rfl | rfl : e = 3 ∨ e = 4 ∨ e = 5 := by omega
    all_goals
      obtain rfl := Option.some.inj hb
      cases hwaits
  · apply h.not_inside hh hm' (drains_mirror hl hk hn hshared hcount) (i := 1) (j := 4) rfl rfl ?_
      hlock hunlock
    intro e b hlow hhigh hb x w n hwaits
    obtain rfl | rfl | rfl : e = 2 ∨ e = 3 ∨ e = 4 := by omega
    all_goals
      obtain rfl := Option.some.inj hb
      cases hwaits

/-- Nobody waits for a lock when all ranks wait. -/
theorem Sound.not_lock (hh : Halted parties c) (hhalts : Halts parties c k m s n a rest) :
    a ≠ .lockSend ∧ a ≠ .lockRecv := by
  have hk := h.manned.lt hhalts.member
  have hx := (h.manned.follows k m hhalts.member).exchange
  obtain ⟨v, v', hsend, hrecv, hv, hv'⟩ := h.housed.lodged k hk s n hhalts.entry
  have hwaits := hhalts.waits
  constructor
  · rintro rfl
    obtain ⟨hshared, hcount⟩ := (hx.allows hhalts.todo hhalts.entry).resolve_right nofun
    obtain ⟨u, hu, hword⟩ := h.lock_free hl hh hhalts.member hhalts.entry hshared hcount
    obtain rfl := Option.some.inj (hsend.window.symm.trans hu)
    cases hwaits with
    | lockSend hlock =>
      rw [hsend.lock?_eq (hv.trans hshared), if_pos hword] at hlock
      cases hlock
  · rintro rfl
    obtain ⟨hshared, hcount⟩ := (hx.allows hhalts.todo hhalts.entry).resolve_right nofun
    -- the window that is read from is the one that the neighbor fills
    obtain ⟨n', hpartner⟩ := hl.partner k hk s n hhalts.entry
    have hback := hpartner.symm hl hk hhalts.entry
    have hj := hl.inRange k hk s n hhalts.entry
    have hshared' := hpartner.shared.trans hshared
    obtain ⟨m', hm'⟩ := h.manned.member hj
    obtain ⟨u, hu, hword⟩ := h.lock_free hl hh hm' hpartner.entry hshared' (hback.count ▸ hcount)
    obtain ⟨hpool, hoffset⟩ := h.housed.attached _ hj _ n' n u v' hpartner.entry hshared' hback hu
      hrecv.window
    cases hwaits with
    | lockRecv hlock =>
      rw [hrecv.lock?_eq (hv'.trans hshared), hpool, hoffset, hback.count, if_pos hword] at hlock
      cases hlock

/-- A rank that waits until its window was drained waits for one in an earlier round. -/
theorem Sound.reader_behind (hhalts : Halts parties c k m s n .drained rest)
    (hm' : c.members[n.rank]? = some m') :
    m'.past.length < m.past.length := by
  have hk := h.manned.lt hhalts.member
  have hx := (h.manned.follows k m hhalts.member).exchange
  obtain ⟨hshared, hcount⟩ := (hx.allows hhalts.todo hhalts.entry).resolve_right nofun
  obtain ⟨v, -, hsend, -, hv, -⟩ := h.housed.lodged k hk s n hhalts.entry
  obtain ⟨u, p, q, hu, hshake, hp, hq⟩ :=
    h.shake hl hhalts.member hhalts.entry hm' hshared hcount
  obtain rfl := Option.some.inj (hsend.window.symm.trans hu)
  have hwaits := hhalts.waits
  cases hwaits with
  | drained hready =>
    have hup := hshake.up_of_isReady hsend (hv.trans hshared) hready
    rw [hp 4 .raise rfl, hq 3 .lower rfl] at hup
    -- The writer has not raised the flag in this round.
    have hblock := fills_within (p := parties k) hhalts.entry hshared hcount
    have hone : doneOf m.exchange.todo (block s (sendActions true)) = 1 :=
      hx.doneOf_head hhalts.todo hblock rfl
    have hraise : .act s .raise ∈ m.exchange.todo := by
      by_contra hno
      have := (hx.notMem_todo_iff (i := 4) hblock rfl).mp hno
      omega
    rw [CrewMember.times, if_pos hraise] at hup
    have : m'.past.length ≤ m'.times (.act ((parties k).mirror s) .lower) := Nat.le_add_right _ _
    omega

/-- A rank that waits for a filled window waits for one that has not raised the flag as often. -/
theorem Sound.writer_behind (hhalts : Halts parties c k m s n .filled rest)
    (hm' : c.members[n.rank]? = some m') :
    m'.times (.act ((parties k).mirror s) .raise) ≤ m.past.length ∧
      .act ((parties k).mirror s) .raise ∈
        (parties n.rank).table.entries.flatMap HaloTable.sendBlock := by
  have hk := h.manned.lt hhalts.member
  have hx := (h.manned.follows k m hhalts.member).exchange
  obtain ⟨hshared, hcount⟩ := (hx.allows hhalts.todo hhalts.entry).resolve_right nofun
  obtain ⟨n', hpartner⟩ := hl.partner k hk s n hhalts.entry
  have hback := hpartner.symm hl hk hhalts.entry
  have hj := hl.inRange k hk s n hhalts.entry
  have hshared' := hpartner.shared.trans hshared
  have hcount' : n'.send.count ≠ 0 := hback.count ▸ hcount
  have hmember := hhalts.member
  rw [← hpartner.rank] at hmember
  obtain ⟨u, p, q, hu, hshake, hp, hq⟩ := h.shake hl hm' hpartner.entry hmember hshared' hcount'
  obtain ⟨-, v, -, hrecv, -, hv⟩ := h.housed.lodged k hk s n hhalts.entry
  obtain ⟨hpool, hoffset⟩ := h.housed.attached _ hj _ n' n u v hpartner.entry hshared' hback hu
    hrecv.window
  rw [hpartner.mirror] at hq
  rw [← hpool, ← hoffset, ← hback.count] at hshake
  have hwaits := hhalts.waits
  cases hwaits with
  | filled hready =>
    have hdown := hshake.down_of_isReady hrecv (hv.trans hshared) hready
    rw [hp 4 .raise rfl, hq 3 .lower rfl] at hdown
    -- The reader has not lowered the flag in this round.
    have hblock := @HaloTable.drainBlock_within _ _ _ (parties k).interior hhalts.entry hshared
      hcount
    have hzero : doneOf m.exchange.todo (block s drainActions) = 0 :=
      hx.doneOf_head hhalts.todo hblock rfl
    have hlower : .act s .lower ∈ m.exchange.todo := by
      by_contra hno
      have := (hx.notMem_todo_iff (i := 3) hblock rfl).mp hno
      omega
    rw [show m.times (.act s .lower) = m.past.length by
      rw [CrewMember.times, if_pos hlower, Nat.add_zero]] at hdown
    refine ⟨by omega, HaloTable.mem_sends.mpr ⟨_, n', hpartner.entry, hcount', ?_⟩⟩
    rw [hshared', act_mem_block]
    exact ⟨rfl, by decide⟩

/-- A rank that waits for a message waits for one that has not sent as many. -/
theorem Sound.sender_behind (hhalts : Halts parties c k m s n .await rest)
    (hm' : c.members[n.rank]? = some m') :
    m'.times (.act ((parties k).mirror s) .send) ≤ m.past.length ∧
      .act ((parties k).mirror s) .send ∈
        (parties n.rank).table.entries.flatMap HaloTable.sendBlock := by
  have hk := h.manned.lt hhalts.member
  have hx := (h.manned.follows k m hhalts.member).exchange
  obtain ⟨hshared, hcount⟩ := (hx.allows hhalts.todo hhalts.entry).resolve_right nofun
  have hincoming : s ∈ (parties k).table.incoming :=
    HaloTable.mem_incoming.mpr ⟨n, hhalts.entry, hshared, hcount⟩
  obtain ⟨n', hpartner⟩ := hl.partner k hk s n hhalts.entry
  have hback := hpartner.symm hl hk hhalts.entry
  have hcount' : n'.send.count ≠ 0 := hback.count ▸ hcount
  have hwaits := hhalts.waits
  cases hwaits with
  | @await r hposted hqueue =>
    -- The receive is still posted, so its message was not taken in this round.
    obtain ⟨before, after, hpending, -⟩ := List.lookup_eq_some_iff.mp hposted
    have hmem : (s, r) ∈ m.exchange.pending := by
      rw [show m.exchange.pending = before ++ (s, r) :: after from hpending]
      simp
    obtain ⟨-, -, n₀, hn₀, hr⟩ := hx.posted _ hmem
    obtain rfl := Option.some.inj (hn₀.symm.trans hhalts.entry)
    have htaken : m.taken s = m.past.length := by
      rw [CrewMember.taken, if_neg, Nat.add_zero]
      rintro ⟨-, hno⟩
      exact hno (List.mem_map.mpr ⟨_, hmem, rfl⟩)
    have hempty : c.world.net.queue ((parties k).inbox s n₀) = [] := by
      change r = _ at hr
      rw [hr] at hqueue
      exact Universe.queue_eq_nil_of_takeFirst? hqueue
    rw [(h.mail.inOrder hl hk hhalts.entry hincoming).2, tally_of_member hhalts.member,
      tally_of_member hm', htaken, List.drop_eq_nil_iff, List.length_map, List.length_range]
      at hempty
    have hsends : (parties n₀.rank).table.Sends ((parties k).mirror s) :=
      ⟨n', hpartner.entry, hpartner.shared.trans hshared, hcount'⟩
    have hdone := (h.manned.follows _ m' hm').exchange.notMem_todo_iff (i := 1)
      (k := .act ((parties k).mirror s) .send) (CrewMember.Follows.sends_within hsends) rfl
    refine ⟨?_, HaloTable.mem_sends.mpr ⟨_, n', hpartner.entry, hcount', ?_⟩⟩
    · rw [CrewMember.sent, CrewMember.turns, length_block] at hempty
      rw [CrewMember.times]
      simp only [List.length_cons, List.length_nil] at hempty
      split
      · omega
      · next hnot =>
        have := hdone.mp hnot
        omega
    · rw [hpartner.shared, hshared, act_mem_block]
      exact ⟨rfl, by decide⟩

/-- How long a rank has to wait at least, among ranks that all wait. -/
def level (round : Nat) (a : Action) : Nat := 2 * round + if a = .drained then 0 else 1

/-- The neighbor that a rank waits for has done all its rounds, and they are fewer. -/
def Abandoned (parties : Nat → Party) (c : Crew Universe) (k : Nat) (n : NeighborBuffers) : Prop :=
  (parties n.rank).rounds < (parties k).rounds ∧
    ∃ m', c.members[n.rank]? = some m' ∧ m'.finished = true

/-- A rank that has not made all its sends of a round yet waits, at the latest in that round, if it
comes to that round at all. -/
theorem Sound.waits_for_sender (hh : Halted parties c) (hhalts : Halts parties c k m s n a rest)
    (ha : a ≠ .drained) (hm' : c.members[n.rank]? = some m') {e : Move}
    (he : e ∈ (parties n.rank).table.entries.flatMap HaloTable.sendBlock)
    (htimes : m'.times e ≤ m.past.length) :
    Abandoned parties c k n ∨ ∃ k' m' s' n' a' rest', Halts parties c k' m' s' n' a' rest' ∧
      level m'.past.length a' < level m.past.length a := by
  have hfollows' := h.manned.follows _ m' hm'
  have hle : m.past.length ≤ (parties k).rounds := by
    rw [← (h.manned.follows k m hhalts.member).rounds]
    exact Nat.le_add_right _ _
  rcases hh _ m' hm' with hfinished | ⟨s', n', a', rest', hhalts'⟩
  · obtain ⟨-, htodo, hpast⟩ := hfollows'.of_finished hfinished
    rw [CrewMember.times, htodo, if_neg List.not_mem_nil, hpast] at htimes
    exact .inl ⟨by omega, m', hm', hfinished⟩
  · refine .inr ⟨_, m', s', n', a', rest', hhalts', ?_⟩
    obtain ⟨hsend, hrecv⟩ := h.not_lock hl hh hhalts'
    rw [level, level, if_neg ha]
    rw [CrewMember.times] at htimes
    by_cases ha' : a' = .drained
    · rw [if_pos ha']
      omega
    · -- Whoever waits for something to arrive has sent everything of its round.
      have hkind : a' = .await ∨ a' = .filled := by
        have hwaits := hhalts'.waits
        cases hwaits <;> simp_all
      have hnot := hfollows'.exchange.sent_all hhalts'.todo hkind he
      rw [if_neg hnot] at htimes
      rw [if_neg ha']
      omega

/-- Whoever waits waits for a rank that has done all its rounds before, or for one that waits too,
but at a lower level. -/
theorem Sound.waits_for (hh : Halted parties c) (hhalts : Halts parties c k m s n a rest) :
    Abandoned parties c k n ∨ ∃ k' m' s' n' a' rest', Halts parties c k' m' s' n' a' rest' ∧
      level m'.past.length a' < level m.past.length a := by
  have hk := h.manned.lt hhalts.member
  obtain ⟨m', hm'⟩ := h.manned.member (hl.inRange k hk s n hhalts.entry)
  have hwaits := hhalts.waits
  obtain ⟨hsend, hrecv⟩ := h.not_lock hl hh hhalts
  cases hwaits with
  | drained =>
    have hle : m.past.length ≤ (parties k).rounds := by
      rw [← (h.manned.follows k m hhalts.member).rounds]
      exact Nat.le_add_right _ _
    -- The reader is behind by a round, so it waits at a lower level whatever it waits for.
    have hbehind := h.reader_behind hl hhalts hm'
    rcases hh _ m' hm' with hfinished | ⟨s', n', a', rest', hhalts'⟩
    · have := ((h.manned.follows _ m' hm').of_finished hfinished).2.2
      exact .inl ⟨by omega, m', hm', hfinished⟩
    · refine .inr ⟨_, m', s', n', a', rest', hhalts', ?_⟩
      rw [level, level, if_pos rfl]
      split <;> omega
  | lockSend => exact absurd rfl hsend
  | lockRecv => exact absurd rfl hrecv
  | await =>
    obtain ⟨htimes, he⟩ := h.sender_behind hl hhalts hm'
    exact h.waits_for_sender hl hh hhalts (by decide) hm' he htimes
  | filled =>
    obtain ⟨htimes, he⟩ := h.writer_behind hl hhalts hm'
    exact h.waits_for_sender hl hh hhalts (by decide) hm' he htimes

/-- When nobody can make a step and nobody has failed, either everybody has done all rounds, or
somebody waits for a neighbor that does fewer rounds and has done them. -/
theorem Sound.finished_or_abandoned (hok : c.Unfailing) (hstuck : c.stuck = true) :
    (∀ m ∈ c.members, m.finished) ∨
      ∃ k m s n a rest, Halts parties c k m s n a rest ∧ Abandoned parties c k n := by
  have hh := h.halted_of_stuck hok hstuck
  by_cases hall : ∀ m ∈ c.members, m.finished
  · exact .inl hall
  · right
    push Not at hall
    obtain ⟨m, hm, hunfinished⟩ := hall
    obtain ⟨k, hk⟩ := List.mem_iff_getElem?.mp hm
    obtain ⟨s, n, a, rest, hhalts⟩ := (hh k m hk).resolve_left hunfinished
    -- The levels cannot fall for ever.
    generalize hlevel : level m.past.length a = bound
    clear hm hunfinished hk
    induction bound using Nat.strongRecOn generalizing k m s n a rest with
    | ind bound ih =>
      rcases h.waits_for hl hh hhalts with hleft | ⟨k', m', s', n', a', rest', hhalts', hlt⟩
      · exact ⟨k, m, s, n, a, rest, hhalts, hleft⟩
      · exact ih _ (hlevel ▸ hlt) m' k' s' n' a' rest' hhalts' rfl

/-- A rank can make its next step: it has what it needs for it. -/
structure Enabled (c : Crew Universe) (k : Nat) : Prop where
  step : (c.step k).isSome = true
  ready : ∀ m s n a rest, c.members[k]? = some m → m.exchange.todo = .act s a :: rest →
    m.exchange.table.at? s = some n → ¬ Waits { m.exchange with todo := rest } c.world s n a

/-- Unless a rank has failed, somebody can make a step as long as not all have done their rounds, or
somebody waits for a neighbor that does fewer rounds and has done them. -/
theorem Sound.enabled_or_abandoned (hok : c.Unfailing) {m : CrewMember Universe}
    (hm : m ∈ c.members) (hunfinished : m.finished = false) : (∃ k, c.Enabled k) ∨
      ∃ k m s n a rest, Halts parties c k m s n a rest ∧ Abandoned parties c k n := by
  by_cases hstuck : c.stuck = true
  · refine .inr ((h.finished_or_abandoned hl hok hstuck).resolve_left fun hall => ?_)
    rw [hall m hm] at hunfinished
    cases hunfinished
  · obtain ⟨x, hx, hcan⟩ : ∃ x ∈ c.members, x.step c.world ≠ none := by
      simpa [stuck] using hstuck
    obtain ⟨k, hk⟩ := List.mem_iff_getElem?.mp hx
    obtain ⟨p, hstep⟩ := Option.ne_none_iff_exists'.mp hcan
    refine .inl ⟨k, by simp [Crew.step, hk, hstep], fun y s n a rest hy htodo hn => ?_⟩
    obtain rfl := Option.some.inj (hk.symm.trans hy)
    exact CrewMember.not_waits_of_step (h.manned.follows k x hk).exchange.awaits
      (by rw [hstep]; rfl) htodo hn

/-- Neighbors that do the same number of rounds never all wait: when nobody can make a step and
nobody has failed, everybody has done all rounds. -/
theorem Sound.finished_of_stuck
    (hrounds : ∀ k < size, ∀ s n, (parties k).table.at? s = some n →
      (parties n.rank).rounds = (parties k).rounds)
    (hok : c.Unfailing) (hstuck : c.stuck = true) : ∀ m ∈ c.members, m.finished := by
  refine (h.finished_or_abandoned hl hok hstuck).resolve_right ?_
  rintro ⟨k, m, s, n, a, rest, hhalts, hlt, -⟩
  have hsame := hrounds k (h.manned.lt hhalts.member) s n hhalts.entry
  omega

end Halted

end Crew

/-! ### Every course comes to an end -/

section Work

variable {x x' : Exchange Universe} {w w' : World Universe} {m m' : CrewMember Universe}

/-- A move that is made is not ahead any more, and what it leads to is less than the move. -/
theorem Advances.work_lt (h : Advances x w x' w') : x'.work < x.work ∧ x'.moves = x.moves := by
  obtain ⟨k, rest, htodo, ⟨-, -, -, hmoves⟩, htodo', -⟩ := h.local
  refine ⟨?_, hmoves⟩
  simp only [Exchange.work, htodo, Exchange.movesWork, List.foldr_cons]
  rcases htodo' with htodo' | ⟨s, a, rfl, ha, htodo'⟩
  · have hpos : 0 < k.work := by
      unfold Move.work
      split <;> decide
    rw [htodo']
    omega
  · have htwo : (Move.act s a).work = 2 := by rcases ha with rfl | rfl <;> rfl
    rw [htodo', List.foldr_cons, htwo, show (Move.act s .deliver).work = 1 from rfl]
    omega

theorem CrewMember.Steps.work_lt (h : m.Steps w m' w') : m'.work < m.work := by
  cases h with
  | @again p ps hok htodo hcoming =>
    have hzero : m.exchange.work = 0 := by rw [Exchange.work, htodo]; rfl
    have hagain : (m.exchange.again p).work = Exchange.movesWork m.exchange.moves := rfl
    simp only [CrewMember.work, hok, hcoming, hzero, hagain, List.length_cons, Nat.succ_mul]
    change _ + ps.length * (1 + Exchange.movesWork m.exchange.moves) < _
    omega
  | advance hok hadvance =>
    obtain ⟨hlt, hmoves⟩ := hadvance.work_lt
    simp only [CrewMember.work, hok, hmoves]
    omega
  | fail hok =>
    simp only [CrewMember.work, hok]
    omega

/-- Less work for one member is less work for all. -/
theorem foldr_work_set {l : List (CrewMember Universe)} {i : Nat} (hm : l[i]? = some m)
    (hlt : m'.work < m.work) :
    (l.set i m').foldr (fun m k => m.work + k) 0 < l.foldr (fun m k => m.work + k) 0 := by
  induction l generalizing i with
  | nil => cases hm
  | cons n l ih =>
    cases i with
    | zero =>
      obtain rfl := Option.some.inj hm
      simpa using hlt
    | succ i => simpa using ih hm

end Work

namespace Crew

variable {size : Nat} {parties : Nat → Party} {c d : Crew Universe} {i : Nat}

theorem Reaches.trans {e : Crew Universe} (h : Reaches c d) (h' : Reaches d e) : Reaches c e := by
  induction h' with
  | refl => exact h
  | step i _ hstep ih => exact .step i ih hstep

/-- Every step brings the crew closer to the end. -/
theorem Sound.work_lt (h : Sound size parties c) (hstep : c.step i = some d) :
    d.work < c.work := by
  obtain ⟨m, m', w, hm, hmstep, rfl⟩ := steps_of_step hstep
  apply foldr_work_set hm
  exact (CrewMember.steps_of_step (h.manned.follows i m hm).exchange.awaits hmstep).work_lt

/-- From wherever the ranks have come to, they come to the end of all rounds. -/
theorem Sound.exists_finished (hl : Linked size parties) (h : Sound size parties c)
    (hp : ∀ k < size, (parties k).InRange)
    (hrounds : ∀ k < size, ∀ j < size, (parties k).rounds = (parties j).rounds)
    (hok : c.Unfailing) : ∃ d, Reaches c d ∧ ∀ m ∈ d.members, m.finished := by
  -- The induction is on the work that is left, which every step makes smaller.
  generalize hwork : c.work = bound
  induction bound using Nat.strongRecOn generalizing c with
  | ind bound ih =>
    by_cases hstuck : c.stuck = true
    · refine ⟨c, .refl, h.finished_of_stuck hl (fun k hk s n hn => ?_) hok hstuck⟩
      exact hrounds _ (hl.inRange k hk s n hn) k hk
    · -- Somebody can make a step.
      obtain ⟨m, hm, hcan⟩ : ∃ m ∈ c.members, m.step c.world ≠ none := by
        simpa [stuck] using hstuck
      obtain ⟨k, hk⟩ := List.mem_iff_getElem?.mp hm
      obtain ⟨⟨m', w⟩, hmstep⟩ := Option.ne_none_iff_exists'.mp hcan
      have hstep : c.step k = some ⟨c.members.set k m', w⟩ := by
        rw [Crew.step, hk]
        simp [hmstep]
      obtain ⟨d, hreach, hdone⟩ := ih _ (hwork ▸ h.work_lt hstep) (h.step hl hstep)
        (h.unfailing_step hl hp hok hstep) rfl
      exact ⟨d, .trans (.step k .refl hstep) hreach, hdone⟩

end Crew

end StencilPlan
