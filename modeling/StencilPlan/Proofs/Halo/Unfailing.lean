import Mathlib.Algebra.Order.BigOperators.Group.List
import Mathlib.Algebra.Order.Group.Nat
import StencilPlan.Proofs.Halo.Sound

/-!
# No rank fails

An exchange checks a good deal on its way: tags, sizes, lengths of messages and sums of traffic. In
a sound crew with tags and traffic in range every check is passed, whatever the other ranks do.
-/

namespace StencilPlan

namespace Traffic

/-- A part of the traffic that is counted in a word. -/
def Counted (f : Traffic → Nat) : Prop :=
  f = sentBytes ∨ f = receivedBytes ∨ f = sharedCopies ∨ f = messages

theorem Counted.additive {f : Traffic → Nat} (hf : Counted f) : Additive f := by
  refine ⟨?_, fun s t u h => ?_⟩
  · rcases hf with rfl | rfl | rfl | rfl <;> rfl
  · obtain ⟨rfl, -⟩ := add_eq_ok.mp h
    rcases hf with rfl | rfl | rfl | rfl <;> rfl

theorem exists_add {s t : Traffic} (h : ∀ f, Counted f → f s + f t < Word.bound) :
    ∃ u, s.add t = .ok u :=
  ⟨_, add_eq_ok.mpr ⟨rfl, h _ (.inl rfl), h _ (.inr (.inl rfl)), h _ (.inr (.inr (.inl rfl))),
    h _ (.inr (.inr (.inr rfl)))⟩⟩

end Traffic

/-- The tags of a rank and what its exchange comes to are in range. A buffer without values is never
sent or received, so its tag does not matter. -/
structure Party.InRange (p : Party) : Prop where
  recvTag : ∀ s n, p.table.at? s = some n → n.shared = false → n.recv.count ≠ 0 →
    p.tag s < tagLimit
  sendTag : ∀ s n, p.table.at? s = some n → n.shared = false → n.send.count ≠ 0 →
    p.tag (p.mirror s) < tagLimit
  traffic : ∀ f, Traffic.Counted f →
    (p.tasks.map fun k => f (p.table.traffic k)).sum < Word.bound

namespace Party.InRange

variable {p : Party} {s : Slot} {n : NeighborBuffers} {k : Move} {round : Nat}
  {x : Exchange Universe}

/-- What a single task comes to is in range. -/
theorem task_lt (hp : p.InRange) (hk : k ∈ p.tasks) {f : Traffic → Nat} (hf : Traffic.Counted f) :
    f (p.table.traffic k) < Word.bound := by
  refine Nat.lt_of_le_of_lt ?_ (hp.traffic f hf)
  exact List.single_le_sum (fun _ _ => Nat.zero_le _) _ (List.mem_map.mpr ⟨k, hk, rfl⟩)

theorem deliver_mem_tasks (hs : s ∈ p.table.incoming) : .act s .deliver ∈ p.tasks := by
  simp only [tasks, List.mem_append, List.mem_map]
  exact .inl (.inr ⟨s, hs, rfl⟩)

theorem mem_tasks {a : Action} (hn : p.table.at? s = some n) (ha : HaloTable.Allows n a)
    (hkind : a = .send ∨ a = .unlockSend ∨ a = .unpack) : .act s a ∈ p.tasks := by
  have hsend : n.send.count ≠ 0 → a ∈ sendActions n.shared → .act s a ∈ p.tasks := by
    intro hcount hmem
    have hin := HaloTable.mem_sends.mpr ⟨s, n, hn, hcount, act_mem_block.mpr ⟨rfl, hmem⟩⟩
    simp only [tasks, List.mem_append]
    exact .inl (.inl (.inl hin))
  rcases hkind with rfl | rfl | rfl
  · exact hsend ha.2 (by rw [ha.1]; decide)
  · exact hsend ha.2 (by rw [ha.1]; decide)
  · have hin : .act s .unpack ∈ p.table.draining.flatMap fun s => block s drainActions :=
      List.mem_flatMap.mpr
        ⟨s, HaloTable.mem_draining.mpr ⟨n, hn, ha⟩, act_mem_block.mpr ⟨rfl, by decide⟩⟩
    simp only [tasks, List.mem_append]
    exact .inr hin

/-- The bytes of a buffer that is received as a message. -/
theorem recv_bytes (hp : p.InRange) (hsized : p.table.Sized) (hn : p.table.at? s = some n)
    (hs : s ∈ p.table.incoming) : n.recv.bytes = .ok (n.recv.count * wordSize) := by
  have hlt := hp.task_lt (deliver_mem_tasks hs) (f := Traffic.receivedBytes) (.inr (.inl rfl))
  simp only [HaloTable.traffic, hn] at hlt
  exact (HaloBuffer.bytes_eq_ok (hsized s n hn).2).mpr ⟨rfl, hlt⟩

/-- The bytes of a buffer that is unpacked from shared memory. -/
theorem unpack_bytes (hp : p.InRange) (hsized : p.table.Sized) (hn : p.table.at? s = some n)
    (ha : HaloTable.Allows n .unpack) : n.recv.bytes = .ok (n.recv.count * wordSize) := by
  have hlt := hp.task_lt (mem_tasks hn ha (by simp)) (f := Traffic.receivedBytes) (.inr (.inl rfl))
  simp only [HaloTable.traffic, hn] at hlt
  exact (HaloBuffer.bytes_eq_ok (hsized s n hn).2).mpr ⟨rfl, hlt⟩

/-- The bytes of a buffer that is sent. -/
theorem send_bytes (hp : p.InRange) (hsized : p.table.Sized) (hn : p.table.at? s = some n)
    {a : Action} (ha : HaloTable.Allows n a) (hkind : a = .send ∨ a = .unlockSend) :
    n.send.bytes = .ok (n.send.count * wordSize) := by
  have hlt := hp.task_lt (mem_tasks hn ha (hkind.imp_right .inl)) (f := Traffic.sentBytes)
    (.inl rfl)
  refine (HaloBuffer.bytes_eq_ok (hsized s n hn).1).mpr ⟨rfl, ?_⟩
  rcases hkind with rfl | rfl
  · simpa only [HaloTable.traffic, hn] using hlt
  · simpa only [HaloTable.traffic, hn] using hlt

theorem exists_add {parties : Nat → Party} (hp : p.InRange)
    (hx : x.Accounted parties p round) {due : List Move} (hdue : x.due = k :: due) :
    ∃ stats, x.stats.add (p.table.traffic k) = .ok stats :=
  Traffic.exists_add fun f hf => Nat.lt_of_le_of_lt (hx.le hf.additive hdue) (hp.traffic f hf)

end Party.InRange

namespace Crew

variable {size : Nat} {parties : Nat → Party} {c d : Crew Universe} {i : Nat}
  {m : CrewMember Universe} {s : Slot} {n : NeighborBuffers} {a : Action} {rest : List Move}

/-- Values that are sent or filled in fit the send buffer. -/
theorem Sound.values (h : Sound size parties c) (hm : c.members[i]? = some m)
    (htodo : m.exchange.todo = .act s a :: rest) (hn : (parties i).table.at? s = some n)
    (ha : a = .send ∨ a = .fill) : m.exchange.values.length = n.send.count := by
  rw [(h.manned.follows i m hm).exchange.values_eq htodo hn ha, Party.length_vector hn]

/-- What an action counts can be added to what was counted before. -/
theorem Sound.exists_stats (h : Sound size parties c) (hp : (parties i).InRange)
    (hm : c.members[i]? = some m) (htodo : m.exchange.todo = .act s a :: rest)
    (hleads : m.exchange.leadsTo (.act s a) = some (.act s a)) :
    ∃ stats, m.exchange.stats.add ((parties i).table.traffic (.act s a)) = .ok stats := by
  have hdue : m.exchange.due = .act s a :: rest.filterMap m.exchange.leadsTo := by
    rw [Exchange.due, htodo, List.filterMap_cons, hleads]
  exact hp.exists_add (h.ledger.current i m hm) hdue

theorem Sound.send_ok (hl : Linked size parties) (h : Sound size parties c)
    (hp : (parties i).InRange) (hm : c.members[i]? = some m)
    (htodo : m.exchange.todo = .act s .send :: rest) (hn : (parties i).table.at? s = some n) :
    ∃ r, Exchange.perform { m.exchange with todo := rest } c.world s n .send = .ok r := by
  have hi := h.manned.lt hm
  have hx := (h.manned.follows i m hm).exchange
  obtain ⟨v, v', hsend, -⟩ := h.housed.lodged i hi s n hn
  have hallows := (hx.allows htodo hn).resolve_right (by decide)
  have htag := (@messageTag_eq_ok _ _ _ n.rank _).mpr ⟨rfl, hp.sendTag s n hn hallows.1 hallows.2⟩
  obtain ⟨heap, hwrite⟩ := hsend.exists_write (h.values hm htodo hn (.inl rfl)) hallows.2
  have hbytes := hp.send_bytes (hl.sized i hi) hn hallows (.inl rfl)
  obtain ⟨stats, hstats⟩ := h.exists_stats hp hm htodo rfl
  simp only [HaloTable.traffic, hn] at hstats
  simp only [Party.mirror] at htag
  rw [← hx.table, ← hx.topology] at htag
  simp only [Exchange.perform, bind_eq_ok, liftM_checked_eq_ok, pure_eq_ok]
  exact ⟨_, _, htag, _, hwrite, _, hbytes, _, hstats, rfl⟩

/-- A message that has arrived is the one that the neighbor packed, and so fits the buffer. -/
theorem Sound.deliver_ok (hl : Linked size parties) (h : Sound size parties c)
    (hp : (parties i).InRange) (hm : c.members[i]? = some m)
    (htodo : m.exchange.todo = .act s .deliver :: rest) (hn : (parties i).table.at? s = some n) :
    ∃ r, Exchange.perform { m.exchange with todo := rest } c.world s n .deliver = .ok r := by
  have hi := h.manned.lt hm
  have hx := (h.manned.follows i m hm).exchange
  obtain ⟨v, v', -, hrecv, -⟩ := h.housed.lodged i hi s n hn
  have hhand : .act s .deliver ∈ m.exchange.todo := by
    rw [htodo]
    exact List.mem_cons_self
  obtain ⟨n', hpartner⟩ := hl.partner i hi s n hn
  have hvector : ((parties n.rank).vector m.past.length ((parties i).mirror s)).length =
      n.recv.count := by
    rw [Party.length_vector hpartner.entry, (hpartner.symm hl hi hn).count]
  -- the payload has the length of the neighbor's vector, and that is the count of this buffer
  have harrived := h.mail.arrived_eq hl hi hm hn hhand
  have hlength : m.exchange.arrived.length = n.recv.count * wordSize := by
    rw [harrived, length_payload, hvector]
  have hwords : (wordsOf n.recv.count m.exchange.arrived).length = n.recv.count := by
    rw [harrived, ← hvector, wordsOf_payload]
  have hcount : n.recv.count ≠ 0 := (hx.of_deliver htodo hn).2
  have hbytes := hp.recv_bytes (hl.sized i hi) hn (hx.inHand s hhand)
  obtain ⟨heap, hwrite⟩ := hrecv.exists_write hwords hcount
  obtain ⟨stats, hstats⟩ := h.exists_stats hp hm htodo rfl
  simp only [HaloTable.traffic, hn] at hstats
  simp only [Exchange.perform, bind_eq_ok, liftM_checked_eq_ok, guard_eq_ok, not_not, pure_eq_ok]
  exact ⟨_, _, hbytes, hlength, _, hrecv.size, _, hwrite, _, hstats, rfl⟩

/-- No action fails: its buffers have their windows, and its tag and its counts are in range. -/
theorem Sound.perform_ok (hl : Linked size parties) (h : Sound size parties c)
    (hp : (parties i).InRange) (hm : c.members[i]? = some m)
    (htodo : m.exchange.todo = .act s a :: rest) (hn : (parties i).table.at? s = some n) :
    ∃ r, Exchange.perform { m.exchange with todo := rest } c.world s n a = .ok r := by
  have hi := h.manned.lt hm
  have hx := (h.manned.follows i m hm).exchange
  have hsized := hl.sized i hi
  obtain ⟨v, v', hsend, hrecv, hv, hv'⟩ := h.housed.lodged i hi s n hn
  have hallows : a ≠ .deliver → HaloTable.Allows n a := (hx.allows htodo hn).resolve_right
  -- What an action needs is in range: see `InRange`; where it needs a window, the buffer has one.
  cases a with
  | send => exact h.send_ok hl hp hm htodo hn
  | deliver => exact h.deliver_ok hl hp hm htodo hn
  | post =>
    have hallows := hallows (by decide)
    have htag := (@messageTag_eq_ok _ _ _ n.rank _).mpr ⟨rfl, hp.recvTag s n hn hallows.1 hallows.2⟩
    have hbytes := hp.recv_bytes hsized hn (HaloTable.mem_incoming.mpr ⟨n, hn, hallows⟩)
    rw [← hx.table] at htag
    simp only [Exchange.perform, bind_eq_ok, liftM_checked_eq_ok, pure_eq_ok]
    exact ⟨_, _, htag, _, hbytes, rfl⟩
  | pack =>
    have hpack : m.exchange.packer (m.exchange.varName s) n.send =
        .ok ((parties i).pack m.past.length (m.exchange.varName s) n.send) := by
      rw [hx.packer]
      rfl
    simp only [Exchange.perform, bind_eq_ok, liftM_checked_eq_ok, pure_eq_ok]
    exact ⟨_, _, hsend.size, _, hpack, rfl⟩
  | drained =>
    obtain ⟨ready, hready⟩ : ∃ ready, n.send.isReady c.world.heap = .ok ready :=
      ⟨_, hsend.isReady_eq (hv.trans (hallows (by decide)).1)⟩
    simp only [Exchange.perform, bind_eq_ok, liftM_checked_eq_ok]
    cases ready <;> exact ⟨_, _, hready, rfl⟩
  | filled =>
    obtain ⟨ready, hready⟩ : ∃ ready, n.recv.isReady c.world.heap = .ok ready :=
      ⟨_, hrecv.isReady_eq (hv'.trans (hallows (by decide)).1)⟩
    simp only [Exchange.perform, bind_eq_ok, liftM_checked_eq_ok]
    cases ready <;> exact ⟨_, _, hready, rfl⟩
  | lockSend =>
    simp only [Exchange.perform, bind_eq_ok, liftM_checked_eq_ok, pure_eq_ok]
    exact ⟨_, _, hsend.lock?_eq (hv.trans (hallows (by decide)).1), rfl⟩
  | fill =>
    have hvalues := h.values hm htodo hn (.inr rfl)
    obtain ⟨heap, hwrite⟩ := hsend.exists_write hvalues (hallows (by decide)).2
    simp only [Exchange.perform, bind_eq_ok, pure_eq_ok]
    exact ⟨_, _, hwrite, rfl⟩
  | raise =>
    simp only [Exchange.perform, bind_eq_ok, liftM_checked_eq_ok, pure_eq_ok]
    exact ⟨_, _, hsend.markReady_eq (hv.trans (hallows (by decide)).1) true, rfl⟩
  | unlockSend =>
    have hallows := hallows (by decide)
    have hbytes := hp.send_bytes hsized hn hallows (.inr rfl)
    obtain ⟨stats, hstats⟩ := h.exists_stats hp hm htodo rfl
    simp only [HaloTable.traffic, hn] at hstats
    simp only [Exchange.perform, bind_eq_ok, liftM_checked_eq_ok, pure_eq_ok]
    exact ⟨_, _, hsend.unlock_eq (hv.trans hallows.1), _, hbytes, _, hstats, rfl⟩
  | poll =>
    simp only [Exchange.perform]
    split
    · exact ⟨_, rfl⟩
    · split <;> exact ⟨_, rfl⟩
  | await =>
    simp only [Exchange.perform]
    split <;> exact ⟨_, rfl⟩
  | lockRecv =>
    simp only [Exchange.perform, bind_eq_ok, liftM_checked_eq_ok, pure_eq_ok]
    exact ⟨_, _, hrecv.lock?_eq (hv'.trans (hallows (by decide)).1), rfl⟩
  | drain =>
    obtain ⟨vs, hread⟩ := hrecv.exists_read (hallows (by decide)).2
    simp only [Exchange.perform, bind_eq_ok, liftM_checked_eq_ok, pure_eq_ok]
    exact ⟨_, _, hrecv.size, _, hread, rfl⟩
  | lower =>
    simp only [Exchange.perform, bind_eq_ok, liftM_checked_eq_ok, pure_eq_ok]
    exact ⟨_, _, hrecv.markReady_eq (hv'.trans (hallows (by decide)).1) false, rfl⟩
  | unlockRecv =>
    simp only [Exchange.perform, bind_eq_ok, liftM_checked_eq_ok, pure_eq_ok]
    exact ⟨_, _, hrecv.unlock_eq (hv'.trans (hallows (by decide)).1), rfl⟩
  | unpack =>
    have hallows := hallows (by decide)
    obtain ⟨stats, hstats⟩ := h.exists_stats hp hm htodo rfl
    simp only [HaloTable.traffic, hn] at hstats
    simp only [Exchange.perform, bind_eq_ok, liftM_checked_eq_ok, pure_eq_ok]
    exact ⟨_, _, hp.unpack_bytes hsized hn hallows, _, hstats, rfl⟩

/-- The next move is made or has to wait, but it does not fail. -/
theorem Sound.step_ok (hl : Linked size parties) (h : Sound size parties c)
    (hp : (parties i).InRange) (hm : c.members[i]? = some m) :
    ∃ r, m.exchange.step c.world = .ok r := by
  have hx := (h.manned.follows i m hm).exchange
  unfold Exchange.step
  split
  · exact ⟨_, rfl⟩
  · exact ⟨_, rfl⟩
  · next s a rest htodo =>
    split
    · exact ⟨_, rfl⟩
    · next n hn =>
      rw [hx.table] at hn
      exact h.perform_ok hl hp hm htodo hn

/-- No member has failed. -/
def Unfailing (c : Crew Universe) : Prop :=
  ∀ (k : Nat) (m : CrewMember Universe), c.members[k]? = some m → m.failure = none

theorem unfailing_enlist {w : World Universe} : Unfailing (enlist size parties w) := by
  intro k m hm
  rw [(member_enlist.mp hm).2]
  rfl

theorem Sound.unfailing_step (hl : Linked size parties) (h : Sound size parties c)
    (hp : ∀ k < size, (parties k).InRange) (hok : c.Unfailing) (hstep : c.step i = some d) :
    d.Unfailing := by
  obtain ⟨m, m', hr, hsteps⟩ := h.manned.steps hstep
  intro k n hn
  rcases hr.cases hn with ⟨rfl, rfl⟩ | ⟨-, hn⟩
  · generalize d.world = w at hsteps
    cases hsteps with
    | again hok => exact hok
    | advance hok => exact hok
    | fail _ herror =>
      -- The only way to fail is an error of the move, and moves have none.
      obtain ⟨r, hok⟩ := h.step_ok hl (hp k (h.manned.lt hr.old)) hr.old
      cases hok.symm.trans herror
  · exact hok k n hn

/-- Whatever the ranks do in whatever order, none of them fails. -/
theorem Sound.unfailing_reaches (hl : Linked size parties) (h : Sound size parties c)
    (hp : ∀ k < size, (parties k).InRange) (hok : c.Unfailing) (hreach : Reaches c d) :
    d.Unfailing := by
  induction hreach with
  | refl => exact hok
  | step _ hreach hstep ih => exact (h.reaches hl hreach).unfailing_step hl hp ih hstep

end Crew

end StencilPlan
