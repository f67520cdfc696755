import StencilPlan.Proofs.Halo.Handshake
import StencilPlan.Proofs.Halo.Mail

/-!
# Shared windows of a crew

The shared windows of a crew lie apart from each other and from all other windows, and the receive
buffer of a neighbor lies where the send buffer of the rank lies. So each shared window is a matter
between two ranks, whose handshake no other rank disturbs.
-/

namespace StencilPlan

open Heap

section Effect

variable {x x' : Exchange Universe} {w w' : World Universe} {s : Slot} {n : NeighborBuffers}
  {a : Action}

/-- What an action does to the heap: nothing, or something to one of the two windows. -/
theorem Performs.alters (h : Performs x w s n a x' w') {v v' : Window}
    (hsend : n.send.Lodged w.heap v) (hrecv : n.recv.Lodged w.heap v') :
    w'.heap = w.heap ∨
      (a ∈ Action.send :: sendActions true ∧ w.heap.Alters v (n.send.span v) w'.heap) ∨
      (a ∈ Action.deliver :: drainActions ∧ w.heap.Alters v' (n.recv.span v') w'.heap) := by
  cases h with
  | send _ hwrite =>
    exact .inr (.inl ⟨by decide, hsend.alters_of_uses (u := .write _) hwrite⟩)
  | fill hwrite =>
    exact .inr (.inl ⟨by decide, hsend.alters_of_uses (u := .write _) hwrite⟩)
  | lockSend hlock =>
    exact .inr (.inl ⟨by decide, hsend.alters_of_uses (u := .lock) hlock⟩)
  | raise hmark =>
    exact .inr (.inl ⟨by decide, hsend.alters_of_uses (u := .mark true) hmark⟩)
  | unlockSend hunlock =>
    exact .inr (.inl ⟨by decide, hsend.alters_of_uses (u := .unlock) hunlock⟩)
  | deliver _ _ _ hwrite =>
    exact .inr (.inr ⟨by decide, hrecv.alters_of_uses (u := .write _) hwrite⟩)
  | lockRecv hlock =>
    exact .inr (.inr ⟨by decide, hrecv.alters_of_uses (u := .lock) hlock⟩)
  | lower hmark =>
    exact .inr (.inr ⟨by decide, hrecv.alters_of_uses (u := .mark false) hmark⟩)
  | unlockRecv hunlock =>
    exact .inr (.inr ⟨by decide, hrecv.alters_of_uses (u := .unlock) hunlock⟩)
  -- Everything else reads the heap or leaves it alone.
  | _ => exact .inl rfl

end Effect

/-- The buffers of some ranks have their windows; those of partners in shared memory are the same,
and no other window is in the way of a shared one. -/
structure Housed (size : Nat) (parties : Nat → Party) (h : Heap) : Prop where
  lodged : ∀ k < size, ∀ s n, (parties k).table.at? s = some n → ∃ w w', n.send.Lodged h w ∧
    n.recv.Lodged h w' ∧ w.shared = n.shared ∧ w'.shared = n.shared
  attached : ∀ k < size, ∀ s n m w w', (parties k).table.at? s = some n → n.shared = true →
    Partners parties k s n m → n.send.window = some w → m.recv.window = some w' →
    w'.pool = w.pool ∧ w'.offset = w.offset
  apart : ∀ k < size, ∀ j < size, ∀ s s' n m w w', (parties k).table.at? s = some n →
    (parties j).table.at? s' = some m → n.shared = true → m.shared = true →
    n.send.window = some w → m.send.window = some w' → w.pool = w'.pool → (k = j ∧ s = s') ∨
      w.offset + (n.send.count + HaloBuffer.controlWords) ≤ w'.offset ∨
      w'.offset + (m.send.count + HaloBuffer.controlWords) ≤ w.offset
  foreign : ∀ k < size, ∀ j < size, ∀ s s' n m w w', (parties k).table.at? s = some n →
    (parties j).table.at? s' = some m → n.shared = true → m.shared = false →
    n.send.window = some w → (m.send.window = some w' ∨ m.recv.window = some w') →
    w.pool ≠ w'.pool

theorem Housed.of_length {size : Nat} {parties : Nat → Party} {h h' : Heap}
    (hh : Housed size parties h) (hlen : ∀ q, h'.length q = h.length q) :
    Housed size parties h' := by
  refine ⟨fun k hk s n hn => ?_, hh.attached, hh.apart, hh.foreign⟩
  obtain ⟨w, w', hsend, hrecv, hw⟩ := hh.lodged k hk s n hn
  exact ⟨w, w', hsend.of_length hlen, hrecv.of_length hlen, hw⟩

namespace CrewMember

/-- How many moves the rank has made with the shared send buffer at a place. -/
def writes (m : CrewMember Universe) (s : Slot) : Nat := m.turns (block s (sendActions true))

/-- How many moves the rank has made with the shared receive buffer at a place. -/
def reads (m : CrewMember Universe) (s : Slot) : Nat := m.turns (block s drainActions)

end CrewMember

namespace Crew

variable {size : Nat} {parties : Nat → Party} {c d : Crew Universe} {i : Nat}
  {m m' : CrewMember Universe} {x : Exchange Universe}

/-- The handshakes over all shared windows, and what was read there. -/
structure Shakes (size : Nat) (parties : Nat → Party) (c : Crew Universe) : Prop where
  link : ∀ k < size, ∀ s n w, (parties k).table.at? s = some n → n.shared = true →
    n.send.count ≠ 0 → n.send.window = some w →
    Handshake (fun r => (parties k).vector r s) w.pool w.offset n.send.count
      (c.tally (·.writes s) k) (c.tally (·.reads ((parties k).mirror s)) n.rank) c.world.heap
  /-- From reading until unpacking the vector of the round is at hand. -/
  read : ∀ j (m : CrewMember Universe) s n, c.members[j]? = some m →
    (parties j).table.at? s = some n → n.shared = true → n.recv.count ≠ 0 →
    3 ≤ doneOf m.exchange.todo (block s drainActions) →
    doneOf m.exchange.todo (block s drainActions) ≤ 5 →
    m.exchange.values = (parties n.rank).vector m.past.length ((parties j).mirror s)

/-- Where a window is drained, it is filled at the counterpart. -/
theorem drains_mirror (hl : Linked size parties) {k : Nat} (hk : k < size) {s : Slot}
    {n : NeighborBuffers} (hn : (parties k).table.at? s = some n) (hshared : n.shared = true)
    (hcount : n.send.count ≠ 0) :
    block ((parties k).mirror s) drainActions <:+:
      (parties n.rank).table.script (parties n.rank).interior := by
  obtain ⟨n', hpartner⟩ := hl.partner k hk s n hn
  exact HaloTable.drainBlock_within hpartner.entry (hpartner.shared.trans hshared)
    (hpartner.count ▸ hcount)

theorem fills_within {p : Party} {s : Slot} {n : NeighborBuffers} (hn : p.table.at? s = some n)
    (hshared : n.shared = true) (hcount : n.send.count ≠ 0) :
    block s (sendActions true) <:+: p.table.script p.interior := by
  rw [← hshared]
  exact HaloTable.sendBlock_within hn hcount

/-- Neither fills nor drains. -/
theorem notMem_of_disjoint {s s' : Slot} {k : Move} (hk : k ∈ block s (sendActions true)) :
    k ∉ block s' drainActions := by
  obtain ⟨a, ha, rfl⟩ := mem_block.mp hk
  rw [act_mem_block]
  rintro ⟨-, ha'⟩
  have hdisjoint : ∀ a ∈ sendActions true, a ∉ drainActions := by decide
  exact hdisjoint a ha ha'

end Crew

/-! ### The moves of a handshake -/

section Moves

variable {p : Party} {round r q idx : Nat} {x x' : Exchange Universe} {w w' : World Universe}
  {s : Slot} {n : NeighborBuffers} {a : Action} {rest : List Move} {v : Window}
  {vec : Nat → List Binary64}

/-- A move with a shared send buffer is the next move of the writer. -/
theorem Handshake.writer (hx : x.Follows p round) (htodo : x.todo = .act s a :: rest)
    (hn : p.table.at? s = some n) (hb : n.send.Lodged w.heap v) (hv : v.shared = true)
    (h : Performs { x with todo := rest } w s n a x' w') (hi : (sendActions true)[idx]? = some a)
    (hs : Handshake (fun r => p.vector r s) v.pool v.offset n.send.count (round * 6 + idx) q
      w.heap) :
    Handshake (fun r => p.vector r s) v.pool v.offset n.send.count (round * 6 + idx + 1) q
      w'.heap := by
  -- The action is the one at position `idx` of the block, and of what it can come to only that one
  -- remains; taking a message is not in the block.
  match idx with
  | 0 =>
    obtain rfl := Option.some.inj hi
    cases h with
    | taken ha | take ha => simp at ha
    | pack => exact hs.pack (by omega)
  | 1 =>
    obtain rfl := Option.some.inj hi
    cases h with
    | taken ha | take ha => simp at ha
    | drained hready => exact hs.drained hb hv (by omega) hready
  | 2 =>
    obtain rfl := Option.some.inj hi
    cases h with
    | taken ha | take ha => simp at ha
    | lockSend hlock => exact hs.lockSend hb hv (by omega) hlock
  | 3 =>
    obtain rfl := Option.some.inj hi
    cases h with
    | taken ha | take ha => simp at ha
    | fill hwrite =>
      refine hs.fill hb (by omega) ?_ hwrite
      rw [show (round * 6 + 3) / 6 = round by omega]
      exact hx.values_eq htodo hn (.inr rfl)
  | 4 =>
    obtain rfl := Option.some.inj hi
    cases h with
    | taken ha | take ha => simp at ha
    | raise hmark => exact hs.raise hb hv (by omega) hmark
  | 5 =>
    obtain rfl := Option.some.inj hi
    cases h with
    | taken ha | take ha => simp at ha
    | unlockSend hunlock => exact hs.unlockSend hb hv (by omega) hunlock
  | idx + 6 => cases hi

/-- A move with a shared receive buffer is the next move of the reader. -/
theorem Handshake.reader (hb : n.recv.Lodged w.heap v) (hv : v.shared = true)
    (h : Performs { x with todo := rest } w s n a x' w') (hi : drainActions[idx]? = some a)
    (hs : Handshake vec v.pool v.offset n.recv.count r (round * 6 + idx) w.heap) :
    Handshake vec v.pool v.offset n.recv.count r (round * 6 + idx + 1) w'.heap := by
  -- As for the writer, but the vector is not yet known to the reader.
  match idx with
  | 0 =>
    obtain rfl := Option.some.inj hi
    cases h with
    | taken ha | take ha => simp at ha
    | filled hready => exact hs.filled hb hv (by omega) hready
  | 1 =>
    obtain rfl := Option.some.inj hi
    cases h with
    | taken ha | take ha => simp at ha
    | lockRecv hlock => exact hs.lockRecv hb hv (by omega) hlock
  | 2 =>
    obtain rfl := Option.some.inj hi
    cases h with
    | taken ha | take ha => simp at ha
    | drain => exact hs.drain (by omega)
  | 3 =>
    obtain rfl := Option.some.inj hi
    cases h with
    | taken ha | take ha => simp at ha
    | lower hmark => exact hs.lower hb hv (by omega) hmark
  | 4 =>
    obtain rfl := Option.some.inj hi
    cases h with
    | taken ha | take ha => simp at ha
    | unlockRecv hunlock => exact hs.unlockRecv hb hv (by omega) hunlock
  | 5 =>
    obtain rfl := Option.some.inj hi
    cases h with
    | taken ha | take ha => simp at ha
    | unpack => exact hs.unpack (by omega)
  | idx + 6 => cases hi

/-- From reading on the reader has the vector of the round at hand. -/
theorem Handshake.reads (hb : n.recv.Lodged w.heap v)
    (h : Performs { x with todo := rest } w s n a x' w') (hi : drainActions[idx]? = some a)
    (hge : 2 ≤ idx) (hle : idx ≤ 4) (hold : 3 ≤ idx → x.values = vec round)
    (hs : Handshake vec v.pool v.offset n.recv.count r (round * 6 + idx) w.heap) :
    x'.values = vec round := by
  match idx with
  | 2 =>
    obtain rfl := Option.some.inj hi
    cases h with
    | taken ha | take ha => simp at ha
    | drain hsize hread =>
      rw [hb.size] at hsize
      obtain rfl := Except.ok.inj hsize
      -- the handshake says that the window still has the vector of this round
      have := hs.read hb (by omega) hread
      rwa [show (round * 6 + 2) / 6 = round by omega] at this
  | 3 =>
    obtain rfl := Option.some.inj hi
    cases h with
    | taken ha | take ha => simp at ha
    | lower => exact hold (by decide)
  | 4 =>
    obtain rfl := Option.some.inj hi
    cases h with
    | taken ha | take ha => simp at ha
    | unlockRecv => exact hold (by decide)

end Moves

/-! ### Who disturbs whom -/

section Frame

variable {size : Nat} {parties : Nat → Party} {h h' : Heap} {k i : Nat} {s s₀ : Slot}
  {n n₀ : NeighborBuffers} {v u u' : Window} {a : Action}

/-- What is done with the send buffer of another place leaves a shared window alone. -/
theorem Housed.send_apart (hh : Housed size parties h) (hk : k < size) (hi : i < size)
    (hn : (parties k).table.at? s = some n) (hn₀ : (parties i).table.at? s₀ = some n₀)
    (hshared : n.shared = true) (hv : n.send.window = some v) (hu : n₀.send.window = some u)
    (hkind : u.shared = n₀.shared) (hne : ¬ (n₀.shared = true ∧ k = i ∧ s = s₀)) {j : Nat}
    (hge : v.offset ≤ j) (hlt : j < v.offset + (n.send.count + 2)) :
    ¬ u.Covers (n₀.send.span u) v.pool j := by
  rintro ⟨hpool, hge', hlt'⟩
  cases hshared₀ : n₀.shared with
  | false => exact hh.foreign k hk i hi s s₀ n n₀ v u hn hn₀ hshared hshared₀ hv (.inl hu) hpool
  | true =>
    rw [HaloBuffer.span, hkind, hshared₀, if_pos rfl] at hlt'
    have := hh.apart k hk i hi s s₀ n n₀ v u hn hn₀ hshared hshared₀ hv hu hpool
    rcases this with ⟨hki, hss⟩ | hapart | hapart
    · exact hne ⟨hshared₀, hki, hss⟩
    · rw [HaloBuffer.controlWords] at hapart
      omega
    · omega

/-- What is done with the receive buffer of another place leaves a shared window alone. -/
theorem Housed.recv_apart (hl : Linked size parties) (hh : Housed size parties h) (hk : k < size)
    (hi : i < size) (hn : (parties k).table.at? s = some n)
    (hn₀ : (parties i).table.at? s₀ = some n₀) (hshared : n.shared = true)
    (hv : n.send.window = some v) (hu : n₀.recv.window = some u) (hkind : u.shared = n₀.shared)
    (hne : ¬ (n₀.shared = true ∧ n.rank = i ∧ (parties k).mirror s = s₀)) {j : Nat}
    (hge : v.offset ≤ j) (hlt : j < v.offset + (n.send.count + 2)) :
    ¬ u.Covers (n₀.recv.span u) v.pool j := by
  rintro ⟨hpool, hge', hlt'⟩
  cases hshared₀ : n₀.shared with
  | false => exact hh.foreign k hk i hi s s₀ n n₀ v u hn hn₀ hshared hshared₀ hv (.inr hu) hpool
  | true =>
    -- the window is that of the counterpart's send buffer
    obtain ⟨n', hpartner⟩ := hl.partner i hi s₀ n₀ hn₀
    have hback := hpartner.symm hl hi hn₀
    have hj := hl.inRange i hi s₀ n₀ hn₀
    have hshared' := hpartner.shared.trans hshared₀
    obtain ⟨u', -, hu', -⟩ := hh.lodged _ hj _ n' hpartner.entry
    obtain ⟨hpool', hoffset'⟩ := hh.attached _ hj _ n' n₀ u' u hpartner.entry hshared' hback
      hu'.window hu
    rw [HaloBuffer.span, hkind, hshared₀, if_pos rfl, hback.count, hoffset'] at hlt'
    rw [hoffset'] at hge'
    have := hh.apart k hk _ hj s _ n n' v u' hn hpartner.entry hshared hshared' hv hu'.window
      (hpool.trans hpool')
    rcases this with ⟨rfl, rfl⟩ | hapart | hapart
    · obtain rfl := Option.some.inj (hn.symm.trans hpartner.entry)
      exact hne ⟨hshared₀, hpartner.rank, hpartner.mirror⟩
    · rw [HaloBuffer.controlWords] at hapart
      omega
    · omega

end Frame

namespace Crew

section Act

variable {size : Nat} {parties : Nat → Party} {c d : Crew Universe} {i : Nat}
  {m : CrewMember Universe} {x : Exchange Universe} {s₀ : Slot} {n₀ : NeighborBuffers} {a : Action}
  {rest : List Move}

/-- A move that is not one with the window leaves its handshake as it is. -/
theorem Shakes.link_of_other (hl : Linked size parties) (hc : Manned size parties c)
    (hh : Housed size parties c.world.heap) (h : Shakes size parties c)
    (hr : Replaces c d i m { m with exchange := x }) (htodo : m.exchange.todo = .act s₀ a :: rest)
    (hn₀ : (parties i).table.at? s₀ = some n₀)
    (hperf : Performs { m.exchange with todo := rest } c.world s₀ n₀ a x d.world) {k : Nat}
    (hk : k < size) {s : Slot} {n : NeighborBuffers} {v : Window}
    (hn : (parties k).table.at? s = some n) (hshared : n.shared = true)
    (hcount : n.send.count ≠ 0) (hv : n.send.window = some v)
    (hwriter : ¬ (k = i ∧ Move.act s₀ a ∈ block s (sendActions true)))
    (hreader : ¬ (n.rank = i ∧ Move.act s₀ a ∈ block ((parties k).mirror s) drainActions)) :
    Handshake (fun r => (parties k).vector r s) v.pool v.offset n.send.count
      (d.tally (·.writes s) k) (d.tally (·.reads ((parties k).mirror s)) n.rank) d.world.heap := by
  have hi := hc.lt hr.old
  have hfollows := hc.follows i m hr.old
  have htodo' : x.todo = rest ∨ ∃ s, x.todo = .act s .deliver :: rest :=
    hperf.todo.imp_right fun h => ⟨_, h.2⟩
  have hwrites : d.tally (·.writes s) k = c.tally (·.writes s) k := by
    refine hr.tally_of_eq (·.writes s) fun hki => ?_
    subst hki
    rcases hfollows.turns_advance htodo htodo' (fills_within hn hshared hcount) with
      ⟨_, hidx, -⟩ | ⟨-, hturns⟩
    · exact absurd ⟨rfl, List.mem_of_getElem? hidx⟩ hwriter
    · exact hturns
  have hreads : d.tally (·.reads ((parties k).mirror s)) n.rank =
      c.tally (·.reads ((parties k).mirror s)) n.rank := by
    refine hr.tally_of_eq (·.reads _) fun hki => ?_
    have hb := drains_mirror hl hk hn hshared hcount
    rw [hki] at hb
    rcases hfollows.turns_advance htodo htodo' hb with ⟨_, hidx, -⟩ | ⟨-, hturns⟩
    · exact absurd ⟨hki, List.mem_of_getElem? hidx⟩ hreader
    · exact hturns
  rw [hwrites, hreads]
  refine (h.link k hk s n v hn hshared hcount hv).congr fun j hge hlt => ?_
  -- the window is apart from the one that the move changes
  obtain ⟨u, u', hsend, hrecv, hu, hu'⟩ := hh.lodged i hi s₀ n₀ hn₀
  have hkinds := hfollows.exchange.not_message htodo hn₀
  rcases hperf.alters hsend hrecv with hsame | ⟨ha, halters⟩ | ⟨ha, halters⟩
  · rw [hsame]
  · refine halters.word _ _ (hh.send_apart hk hi hn hn₀ hshared hv hsend.window hu ?_ hge hlt)
    rintro ⟨hshared₀, hki, rfl⟩
    have ha := (List.mem_cons.mp ha).resolve_left (hkinds hshared₀).1
    exact hwriter ⟨hki, act_mem_block.mpr ⟨rfl, ha⟩⟩
  · refine halters.word _ _ (hh.recv_apart hl hk hi hn hn₀ hshared hv hrecv.window hu' ?_ hge hlt)
    rintro ⟨hshared₀, hki, rfl⟩
    have ha := (List.mem_cons.mp ha).resolve_left (hkinds hshared₀).2
    exact hreader ⟨hki, act_mem_block.mpr ⟨rfl, ha⟩⟩

theorem Shakes.link_of_writer (hl : Linked size parties) (hc : Manned size parties c)
    (hh : Housed size parties c.world.heap) (h : Shakes size parties c)
    (hr : Replaces c d i m { m with exchange := x }) (htodo : m.exchange.todo = .act s₀ a :: rest)
    (hperf : Performs { m.exchange with todo := rest } c.world s₀ n₀ a x d.world) (hi : i < size)
    {v : Window} (hn₀ : (parties i).table.at? s₀ = some n₀) (hshared : n₀.shared = true)
    (hcount : n₀.send.count ≠ 0) (hv : n₀.send.window = some v)
    (hwriter : Move.act s₀ a ∈ block s₀ (sendActions true)) :
    Handshake (fun r => (parties i).vector r s₀) v.pool v.offset n₀.send.count
      (d.tally (·.writes s₀) i) (d.tally (·.reads ((parties i).mirror s₀)) n₀.rank)
      d.world.heap := by
  have hfollows := hc.follows i m hr.old
  have htodo' : x.todo = rest ∨ ∃ s, x.todo = .act s .deliver :: rest :=
    hperf.todo.imp_right fun h => ⟨_, h.2⟩
  have hold := h.link i hi s₀ n₀ v hn₀ hshared hcount hv
  obtain ⟨u, -, hsend, -, hu, -⟩ := hh.lodged i hi s₀ n₀ hn₀
  obtain rfl := Option.some.inj (hsend.window.symm.trans hv)
  -- The reader may be the same rank, but a move to fill is not one to drain.
  have hreads : d.tally (·.reads ((parties i).mirror s₀)) n₀.rank =
      c.tally (·.reads ((parties i).mirror s₀)) n₀.rank := by
    refine hr.tally_of_eq (·.reads _) fun hki => ?_
    have hb := drains_mirror hl hi hn₀ hshared hcount
    rw [hki] at hb
    rcases hfollows.turns_advance htodo htodo' hb with ⟨_, hidx, -⟩ | ⟨-, hturns⟩
    · exact absurd (List.mem_of_getElem? hidx) (notMem_of_disjoint hwriter)
    · exact hturns
  obtain ⟨idx, hidx, hturns, hturns'⟩ := (hfollows.turns_advance htodo htodo'
    (fills_within hn₀ hshared hcount)).resolve_right fun hno => hno.1 hwriter
  rw [getElem?_block, Option.map_eq_some_iff] at hidx
  obtain ⟨a', hidx, heq⟩ := hidx
  obtain rfl := (Move.act.inj heq).2
  rw [hreads, hr.tally_self, CrewMember.writes, hturns', hturns]
  rw [tally_of_member hr.old, CrewMember.writes, hturns] at hold
  exact hold.writer hfollows.exchange htodo hn₀ hsend (hu.trans hshared) hperf hidx

/-- The handshake over a window, seen from the reader. -/
theorem Shakes.link_at_reader (hl : Linked size parties) (hh : Housed size parties c.world.heap)
    (h : Shakes size parties c) {j : Nat} (hj : j < size) {s : Slot} {n : NeighborBuffers}
    {v : Window} (hn : (parties j).table.at? s = some n) (hshared : n.shared = true)
    (hcount : n.recv.count ≠ 0) (hv : n.recv.window = some v) :
    Handshake (fun r => (parties n.rank).vector r ((parties j).mirror s)) v.pool v.offset
      n.recv.count (c.tally (·.writes ((parties j).mirror s)) n.rank) (c.tally (·.reads s) j)
      c.world.heap := by
  obtain ⟨n', hpartner⟩ := hl.partner j hj s n hn
  have hback := hpartner.symm hl hj hn
  have hk := hl.inRange j hj s n hn
  have hshared' := hpartner.shared.trans hshared
  obtain ⟨u, -, hsend, -⟩ := hh.lodged _ hk _ n' hpartner.entry
  obtain ⟨hpool, hoffset⟩ := hh.attached _ hk _ n' n u v hpartner.entry hshared' hback
    hsend.window hv
  have := h.link _ hk _ n' u hpartner.entry hshared' (hback.count ▸ hcount) hsend.window
  rwa [hpartner.mirror, hpartner.rank, ← hpool, ← hoffset, ← hback.count] at this

/-- A move of the reader keeps the handshake, and from reading on the vector is at hand. -/
theorem Shakes.link_of_reader (hl : Linked size parties) (hc : Manned size parties c)
    (hh : Housed size parties c.world.heap) (h : Shakes size parties c)
    (hr : Replaces c d i m { m with exchange := x }) (htodo : m.exchange.todo = .act s₀ a :: rest)
    (hperf : Performs { m.exchange with todo := rest } c.world s₀ n₀ a x d.world) (hi : i < size)
    {v : Window} (hn₀ : (parties i).table.at? s₀ = some n₀) (hshared : n₀.shared = true)
    (hcount : n₀.recv.count ≠ 0) (hv : n₀.recv.window = some v)
    (hreader : Move.act s₀ a ∈ block s₀ drainActions) :
    Handshake (fun r => (parties n₀.rank).vector r ((parties i).mirror s₀)) v.pool v.offset
        n₀.recv.count (d.tally (·.writes ((parties i).mirror s₀)) n₀.rank)
        (d.tally (·.reads s₀) i) d.world.heap ∧
      (3 ≤ doneOf x.todo (block s₀ drainActions) → doneOf x.todo (block s₀ drainActions) ≤ 5 →
        x.values = (parties n₀.rank).vector m.past.length ((parties i).mirror s₀)) := by
  have hfollows := hc.follows i m hr.old
  have htodo' : x.todo = rest ∨ ∃ s, x.todo = .act s .deliver :: rest :=
    hperf.todo.imp_right fun h => ⟨_, h.2⟩
  have hold := h.link_at_reader hl hh hi hn₀ hshared hcount hv
  obtain ⟨-, u, -, hrecv, -, hu⟩ := hh.lodged i hi s₀ n₀ hn₀
  obtain rfl := Option.some.inj (hrecv.window.symm.trans hv)
  have hblock : block s₀ drainActions <:+: (parties i).table.script (parties i).interior :=
    HaloTable.drainBlock_within hn₀ hshared hcount
  -- The writer may be the same rank, but a move to drain is not one to fill.
  have hwrites : d.tally (·.writes ((parties i).mirror s₀)) n₀.rank =
      c.tally (·.writes ((parties i).mirror s₀)) n₀.rank := by
    obtain ⟨n', hpartner⟩ := hl.partner i hi s₀ n₀ hn₀
    refine hr.tally_of_eq (·.writes _) fun hki => ?_
    have hb : block ((parties i).mirror s₀) (sendActions true) <:+:
        (parties n₀.rank).table.script (parties n₀.rank).interior :=
      fills_within hpartner.entry (hpartner.shared.trans hshared)
        ((hpartner.symm hl hi hn₀).count ▸ hcount)
    rw [hki] at hb
    rcases hfollows.turns_advance htodo htodo' hb with ⟨_, hidx, -⟩ | ⟨-, hturns⟩
    · exact absurd hreader (notMem_of_disjoint (List.mem_of_getElem? hidx))
    · exact hturns
  obtain ⟨idx, hidx, hturns, hturns'⟩ := (hfollows.turns_advance htodo htodo'
    hblock).resolve_right fun hno => hno.1 hreader
  have hdone : doneOf x.todo (block s₀ drainActions) = idx + 1 := by
    simp only [CrewMember.turns] at hturns hturns'
    omega
  have hdone₀ : doneOf m.exchange.todo (block s₀ drainActions) = idx :=
    hfollows.exchange.doneOf_head htodo hblock hidx
  rw [getElem?_block, Option.map_eq_some_iff] at hidx
  obtain ⟨a', hidx, heq⟩ := hidx
  obtain rfl := (Move.act.inj heq).2
  rw [tally_of_member (f := (·.reads s₀)) hr.old, CrewMember.reads, hturns] at hold
  refine ⟨?_, fun hge hle => ?_⟩
  · rw [hwrites, hr.tally_self, CrewMember.reads, hturns', hturns]
    exact hold.reader hrecv (hu.trans hshared) hperf hidx
  · refine hold.reads hrecv hperf hidx (by omega) (by omega) fun hge' => ?_
    exact h.read i m s₀ n₀ hr.old hn₀ hshared hcount (by omega) (by omega)

end Act

section Step

variable {size : Nat} {parties : Nat → Party} {c d : Crew Universe} {i : Nat}

/-- A step that leaves the heap and every block as they are. -/
theorem Shakes.quiet (hl : Linked size parties) (h : Shakes size parties c)
    {m m' : CrewMember Universe} (hr : Replaces c d i m m')
    (hheap : d.world.heap = c.world.heap)
    (hturns : ∀ s actions, block s actions <:+: (parties i).table.script (parties i).interior →
      m'.turns (block s actions) = m.turns (block s actions))
    (hread : ∀ s n, (parties i).table.at? s = some n → n.shared = true → n.recv.count ≠ 0 →
      3 ≤ doneOf m'.exchange.todo (block s drainActions) →
      doneOf m'.exchange.todo (block s drainActions) ≤ 5 →
      m'.exchange.values = (parties n.rank).vector m'.past.length ((parties i).mirror s)) :
    Shakes size parties d := by
  -- The first part looks at what both ends of a window have done, the second one at the reader
  -- only.
  refine ⟨fun k hk s n v hn hshared hcount hv => ?_, fun j m₁ s n hm₁ hn hshared hcount => ?_⟩
  · rw [hheap, hr.tally_of_eq (·.writes s) fun hki => ?_,
      hr.tally_of_eq (·.reads ((parties k).mirror s)) fun hki => ?_]
    · exact h.link k hk s n v hn hshared hcount hv
    · exact hturns _ _ (hki ▸ drains_mirror hl hk hn hshared hcount)
    · subst hki
      exact hturns _ _ (fills_within hn hshared hcount)
  · rcases hr.cases hm₁ with ⟨rfl, rfl⟩ | ⟨-, hm₁⟩
    · exact hread s n hn hshared hcount
    · exact h.read j m₁ s n hm₁ hn hshared hcount

/-- Between reading and unpacking no other move comes but a delivery, which changes no values. -/
theorem Shakes.read_of_notMem {m : CrewMember Universe} {x : Exchange Universe} {k : Move}
    {rest : List Move} (hc : Manned size parties c) (h : Shakes size parties c)
    (hm : c.members[i]? = some m) (htodo : m.exchange.todo = k :: rest)
    (htodo' : x.todo = rest ∨ ∃ s, x.todo = .act s .deliver :: rest)
    (hvalues : (∃ s, k = .act s .deliver) → x.values = m.exchange.values) {s : Slot}
    {n : NeighborBuffers} (hn : (parties i).table.at? s = some n) (hshared : n.shared = true)
    (hcount : n.recv.count ≠ 0) (hk : k ∉ block s drainActions)
    (hge : 3 ≤ doneOf x.todo (block s drainActions))
    (hle : doneOf x.todo (block s drainActions) ≤ 5) :
    x.values = (parties n.rank).vector m.past.length ((parties i).mirror s) := by
  have hblock : block s drainActions <:+: (parties i).table.script (parties i).interior :=
    HaloTable.drainBlock_within hn hshared hcount
  have hlength : (block s drainActions).length = 6 := rfl
  rw [doneOf_ahead htodo' hblock] at hge hle
  -- The move is of this block, which it is not, or of another one, which comes before or after all
  -- of this one, or it is a delivery.
  rcases (htodo ▸ (hc.follows i m hm).exchange.course).pop ((parties i).table.nodup_script _)
    (fun _ => HaloTable.deliver_notMem_script) hblock with
    ⟨_, hidx, -⟩ | ⟨-, -, hout⟩ | ⟨hdeliver, -, hdone⟩
  · exact absurd (List.mem_of_getElem? hidx) hk
  · omega
  · rw [hvalues hdeliver]
    exact h.read i m s n hm hn hshared hcount (by rw [htodo]; omega) (by rw [htodo]; omega)

/-- A move that is in no block changes nothing that the windows show. -/
theorem Shakes.outside (hl : Linked size parties) (hc : Manned size parties c)
    (h : Shakes size parties c) {m : CrewMember Universe} {x : Exchange Universe} {k : Move}
    {rest : List Move} (hr : Replaces c d i m { m with exchange := x })
    (hheap : d.world.heap = c.world.heap) (htodo : m.exchange.todo = k :: rest)
    (htodo' : x.todo = rest) (hvalues : x.values = m.exchange.values)
    (hk : ∀ s actions, block s actions <:+: (parties i).table.script (parties i).interior →
      k ∉ block s actions) : Shakes size parties d := by
  have hfollows := hc.follows i m hr.old
  refine h.quiet hl hr hheap (fun s actions hb => ?_) fun s n hn hshared hcount hge hle => ?_
  · rcases hfollows.turns_advance htodo (.inl htodo') hb with ⟨_, hidx, -⟩ | ⟨-, hturns⟩
    · exact absurd (List.mem_of_getElem? hidx) (hk s actions hb)
    · exact hturns
  · exact h.read_of_notMem hc hr.old htodo (.inl htodo') (fun _ => hvalues) hn hshared hcount
      (hk s _ (HaloTable.drainBlock_within hn hshared hcount)) hge hle

section Act

variable {m : CrewMember Universe} {x : Exchange Universe} {s₀ : Slot} {n₀ : NeighborBuffers}
  {a : Action} {rest : List Move}

/-- An action keeps the handshake over every window: it is a move of the writer, one of the reader,
or one with another window. -/
theorem Shakes.link_of_act (hl : Linked size parties) (hc : Manned size parties c)
    (hh : Housed size parties c.world.heap) (h : Shakes size parties c)
    (hr : Replaces c d i m { m with exchange := x }) (htodo : m.exchange.todo = .act s₀ a :: rest)
    (hn₀ : (parties i).table.at? s₀ = some n₀)
    (hperf : Performs { m.exchange with todo := rest } c.world s₀ n₀ a x d.world) {k : Nat}
    (hk : k < size) {s : Slot} {n : NeighborBuffers} {v : Window}
    (hn : (parties k).table.at? s = some n) (hshared : n.shared = true)
    (hcount : n.send.count ≠ 0) (hv : n.send.window = some v) :
    Handshake (fun r => (parties k).vector r s) v.pool v.offset n.send.count
      (d.tally (·.writes s) k) (d.tally (·.reads ((parties k).mirror s)) n.rank) d.world.heap := by
  have hi := hc.lt hr.old
  by_cases hwriter : k = i ∧ Move.act s₀ a ∈ block s (sendActions true)
  · obtain ⟨rfl, hmem⟩ := hwriter
    obtain rfl := (act_mem_block.mp hmem).1
    obtain rfl := Option.some.inj (hn₀.symm.trans hn)
    exact h.link_of_writer hl hc hh hr htodo hperf hk hn hshared hcount hv hmem
  · by_cases hreader : n.rank = i ∧ Move.act s₀ a ∈ block ((parties k).mirror s) drainActions
    · obtain ⟨rfl, hmem⟩ := hreader
      obtain rfl := (act_mem_block.mp hmem).1
      obtain ⟨n', hpartner⟩ := hl.partner k hk s n hn
      obtain rfl := Option.some.inj (hn₀.symm.trans hpartner.entry)
      -- the reader has the same window under another name
      obtain ⟨-, u, -, hrecv, -⟩ := hh.lodged _ hi _ n₀ hn₀
      obtain ⟨hpool, hoffset⟩ := hh.attached k hk s n n₀ v u hn hshared hpartner hv hrecv.window
      have := (h.link_of_reader hl hc hh hr htodo hperf hi hn₀ (hpartner.shared.trans hshared)
        (hpartner.count ▸ hcount) hrecv.window hmem).1
      rwa [hpartner.mirror, hpartner.rank, hpool, hoffset, hpartner.count] at this
    · exact h.link_of_other hl hc hh hr htodo hn₀ hperf hk hn hshared hcount hv hwriter hreader

/-- After an action of a reader between reading and unpacking it has the vector at hand. -/
theorem Shakes.read_of_act (hl : Linked size parties) (hc : Manned size parties c)
    (hh : Housed size parties c.world.heap) (h : Shakes size parties c)
    (hr : Replaces c d i m { m with exchange := x }) (htodo : m.exchange.todo = .act s₀ a :: rest)
    (hn₀ : (parties i).table.at? s₀ = some n₀)
    (hperf : Performs { m.exchange with todo := rest } c.world s₀ n₀ a x d.world) {s : Slot}
    {n : NeighborBuffers} (hn : (parties i).table.at? s = some n) (hshared : n.shared = true)
    (hcount : n.recv.count ≠ 0) (hge : 3 ≤ doneOf x.todo (block s drainActions))
    (hle : doneOf x.todo (block s drainActions) ≤ 5) :
    x.values = (parties n.rank).vector m.past.length ((parties i).mirror s) := by
  have hi := hc.lt hr.old
  by_cases hmem : Move.act s₀ a ∈ block s drainActions
  · obtain rfl := (act_mem_block.mp hmem).1
    obtain rfl := Option.some.inj (hn₀.symm.trans hn)
    obtain ⟨-, u, -, hrecv, -⟩ := hh.lodged _ hi _ n₀ hn₀
    exact (h.link_of_reader hl hc hh hr htodo hperf hi hn₀ hshared hcount hrecv.window hmem).2
      hge hle
  · -- Of the other moves only packing and draining change the values, and neither is a delivery.
    refine h.read_of_notMem hc hr.old htodo (hperf.todo.imp_right fun h => ⟨_, h.2⟩)
      (fun hdeliver => ?_) hn hshared hcount hmem hge hle
    obtain ⟨s', heq⟩ := hdeliver
    obtain rfl := (Move.act.inj heq).2
    rcases hperf.values with ⟨hsame, -⟩ | ⟨hdrain, -⟩ | ⟨hpack, -⟩
    · exact hsame
    · cases hdrain
    · cases hpack

end Act

theorem Shakes.step (hl : Linked size parties) (hc : Manned size parties c)
    (hh : Housed size parties c.world.heap) (h : Shakes size parties c)
    (hstep : c.step i = some d) : Shakes size parties d := by
  obtain ⟨m, m', hr, hsteps⟩ := hc.steps hstep
  have hfollows := hc.follows i m hr.old
  generalize hw : d.world = w at hsteps
  cases hsteps with
  | @again q qs _ htodo hcoming =>
    refine h.quiet hl hr (by rw [hw]) (fun s actions hb => hfollows.turns_again htodo hb)
      fun s n hn hshared hcount hge => ?_
    -- nothing of the new round is done
    rw [doneOf_eq_zero] at hge
    · cases hge
    · intro k hk
      change k ∈ m.exchange.moves
      rw [hfollows.exchange.moves]
      exact (HaloTable.drainBlock_within hn hshared hcount).subset hk
  | fail =>
    exact h.quiet hl hr (by rw [hw]) (fun _ _ _ => rfl) fun s n hn hshared hcount hge hle =>
      h.read i m s n hr.old hn hshared hcount hge hle
  | @advance x _ _ hadvance =>
    cases hadvance with
    | interior htodo =>
      exact h.outside hl hc hr (by rw [hw]) htodo rfl rfl fun s actions _ => by simp [mem_block]
    | skip htodo hn₀ =>
      refine h.outside hl hc hr (by rw [hw]) htodo rfl rfl fun s actions hb hmem => ?_
      obtain ⟨n, hn, -⟩ := HaloTable.allows_of_mem_script (hb.subset hmem)
      rw [hfollows.exchange.table, hn] at hn₀
      cases hn₀
    | act htodo hn₀ hperf =>
      rw [hfollows.exchange.table] at hn₀
      subst hw
      refine ⟨fun k hk s n v hn hshared hcount hv => ?_,
        fun j m₁ s n hm₁ hn hshared hcount hge hle => ?_⟩
      · exact h.link_of_act hl hc hh hr htodo hn₀ hperf hk hn hshared hcount hv
      · rcases hr.cases hm₁ with ⟨rfl, rfl⟩ | ⟨-, hm₁⟩
        · exact h.read_of_act hl hc hh hr htodo hn₀ hperf hn hshared hcount hge hle
        · exact h.read j m₁ s n hm₁ hn hshared hcount hge hle

end Step

end Crew

end StencilPlan
