import StencilPlan.Proofs.Halo.Link

/-!
# Messages under way

For each place where messages arrive, the queue of its channel holds the vectors that the neighbor
has sent and the rank has not taken, in order: the neighbor may be rounds ahead, and neither end
knows more about the other than that. A rank that takes a message in its `r`-th exchange has taken
`r` before, so it is the `r`-th vector that it finds. None of this needs buffers that fit: where the
neighbor sends more than was asked for, the rest of the message is lost.
-/

namespace StencilPlan

/-- A message is sent from the place. -/
def HaloTable.Sends (t : HaloTable) (s : Slot) : Prop :=
  ∃ n, t.at? s = some n ∧ n.shared = false ∧ n.send.count ≠ 0

/-- The message for a place was posted and taken. -/
def Exchange.Taken (x : Exchange Universe) (s : Slot) : Prop :=
  .act s .post ∉ x.todo ∧ s ∉ x.pending.map (·.1)

instance (x : Exchange Universe) (s : Slot) : Decidable (x.Taken s) :=
  inferInstanceAs (Decidable (_ ∧ _))

/-- Taking a message settles its place and no other. -/
theorem taken_of_take {x x' : Exchange Universe} {s : Slot} {a : Action} {rest : List Move}
    (ha : a = .poll ∨ a = .await) (htodo : x.todo = .act s a :: rest)
    (hpost : .act s .post ∉ x.todo) (htodo' : x'.todo = .act s .deliver :: rest)
    (hpending : x'.pending = x.pending.filter (·.1 ≠ s)) (s' : Slot) :
    x'.Taken s' ↔ s' = s ∨ x.Taken s' := by
  -- A place is settled when nothing is to be posted for it and nothing is waited for; taking the
  -- message changes the second.
  have hposts : .act s' .post ∈ x'.todo ↔ .act s' .post ∈ x.todo := by
    rw [htodo, htodo', List.mem_cons, List.mem_cons, or_iff_right nofun, or_iff_right]
    rcases ha with rfl | rfl <;> exact nofun
  have hkeys : s' ∈ x'.pending.map (·.1) ↔ s' ∈ x.pending.map (·.1) ∧ s' ≠ s := by
    simp only [hpending, List.mem_map, List.mem_filter, decide_eq_true_eq]
    constructor
    · rintro ⟨e, ⟨he, hne⟩, rfl⟩
      exact ⟨⟨e, he, rfl⟩, hne⟩
    · rintro ⟨⟨e, he, rfl⟩, hne⟩
      exact ⟨e, ⟨he, hne⟩, rfl⟩
  rw [Exchange.Taken, Exchange.Taken, hposts, hkeys]
  by_cases hss : s' = s
  · subst hss
    simp [hpost]
  · simp [hss]

namespace CrewMember

/-- How many messages the rank has sent from a place. -/
def sent (m : CrewMember Universe) (s : Slot) : Nat := m.turns (block s [.pack, .send]) / 2

/-- How many messages the rank has taken for a place. -/
def taken (m : CrewMember Universe) (s : Slot) : Nat :=
  m.past.length + if m.exchange.Taken s then 1 else 0

/-- What a step of a rank means for the messages. -/
inductive Mails (p : Party) (m : CrewMember Universe) (u : Universe) (m' : CrewMember Universe)
    (u' : Universe) : Prop
  | quiet (hnet : u'.inFlight = u.inFlight)
      (hsent : ∀ s, p.table.Sends s → m'.sent s = m.sent s)
      (htaken : ∀ s ∈ p.table.incoming, m'.taken s = m.taken s)
      (hhand : ∀ s, .act s .deliver ∈ m'.exchange.todo → .act s .deliver ∈ m.exchange.todo ∧
        m'.exchange.arrived = m.exchange.arrived ∧ m'.past = m.past)
  | send {s : Slot} {n : NeighborBuffers} (hn : p.table.at? s = some n) (hs : p.table.Sends s)
      (hnet : u'.inFlight = u.inFlight ++ [(p.outbox s n, payload (p.vector (m.sent s) s))])
      (hsent : ∀ s', p.table.Sends s' → m'.sent s' = if s' = s then m.sent s' + 1 else m.sent s')
      (htaken : ∀ s' ∈ p.table.incoming, m'.taken s' = m.taken s')
      (hhand : ∀ s', .act s' .deliver ∉ m'.exchange.todo)
  | take {s : Slot} {n : NeighborBuffers} {data : Payload} {rest : List (Channel × Payload)}
      (hn : p.table.at? s = some n) (hs : s ∈ p.table.incoming)
      (hqueue : Universe.takeFirst? (p.inbox s n) u.inFlight = some (data, rest))
      (hnet : u'.inFlight = rest)
      (hsent : ∀ s', p.table.Sends s' → m'.sent s' = m.sent s')
      (htaken : ∀ s' ∈ p.table.incoming,
        m'.taken s' = if s' = s then m.taken s' + 1 else m.taken s')
      (hround : m.taken s = m'.past.length)
      (hhand : ∀ s', .act s' .deliver ∈ m'.exchange.todo → s' = s)
      (harrived : m'.exchange.arrived = data.take (n.recv.count * wordSize))

end CrewMember

/-- What an action means for the messages. -/
theorem Performs.mails {x x' : Exchange Universe} {w w' : World Universe} {s : Slot}
    {n : NeighborBuffers} {a : Action} (h : Performs x w s n a x' w') :
    (a ≠ .send ∧ a ≠ .post ∧ w'.net = w.net ∧ x'.pending = x.pending ∧ x'.todo = x.todo) ∨
    (a = .post ∧ w'.net = w.net ∧ x'.pending.map (·.1) = x.pending.map (·.1) ++ [s] ∧
      x'.todo = x.todo) ∨
    (a = .send ∧ x'.pending = x.pending ∧ x'.todo = x.todo ∧
      ∃ tag, messageTag x.table.neighborhood s.var
          ((x.topology.oppositeIndex? s.neighbor).getD s.neighbor) n.rank = .ok tag ∧
        w'.net = w.net.push ⟨x.topology.rank, n.rank, tag⟩ (payload x.values)) ∨
    (a = .poll ∨ a = .await) ∧ ∃ r data rest, x.posted? s = some r ∧
      Universe.takeFirst? (Receive.channel r) w.net.inFlight = some (data, rest) ∧
      x'.arrived = data.take (Receive.length r) ∧ x'.pending = x.pending.filter (·.1 ≠ s) ∧
      x'.todo = .act s .deliver :: x.todo ∧ w'.net = { w.net with inFlight := rest } := by
  cases h with
  | post htag hbytes => exact .inr (.inl ⟨rfl, rfl, by rw [List.map_append]; rfl, rfl⟩)
  | send htag => exact .inr (.inr (.inl ⟨rfl, rfl, rfl, _, htag, rfl⟩))
  | take ha hposted hqueue =>
    exact .inr (.inr (.inr ⟨ha, _, _, _, hposted, hqueue, rfl, rfl, rfl, rfl⟩))
  | taken ha =>
    refine .inl ⟨?_, ?_, rfl, rfl, rfl⟩
    · rcases ha with rfl | rfl <;> decide
    · rcases ha with rfl | rfl <;> decide
  | _ => exact .inl ⟨by decide, by decide, rfl, rfl, rfl⟩

namespace CrewMember.Follows

variable {p : Party} {m m' : CrewMember Universe} {x : Exchange Universe} {k : Move}
  {rest : List Move} {s : Slot}

theorem sends_within (hs : p.table.Sends s) :
    block s [.pack, .send] <:+: p.table.script p.interior := by
  obtain ⟨n, hn, hshared, hcount⟩ := hs
  have hb : block s (sendActions n.shared) <:+: p.table.script p.interior :=
    HaloTable.sendBlock_within hn hcount
  rwa [sendActions, hshared, if_neg (by decide)] at hb

theorem sent_advance (hm : m.Follows p) (htodo : m.exchange.todo = k :: rest)
    (htodo' : x.todo = rest ∨ ∃ s, x.todo = .act s .deliver :: rest) (hs : p.table.Sends s) :
    (k = .act s .send ∧ m.sent s = m.past.length ∧
        sent { m with exchange := x } s = m.sent s + 1) ∨
      k ≠ .act s .send ∧ sent { m with exchange := x } s = m.sent s := by
  simp only [sent]
  -- The moves of a place come in blocks of packing and sending, and only the second one counts.
  rcases hm.turns_advance htodo htodo' (sends_within hs) with
    ⟨i, hi, hturns, hturns'⟩ | ⟨hk, hturns⟩
  · have hlength : (block s [Action.pack, .send]).length = 2 := rfl
    rw [hlength] at hturns
    rw [getElem?_block] at hi
    match i with
    | 0 =>
      obtain rfl := Option.some.inj hi
      exact .inr ⟨nofun, by omega⟩
    | 1 =>
      obtain rfl := Option.some.inj hi
      exact .inl ⟨rfl, by omega, by omega⟩
    | i + 2 => cases hi
  · refine .inr ⟨fun heq => hk (heq ▸ act_mem_block.mpr ⟨rfl, by simp⟩), by rw [hturns]⟩

/-- A place whose message is posted or taken in a move is as it was if the move is another one. -/
theorem taken_congr (hnext : ∀ s ∈ p.table.incoming, (x.Taken s ↔ m.exchange.Taken s)) :
    ∀ s ∈ p.table.incoming, taken { m with exchange := x } s = m.taken s := fun s hs => by
  simp only [taken, hnext s hs]

/-- A move that neither posts nor takes nor sends. -/
theorem mails_quiet {u u' : Universe} (hm : m.Follows p) (htodo : m.exchange.todo = k :: rest)
    (htodo' : x.todo = rest) (hpending : x.pending = m.exchange.pending)
    (hnet : u'.inFlight = u.inFlight) (hsend : ∀ s, p.table.Sends s → k ≠ .act s .send)
    (hpost : ∀ s ∈ p.table.incoming, k ≠ .act s .post) :
    Mails p m u { m with exchange := x } u' := by
  refine .quiet hnet (fun s hs => ?_) (taken_congr fun s hs => ?_) fun s hs => ?_
  · rcases hm.sent_advance htodo (.inl htodo') hs with ⟨heq, -⟩ | ⟨-, h⟩
    · exact absurd heq (hsend s hs)
    · exact h
  · simp only [Exchange.Taken, htodo, htodo', hpending, List.mem_cons, not_or]
    exact and_congr_left fun _ => ⟨fun h => ⟨Ne.symm (hpost s hs), h⟩, And.right⟩
  · exact absurd (htodo' ▸ hs) (hm.exchange.deliver_notMem_rest htodo)

section Post

variable {u u' : Universe} {n : NeighborBuffers}

/-- Posting a receive takes no message. -/
theorem mails_post (hm : m.Follows p) (htodo : m.exchange.todo = .act s .post :: rest)
    (htodo' : x.todo = rest)
    (hpending : x.pending.map (·.1) = m.exchange.pending.map (·.1) ++ [s])
    (hnet : u'.inFlight = u.inFlight) : Mails p m u { m with exchange := x } u' := by
  refine .quiet hnet (fun s' hs => ?_) (taken_congr fun s' hs => ?_) fun s' hs => ?_
  · rcases hm.sent_advance htodo (.inl htodo') hs with ⟨heq, -⟩ | ⟨-, h⟩
    · cases heq
    · exact h
  · simp only [Exchange.Taken, htodo, htodo', hpending, List.mem_cons, List.mem_append,
      Move.act.injEq, List.not_mem_nil]
    tauto
  · rw [htodo'] at hs
    exact absurd hs (hm.exchange.deliver_notMem_rest htodo)

/-- A message that is sent is the one of the round, in the channel to the neighbor. -/
theorem mails_send {tag : Nat} (hm : m.Follows p) (hn : p.table.at? s = some n)
    (htodo : m.exchange.todo = .act s .send :: rest) (htodo' : x.todo = rest)
    (hpending : x.pending = m.exchange.pending)
    (htag : messageTag m.exchange.table.neighborhood s.var
      ((m.exchange.topology.oppositeIndex? s.neighbor).getD s.neighbor) n.rank = .ok tag)
    (hnet : u' = u.push ⟨m.exchange.topology.rank, n.rank, tag⟩ (payload m.exchange.values)) :
    Mails p m u { m with exchange := x } u' := by
  have hx := hm.exchange
  have hs : p.table.Sends s := by
    obtain ⟨n', hn', hshared, hcount⟩ := HaloTable.allows_of_mem_script (hx.mem_script htodo nofun)
    exact ⟨n', hn', hshared, hcount⟩
  have hsent := fun s' => hm.sent_advance (s := s') htodo (.inl htodo')
  obtain ⟨-, hround, -⟩ := (hsent s hs).resolve_right fun h => h.1 rfl
  -- In turn: what the network gains, what was sent, what was taken, and that nothing is in hand.
  refine .send hn hs ?_ (fun s' hs' => ?_) (taken_congr fun s' hs' => ?_) fun s' => ?_
  · rw [hnet, Universe.push, (messageTag_eq_ok.mp htag).1, hround, hx.values_eq htodo hn (.inl rfl),
      hx.table, hx.topology]
    rfl
  · rcases hsent s' hs' with ⟨heq, -, h⟩ | ⟨hne, h⟩
    · rw [if_pos (Move.act.inj heq).1.symm, h]
    · rw [if_neg fun (heq : s' = s) => hne (by rw [heq]), h]
  · simp only [Exchange.Taken, htodo, htodo', hpending, List.mem_cons, Move.act.injEq,
      reduceCtorEq, and_false, false_or]
  · rw [htodo']
    exact hm.exchange.deliver_notMem_rest htodo

/-- A message that is taken is the first one in the channel from the neighbor. -/
theorem mails_take {a : Action} {r : Receive} {data : Payload} {after : List (Channel × Payload)}
    (hm : m.Follows p) (hn : p.table.at? s = some n)
    (htodo : m.exchange.todo = .act s a :: rest) (ha : a = .poll ∨ a = .await)
    (hposted : m.exchange.posted? s = some r)
    (hqueue : Universe.takeFirst? r.channel u.inFlight = some (data, after))
    (harrived : x.arrived = data.take r.length)
    (hpending : x.pending = m.exchange.pending.filter (·.1 ≠ s))
    (htodo' : x.todo = .act s .deliver :: rest) (hnet : u'.inFlight = after) :
    Mails p m u { m with exchange := x } u' := by
  have hx := hm.exchange
  have hmem : (s, r) ∈ m.exchange.pending := by
    obtain ⟨before, behind, heq, -⟩ := List.lookup_eq_some_iff.mp hposted
    rw [heq]
    simp
  obtain ⟨hpost, -, n', hn', hr⟩ := hx.posted _ hmem
  dsimp only at hpost hn' hr
  subst hr
  obtain rfl := Option.some.inj (hn'.symm.trans hn)
  have hs : s ∈ p.table.incoming := by
    have hscript := hx.mem_script htodo (by rcases ha with rfl | rfl <;> exact nofun)
    obtain ⟨n'', hn'', hallows⟩ := HaloTable.allows_of_mem_script hscript
    refine HaloTable.mem_incoming.mpr ⟨n'', hn'', ?_⟩
    rcases ha with rfl | rfl <;> exact hallows
  -- What is still posted has not been taken in this round.
  have hround : m.taken s = m.past.length := by
    have hno : ¬ m.exchange.Taken s := fun h => h.2 (List.mem_map.mpr ⟨_, hmem, rfl⟩)
    rw [taken, if_neg hno, Nat.add_zero]
  refine .take hn hs hqueue hnet (fun s' hs' => ?_) (fun s' hs' => ?_) hround
    (fun s' hs' => ?_) harrived
  · rcases hm.sent_advance htodo (.inr ⟨s, htodo'⟩) hs' with ⟨heq, -⟩ | ⟨-, h⟩
    · rcases ha with rfl | rfl <;> cases heq
    · exact h
  · have hiff := taken_of_take ha htodo hpost htodo' hpending s'
    by_cases hss : s' = s
    · subst hss
      rw [if_pos rfl, hround, taken, if_pos (hiff.mpr (.inl rfl))]
    · rw [or_iff_right hss] at hiff
      simp only [taken, if_neg hss, hiff]
  · rw [htodo'] at hs'
    rcases List.mem_cons.mp hs' with heq | hs'
    · exact (Move.act.inj heq).1
    · exact absurd hs' (hm.exchange.deliver_notMem_rest htodo)

end Post

theorem mails_of_advances (hm : m.Follows p) {w w' : World Universe}
    (h : Advances m.exchange w x w') : Mails p m w.net { m with exchange := x } w'.net := by
  have hx := hm.exchange
  cases h with
  | interior htodo => exact hm.mails_quiet htodo rfl rfl rfl (fun _ _ => nofun) fun _ _ => nofun
  | skip htodo hn =>
    -- There is nothing to send or to wait for at a place without buffers.
    rw [hx.table] at hn
    refine hm.mails_quiet htodo rfl rfl rfl ?_ ?_
    · rintro s ⟨n, hn', -⟩ heq
      rw [(Move.act.inj heq).1, hn'] at hn
      cases hn
    · intro s hs heq
      obtain ⟨n, hn', -⟩ := HaloTable.mem_incoming.mp hs
      rw [(Move.act.inj heq).1, hn'] at hn
      cases hn
  | @act s n a rest _ _ htodo hn h =>
    rw [hx.table] at hn
    rcases h.mails with ⟨hsend, hpost, hnet, hpending, htodo'⟩ | ⟨rfl, hnet, hpending, htodo'⟩ |
      ⟨rfl, hpending, htodo', tag, htag, hnet⟩ |
      ⟨ha, r, data, after, hposted, hqueue, harrived, hpending, htodo', hnet⟩
    · exact hm.mails_quiet htodo htodo' hpending (by rw [hnet])
        (fun s _ heq => hsend (Move.act.inj heq).2) fun s _ heq => hpost (Move.act.inj heq).2
    · exact hm.mails_post htodo htodo' hpending (by rw [hnet])
    · exact hm.mails_send hn htodo htodo' hpending htag hnet
    · exact hm.mails_take hn htodo ha hposted hqueue harrived hpending htodo' (by rw [hnet])

theorem mails_of_steps (hm : m.Follows p) {w w' : World Universe} (h : m.Steps w m' w') :
    Mails p m w.net m' w'.net := by
  cases h with
  | @again q qs _ htodo hcoming =>
    -- With a new round everything is to be posted again, so nothing of that round was taken yet.
    have hmoves : (m.exchange.again q).todo = p.table.script p.interior := hm.exchange.moves
    refine .quiet rfl (fun s hs => ?_) (fun s hs => ?_) fun s hs => ?_
    · simp only [sent]
      rw [hm.turns_again htodo (sends_within hs)]
    · have hyes : m.exchange.Taken s := by
        refine ⟨by simp [htodo], ?_⟩
        simp [hm.pending_eq_nil htodo]
      have hno : ¬ (m.exchange.again q).Taken s := fun h => h.1 (by
        rw [hmoves, HaloTable.mem_script]
        exact .inl ⟨s, hs, .inl rfl⟩)
      simp only [taken, if_pos hyes, if_neg hno, List.length_append, List.length_singleton,
        Nat.add_zero]
    · rw [hmoves] at hs
      exact absurd hs HaloTable.deliver_notMem_script
  | advance _ h => exact hm.mails_of_advances h
  | fail => exact .quiet rfl (fun _ _ => rfl) (fun _ _ => rfl) fun _ hs => ⟨hs, rfl, rfl⟩

/-- A rank that has done all its rounds has sent and taken a message in each. -/
theorem sent_of_finished (hm : m.Follows p) (h : m.finished) (s : Slot) :
    m.sent s = p.rounds + 1 := by
  obtain ⟨-, htodo, hpast⟩ := hm.of_finished h
  simp only [sent, turns, htodo, hpast, doneOf_nil, length_block, List.length_cons, List.length_nil]
  omega

theorem taken_of_finished (hm : m.Follows p) (h : m.finished) (s : Slot) :
    m.taken s = p.rounds + 1 := by
  obtain ⟨-, htodo, hpast⟩ := hm.of_finished h
  have hyes : m.exchange.Taken s := by
    refine ⟨by simp [htodo], ?_⟩
    simp [hm.pending_eq_nil htodo]
  rw [taken, if_pos hyes, hpast]

end CrewMember.Follows

namespace Party

variable {p : Party} {s : Slot}

theorem sent_enlist (hs : p.table.Sends s) : p.enlist.sent s = 0 := by
  rw [CrewMember.sent, turns_enlist (CrewMember.Follows.sends_within hs)]

theorem taken_enlist (hs : s ∈ p.table.incoming) : p.enlist.taken s = 0 := by
  have hno : ¬ p.enlist.exchange.Taken s := fun h =>
    h.1 (HaloTable.mem_script.mpr (.inl ⟨s, hs, .inl rfl⟩))
  rw [CrewMember.taken, if_neg hno]
  rfl

end Party

/-- Where a message is waited for, it is sent from the counterpart. -/
theorem Linked.sends_mirror {size : Nat} {parties : Nat → Party} (hl : Linked size parties)
    {j : Nat} (hj : j < size) {s : Slot} {n : NeighborBuffers}
    (hn : (parties j).table.at? s = some n) (hs : s ∈ (parties j).table.incoming) :
    (parties n.rank).table.Sends ((parties j).mirror s) := by
  obtain ⟨n', hn', hshared, hcount⟩ := HaloTable.mem_incoming.mp hs
  obtain rfl := Option.some.inj (hn'.symm.trans hn)
  obtain ⟨m, hm⟩ := hl.partner j hj s n' hn
  exact ⟨m, hm.entry, hm.shared.trans hshared, (hm.symm hl hj hn).count ▸ hcount⟩

/-- Where a message is sent, it is waited for at the counterpart. -/
theorem Linked.incoming_mirror {size : Nat} {parties : Nat → Party} (hl : Linked size parties)
    {k : Nat} (hk : k < size) {s : Slot} {n : NeighborBuffers}
    (hn : (parties k).table.at? s = some n) (hs : (parties k).table.Sends s) :
    ∃ m, Partners parties k s n m ∧ (parties k).mirror s ∈ (parties n.rank).table.incoming := by
  obtain ⟨n', hn', hshared, hcount⟩ := hs
  obtain rfl := Option.some.inj (hn'.symm.trans hn)
  obtain ⟨m, hm⟩ := hl.partner k hk s n' hn
  exact ⟨m, hm, HaloTable.mem_incoming.mpr ⟨m, hm.entry, hm.shared.trans hshared,
    hm.count ▸ hcount⟩⟩

/-! ### The queues of a crew -/

section Queue

variable {α : Type} {f : Nat → α} {k n : Nat}

theorem drop_range_succ (h : k ≤ n) :
    ((List.range (n + 1)).map f).drop k = ((List.range n).map f).drop k ++ [f n] := by
  rw [List.range_succ, List.map_append, List.drop_append_of_le_length (by simpa using h)]
  rfl

theorem drop_range_eq_cons {a : α} {l : List α} (h : ((List.range n).map f).drop k = a :: l) :
    k < n ∧ a = f k ∧ l = ((List.range n).map f).drop (k + 1) := by
  have hlt : k < ((List.range n).map f).length := by
    by_contra hge
    rw [List.drop_eq_nil_of_le (by omega)] at h
    cases h
  rw [List.drop_eq_getElem_cons hlt] at h
  obtain ⟨hhead, htail⟩ := List.cons.inj h
  refine ⟨by simpa using hlt, ?_, htail.symm⟩
  rw [← hhead, List.getElem_map, List.getElem_range]

end Queue

namespace Crew

/-- The messages under way to a place are those that were sent there and not taken, in the order in
which they were sent. -/
def InOrder (parties : Nat → Party) (c : Crew Universe) (j : Nat) (s : Slot)
    (n : NeighborBuffers) : Prop :=
  c.tally (·.taken s) j ≤ c.tally (·.sent ((parties j).mirror s)) n.rank ∧
  c.world.net.queue ((parties j).inbox s n) =
    ((List.range (c.tally (·.sent ((parties j).mirror s)) n.rank)).map fun r =>
      payload ((parties n.rank).vector r ((parties j).mirror s))).drop (c.tally (·.taken s) j)

/-- The message in hand is the one that the neighbor sent in the same round, cut to the length of
the receive. -/
def InHand (parties : Nat → Party) (j : Nat) (s : Slot) (n : NeighborBuffers)
    (m : CrewMember Universe) : Prop :=
  (parties n.rank).table.Sends ((parties j).mirror s) ∧
  m.exchange.arrived =
    (payload ((parties n.rank).vector m.past.length ((parties j).mirror s))).take
      (n.recv.count * wordSize)

/-- The messages under way are those that were sent and not taken. -/
structure Mail (size : Nat) (parties : Nat → Party) (c : Crew Universe) : Prop where
  order : ∀ j < size, ∀ s n, (parties j).table.at? s = some n → s ∈ (parties j).table.incoming →
    (parties n.rank).table.Sends ((parties j).mirror s) → InOrder parties c j s n
  /-- From a neighbor that has nothing to send nothing comes. -/
  silent : ∀ j < size, ∀ s n, (parties j).table.at? s = some n → s ∈ (parties j).table.incoming →
    ¬ (parties n.rank).table.Sends ((parties j).mirror s) →
      c.world.net.queue ((parties j).inbox s n) = []
  hand : ∀ j (m : CrewMember Universe) s n, c.members[j]? = some m →
    (parties j).table.at? s = some n → .act s .deliver ∈ m.exchange.todo → InHand parties j s n m

/-- Every message is for a place where it is waited for. -/
def Addressed (size : Nat) (parties : Nat → Party) (c : Crew Universe) : Prop :=
  ∀ e ∈ c.world.net.inFlight, ∃ j < size, ∃ s n, (parties j).table.at? s = some n ∧
    s ∈ (parties j).table.incoming ∧ e.1 = (parties j).inbox s n

variable {size : Nat} {parties : Nat → Party} {c d : Crew Universe} {i j : Nat} {s : Slot}
  {n : NeighborBuffers}

/-- A place where nothing was sent or taken, and into whose channel nothing came, is left alone. -/
theorem InOrder.congr (h : InOrder parties c j s n)
    (htaken : d.tally (·.taken s) j = c.tally (·.taken s) j)
    (hsent : d.tally (·.sent ((parties j).mirror s)) n.rank =
      c.tally (·.sent ((parties j).mirror s)) n.rank)
    (hqueue : d.world.net.queue ((parties j).inbox s n) =
      c.world.net.queue ((parties j).inbox s n)) : InOrder parties d j s n := by
  rw [InOrder, htaken, hsent, hqueue]
  exact h

section Step

variable {m m' : CrewMember Universe} {s₀ : Slot} {n₀ : NeighborBuffers}

/-- The message in hand of another rank stays what it was. -/
theorem Mail.hand_of_ne (h : Mail size parties c) (hr : Replaces c d i m m')
    (hhand : ∀ s n, (parties i).table.at? s = some n → .act s .deliver ∈ m'.exchange.todo →
      InHand parties i s n m') :
    ∀ j (m : CrewMember Universe) s n, d.members[j]? = some m →
      (parties j).table.at? s = some n → .act s .deliver ∈ m.exchange.todo →
        InHand parties j s n m := by
  intro j m₁ s n hm₁ hn hs
  rcases hr.cases hm₁ with ⟨rfl, rfl⟩ | ⟨-, hm₁⟩
  · exact hhand s n hn hs
  · exact h.hand j m₁ s n hm₁ hn hs

theorem Mail.quiet (h : Mail size parties c) (hr : Replaces c d i m m')
    (hnet : d.world.net.inFlight = c.world.net.inFlight)
    (hsent : ∀ s, (parties i).table.Sends s → m'.sent s = m.sent s)
    (htaken : ∀ s ∈ (parties i).table.incoming, m'.taken s = m.taken s)
    (hhand : ∀ s, .act s .deliver ∈ m'.exchange.todo → .act s .deliver ∈ m.exchange.todo ∧
      m'.exchange.arrived = m.exchange.arrived ∧ m'.past = m.past) : Mail size parties d := by
  have hqueue : ∀ ch, d.world.net.queue ch = c.world.net.queue ch := fun ch => by
    simp only [Universe.queue, hnet]
  refine ⟨fun j hj s n hn hs hsends => ?_, fun j hj s n hn hs hno => ?_,
    h.hand_of_ne hr fun s n hn hs => ?_⟩
  · exact (h.order j hj s n hn hs hsends).congr
      (hr.tally_of_eq (·.taken s) fun hji => htaken s (hji ▸ hs))
      (hr.tally_of_eq (·.sent _) fun hki => hsent _ (hki ▸ hsends)) (hqueue _)
  · rw [hqueue, h.silent j hj s n hn hs hno]
  · obtain ⟨hs, harrived, hpast⟩ := hhand s hs
    rw [InHand, harrived, hpast]
    exact h.hand i m s n hr.old hn hs

/-- A message that is sent is the last one of its channel; no other place is touched. -/
theorem Mail.send (hl : Meshed size parties) (hi : i < size) (h : Mail size parties c)
    (hr : Replaces c d i m m') (hn₀ : (parties i).table.at? s₀ = some n₀)
    (hs₀ : (parties i).table.Sends s₀)
    (hnet : d.world.net.inFlight = c.world.net.inFlight ++
      [((parties i).outbox s₀ n₀, payload ((parties i).vector (m.sent s₀) s₀))])
    (hsent : ∀ s, (parties i).table.Sends s →
      m'.sent s = if s = s₀ then m.sent s + 1 else m.sent s)
    (htaken : ∀ s ∈ (parties i).table.incoming, m'.taken s = m.taken s)
    (hhand : ∀ s, .act s .deliver ∉ m'.exchange.todo) : Mail size parties d := by
  have hqueue : ∀ ch, d.world.net.queue ch = if (parties i).outbox s₀ n₀ = ch then
      c.world.net.queue ch ++ [payload ((parties i).vector (m.sent s₀) s₀)]
      else c.world.net.queue ch := by
    intro ch
    rw [← Universe.queue_push]
    simp only [Universe.queue, Universe.push, hnet]
  refine ⟨fun j hj s n hn hs hsends => ?_, fun j hj s n hn hs hno => ?_,
    h.hand_of_ne hr fun s _ _ hs => absurd hs (hhand s)⟩
  · have hold := h.order j hj s n hn hs hsends
    have htaken' : d.tally (·.taken s) j = c.tally (·.taken s) j :=
      hr.tally_of_eq (·.taken s) fun hji => htaken s (hji ▸ hs)
    by_cases hch : (parties i).outbox s₀ n₀ = (parties j).inbox s n
    · -- the message goes to this place
      obtain ⟨hrank, hmirror⟩ := (hl.outbox_eq_inbox hi hj hn₀ hn).mp hch
      rw [InOrder, hmirror, hrank] at hold ⊢
      rw [tally_of_member hr.old (f := (·.sent s₀))] at hold
      rw [htaken', hqueue, if_pos hch, hr.tally_self, hsent s₀ hs₀, if_pos rfl,
        drop_range_succ hold.1, hold.2]
      exact ⟨Nat.le_succ_of_le hold.1, rfl⟩
    · -- It goes elsewhere, so this channel and its sender's count stay as they are.
      refine hold.congr htaken' (hr.tally_of_eq (·.sent _) fun hki => ?_)
        (by rw [hqueue, if_neg hch])
      subst hki
      rw [hsent _ hsends, if_neg]
      exact fun hmirror => hch ((hl.outbox_eq_inbox hi hj hn₀ hn).mpr ⟨rfl, hmirror⟩)
  · -- A place whose counterpart never sends gets nothing: that was a place that sends.
    rw [hqueue, if_neg, h.silent j hj s n hn hs hno]
    intro hch
    obtain ⟨rfl, rfl⟩ := (hl.outbox_eq_inbox hi hj hn₀ hn).mp hch
    exact hno hs₀

/-- A message that is taken is the first one of its channel; no other place is touched. -/
theorem Mail.take (hl : Meshed size parties) (hi : i < size) (h : Mail size parties c)
    (hr : Replaces c d i m m') {data : Payload} {rest : List (Channel × Payload)}
    (hn₀ : (parties i).table.at? s₀ = some n₀) (hs₀ : s₀ ∈ (parties i).table.incoming)
    (hqueue : Universe.takeFirst? ((parties i).inbox s₀ n₀) c.world.net.inFlight =
      some (data, rest))
    (hnet : d.world.net.inFlight = rest)
    (hsent : ∀ s, (parties i).table.Sends s → m'.sent s = m.sent s)
    (htaken : ∀ s ∈ (parties i).table.incoming,
      m'.taken s = if s = s₀ then m.taken s + 1 else m.taken s)
    (hround : m.taken s₀ = m'.past.length)
    (hhand : ∀ s, .act s .deliver ∈ m'.exchange.todo → s = s₀)
    (harrived : m'.exchange.arrived = data.take (n₀.recv.count * wordSize)) :
    Mail size parties d := by
  have htakes : ∀ ch, c.world.net.queue ch = if (parties i).inbox s₀ n₀ = ch then
      data :: d.world.net.queue ch else d.world.net.queue ch := by
    intro ch
    rw [Universe.queue_of_takeFirst? hqueue]
    simp only [Universe.queue, hnet]
  -- There is a message, so the neighbor does send, and it is the vector of the round.
  have hsends₀ : (parties n₀.rank).table.Sends ((parties i).mirror s₀) := by
    by_contra hno
    have hempty := h.silent i hi s₀ n₀ hn₀ hs₀ hno
    rw [htakes, if_pos rfl] at hempty
    cases hempty
  have hold := (h.order i hi s₀ n₀ hn₀ hs₀ hsends₀).2
  rw [htakes, if_pos rfl, tally_of_member hr.old (f := (·.taken s₀))] at hold
  obtain ⟨hlt, hdata, hrest⟩ := drop_range_eq_cons hold.symm
  have hother : ∀ {j s n}, j < size → (parties j).table.at? s = some n → ¬ (j = i ∧ s = s₀) →
      ¬ (parties i).inbox s₀ n₀ = (parties j).inbox s n := fun hj hn hjs heq =>
    hjs ((hl.inbox_inj hi hj hn₀ hn heq).imp Eq.symm Eq.symm)
  refine ⟨fun j hj s n hn hs hsends => ?_, fun j hj s n hn hs hno => ?_,
    h.hand_of_ne hr fun s n hn hs => ?_⟩
  · have hsent' : d.tally (·.sent ((parties j).mirror s)) n.rank =
        c.tally (·.sent ((parties j).mirror s)) n.rank :=
      hr.tally_of_eq (·.sent _) fun hki => hsent _ (hki ▸ hsends)
    by_cases hjs : j = i ∧ s = s₀
    · obtain ⟨rfl, rfl⟩ := hjs
      obtain rfl := Option.some.inj (hn₀.symm.trans hn)
      rw [InOrder, hsent', hr.tally_self, htaken s hs₀, if_pos rfl]
      exact ⟨hlt, hrest⟩
    · refine (h.order j hj s n hn hs hsends).congr
        (hr.tally_of_eq (·.taken s) fun hji => ?_) hsent'
        (by rw [htakes, if_neg (hother hj hn hjs)])
      rw [htaken s (hji ▸ hs), if_neg fun hss => hjs ⟨hji, hss⟩]
  · have hjs : ¬ (j = i ∧ s = s₀) := by
      rintro ⟨rfl, rfl⟩
      obtain rfl := Option.some.inj (hn₀.symm.trans hn)
      exact hno hsends₀
    have hold := h.silent j hj s n hn hs hno
    rwa [htakes, if_neg (hother hj hn hjs)] at hold
  · obtain rfl := hhand s hs
    obtain rfl := Option.some.inj (hn₀.symm.trans hn)
    exact ⟨hsends₀, by rw [harrived, hdata, hround]⟩

/-- A step of any rank keeps the messages in order. -/
theorem Mail.step (hl : Meshed size parties) (hc : Manned size parties c)
    (h : Mail size parties c) (hstep : c.step i = some d) : Mail size parties d := by
  obtain ⟨m, m', hr, hsteps⟩ := hc.steps hstep
  have hi := hc.lt hr.old
  cases (hc.follows i m hr.old).mails_of_steps hsteps with
  | quiet hnet hsent htaken hhand => exact h.quiet hr hnet hsent htaken hhand
  | send hn hs hnet hsent htaken hhand =>
    exact h.send hl hi hr hn hs hnet hsent htaken hhand
  | take hn hs hqueue hnet hsent htaken hround hhand harrived =>
    exact h.take hl hi hr hn hs hqueue hnet hsent htaken hround hhand harrived

/-- Where buffers are made for each other, no message goes astray. -/
theorem Addressed.step (hl : Linked size parties) (hc : Manned size parties c)
    (h : Addressed size parties c) (hstep : c.step i = some d) : Addressed size parties d := by
  obtain ⟨m, m', hr, hsteps⟩ := hc.steps hstep
  have hi := hc.lt hr.old
  intro e he
  cases (hc.follows i m hr.old).mails_of_steps hsteps with
  | quiet hnet => exact h e (hnet ▸ he)
  | @send s₀ n₀ hn₀ hs₀ hnet =>
    rw [hnet] at he
    rcases List.mem_append.mp he with he | he
    · exact h e he
    -- the new message goes to the buffer that was made for it on the other rank
    · obtain ⟨m₀, hpartner, hincoming⟩ := hl.incoming_mirror hi hn₀ hs₀
      have hj₀ := hl.inRange i hi s₀ n₀ hn₀
      rw [List.mem_singleton.mp he]
      exact ⟨n₀.rank, hj₀, _, m₀, hpartner.entry, hincoming,
        (hl.meshed.outbox_eq_inbox hi hj₀ hn₀ hpartner.entry).mpr
          ⟨hpartner.rank, hpartner.mirror⟩⟩
  | @take s₀ n₀ data rest hn₀ hs₀ hqueue hnet =>
    obtain ⟨before, behind, hu, rfl, -⟩ := Universe.takeFirst?_eq_some_iff.mp hqueue
    refine h e ?_
    rw [hu]
    rw [hnet] at he
    rcases List.mem_append.mp he with he | he
    · exact List.mem_append_left _ he
    · exact List.mem_append_right _ (List.mem_cons_of_mem _ he)

end Step

/-- Nothing is under way before the first exchange. -/
theorem mail_enlist (hl : Meshed size parties) {w : World Universe} (hnet : w.net.inFlight = []) :
    Mail size parties (enlist size parties w) := by
  have hmember : ∀ k < size, (enlist size parties w).members[k]? = some (parties k).enlist :=
    fun k hk => member_enlist.mpr ⟨hk, rfl⟩
  refine ⟨fun j hj s n hn hs hsends => ?_, fun j hj s n hn hs hno => ?_,
    fun j m s n hm hn hs => ?_⟩
  · have htaken : (enlist size parties w).tally (·.taken s) j = 0 := by
      rw [tally_of_member (hmember j hj), Party.taken_enlist hs]
    have hsent : (enlist size parties w).tally (·.sent ((parties j).mirror s)) n.rank = 0 := by
      rw [tally_of_member (hmember _ (hl.inRange j hj s n hn)), Party.sent_enlist hsends]
    rw [InOrder, htaken, hsent]
    exact ⟨Nat.le_refl 0, by simp [Universe.queue, enlist, hnet]⟩
  · simp [Universe.queue, enlist, hnet]
  · rw [(member_enlist.mp hm).2] at hs
    exact absurd hs HaloTable.deliver_notMem_script

theorem addressed_enlist {w : World Universe} (hnet : w.net.inFlight = []) :
    Addressed size parties (enlist size parties w) := by
  intro e he
  change e ∈ w.net.inFlight at he
  rw [hnet] at he
  exact absurd he List.not_mem_nil

/-! ### Buffers made for each other -/

theorem Mail.inOrder (hl : Linked size parties) (h : Mail size parties c) (hj : j < size)
    (hn : (parties j).table.at? s = some n) (hs : s ∈ (parties j).table.incoming) :
    InOrder parties c j s n :=
  h.order j hj s n hn hs (hl.sends_mirror hj hn hs)

/-- A message is just as long as the receive. -/
theorem Mail.arrived_eq (hl : Linked size parties) (h : Mail size parties c) (hj : j < size)
    {m : CrewMember Universe} (hm : c.members[j]? = some m)
    (hn : (parties j).table.at? s = some n) (hs : .act s .deliver ∈ m.exchange.todo) :
    m.exchange.arrived =
      payload ((parties n.rank).vector m.past.length ((parties j).mirror s)) := by
  obtain ⟨m₀, hpartner⟩ := hl.partner j hj s n hn
  rw [(h.hand j m s n hm hn hs).2, List.take_of_length_le]
  rw [length_payload, Party.length_vector hpartner.entry, (hpartner.symm hl hj hn).count]

/-- A rank that has done all its rounds has sent and taken as many messages. -/
theorem Mail.inFlight_eq_nil (hl : Linked size parties) (hc : Manned size parties c)
    (h : Mail size parties c) (haddressed : Addressed size parties c)
    (hdone : ∀ m ∈ c.members, m.finished)
    (hrounds : ∀ k < size, ∀ j < size, (parties k).rounds = (parties j).rounds) :
    c.world.net.inFlight = [] := by
  -- Every message in flight is for some place, and the queue of each place is empty in the end.
  refine List.eq_nil_iff_forall_not_mem.mpr fun e he => ?_
  obtain ⟨j, hj, s, n, hn, hs, hch⟩ := haddressed e he
  have hk := hl.inRange j hj s n hn
  obtain ⟨m, hm⟩ := hc.member hj
  obtain ⟨m', hm'⟩ := hc.member hk
  have hempty : c.world.net.queue ((parties j).inbox s n) = [] := by
    rw [(h.inOrder hl hj hn hs).2, tally_of_member hm, tally_of_member hm',
      (hc.follows j m hm).taken_of_finished (hdone m (List.mem_of_getElem? hm)),
      (hc.follows _ m' hm').sent_of_finished (hdone m' (List.mem_of_getElem? hm')),
      hrounds j hj _ hk]
    exact List.drop_eq_nil_of_le (by simp)
  have hmem : e.2 ∈ c.world.net.queue ((parties j).inbox s n) :=
    List.mem_map.mpr ⟨e, List.mem_filter.mpr ⟨he, decide_eq_true hch⟩, rfl⟩
  rw [hempty] at hmem
  exact List.not_mem_nil hmem

end Crew

end StencilPlan
