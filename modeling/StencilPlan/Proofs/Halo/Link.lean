import StencilPlan.Proofs.Halo.Member

/-!
# Links between ranks

A send buffer of one rank and a receive buffer of another belong together if each is the other's
counterpart at the opposite offset. `Linked` says that all buffers of some ranks are paired in this
way; `Meshed` asks less: only that messages between the ranks go where they should, whatever the
buffers at the two ends are. A crew takes its members from such ranks; each of them follows its own
course, and a step of one leaves the others where they are.
-/

namespace StencilPlan

/-- The buffers `m` are those that the neighbor of rank `k` has for the buffers `n` of rank `k` at
`s`. -/
structure Partners (parties : Nat → Party) (k : Nat) (s : Slot) (n m : NeighborBuffers) : Prop where
  entry : (parties n.rank).table.at? ((parties k).mirror s) = some m
  rank : m.rank = k
  mirror : (parties n.rank).mirror ((parties k).mirror s) = s
  shared : m.shared = n.shared
  count : m.recv.count = n.send.count

/-- The buffers of some ranks are made for each other. -/
structure Linked (size : Nat) (parties : Nat → Party) : Prop where
  sized : ∀ k < size, (parties k).table.Sized
  rank : ∀ k < size, (parties k).topology.rank = k
  neighborhood : ∀ k < size, ∀ j < size,
    (parties k).table.neighborhood = (parties j).table.neighborhood
  inside : ∀ k < size, ∀ s n, (parties k).table.at? s = some n →
    s.neighbor < (parties k).table.neighborhood
  inRange : ∀ k < size, ∀ s n, (parties k).table.at? s = some n → n.rank < size
  partner : ∀ k < size, ∀ s n, (parties k).table.at? s = some n → ∃ m, Partners parties k s n m

/-- What ranks in one grid share: two ranks find the same tag for what the one sends to the other,
and from the place of a message its sender is found again. The buffers at the two places may differ,
and one of the places may have none. -/
structure Meshed (size : Nat) (parties : Nat → Party) : Prop where
  sized : ∀ k < size, (parties k).table.Sized
  rank : ∀ k < size, ∀ s n, (parties k).table.at? s = some n → (parties k).topology.rank = k
  inRange : ∀ k < size, ∀ s n, (parties k).table.at? s = some n → n.rank < size
  neighborhood : ∀ k < size, ∀ j < size, ∀ s s' n m, (parties k).table.at? s = some n →
    (parties j).table.at? s' = some m →
      (parties k).table.neighborhood = (parties j).table.neighborhood
  inside : ∀ k < size, ∀ s n, (parties k).table.at? s = some n →
    s.neighbor < (parties k).table.neighborhood ∧
      ((parties k).mirror s).neighbor < (parties k).table.neighborhood
  mirrored : ∀ k < size, ∀ s n m, (parties k).table.at? s = some n →
    (parties n.rank).table.at? ((parties k).mirror s) = some m →
      m.rank = k ∧ (parties n.rank).mirror ((parties k).mirror s) = s

section Links

variable {size : Nat} {parties : Nat → Party} {k j : Nat} {s s' : Slot} {n m : NeighborBuffers}

/-- The relation holds in both directions. -/
theorem Partners.symm (hl : Linked size parties) (hk : k < size)
    (hn : (parties k).table.at? s = some n) (h : Partners parties k s n m) :
    Partners parties n.rank ((parties k).mirror s) m n := by
  have hj := hl.inRange k hk s n hn
  obtain ⟨n', h'⟩ := hl.partner n.rank hj _ m h.entry
  have hentry := h'.entry
  rw [h.rank, h.mirror, hn] at hentry
  obtain rfl := Option.some.inj hentry
  exact h'

theorem Linked.meshed (hl : Linked size parties) : Meshed size parties := by
  constructor
  case sized => exact hl.sized
  case rank => exact fun k hk _ _ _ => hl.rank k hk
  case inRange => exact hl.inRange
  case neighborhood => exact fun k hk j hj _ _ _ _ _ _ => hl.neighborhood k hk j hj
  case inside =>
    intro k hk s n hn
    obtain ⟨m, hm⟩ := hl.partner k hk s n hn
    have hj := hl.inRange k hk s n hn
    exact ⟨hl.inside k hk s n hn, hl.neighborhood k hk _ hj ▸ hl.inside _ hj _ m hm.entry⟩
  case mirrored =>
    intro k hk s n m hn hm
    obtain ⟨m', hm'⟩ := hl.partner k hk s n hn
    obtain rfl := Option.some.inj (hm'.entry.symm.trans hm)
    exact ⟨hm'.rank, hm'.mirror⟩

/-- The channel of the messages that arrive at a place. -/
def Party.inbox (p : Party) (s : Slot) (n : NeighborBuffers) : Channel :=
  ⟨n.rank, p.topology.rank, p.tag s⟩

/-- The channel that the messages of a place are sent to. -/
def Party.outbox (p : Party) (s : Slot) (n : NeighborBuffers) : Channel :=
  ⟨p.topology.rank, n.rank, p.tag (p.mirror s)⟩

/-- A message goes to the place where it is waited for, and to no other one. -/
theorem Meshed.outbox_eq_inbox (hm : Meshed size parties) (hk : k < size) (hj : j < size)
    (hn : (parties k).table.at? s = some n) (hn' : (parties j).table.at? s' = some m) :
    (parties k).outbox s n = (parties j).inbox s' m ↔
      m.rank = k ∧ (parties j).mirror s' = s := by
  have hrank := hm.rank k hk s n hn
  have hrank' := hm.rank j hj s' m hn'
  have hsize := hm.neighborhood k hk j hj s s' n m hn hn'
  rw [Party.outbox, Party.inbox, Channel.mk.injEq, hrank, hrank', Party.tag, Party.tag, hsize]
  constructor
  · -- Equal tags over neighborhoods of one size are equal in variable and direction.
    rintro ⟨rfl, rfl, htag⟩
    obtain ⟨hvar, hneighbor⟩ :=
      tag_inj (hsize ▸ (hm.inside _ hk s n hn).2) (hm.inside _ hj s' m hn').1 htag
    obtain rfl : (parties m.rank).mirror s = s' := by
      rw [show s' = ⟨s'.var, s'.neighbor⟩ from rfl, ← hvar, ← hneighbor]
    exact hm.mirrored _ hk s n m hn hn'
  · rintro ⟨rfl, rfl⟩
    obtain ⟨hback, hmirror⟩ := hm.mirrored j hj s' m n hn' hn
    exact ⟨rfl, hback, by rw [hmirror]⟩

/-- Different places have different channels. -/
theorem Meshed.inbox_inj (hm : Meshed size parties) (hk : k < size) (hj : j < size)
    (hn : (parties k).table.at? s = some n) (hn' : (parties j).table.at? s' = some m)
    (h : (parties k).inbox s n = (parties j).inbox s' m) : k = j ∧ s = s' := by
  obtain ⟨-, hrank, htag⟩ := Channel.mk.inj h
  rw [hm.rank k hk s n hn, hm.rank j hj s' m hn'] at hrank
  subst hrank
  obtain ⟨hvar, hneighbor⟩ := tag_inj (hm.inside k hk s n hn).1 (hm.inside k hk s' m hn').1 htag
  exact ⟨rfl, by rw [show s = ⟨s.var, s.neighbor⟩ from rfl, hvar, hneighbor]⟩

end Links

namespace Crew

/-- The members of a crew are some ranks, each on its course. -/
structure Manned (size : Nat) (parties : Nat → Party) (c : Crew Universe) : Prop where
  length : c.members.length = size
  follows : ∀ k (m : CrewMember Universe), c.members[k]? = some m → m.Follows (parties k)

variable {size : Nat} {parties : Nat → Party} {c d : Crew Universe} {i : Nat}

theorem Manned.lt (h : Manned size parties c) {k : Nat} {m : CrewMember Universe}
    (hm : c.members[k]? = some m) : k < size :=
  h.length ▸ (List.getElem?_eq_some_iff.mp hm).1

theorem Manned.member (h : Manned size parties c) {k : Nat} (hk : k < size) :
    ∃ m, c.members[k]? = some m :=
  ⟨_, List.getElem?_eq_getElem (h.length ▸ hk)⟩

/-- Some ranks before their first exchange. -/
def enlist (size : Nat) (parties : Nat → Party) (w : World Universe) : Crew Universe :=
  ⟨(List.range size).map fun k => (parties k).enlist, w⟩

theorem member_enlist {w : World Universe} {k : Nat} {m : CrewMember Universe} :
    (enlist size parties w).members[k]? = some m ↔ k < size ∧ m = (parties k).enlist := by
  simp only [enlist, List.getElem?_map, Option.map_eq_some_iff, List.getElem?_eq_some_iff,
    List.length_range, List.getElem_range]
  constructor
  · rintro ⟨_, ⟨hk, rfl⟩, rfl⟩
    exact ⟨hk, rfl⟩
  · rintro ⟨hk, rfl⟩
    exact ⟨k, ⟨hk, rfl⟩, rfl⟩

theorem manned_enlist {w : World Universe} : Manned size parties (enlist size parties w) := by
  refine ⟨by simp [enlist], fun k m hm => ?_⟩
  rw [(member_enlist.mp hm).2]
  exact (parties k).follows_enlist

/-- A number kept by each member, by the number of the rank. -/
def tally (f : CrewMember Universe → Nat) (c : Crew Universe) (k : Nat) : Nat :=
  ((c.members[k]?).map f).getD 0

theorem tally_of_member {f : CrewMember Universe → Nat} {k : Nat} {m : CrewMember Universe}
    (hm : c.members[k]? = some m) : c.tally f k = f m := by
  rw [tally, hm, Option.map_some, Option.getD_some]

/-- The members of `d` are those of `c`, but `m'` stands in the place of `m`. -/
structure Replaces (c d : Crew Universe) (i : Nat) (m m' : CrewMember Universe) : Prop where
  old : c.members[i]? = some m
  members : ∀ k, d.members[k]? = if k = i then some m' else c.members[k]?

namespace Replaces

variable {m m' : CrewMember Universe}

theorem tally_self (h : Replaces c d i m m') (f : CrewMember Universe → Nat) :
    d.tally f i = f m' := by
  rw [tally, h.members, if_pos rfl]
  rfl

theorem tally_of_ne (h : Replaces c d i m m') (f : CrewMember Universe → Nat) {k : Nat}
    (hk : k ≠ i) : d.tally f k = c.tally f k := by
  rw [tally, h.members, if_neg hk]
  rfl

/-- A number that the step leaves as it is at the rank that takes it. -/
theorem tally_of_eq (h : Replaces c d i m m') (f : CrewMember Universe → Nat) {k : Nat}
    (hf : k = i → f m' = f m) : d.tally f k = c.tally f k := by
  by_cases hk : k = i
  · rw [hk, h.tally_self, hf hk, tally_of_member h.old]
  · exact h.tally_of_ne f hk

/-- A member is the one that takes the step, or was there before. -/
theorem cases (h : Replaces c d i m m') {k : Nat} {n : CrewMember Universe}
    (hn : d.members[k]? = some n) : (k = i ∧ n = m') ∨ (k ≠ i ∧ c.members[k]? = some n) := by
  rw [h.members] at hn
  split at hn
  · next hk => exact .inl ⟨hk, (Option.some.inj hn).symm⟩
  · next hk => exact .inr ⟨hk, hn⟩

end Replaces

/-- A step of the crew is a step of one rank. -/
theorem Manned.steps (h : Manned size parties c) (hstep : c.step i = some d) :
    ∃ m m', Replaces c d i m m' ∧ m.Steps c.world m' d.world := by
  obtain ⟨m, m', w, hm, hmstep, rfl⟩ := steps_of_step hstep
  have hi : i < c.members.length := (List.getElem?_eq_some_iff.mp hm).1
  refine ⟨m, m', ⟨hm, fun k => ?_⟩,
    CrewMember.steps_of_step (h.follows i m hm).exchange.awaits hmstep⟩
  rw [List.getElem?_set, if_pos hi]
  exact if_congr eq_comm rfl rfl

theorem Manned.step (hl : Meshed size parties) (h : Manned size parties c)
    (hstep : c.step i = some d) : Manned size parties d := by
  obtain ⟨m, m', hreplaces, hsteps⟩ := h.steps hstep
  refine ⟨?_, fun k n hn => ?_⟩
  · obtain ⟨_, _, _, -, -, rfl⟩ := steps_of_step hstep
    rw [List.length_set, h.length]
  · rcases hreplaces.cases hn with ⟨rfl, rfl⟩ | ⟨-, hn⟩
    · exact (h.follows k m hreplaces.old).step (hl.sized k (h.lt hreplaces.old)) hsteps
    · exact h.follows k n hn

/-- `Now k r x` holds of the exchange `x` that rank `k` is in, in round `r`, and `Over k r x` of one
that is over. -/
structure Keeps (Now Over : Nat → Nat → Exchange Universe → Prop) (c : Crew Universe) : Prop where
  current : ∀ k (m : CrewMember Universe), c.members[k]? = some m →
    Now k m.past.length m.exchange
  past : ∀ k (m : CrewMember Universe), c.members[k]? = some m → ∀ r (x : Exchange Universe),
    m.past[r]? = some x → Over k r x

section Keeps

variable {Now Over : Nat → Nat → Exchange Universe → Prop}

theorem keeps_enlist {w : World Universe}
    (hstart : ∀ k < size, Now k 0 (parties k).enlist.exchange) :
    Keeps Now Over (enlist size parties w) := by
  refine ⟨fun k m hm => ?_, fun k m hm r x hx => ?_⟩
  · obtain ⟨hk, rfl⟩ := member_enlist.mp hm
    exact hstart k hk
  · rw [(member_enlist.mp hm).2] at hx
    cases hx

/-- What is known of all exchanges stays known if every exchange begins with it and no move takes it
away. -/
theorem Keeps.step (hc : Manned size parties c) (h : Keeps Now Over c) (hstep : c.step i = some d)
    (hagain : ∀ (m : CrewMember Universe) q, m.Follows (parties i) →
      Now i (m.past.length + 1) (m.exchange.again q))
    (hover : ∀ r (x : Exchange Universe), Now i r x → x.todo = [] → Over i r x)
    (hadvance : ∀ (m : CrewMember Universe) (x : Exchange Universe) w,
      c.members[i]? = some m → Now i m.past.length m.exchange →
        Advances m.exchange c.world x w → Now i m.past.length x) : Keeps Now Over d := by
  obtain ⟨m, m', hr, hsteps⟩ := hc.steps hstep
  have hold := h.current i m hr.old
  have hpast := h.past i m hr.old
  have hself : Now i m'.past.length m'.exchange ∧
      ∀ r (x : Exchange Universe), m'.past[r]? = some x → Over i r x := by
    generalize d.world = w at hsteps
    cases hsteps with
    | again _ htodo =>
      refine ⟨?_, fun r x hx => ?_⟩
      · rw [List.length_append, List.length_singleton]
        exact hagain m _ (hc.follows i m hr.old)
      · -- The exchange that was the last one is over now.
        rw [List.getElem?_append] at hx
        split at hx
        · exact hpast r x hx
        · next hge =>
          have hlt := (List.getElem?_eq_some_iff.mp hx).1
          rw [List.length_singleton] at hlt
          obtain rfl : r = m.past.length := by omega
          rw [Nat.sub_self] at hx
          obtain rfl := Option.some.inj hx
          exact hover _ _ hold htodo
    | advance _ h => exact ⟨hadvance m _ _ hr.old hold h, hpast⟩
    | fail => exact ⟨hold, hpast⟩
  -- Only the rank that made the step has to be looked at; the others are what they were.
  refine ⟨fun k n hn => ?_, fun k n hn => ?_⟩
  · rcases hr.cases hn with ⟨rfl, rfl⟩ | ⟨-, hn⟩
    · exact hself.1
    · exact h.current k n hn
  · rcases hr.cases hn with ⟨rfl, rfl⟩ | ⟨-, hn⟩
    · exact hself.2
    · exact h.past k n hn

end Keeps

end Crew

end StencilPlan
