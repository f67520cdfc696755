import StencilPlan.Proofs.Halo.Message
import StencilPlan.Proofs.Halo.Step

/-!
# One rank in a crew

What a rank does depends on the others only through what it finds in the network and in shared
memory. Everything else is settled by what the rank brings with it, its `Party`: which moves are
ahead, which receives are posted, and what it has packed. `Follows` collects that, and a step of
the rank keeps it whatever the others have done.
-/

namespace StencilPlan

/-- What a rank brings to its exchanges. -/
structure Party where
  table : HaloTable
  topology : Topology
  /-- What the caller packs in a round into a buffer of a variable. -/
  pack : Nat → String → HaloBuffer → List Binary64
  /-- Whether the interior is computed in the middle of an exchange. -/
  interior : Bool
  /-- How many exchanges follow the first one. -/
  rounds : Nat

namespace Party

/-- How the caller packs in a round. -/
def packer (p : Party) (round : Nat) : Packer := fun var b => .ok (p.pack round var b)

/-- The values packed in a round for the send buffer at a place. -/
def vector (p : Party) (round : Nat) (s : Slot) : List Binary64 :=
  match p.table.at? s with
  | some n => fitValues n.send.count (p.pack round (p.table.varName s) n.send)
  | none => []

/-- The place of the same variable toward the opposite offset. -/
def mirror (p : Party) (s : Slot) : Slot :=
  ⟨s.var, (p.topology.oppositeIndex? s.neighbor).getD s.neighbor⟩

/-- The tag of the messages that arrive at a place. -/
def tag (p : Party) (s : Slot) : Nat := s.var * p.table.neighborhood + s.neighbor

/-- What is posted for a place. -/
def receive (p : Party) (s : Slot) (n : NeighborBuffers) : Receive :=
  ⟨⟨n.rank, p.topology.rank, p.tag s⟩, n.recv.count * wordSize, none⟩

/-- The moves with the send buffer at a place. -/
def sends (s : Slot) (n : NeighborBuffers) : List Move := block s (sendActions n.shared)

/-- The rank before its first exchange. -/
def enlist (p : Party) : CrewMember Universe where
  exchange :=
    { table := p.table, topology := p.topology, packer := p.packer 0
      moves := p.table.script p.interior, pending := [], values := [], arrived := []
      stats := .zero, events := [], todo := p.table.script p.interior }
  coming := (List.range p.rounds).map fun r => p.packer (r + 1)
  past := []
  failure := none

end Party

theorem Party.length_vector {p : Party} {s : Slot} {n : NeighborBuffers}
    (hn : p.table.at? s = some n) (round : Nat) : (p.vector round s).length = n.send.count := by
  rw [Party.vector, hn]
  exact length_fitValues _ _

theorem HaloBuffer.bytes_eq_ok {b : HaloBuffer} {k : Nat} (h : b.size = .ok b.count) :
    b.bytes = .ok k ↔ k = b.count * wordSize ∧ k < Word.bound := by
  simp only [HaloBuffer.bytes, h, bind, Except.bind, Word.mul, Word.check_eq_ok_iff]
  constructor
  · rintro ⟨hlt, rfl⟩
    exact ⟨rfl, hlt⟩
  · rintro ⟨rfl, hlt⟩
    exact ⟨hlt, rfl⟩

/-- A read yields as many values as were asked for. -/
theorem HaloBuffer.length_of_read {b : HaloBuffer} {h : Heap} {k : Nat} {vs : List Binary64}
    (hread : b.read h k = .ok vs) : vs.length = k := by
  simp only [HaloBuffer.read, bind_eq_ok, liftM_planError_eq_ok] at hread
  obtain ⟨-, -, w, -, hread⟩ := hread
  exact (Heap.readReals_eq_ok hread).1

/-! ### Moves ahead -/

theorem OnCourse.cases {moves rest : List Move} {m : Move} (h : OnCourse moves (m :: rest)) :
    (∃ done, moves = done ++ m :: rest) ∨
      ∃ s done, m = .act s .deliver ∧ moves = done ++ rest := by
  obtain ⟨done, rest', hmoves, htodo | ⟨s, htodo⟩⟩ := h
  · exact .inl ⟨done, htodo ▸ hmoves⟩
  · obtain ⟨rfl, rfl⟩ := List.cons.inj htodo
    exact .inr ⟨s, done, rfl, hmoves⟩

theorem OnCourse.tail {moves rest : List Move} {m : Move} (h : OnCourse moves (m :: rest)) :
    ∃ done, moves = done ++ rest := by
  rcases h.cases with ⟨done, hmoves⟩ | ⟨s, done, rfl, hmoves⟩
  · exact ⟨done ++ [m], by rw [hmoves, List.append_assoc]; rfl⟩
  · exact ⟨done, hmoves⟩

/-- What taking the next move means for a block: it is the block's next move, or the block is not
begun or done with, or the move is a delivery and in no block at all. -/
theorem OnCourse.pop {moves rest b : List Move} {m : Move} (h : OnCourse moves (m :: rest))
    (hnodup : moves.Nodup) (hdeliver : ∀ s, .act s .deliver ∉ moves) (hb : b <:+: moves) :
    (∃ i, b[i]? = some m ∧ doneOf (m :: rest) b = i ∧ doneOf rest b = i + 1) ∨
      (m ∉ b ∧ doneOf rest b = doneOf (m :: rest) b ∧
        (doneOf rest b = 0 ∨ doneOf rest b = b.length)) ∨
      ((∃ s, m = .act s .deliver) ∧ m ∉ b ∧ doneOf rest b = doneOf (m :: rest) b) := by
  rcases h.cases with ⟨done, hmoves⟩ | ⟨s, done, rfl, hmoves⟩
  · by_cases hm : m ∈ b
    · obtain ⟨i, hi⟩ := List.mem_iff_getElem?.mp hm
      obtain ⟨hd, hd'⟩ := doneOf_of_head hnodup hmoves hb hi
      exact .inl ⟨i, hi, hd, hd'⟩
    · have heq := (@doneOf_cons_of_notMem _ rest _ hm).symm
      refine .inr (.inl ⟨hm, heq, ?_⟩)
      -- In the middle of the block its own next move would be the next one.
      by_contra hmid
      have hle := doneOf_le_length rest b
      obtain ⟨k, rest', hrest, hk⟩ := head_of_doneOf hnodup hmoves hb (by omega) (by omega)
      obtain ⟨rfl, -⟩ := List.cons.inj hrest
      exact hm (List.mem_of_getElem? hk)
  · have hm : .act s .deliver ∉ b := fun hm => hdeliver s (hb.subset hm)
    exact .inr (.inr ⟨⟨s, rfl⟩, hm, (doneOf_cons_of_notMem hm).symm⟩)

/-! ### Following the course -/

/-- The exchange is one of the rank's in a given round, and goes on as it should. -/
structure Exchange.Follows (p : Party) (round : Nat) (x : Exchange Universe) : Prop where
  table : x.table = p.table
  topology : x.topology = p.topology
  packer : x.packer = p.packer round
  moves : x.moves = p.table.script p.interior
  course : OnCourse (p.table.script p.interior) x.todo
  awaits : x.Awaits
  /-- A message in hand is one that was waited for. -/
  inHand : ∀ s, .act s .deliver ∈ x.todo → s ∈ p.table.incoming
  /-- A receive is posted from its `post` to its `await` at most. -/
  posted : ∀ e ∈ x.pending, .act e.1 .post ∉ x.todo ∧ .act e.1 .await ∈ x.todo ∧
    ∃ n, p.table.at? e.1 = some n ∧ e.2 = p.receive e.1 n
  /-- From packing until sending or filling the values are at hand. -/
  packed : ∀ s n, p.table.at? s = some n → n.send.count ≠ 0 →
    0 < doneOf x.todo (Party.sends s n) →
    doneOf x.todo (Party.sends s n) ≤ (if n.shared then 3 else 1) →
    x.values = p.vector round s
  /-- From draining until unpacking there are as many values at hand as the buffer holds. -/
  drained : ∀ s n, p.table.at? s = some n → n.shared = true → n.recv.count ≠ 0 →
    3 ≤ doneOf x.todo (block s drainActions) → doneOf x.todo (block s drainActions) ≤ 5 →
    x.values.length = n.recv.count

section Follows

variable {p : Party} {round : Nat} {x x' : Exchange Universe} {w w' : World Universe} {s : Slot}
  {n : NeighborBuffers} {a : Action} {m : Move} {rest : List Move}

/-- Only packing and draining change the values at hand. -/
theorem Performs.values (h : Performs x w s n a x' w') :
    (x'.values = x.values ∧ a ≠ .pack ∧ a ≠ .drain) ∨
      (a = .drain ∧ n.recv.size = .ok x'.values.length) ∨
      a = .pack ∧ ∃ size values, n.send.size = .ok size ∧
        x.packer (x.varName s) n.send = .ok values ∧ x'.values = fitValues size values := by
  cases h with
  | pack hsize hpack => exact .inr (.inr ⟨rfl, _, _, hsize, hpack, rfl⟩)
  | drain hsize hread => exact .inr (.inl ⟨rfl, HaloBuffer.length_of_read hread ▸ hsize⟩)
  | taken ha | take ha => exact .inl ⟨rfl, by rcases ha with rfl | rfl <;> decide⟩
  | _ => exact .inl ⟨rfl, by decide⟩

/-- What is posted changes only where a message is posted or taken. -/
theorem Performs.pending (h : Performs x w s n a x' w') :
    (x'.pending = x.pending ∧ ∀ e ∈ x.pending, Move.act s a ≠ .act e.1 .await) ∨
      (a = .poll ∨ a = .await) ∧ x'.pending = x.pending.filter (·.1 ≠ s) ∨
      a = .post ∧ ∃ tag bytes, messageTag x.table.neighborhood s.var s.neighbor n.rank = .ok tag ∧
        n.recv.bytes = .ok bytes ∧
        x'.pending = x.pending ++ [(s, ⟨⟨n.rank, x.topology.rank, tag⟩, bytes, none⟩)] := by
  cases h with
  | post htag hbytes => exact .inr (.inr ⟨rfl, _, _, htag, hbytes, rfl⟩)
  | take ha => exact .inr (.inl ⟨ha, rfl⟩)
  | taken ha hposted =>
    refine .inl ⟨rfl, fun e he heq => ?_⟩
    obtain ⟨rfl, -⟩ := Move.act.inj heq
    simpa using List.lookup_eq_none_iff.mp hposted e he
  | _ => exact .inl ⟨rfl, nofun⟩

theorem Exchange.Follows.pop_posted (hx : x.Follows p round) (htodo : x.todo = m :: rest)
    {e : Slot × Transport.Handle Universe} (he : e ∈ x.pending) (hne : m ≠ .act e.1 .await) :
    .act e.1 .post ∉ rest ∧ .act e.1 .await ∈ rest ∧
      ∃ n, p.table.at? e.1 = some n ∧ e.2 = p.receive e.1 n := by
  obtain ⟨hpost, hawait, hreceive⟩ := hx.posted e he
  rw [htodo] at hpost hawait
  exact ⟨fun h => hpost (List.mem_cons_of_mem _ h),
    (List.mem_cons.mp hawait).resolve_left (Ne.symm hne), hreceive⟩

/-- What every move leaves as it was, and what it does to the moves ahead, the posted receives and
the values at hand. -/
theorem Advances.local (h : Advances x w x' w') : ∃ m rest, x.todo = m :: rest ∧
    (x'.table = x.table ∧ x'.topology = x.topology ∧ x'.packer = x.packer ∧ x'.moves = x.moves) ∧
    (x'.todo = rest ∨ ∃ s a, m = .act s a ∧ (a = .poll ∨ a = .await) ∧
      x'.todo = .act s .deliver :: rest) ∧
    ((x'.pending = x.pending ∧ ∀ e ∈ x.pending, m = .act e.1 .await → x.table.at? e.1 = none) ∨
      (∃ s a, m = .act s a ∧ (a = .poll ∨ a = .await) ∧ x'.pending = x.pending.filter (·.1 ≠ s)) ∨
      ∃ s n tag bytes, m = .act s .post ∧ x.table.at? s = some n ∧
        messageTag x.table.neighborhood s.var s.neighbor n.rank = .ok tag ∧
        n.recv.bytes = .ok bytes ∧
        x'.pending = x.pending ++ [(s, ⟨⟨n.rank, x.topology.rank, tag⟩, bytes, none⟩)]) ∧
    ((x'.values = x.values ∧ ∀ s, m = .act s .pack ∨ m = .act s .drain → x.table.at? s = none) ∨
      (∃ s n, m = .act s .drain ∧ x.table.at? s = some n ∧ n.recv.size = .ok x'.values.length) ∨
      ∃ s n size values, m = .act s .pack ∧ x.table.at? s = some n ∧ n.send.size = .ok size ∧
        x.packer (x.varName s) n.send = .ok values ∧ x'.values = fitValues size values) := by
  -- Read off move by move; all that is proved later about one rank goes by this.
  cases h with
  | interior htodo =>
    exact ⟨_, _, htodo, ⟨rfl, rfl, rfl, rfl⟩, .inl rfl, .inl ⟨rfl, nofun⟩, .inl ⟨rfl, by simp⟩⟩
  | skip htodo hn =>
    refine ⟨_, _, htodo, ⟨rfl, rfl, rfl, rfl⟩, .inl rfl, .inl ⟨rfl, fun e _ heq => ?_⟩,
      .inl ⟨rfl, fun s heq => ?_⟩⟩
    · obtain ⟨rfl, -⟩ := Move.act.inj heq
      exact hn
    · rcases heq with heq | heq <;> exact (Move.act.inj heq).1 ▸ hn
  | act htodo hn h =>
    refine ⟨_, _, htodo, h.same, h.todo.imp_right fun h => ⟨_, _, rfl, h⟩, ?_, ?_⟩
    · rcases h.pending with ⟨hpending, hne⟩ | ⟨ha, hpending⟩ | ⟨rfl, tag, bytes, h⟩
      · exact .inl ⟨hpending, fun e he heq => absurd heq (hne e he)⟩
      · exact .inr (.inl ⟨_, _, rfl, ha, hpending⟩)
      · exact .inr (.inr ⟨_, _, tag, bytes, rfl, hn, h⟩)
    · rcases h.values with ⟨h, hpack, hdrain⟩ | ⟨rfl, hsize⟩ | ⟨rfl, size, values, h⟩
      · exact .inl ⟨h, fun s heq => heq.elim (fun heq => absurd (Move.act.inj heq).2 hpack)
          fun heq => absurd (Move.act.inj heq).2 hdrain⟩
      · exact .inr (.inl ⟨_, _, rfl, hn, hsize⟩)
      · exact .inr (.inr ⟨_, _, size, values, rfl, hn, h⟩)

/-- A message in hand is part of no block. -/
theorem doneOf_ahead {todo b : List Move} (h : todo = rest ∨ ∃ s, todo = .act s .deliver :: rest)
    (hb : b <:+: p.table.script p.interior) : doneOf todo b = doneOf rest b := by
  rcases h with rfl | ⟨s, rfl⟩
  · rfl
  · exact doneOf_cons_of_notMem fun hm => HaloTable.deliver_notMem_script (hb.subset hm)

theorem mem_ahead {todo : List Move} {k : Move}
    (h : todo = rest ∨ ∃ s, todo = .act s .deliver :: rest) (hk : ∀ s, k ≠ .act s .deliver) :
    k ∈ todo ↔ k ∈ rest := by
  rcases h with rfl | ⟨s, rfl⟩
  · rfl
  · rw [List.mem_cons]
    exact or_iff_right (hk s)

/-- Unless a delivery is next, some moves of the list are made and the others are ahead. -/
theorem Exchange.Follows.script_eq (hx : x.Follows p round) (htodo : x.todo = m :: rest)
    (hm : ∀ s, m ≠ .act s .deliver) : ∃ done, p.table.script p.interior = done ++ m :: rest := by
  rcases (htodo ▸ hx.course).cases with h | ⟨s, _, heq, -⟩
  · exact h
  · exact absurd heq (hm s)

/-- The next move, unless it is a delivery, is one of the list. -/
theorem Exchange.Follows.mem_script (hx : x.Follows p round) (htodo : x.todo = m :: rest)
    (hm : ∀ s, m ≠ .act s .deliver) : m ∈ p.table.script p.interior := by
  obtain ⟨done, hscript⟩ := hx.script_eq htodo hm
  rw [hscript]
  simp

/-- The next move, unless it is a delivery, does not come again. -/
theorem Exchange.Follows.notMem_rest (hx : x.Follows p round) (htodo : x.todo = m :: rest)
    (hm : ∀ s, m ≠ .act s .deliver) : m ∉ rest := by
  obtain ⟨done, hscript⟩ := hx.script_eq htodo hm
  have hnodup := p.table.nodup_script p.interior
  rw [hscript] at hnodup
  exact (List.nodup_cons.mp (List.Nodup.of_append_right hnodup)).1

/-- What stands before the next move in the list is made. -/
theorem Exchange.Follows.notMem_todo_of_before (hx : x.Follows p round)
    (htodo : x.todo = m :: rest) (hm : ∀ s, m ≠ .act s .deliver) {before after : List Move}
    (hsplit : p.table.script p.interior = before ++ after) {k : Move} (hk : k ∈ before)
    (hafter : m ∈ after) : k ∉ x.todo := by
  have hnodup := p.table.nodup_script p.interior
  obtain ⟨done, hscript⟩ := hx.script_eq htodo hm
  have hscript' : p.table.script p.interior = (done ++ [m]) ++ rest := by
    rw [hscript, List.append_assoc]
    rfl
  have hne : k ≠ m := by
    rintro rfl
    rw [hsplit] at hnodup
    exact List.disjoint_of_nodup_append hnodup hk hafter
  rw [htodo, List.mem_cons, not_or]
  exact ⟨hne, notMem_of_before hnodup hscript' hsplit hk hafter (hx.notMem_rest htodo hm)⟩

/-- Of the moves only a delivery stands before what is ahead. -/
theorem Exchange.Follows.deliver_notMem_rest (hx : x.Follows p round)
    (htodo : x.todo = m :: rest) : .act s .deliver ∉ rest := by
  obtain ⟨done, hscript⟩ := (htodo ▸ hx.course).tail
  intro h
  have hmem : .act s .deliver ∈ p.table.script p.interior :=
    hscript ▸ List.mem_append_right _ h
  exact HaloTable.deliver_notMem_script hmem

/-- The next move, unless it is a delivery, is one that the buffers allow. -/
theorem Exchange.Follows.allows (hx : x.Follows p round) (htodo : x.todo = .act s a :: rest)
    (hn : p.table.at? s = some n) : HaloTable.Allows n a ∨ a = .deliver := by
  by_cases hdeliver : a = .deliver
  · exact .inr hdeliver
  · obtain ⟨n', hn', hallows⟩ := HaloTable.allows_of_mem_script
      (hx.mem_script htodo fun s heq => hdeliver (Move.act.inj heq).2)
    obtain rfl := Option.some.inj (hn'.symm.trans hn)
    exact .inl hallows

/-- What is about to be delivered came as a message, and has values. -/
theorem Exchange.Follows.of_deliver (hx : x.Follows p round)
    (htodo : x.todo = .act s .deliver :: rest) (hn : p.table.at? s = some n) :
    n.shared = false ∧ n.recv.count ≠ 0 := by
  obtain ⟨n', hn', hincoming⟩ := HaloTable.mem_incoming.mp
    (hx.inHand s (by rw [htodo]; exact List.mem_cons_self))
  obtain rfl := Option.some.inj (hn'.symm.trans hn)
  exact hincoming

/-- No message is sent or delivered for buffers in shared memory. -/
theorem Exchange.Follows.not_message (hx : x.Follows p round) (htodo : x.todo = .act s a :: rest)
    (hn : p.table.at? s = some n) (hshared : n.shared = true) : a ≠ .send ∧ a ≠ .deliver := by
  constructor
  · rintro rfl
    exact absurd hshared (Bool.eq_false_iff.mp ((hx.allows htodo hn).resolve_right nofun).1)
  · rintro rfl
    exact absurd hshared (Bool.eq_false_iff.mp (hx.of_deliver htodo hn).1)

/-- Where the next move stands in a block, so far the block has come. -/
theorem Exchange.Follows.doneOf_head (hx : x.Follows p round) (htodo : x.todo = m :: rest)
    {b : List Move} (hb : b <:+: p.table.script p.interior) {i : Nat} (hi : b[i]? = some m) :
    doneOf x.todo b = i := by
  have hmem : m ∈ p.table.script p.interior := hb.subset (List.mem_of_getElem? hi)
  obtain ⟨done, hscript⟩ := hx.script_eq htodo fun s heq =>
    HaloTable.deliver_notMem_script (heq ▸ hmem)
  rw [htodo]
  exact (doneOf_of_head (p.table.nodup_script p.interior) hscript hb hi).1

/-- What is about to be sent or filled in is the vector of the round. -/
theorem Exchange.Follows.values_eq (hx : x.Follows p round) (htodo : x.todo = .act s a :: rest)
    (hn : p.table.at? s = some n) (ha : a = .send ∨ a = .fill) : x.values = p.vector round s := by
  have hallows := (hx.allows htodo hn).resolve_right (by rcases ha with rfl | rfl <;> exact nofun)
  have hcount : n.send.count ≠ 0 := by rcases ha with rfl | rfl <;> exact hallows.2
  have hblock : Party.sends s n <:+: p.table.script p.interior :=
    HaloTable.sendBlock_within hn hcount
  have hpacked := hx.packed s n hn hcount
  -- Packing is the first move of the block, so it is done.
  rcases ha with rfl | rfl
  · have hone : doneOf x.todo (Party.sends s n) = 1 :=
      hx.doneOf_head htodo hblock (by rw [Party.sends, hallows.1]; rfl)
    rw [hone, hallows.1] at hpacked
    exact hpacked (by decide) (by decide)
  · have hthree : doneOf x.todo (Party.sends s n) = 3 :=
      hx.doneOf_head htodo hblock (by rw [Party.sends, hallows.1]; rfl)
    rw [hthree, hallows.1] at hpacked
    exact hpacked (by decide) (by decide)

/-- What is posted is what was to be posted, and it is still to be waited for. -/
theorem Exchange.Follows.posted_of_post (hp : p.table.Sized) (hx : x.Follows p round)
    (htodo : x.todo = .act s .post :: rest) (hn : p.table.at? s = some n) {tag bytes : Nat}
    (htag : messageTag p.table.neighborhood s.var s.neighbor n.rank = .ok tag)
    (hbytes : n.recv.bytes = .ok bytes) : .act s .post ∉ rest ∧ .act s .await ∈ rest ∧
      (⟨⟨n.rank, p.topology.rank, tag⟩, bytes, none⟩ : Receive) = p.receive s n := by
  have hnodup := p.table.nodup_script p.interior
  obtain ⟨done, hscript⟩ := hx.script_eq htodo nofun
  -- Only places of messages are posted, so the place has its poll and its wait in the script too.
  obtain ⟨n', hn', hincoming⟩ := HaloTable.allows_of_mem_script (hx.mem_script htodo nofun)
  obtain rfl := Option.some.inj (hn'.symm.trans hn)
  obtain ⟨before, after, hsplit, hpost, -, hawait⟩ := @HaloTable.post_before _ _ p.interior
    (HaloTable.mem_incoming.mpr ⟨n', hn, hincoming⟩)
  refine ⟨hx.notMem_rest htodo nofun, ?_, ?_⟩
  · -- Were the wait over, the post before it would be made as well.
    by_contra habsent
    have hdone : Move.act s .await ∉ Move.act s .post :: rest := fun h =>
      habsent ((List.mem_cons.mp h).resolve_left nofun)
    exact notMem_of_before hnodup hscript hsplit hpost hawait hdone List.mem_cons_self
  · rw [(messageTag_eq_ok.mp htag).1, ((HaloBuffer.bytes_eq_ok (hp s n' hn).2).mp hbytes).1]
    rfl

/-- What a move of a block says about the values at hand stays true while the block goes on, as long
as nothing else is packed or drained. Here `lo` counts the moves of the block up to that one, and
`hi` those up to where the values are needed no more. -/
theorem Exchange.Follows.held_of_advance (P : List Binary64 → Prop) (hx : x.Follows p round)
    (h : Advances x w x' w') {b : List Move} {lo hi : Nat}
    (hb : b <:+: p.table.script p.interior) (hlo : 0 < lo) (hhi : hi < b.length)
    (hquiet : ∀ i s a, lo ≤ i → i < hi → b[i]? = some (.act s a) → a ≠ .pack ∧ a ≠ .drain)
    (hheld : lo ≤ doneOf x.todo b → doneOf x.todo b ≤ hi → P x.values)
    (hmade : ∀ m rest, x.todo = m :: rest → b[lo - 1]? = some m → P x'.values)
    (hge : lo ≤ doneOf x'.todo b) (hle : doneOf x'.todo b ≤ hi) : P x'.values := by
  obtain ⟨m, rest, htodo, -, htodo', -, hvalues⟩ := h.local
  replace htodo' := htodo'.imp_right fun ⟨s, _, _, _, h⟩ => Exists.intro s h
  rw [htodo] at hheld
  rw [doneOf_ahead htodo' hb] at hge hle
  -- Only packing and draining change the values at hand.
  have hkeep : (∀ s a, m = .act s a → a ≠ .pack ∧ a ≠ .drain) → lo ≤ doneOf (m :: rest) b →
      doneOf (m :: rest) b ≤ hi → P x'.values := by
    intro hm hge' hle'
    rcases hvalues with ⟨hsame, -⟩ | ⟨s', _, heq, -⟩ | ⟨s', _, _, _, heq, -⟩
    · exact hsame ▸ hheld hge' hle'
    · exact absurd rfl (hm s' _ heq).2
    · exact absurd rfl (hm s' _ heq).1
  -- The move is one of the block, or another one of the script, or a delivery in between.
  rcases (htodo ▸ hx.course).pop (p.table.nodup_script p.interior)
    (fun _ => HaloTable.deliver_notMem_script) hb with
    ⟨i, hi, hd, hd'⟩ | ⟨-, -, hout⟩ | ⟨⟨s', rfl⟩, -, hd⟩
  · rcases Nat.lt_or_ge i lo with hlt | hge'
    · obtain rfl : i = lo - 1 := by omega
      exact hmade m rest htodo hi
    · exact hkeep (fun s a heq => hquiet i s a hge' (by omega) (heq ▸ hi)) (by omega) (by omega)
  · -- the block is not begun or done with
    omega
  · refine hkeep (fun s a heq => ?_) (by omega) (by omega)
    rw [← (Move.act.inj heq).2]
    decide

/-- After packing, the values at hand are those that the rank packs in the round. -/
theorem Exchange.Follows.values_of_pack (hp : p.table.Sized) (hx : x.Follows p round)
    (h : Advances x w x' w') (htodo : x.todo = .act s .pack :: rest) (hn : p.table.at? s = some n) :
    x'.values = p.vector round s := by
  obtain ⟨m, rest', htodo', -, -, -, hvalues⟩ := h.local
  obtain ⟨rfl, -⟩ := List.cons.inj (htodo.symm.trans htodo')
  rcases hvalues with
    ⟨-, hnone⟩ | ⟨s', _, heq, -⟩ | ⟨s', n', size, values, heq, hn', hsize, hpack, hv⟩
  · -- The values stay only where there are no buffers, and here there are.
    have := hnone s (.inl rfl)
    rw [hx.table, hn] at this
    cases this
  · cases heq
  · obtain ⟨rfl, -⟩ := Move.act.inj heq
    rw [hx.table] at hn'
    obtain rfl := Option.some.inj (hn.symm.trans hn')
    rw [(hp s n hn).1] at hsize
    obtain rfl := Except.ok.inj hsize
    rw [hx.packer, Exchange.varName, hx.table] at hpack
    obtain rfl := Except.ok.inj hpack
    rw [hv, Party.vector, hn]

/-- After draining, there are as many values at hand as the buffer holds. -/
theorem Exchange.Follows.length_of_drain (hp : p.table.Sized) (hx : x.Follows p round)
    (h : Advances x w x' w') (htodo : x.todo = .act s .drain :: rest)
    (hn : p.table.at? s = some n) : x'.values.length = n.recv.count := by
  obtain ⟨m, rest', htodo', -, -, -, hvalues⟩ := h.local
  obtain ⟨rfl, -⟩ := List.cons.inj (htodo.symm.trans htodo')
  rcases hvalues with ⟨-, hnone⟩ | ⟨s', n', heq, hn', hsize⟩ | ⟨s', _, _, _, heq, -⟩
  · have := hnone s (.inr rfl)
    rw [hx.table, hn] at this
    cases this
  · obtain ⟨rfl, -⟩ := Move.act.inj heq
    rw [hx.table] at hn'
    obtain rfl := Option.some.inj (hn.symm.trans hn')
    rw [(hp s n hn).2] at hsize
    exact (Except.ok.inj hsize).symm
  · cases heq

/-- The moves with a send buffer begin with packing, and nothing is packed or drained after that. -/
theorem pack_iff_first {i : Nat} (h : (Party.sends s n)[i]? = some m) :
    (i = 0 ∧ m = .act s .pack) ∨
      (0 < i ∧ (∀ s', m ≠ .act s' .pack) ∧ ∀ s', m ≠ .act s' .drain) := by
  rw [Party.sends, getElem?_block, Option.map_eq_some_iff] at h
  obtain ⟨a, ha, rfl⟩ := h
  -- Both kinds of block begin with the same action.
  rcases Nat.eq_zero_or_pos i with rfl | hi
  · left
    rw [sendActions] at ha
    split at ha <;> exact ⟨rfl, by rw [← Option.some.inj ha]⟩
  · have hmem : a ∈ (sendActions n.shared).tail := by
      refine List.mem_of_getElem? (i := i - 1) ?_
      rw [List.getElem?_tail, Nat.sub_add_cancel hi]
      exact ha
    rw [sendActions] at hmem
    refine .inr ⟨hi, fun s' heq => ?_, fun s' heq => ?_⟩
    all_goals
      rw [(Move.act.inj heq).2] at hmem
      split at hmem <;> simp at hmem

theorem Exchange.Follows.packed_of_advance (hp : p.table.Sized) (hx : x.Follows p round)
    (h : Advances x w x' w') {s : Slot} {n : NeighborBuffers} (hn : p.table.at? s = some n)
    (hcount : n.send.count ≠ 0) (hpos : 0 < doneOf x'.todo (Party.sends s n))
    (hle : doneOf x'.todo (Party.sends s n) ≤ if n.shared then 3 else 1) :
    x'.values = p.vector round s := by
  refine hx.held_of_advance (· = p.vector round s) h (HaloTable.sendBlock_within hn hcount)
    Nat.one_pos ?_ (fun i s' a hi _ hm => ?_) (hx.packed s n hn hcount)
    (fun m rest htodo hm => ?_) hpos hle
  · rw [length_block, sendActions]
    split <;> decide
  · rcases pack_iff_first hm with ⟨rfl, -⟩ | ⟨-, hpack, hdrain⟩
    · cases hi
    · exact ⟨fun h => hpack s' (h ▸ rfl), fun h => hdrain s' (h ▸ rfl)⟩
  · rcases pack_iff_first hm with ⟨-, rfl⟩ | ⟨hi, -⟩
    · exact hx.values_of_pack hp h htodo hn
    · cases hi

theorem Exchange.Follows.drained_of_advance (hp : p.table.Sized) (hx : x.Follows p round)
    (h : Advances x w x' w') {s : Slot} {n : NeighborBuffers} (hn : p.table.at? s = some n)
    (hshared : n.shared = true) (hcount : n.recv.count ≠ 0)
    (hge : 3 ≤ doneOf x'.todo (block s drainActions))
    (hle : doneOf x'.todo (block s drainActions) ≤ 5) : x'.values.length = n.recv.count := by
  refine hx.held_of_advance (·.length = n.recv.count) h
    (HaloTable.drainBlock_within hn hshared hcount) (by decide) (by rw [length_block]; decide)
    (fun i s' a hi hlt hm => ?_) (hx.drained s n hn hshared hcount) (fun m rest htodo hm => ?_)
    hge hle
  · -- lowering the flag and giving back the lock
    obtain rfl | rfl : i = 3 ∨ i = 4 := by omega
    all_goals
      obtain ⟨-, rfl⟩ := Move.act.inj (Option.some.inj hm)
      decide
  · obtain rfl := Option.some.inj hm
    exact hx.length_of_drain hp h htodo hn

theorem Exchange.Follows.awaits_of_advance (hx : x.Follows p round) (h : Advances x w x' w') :
    x'.Awaits := by
  obtain ⟨m, rest, htodo, -, -, hpending, -⟩ := h.local
  -- What is waited for stays, loses the place whose message was taken, or gains what was posted.
  rcases hpending with ⟨h, -⟩ | ⟨s, a, -, -, h⟩ | ⟨s, n, tag, bytes, rfl, -, -, -, h⟩
  · exact ⟨h ▸ hx.awaits.nodup, h ▸ hx.awaits.fresh⟩
  · refine ⟨?_, fun e he => ?_⟩
    · rw [h]
      exact hx.awaits.nodup.sublist (List.filter_sublist.map _)
    · rw [h] at he
      exact hx.awaits.fresh e (List.mem_filter.mp he).1
  · -- What is about to be posted was not posted before.
    have hnew : s ∉ x.pending.map (·.1) := by
      intro hs
      obtain ⟨e, he, rfl⟩ := List.mem_map.mp hs
      exact (hx.posted e he).1 (by rw [htodo]; exact List.mem_cons_self)
    refine ⟨?_, fun e he => ?_⟩
    · rw [h, List.map_append]
      exact List.Nodup.append hx.awaits.nodup (List.nodup_singleton _) (by simpa using hnew)
    · rw [h] at he
      rcases List.mem_append.mp he with he | he
      · exact hx.awaits.fresh e he
      · rw [List.mem_singleton.mp he]

theorem Exchange.Follows.inHand_of_advance (hx : x.Follows p round) (h : Advances x w x' w')
    {s : Slot} (hs : .act s .deliver ∈ x'.todo) : s ∈ p.table.incoming := by
  obtain ⟨m, rest, htodo, -, htake, -⟩ := h.local
  have hrest : .act s .deliver ∉ rest := hx.deliver_notMem_rest htodo
  rcases htake with h | ⟨s', a, rfl, ha, h⟩
  · exact absurd (h ▸ hs) hrest
  · rw [h] at hs
    obtain ⟨rfl, -⟩ := Move.act.inj ((List.mem_cons.mp hs).resolve_right hrest)
    have hmem := hx.mem_script htodo (by rcases ha with rfl | rfl <;> exact nofun)
    obtain ⟨n, hn, hallows⟩ := HaloTable.allows_of_mem_script hmem
    refine HaloTable.mem_incoming.mpr ⟨n, hn, ?_⟩
    rcases ha with rfl | rfl <;> exact hallows

/-- What is posted after a move was posted before, or the move posts it. -/
theorem Exchange.Follows.posted_of_advance (hp : p.table.Sized) (hx : x.Follows p round)
    (h : Advances x w x' w') {e : Slot × Receive} (he : e ∈ x'.pending) :
    .act e.1 .post ∉ x'.todo ∧ .act e.1 .await ∈ x'.todo ∧
      ∃ n, p.table.at? e.1 = some n ∧ e.2 = p.receive e.1 n := by
  obtain ⟨m, rest, htodo, ⟨-, htopology, -, -⟩, htake, hpending, -⟩ := h.local
  have htodo' : x'.todo = rest ∨ ∃ s, x'.todo = .act s .deliver :: rest :=
    htake.imp_right fun ⟨s, _, _, _, h⟩ => ⟨s, h⟩
  rw [mem_ahead htodo' (by simp), mem_ahead htodo' (by simp)]
  -- Nothing was posted or taken, or the receive of one place was taken, or one was posted.
  rcases hpending with
    ⟨h, hnone⟩ | ⟨s, a, rfl, -, h⟩ | ⟨s, n, tag, bytes, rfl, hn, htag, hbytes, h⟩
  · rw [h] at he
    refine hx.pop_posted htodo he fun heq => ?_
    obtain ⟨-, -, n, hn, -⟩ := hx.posted e he
    have := hnone e he heq
    rw [hx.table, hn] at this
    cases this
  · rw [h] at he
    obtain ⟨he, hne⟩ := List.mem_filter.mp he
    exact hx.pop_posted htodo he fun heq => of_decide_eq_true hne (Move.act.inj heq).1.symm
  · rw [h] at he
    rcases List.mem_append.mp he with he | he
    · exact hx.pop_posted htodo he nofun
    · obtain rfl := List.mem_singleton.mp he
      rw [hx.table] at hn htag
      obtain ⟨hpost, hawait, hreceive⟩ := hx.posted_of_post hp htodo hn htag hbytes
      rw [hx.topology]
      exact ⟨hpost, hawait, n, hn, hreceive⟩

/-- A move keeps the exchange on its course. -/
theorem Exchange.Follows.advance (hp : p.table.Sized) (hx : x.Follows p round)
    (h : Advances x w x' w') : x'.Follows p round := by
  obtain ⟨m, rest, htodo, ⟨htable, htopology, hpacker, hmoves⟩, htake, -⟩ := h.local
  constructor
  case table => rw [htable, hx.table]
  case topology => rw [htopology, hx.topology]
  case packer => rw [hpacker, hx.packer]
  case moves => rw [hmoves, hx.moves]
  case course =>
    obtain ⟨done, hscript⟩ := (htodo ▸ hx.course).tail
    exact ⟨done, rest, hscript, htake.imp_right fun ⟨s, _, _, _, h⟩ => ⟨s, h⟩⟩
  case awaits => exact hx.awaits_of_advance h
  case inHand => exact fun s => hx.inHand_of_advance h
  case posted => exact fun e => hx.posted_of_advance hp h
  case packed => exact fun s n => hx.packed_of_advance hp h
  case drained => exact fun s n => hx.drained_of_advance hp h

end Follows

/-! ### A rank over all its rounds -/

/-- The rank goes on as it should, and packs in the rounds to come as it is meant to. -/
structure CrewMember.Follows (p : Party) (m : CrewMember Universe) : Prop where
  exchange : m.exchange.Follows p m.past.length
  rounds : m.past.length + m.coming.length = p.rounds
  coming : ∀ i q, m.coming[i]? = some q → q = p.packer (m.past.length + 1 + i)

/-- How many moves of a block the rank has made in all its rounds. -/
def CrewMember.turns (m : CrewMember Universe) (b : List Move) : Nat :=
  m.past.length * b.length + doneOf m.exchange.todo b

namespace CrewMember.Follows

variable {p : Party} {m m' : CrewMember Universe} {w w' : World Universe} {x : Exchange Universe}

/-- Nothing is awaited where nothing is ahead. -/
theorem pending_eq_nil (hm : m.Follows p) (htodo : m.exchange.todo = []) :
    m.exchange.pending = [] := by
  refine List.eq_nil_iff_forall_not_mem.mpr fun e he => ?_
  have := (hm.exchange.posted e he).2.1
  rw [htodo] at this
  exact List.not_mem_nil this

/-- Once more from the beginning, in the next round. -/
theorem again (hm : m.Follows p) {q : Packer} {qs : List Packer} (hcoming : m.coming = q :: qs) :
    Follows p { m with
      exchange := m.exchange.again q, coming := qs, past := m.past ++ [m.exchange] } := by
  have hx := hm.exchange
  have hlength : (m.past ++ [m.exchange]).length = m.past.length + 1 := by simp
  refine ⟨?_, ?_, fun i r hr => ?_⟩
  · rw [hlength]
    constructor
    case table => exact hx.table
    case topology => exact hx.topology
    case packer => exact hm.coming 0 q (by rw [hcoming]; rfl)
    case moves => exact hx.moves
    case course => exact ⟨[], _, rfl, .inl hx.moves⟩
    case awaits => exact ⟨List.nodup_nil, nofun⟩
    -- the script is back at its beginning: nothing is in hand, and nothing was done in this round
    case inHand =>
      intro s hs
      change _ ∈ m.exchange.moves at hs
      rw [hx.moves] at hs
      exact absurd hs HaloTable.deliver_notMem_script
    case posted => exact nofun
    case packed =>
      intro s n hn hcount hpos
      rw [doneOf_eq_zero] at hpos
      · cases hpos
      · intro k hk
        change k ∈ m.exchange.moves
        rw [hx.moves]
        exact (HaloTable.sendBlock_within hn hcount).subset hk
    case drained =>
      intro s n hn hshared hcount hge
      rw [doneOf_eq_zero] at hge
      · cases hge
      · intro k hk
        change k ∈ m.exchange.moves
        rw [hx.moves]
        exact (HaloTable.drainBlock_within hn hshared hcount).subset hk
  · have := hm.rounds
    rw [hcoming, List.length_cons] at this
    change (m.past ++ [m.exchange]).length + qs.length = p.rounds
    omega
  · have := hm.coming (i + 1) r (by rw [hcoming]; exact hr)
    rw [this, hlength]
    congr 1
    omega

theorem step (hp : p.table.Sized) (hm : m.Follows p) (h : m.Steps w m' w') : m'.Follows p := by
  cases h with
  | again _ _ hcoming => exact hm.again hcoming
  | advance _ h => exact ⟨hm.exchange.advance hp h, hm.rounds, hm.coming⟩
  | fail => exact ⟨hm.exchange, hm.rounds, hm.coming⟩

/-- A rank that has done all its rounds has no move ahead. -/
theorem of_finished (hm : m.Follows p) (h : m.finished) :
    m.failure = none ∧ m.exchange.todo = [] ∧ m.past.length = p.rounds := by
  simp only [finished, Exchange.finished, Bool.and_eq_true, Option.isNone_iff_eq_none,
    List.isEmpty_iff] at h
  obtain ⟨⟨hok, htodo⟩, hcoming⟩ := h
  refine ⟨hok, htodo, ?_⟩
  have := hm.rounds
  rwa [hcoming] at this

/-- The passage to the next round is no move of a block. -/
theorem turns_again (hm : m.Follows p) {q : Packer} {qs : List Packer}
    (htodo : m.exchange.todo = []) {b : List Move} (hb : b <:+: p.table.script p.interior) :
    turns { m with
      exchange := m.exchange.again q, coming := qs, past := m.past ++ [m.exchange] } b =
        m.turns b := by
  have hzero : doneOf (m.exchange.again q).todo b = 0 := doneOf_eq_zero fun k hk => by
    change k ∈ m.exchange.moves
    rw [hm.exchange.moves]
    exact hb.subset hk
  simp only [turns, hzero, htodo, doneOf_nil, List.length_append, List.length_singleton,
    Nat.succ_mul, Nat.add_zero]

/-- A move of a block is the next one of the block, and a move outside of it leaves it as it is. -/
theorem turns_advance (hm : m.Follows p) {k : Move} {rest : List Move}
    (htodo : m.exchange.todo = k :: rest)
    (htodo' : x.todo = rest ∨ ∃ s, x.todo = .act s .deliver :: rest) {b : List Move}
    (hb : b <:+: p.table.script p.interior) :
    (∃ i, b[i]? = some k ∧ m.turns b = m.past.length * b.length + i ∧
        turns { m with exchange := x } b = m.turns b + 1) ∨
      k ∉ b ∧ turns { m with exchange := x } b = m.turns b := by
  simp only [turns, doneOf_ahead htodo' hb, htodo]
  rcases (htodo ▸ hm.exchange.course).pop (p.table.nodup_script p.interior)
    (fun _ => HaloTable.deliver_notMem_script) hb with ⟨i, hi, hd, hd'⟩ | ⟨hk, hd, -⟩ | ⟨-, hk, hd⟩
  · refine .inl ⟨i, hi, by omega, by omega⟩
  · exact .inr ⟨hk, by omega⟩
  · exact .inr ⟨hk, by omega⟩

end CrewMember.Follows

/-- A rank follows its course from the beginning. -/
theorem Party.follows_enlist (p : Party) : p.enlist.Follows p := by
  refine ⟨?_, ?_, fun i q hq => ?_⟩
  · constructor
    case table => rfl
    case topology => rfl
    case packer => rfl
    case moves => rfl
    case course => exact ⟨[], _, rfl, .inl rfl⟩
    case awaits => exact ⟨List.nodup_nil, nofun⟩
    case inHand =>
      intro s hs
      exact absurd hs HaloTable.deliver_notMem_script
    case posted => exact nofun
    -- Nothing of a block is made yet, so what its moves would guarantee is not asked for.
    case packed =>
      intro s n hn hcount hpos
      rw [doneOf_eq_zero] at hpos
      · cases hpos
      · exact fun k hk => (HaloTable.sendBlock_within hn hcount).subset hk
    case drained =>
      intro s n hn hshared hcount hge
      rw [doneOf_eq_zero] at hge
      · cases hge
      · exact fun k hk => (HaloTable.drainBlock_within hn hshared hcount).subset hk
  · simp [enlist]
  · simp only [enlist, List.getElem?_map, Option.map_eq_some_iff] at hq
    obtain ⟨r, hr, rfl⟩ := hq
    obtain ⟨hi, rfl⟩ := List.getElem?_eq_some_iff.mp hr
    rw [List.getElem_range]
    congr 1
    simp only [enlist, List.length_nil]
    omega

theorem Party.turns_enlist {p : Party} {b : List Move} (hb : b <:+: p.table.script p.interior) :
    p.enlist.turns b = 0 := by
  have hzero : doneOf p.enlist.exchange.todo b = 0 := doneOf_eq_zero fun k hk => hb.subset hk
  rw [CrewMember.turns, hzero, Nat.add_zero]
  exact Nat.zero_mul _

end StencilPlan
