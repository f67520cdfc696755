import StencilPlan.Proofs.Halo.Amounts

/-!
# Both ends of every buffer

Each buffer that a rank sends has one at the neighbor where it is received, and no two of them have
the same. So whatever is counted of a buffer comes to the same at both ends, summed over all ranks:
its bytes, its message, its window. One end of it is a move that sends or fills, so these moves are
half of what is counted.
-/

namespace StencilPlan

/-- Whether the move sends a message. -/
def Move.sends : Move → Bool
  | .act _ .send => true
  | _ => false

/-- Whether the move writes a shared window. -/
def Move.fills : Move → Bool
  | .act _ .fill => true
  | _ => false

/-! ### Moves that are counted -/

namespace HaloTable

variable {t : HaloTable} {interior : Bool}

theorem part_of_sends {m : Move} (h : m.sends = true) : part m = 1 := by
  unfold Move.sends at h
  split at h
  · rfl
  · cases h

theorem part_of_fills {m : Move} (h : m.fills = true) : part m = 1 := by
  unfold Move.fills at h
  split at h
  · rfl
  · cases h

theorem countP_sends_sendBlock (e : Slot × NeighborBuffers) :
    (sendBlock e).countP Move.sends = e.2.sent.messages := by
  rw [sendBlock, NeighborBuffers.sent]
  split
  · rfl
  · cases e.2.shared <;> rfl

theorem countP_fills_sendBlock (e : Slot × NeighborBuffers) :
    (sendBlock e).countP Move.fills = e.2.sent.sharedCopies := by
  rw [sendBlock, NeighborBuffers.sent]
  split
  · rfl
  · cases e.2.shared <;> rfl

/-- Moves with send buffers stand nowhere else in the script. -/
theorem countP_script {q : Move → Bool} (hq : ∀ m, q m = true → part m = 1) :
    (t.script interior).countP q = (t.entries.map fun e => (sendBlock e).countP q).sum := by
  -- Of the six parts of the script only the sends remain.
  have hother : ∀ {l : List Move}, (∀ m ∈ l, part m ≠ 1) → l.countP q = 0 := fun h =>
    List.countP_eq_zero.mpr fun m hm hqm => h m hm (hq m hqm)
  have hmessages : ∀ a, (∀ s, part (.act s a) ≠ 1) →
      (t.incoming.map (Move.act · a)).countP q = 0 := by
    refine fun a ha => hother fun m hm => ?_
    obtain ⟨s, -, rfl⟩ := List.mem_map.mp hm
    exact ha s
  have hinterior : (if interior then [Move.interior] else []).countP q = 0 := by
    refine hother fun m hm => ?_
    cases interior
    · cases hm
    · rw [List.mem_singleton.mp hm]
      decide
  have hdrains : (t.draining.flatMap fun s => block s drainActions).countP q = 0 :=
    hother fun m hm => by
      rw [part_of_mem_drains hm]
      decide
  simp only [script, List.countP_append, hmessages .post (by simp [part]),
    hmessages .poll (by simp [part]), hmessages .await (by simp [part]), hinterior, hdrains,
    Nat.zero_add, Nat.add_zero, List.countP_flatMap]
  rfl

end HaloTable

/-! ### From one end to the other -/

namespace NeighborBuffers

variable {n m : NeighborBuffers}

@[simp] theorem receivedBytes_sent (n : NeighborBuffers) : n.sent.receivedBytes = 0 := by
  unfold sent
  split
  · rfl
  · split <;> rfl

@[simp] theorem sentBytes_received (n : NeighborBuffers) : n.received.sentBytes = 0 := by
  unfold received
  split
  · rfl
  · split <;> rfl

/-- What is sent at one end is received at the other. -/
theorem received_of_sent (hshared : m.shared = n.shared) (hcount : m.recv.count = n.send.count) :
    m.received = ⟨0, n.sent.sentBytes, n.sent.sharedCopies, n.sent.messages⟩ := by
  rw [received, sent, hshared, hcount]
  split
  · rfl
  · split <;> rfl

end NeighborBuffers

section Links

variable {size : Nat} {parties : Nat → Party}

/-- The place at the other end. -/
def across (parties : Nat → Party) (e : Nat × Slot) : Nat × Slot :=
  (((parties e.1).table.at? e.2).elim e.1 (·.rank), (parties e.1).mirror e.2)

theorem mem_placesOf_range {e : Nat × Slot} : e ∈ placesOf parties (List.range size) ↔
    e.1 < size ∧ ∃ n, (parties e.1).table.at? e.2 = some n := by
  obtain ⟨k, s⟩ := e
  simp [placesOf, HaloTable.mem_slots, Option.isSome_iff_exists]

theorem nodup_placesOf_range (size : Nat) (parties : Nat → Party) :
    (placesOf parties (List.range size)).Nodup := by
  refine List.nodup_flatMap.mpr ⟨fun k _ => ?_, ?_⟩
  · exact (parties k).table.nodup_slots.map fun _ _ h => (Prod.mk.inj h).2
  · refine List.nodup_range.imp fun {j k} hne e hj hk => ?_
    obtain ⟨_, -, rfl⟩ := List.mem_map.mp hj
    obtain ⟨_, -, heq⟩ := List.mem_map.mp hk
    exact hne (Prod.mk.inj heq).1.symm

/-- The other end of a place is a place, and its other end is the place itself. -/
theorem Linked.across_spec (hl : Linked size parties) {e : Nat × Slot}
    (he : e ∈ placesOf parties (List.range size)) :
    across parties e ∈ placesOf parties (List.range size) ∧
      across parties (across parties e) = e ∧
      ∃ n m, (parties e.1).table.at? e.2 = some n ∧
        (parties (across parties e).1).table.at? (across parties e).2 = some m ∧
        m.shared = n.shared ∧ m.recv.count = n.send.count := by
  obtain ⟨hk, n, hn⟩ := mem_placesOf_range.mp he
  obtain ⟨m, hm⟩ := hl.partner _ hk _ n hn
  have hacross : across parties e = (n.rank, (parties e.1).mirror e.2) := by
    rw [across, hn, Option.elim_some]
  rw [hacross]
  refine ⟨mem_placesOf_range.mpr ⟨hl.inRange _ hk _ n hn, m, hm.entry⟩, ?_,
    n, m, hn, hm.entry, hm.shared, hm.count⟩
  rw [across, hm.entry, Option.elim_some, hm.rank, hm.mirror]

/-- The other ends of all places are all places. -/
theorem Linked.perm_across (hl : Linked size parties) :
    ((placesOf parties (List.range size)).map (across parties)).Perm
      (placesOf parties (List.range size)) := by
  -- Going across twice leads back, so no place is hit twice; then none is left out.
  have hnodup : ((placesOf parties (List.range size)).map (across parties)).Nodup := by
    refine (nodup_placesOf_range size parties).map_on fun e he e' he' heq => ?_
    rw [← (hl.across_spec he).2.1, heq, (hl.across_spec he').2.1]
  refine (List.subperm_of_subset hnodup fun e he => ?_).perm_of_length_le
    (by rw [List.length_map])
  obtain ⟨e', he', rfl⟩ := List.mem_map.mp he
  exact (hl.across_spec he').1

/-- What is the same at both ends of every buffer has the same sum over all ranks. -/
theorem Linked.sum_across (hl : Linked size parties) {f g : NeighborBuffers → Nat}
    (hfg : ∀ n m : NeighborBuffers, m.shared = n.shared → m.recv.count = n.send.count →
      g m = f n) :
    ((List.range size).map fun k => ((parties k).table.entries.map fun e => g e.2).sum).sum =
      ((List.range size).map fun k =>
        ((parties k).table.entries.map fun e => f e.2).sum).sum := by
  -- Sum over the places, and take them at their other ends on one side.
  rw [← sum_amountAt_placesOf g, ← sum_amountAt_placesOf f,
    ← (hl.perm_across.map (amountAt parties g)).sum_eq, List.map_map]
  refine congrArg List.sum (List.map_congr_left fun e he => ?_)
  obtain ⟨-, -, n, m, hn, hm, hshared, hcount⟩ := hl.across_spec he
  simp only [Function.comp_apply, amountAt, hn, hm, Option.elim_some]
  exact hfg n m hshared hcount

/-! ### What all exchanges of a round come to -/

/-- A part of what an exchange comes to at each of `size` ranks, summed up. -/
def trafficOf (size : Nat) (parties : Nat → Party) (f : Traffic → Nat) : Nat :=
  ((List.range size).map fun k =>
    ((parties k).tasks.map fun move => f ((parties k).table.traffic move)).sum).sum

/-- How many moves of a kind are in the scripts of all ranks. -/
def scriptedOf (size : Nat) (parties : Nat → Party) (q : Move → Bool) : Nat :=
  ((List.range size).map fun k =>
    ((parties k).table.script (parties k).interior).countP q).sum

/-- All that is counted is counted at one end or at the other. -/
theorem trafficOf_eq {f : Traffic → Nat} (hf : Traffic.Additive f) : trafficOf size parties f =
    ((List.range size).map fun k =>
        ((parties k).table.entries.map fun e => f e.2.sent).sum).sum +
      ((List.range size).map fun k =>
        ((parties k).table.entries.map fun e => f e.2.received).sum).sum := by
  rw [trafficOf, ← List.sum_map_add]
  refine congrArg List.sum (List.map_congr_left fun k _ => ?_)
  rw [Party.traffic_eq hf, List.sum_map_add]

theorem scriptedOf_eq {q : Move → Bool} (hq : ∀ m, q m = true → HaloTable.part m = 1)
    {f : Traffic → Nat} (hf : ∀ e, (HaloTable.sendBlock e).countP q = f e.2.sent) :
    scriptedOf size parties q = ((List.range size).map fun k =>
      ((parties k).table.entries.map fun e => f e.2.sent).sum).sum := by
  refine congrArg List.sum (List.map_congr_left fun k _ => ?_)
  rw [HaloTable.countP_script hq]
  exact congrArg List.sum (List.map_congr_left fun e _ => hf e)

/-- As many bytes are received as are sent. -/
theorem Linked.sentBytes_eq (hl : Linked size parties) :
    trafficOf size parties (·.sentBytes) = trafficOf size parties (·.receivedBytes) := by
  have hends : ∀ n m : NeighborBuffers, m.shared = n.shared → m.recv.count = n.send.count →
      m.received.receivedBytes = n.sent.sentBytes := fun n m hshared hcount => by
    rw [NeighborBuffers.received_of_sent hshared hcount]
  rw [trafficOf_eq (Traffic.Counted.additive (.inl rfl)),
    trafficOf_eq (Traffic.Counted.additive (.inr (.inl rfl))), hl.sum_across hends]
  -- What is left are bytes received by sending and sent by receiving.
  simp

/-- What is counted alike at both ends is twice what the moves at one end come to. -/
theorem Linked.trafficOf_eq_two_mul (hl : Linked size parties) {f : Traffic → Nat}
    (hf : Traffic.Additive f) (hends : ∀ n m : NeighborBuffers, m.shared = n.shared →
      m.recv.count = n.send.count → f m.received = f n.sent) {q : Move → Bool}
    (hq : ∀ m, q m = true → HaloTable.part m = 1)
    (hsent : ∀ e, (HaloTable.sendBlock e).countP q = f e.2.sent) :
    trafficOf size parties f = 2 * scriptedOf size parties q := by
  rw [trafficOf_eq hf, scriptedOf_eq hq hsent, hl.sum_across hends]
  omega

/-- Every message that is sent is received. -/
theorem Linked.messages_eq (hl : Linked size parties) :
    trafficOf size parties (·.messages) = 2 * scriptedOf size parties Move.sends := by
  refine hl.trafficOf_eq_two_mul (Traffic.Counted.additive (.inr (.inr (.inr rfl))))
    (fun n m hshared hcount => ?_) (fun _ => HaloTable.part_of_sends)
    HaloTable.countP_sends_sendBlock
  rw [NeighborBuffers.received_of_sent hshared hcount]

/-- Every window that is written is read. -/
theorem Linked.sharedCopies_eq (hl : Linked size parties) :
    trafficOf size parties (·.sharedCopies) = 2 * scriptedOf size parties Move.fills := by
  refine hl.trafficOf_eq_two_mul (Traffic.Counted.additive (.inr (.inr (.inl rfl))))
    (fun n m hshared hcount => ?_) (fun _ => HaloTable.part_of_fills)
    HaloTable.countP_fills_sendBlock
  rw [NeighborBuffers.received_of_sent hshared hcount]

end Links

end StencilPlan
