import Mathlib.Algebra.BigOperators.Ring.List
import StencilPlan.Proofs.Halo.Pools
import StencilPlan.Proofs.Halo.Unfailing

/-!
# What an exchange comes to

A rank sends what is in its send buffers and receives what is in its receive buffers. Those that it
stores itself lie in its own pools, and each that it attached lies in a shared pool of a neighbor,
where no other rank receives. So what an exchange comes to at one rank has room in the pools of all
ranks together.
-/

namespace StencilPlan

open Heap

namespace NeighborBuffers

/-- The values of both buffers. -/
def values (n : NeighborBuffers) : Nat := n.send.count + n.recv.count

/-- Values received in the shared pool of the neighbor. -/
def borrowedValues (n : NeighborBuffers) : Nat := if n.shared then n.recv.count else 0

theorem values_eq (n : NeighborBuffers) :
    n.values = n.ownedValues + n.sharedValues + n.borrowedValues := by
  unfold values ownedValues sharedValues borrowedValues
  split <;> omega

end NeighborBuffers

/-! ### One rank -/

namespace NeighborBuffers

/-- What sending comes to. An empty buffer is passed over. -/
def sent (n : NeighborBuffers) : Traffic :=
  if n.send.count = 0 then .zero
  else if n.shared then ⟨n.send.count * wordSize, 0, 1, 0⟩
  else ⟨n.send.count * wordSize, 0, 0, 1⟩

/-- What receiving comes to. -/
def received (n : NeighborBuffers) : Traffic :=
  if n.recv.count = 0 then .zero
  else if n.shared then ⟨0, n.recv.count * wordSize, 1, 0⟩
  else ⟨0, n.recv.count * wordSize, 0, 1⟩

theorem sent_le (n : NeighborBuffers) {f : Traffic → Nat} (hf : Traffic.Counted f) :
    f n.sent ≤ n.send.count * wordSize := by
  unfold sent
  split
  · exact hf.additive.1 ▸ Nat.zero_le _
  · split <;> rcases hf with rfl | rfl | rfl | rfl <;> simp only [wordSize] <;> omega

theorem received_le (n : NeighborBuffers) {f : Traffic → Nat} (hf : Traffic.Counted f) :
    f n.received ≤ n.recv.count * wordSize := by
  unfold received
  split
  · exact hf.additive.1 ▸ Nat.zero_le _
  · split <;> rcases hf with rfl | rfl | rfl | rfl <;> simp only [wordSize] <;> omega

end NeighborBuffers

namespace HaloTable

variable {t : HaloTable} {e : Slot × NeighborBuffers} {f : Traffic → Nat}

/-- What a receive buffer gives to do besides waiting; an empty one is passed over. -/
def recvBlock (e : Slot × NeighborBuffers) : List Move :=
  if e.2.recv.count = 0 then []
  else if e.2.shared then block e.1 drainActions else [.act e.1 .deliver]

/-- Of the moves with a send buffer only the one that sends, or gives the lock back, counts. -/
theorem traffic_sendBlock (hf : Traffic.Additive f) (hn : t.at? e.1 = some e.2) :
    ((sendBlock e).map fun k => f (t.traffic k)).sum = f e.2.sent := by
  have hzero : f .zero = 0 := hf.1
  rw [sendBlock, NeighborBuffers.sent]
  split
  · exact hzero.symm
  · cases e.2.shared <;> simp [sendActions, block, traffic, hn, hzero]

/-- Of the moves with a receive buffer only the one that unpacks counts. -/
theorem traffic_recvBlock (hf : Traffic.Additive f) (hn : t.at? e.1 = some e.2) :
    ((recvBlock e).map fun k => f (t.traffic k)).sum = f e.2.received := by
  have hzero : f .zero = 0 := hf.1
  rw [recvBlock, NeighborBuffers.received]
  split
  · exact hzero.symm
  · cases e.2.shared <;> simp [drainActions, block, traffic, hn, hzero]

end HaloTable

/-- The tasks of a rank are those with its buffers, apart from the interior. -/
theorem Party.sum_tasks {p : Party} {g : Move → Nat} (hg : g .interior = 0) :
    (p.tasks.map g).sum = (p.table.entries.map fun e =>
      ((HaloTable.sendBlock e).map g).sum + ((HaloTable.recvBlock e).map g).sum).sum := by
  have hinterior : ((if p.interior then [Move.interior] else []).map g).sum = 0 := by
    cases p.interior
    · rfl
    · simpa using hg
  -- The buffers are gone through one by one.
  have hentries : ∀ es : List (Slot × NeighborBuffers),
      ((es.flatMap HaloTable.sendBlock).map g).sum +
          ((((es.filter fun e => !e.2.shared && e.2.recv.count ≠ 0).map (·.1)).map
            (Move.act · .deliver)).map g).sum +
          ((((es.filter fun e => e.2.shared && e.2.recv.count ≠ 0).map (·.1)).flatMap fun s =>
            block s drainActions).map g).sum =
        (es.map fun e =>
          ((HaloTable.sendBlock e).map g).sum + ((HaloTable.recvBlock e).map g).sum).sum := by
    intro es
    induction es with
    | nil => rfl
    | cons e es ih =>
      rw [List.flatMap_cons, List.map_append, List.sum_append, List.map_cons, List.sum_cons, ← ih,
        List.filter_cons, List.filter_cons, HaloTable.recvBlock]
      simp only [ne_eq]
      by_cases hcount : e.2.recv.count = 0
      · simp only [hcount, not_true_eq_false, decide_false, Bool.and_false, Bool.false_eq_true,
          if_false, if_true, List.map_nil, List.sum_nil]
        omega
      · cases hshared : e.2.shared <;>
          simp only [hcount, not_false_eq_true, decide_true, Bool.and_true, Bool.not_true,
            Bool.not_false, Bool.false_eq_true, if_false, if_true, List.map_cons, List.map_nil,
            List.sum_cons, List.sum_nil, List.flatMap_cons, List.map_append, List.sum_append] <;>
          omega
  have hall := hentries p.table.entries
  rw [tasks, List.map_append, List.map_append, List.map_append, List.sum_append, List.sum_append,
    List.sum_append, hinterior, Nat.add_zero]
  exact hall

/-- Every value is counted once, when its buffer is sent or unpacked. -/
theorem Party.traffic_eq {p : Party} {f : Traffic → Nat} (hf : Traffic.Additive f) :
    (p.tasks.map fun k => f (p.table.traffic k)).sum =
      (p.table.entries.map fun e => f e.2.sent + f e.2.received).sum := by
  rw [Party.sum_tasks (by rw [HaloTable.traffic, hf.1])]
  refine congrArg List.sum (List.map_congr_left fun e he => ?_)
  have hn := HaloTable.mem_entries.mp he
  rw [HaloTable.traffic_sendBlock hf hn, HaloTable.traffic_recvBlock hf hn]

theorem Party.traffic_le {p : Party} {f : Traffic → Nat} (hf : Traffic.Counted f) :
    (p.tasks.map fun k => f (p.table.traffic k)).sum ≤
      (p.table.entries.map fun e => e.2.values).sum * wordSize := by
  rw [Party.traffic_eq hf.additive, ← List.sum_map_mul_right]
  refine List.sum_le_sum fun e _ => ?_
  rw [NeighborBuffers.values, Nat.add_mul]
  exact Nat.add_le_add (e.2.sent_le hf) (e.2.received_le hf)

namespace HaloTable

/-- The values of the buffer of a direction at a place. -/
def valuesAt (t : HaloTable) (place : Slot × Direction) : Nat :=
  (t.buffer? place.1 place.2).elim 0 (·.count)

/-- What a rank stores of its entries is what it stores in its two pools. -/
theorem sum_valuesAt {t : HaloTable} {es : List (Slot × NeighborBuffers)}
    (hes : ∀ e ∈ es, t.at? e.1 = some e.2) :
    (es.map fun e => e.2.ownedValues + e.2.sharedValues).sum =
      ((berths false es).map t.valuesAt).sum + ((berths true es).map t.valuesAt).sum := by
  induction es with
  | nil => rfl
  | cons e es ih =>
    obtain ⟨slot, n⟩ := e
    have hn : t.at? slot = some n := hes _ List.mem_cons_self
    have hvalues : ∀ d, t.valuesAt (slot, d) = (n.buffer d).count := fun d => by
      simp only [valuesAt, buffer?, hn, Option.map_some, Option.elim_some]
    rw [List.map_cons, List.sum_cons, ih fun e he => hes e (List.mem_cons_of_mem _ he),
      berths_cons, berths_cons, List.map_append, List.map_append, List.sum_append,
      List.sum_append]
    cases hshared : n.shared <;>
      simp [NeighborBuffers.ownedValues, NeighborBuffers.sharedValues, NeighborBuffers.housed,
        hshared, hvalues, NeighborBuffers.buffer] <;> omega

/-- What a rank stores itself has room in its pools. -/
theorem Berthed.values_le {t : HaloTable} {h : Heap} (hb : t.Berthed h) :
    (t.entries.map fun e => e.2.ownedValues + e.2.sharedValues).sum * wordSize ≤
      t.poolBytes h := by
  have hpool : ∀ shared, ((berths shared t.entries).map t.valuesAt).sum * wordSize ≤
      ((t.pool? shared).map h.bytes).getD 0 := by
    intro shared
    cases hp : t.pool? shared with
    | none =>
      -- Without a pool there is nothing in it.
      have hnone : berths shared t.entries = [] := by
        refine List.eq_nil_iff_forall_not_mem.mpr fun place hplace => ?_
        have := hb.stored shared place hplace
        rw [hp] at this
        cases this
      rw [hnone]
      exact Nat.zero_le _
    | some pool =>
      have hle := (hb.rows shared pool hp).sum_le (f := t.valuesAt)
        fun slot d b hbuffer hroomy => by
          simp only [valuesAt, hbuffer, Option.elim_some]
          exact Nat.le_trans (Nat.le_add_right _ _) hroomy.fits
      rw [Nat.zero_add] at hle
      rw [Option.map_some, Option.getD_some, Heap.bytes]
      exact Nat.mul_le_mul_right _ hle
  rw [sum_valuesAt fun e he => mem_entries.mp he, Nat.add_mul, poolBytes]
  exact Nat.add_le_add (hpool false) (hpool true)

end HaloTable

/-! ### Several ranks -/

section Links

variable {size : Nat} {parties : Nat → Party} {k : Nat}

/-- The places of some ranks. -/
def placesOf (parties : Nat → Party) (ranks : List Nat) : List (Nat × Slot) :=
  ranks.flatMap fun j => (parties j).table.slots.map (j, ·)

/-- What is counted of the buffers at a place. -/
def amountAt (parties : Nat → Party) (f : NeighborBuffers → Nat) (e : Nat × Slot) : Nat :=
  ((parties e.1).table.at? e.2).elim 0 f

/-- What a rank sends in its shared pool from one of its places. -/
def sharedAt (parties : Nat → Party) (e : Nat × Slot) : Nat :=
  ((parties e.1).table.at? e.2).elim 0 (·.sharedValues)

/-- Where the neighbors of a rank fill the windows that it attached. -/
def counterparts (parties : Nat → Party) (k : Nat) : List (Nat × Slot) :=
  ((parties k).table.entries.filter (·.2.shared)).map fun e => (e.2.rank, (parties k).mirror e.1)

theorem sum_amountAt_placesOf (f : NeighborBuffers → Nat) (ranks : List Nat) :
    ((placesOf parties ranks).map (amountAt parties f)).sum =
      (ranks.map fun j => ((parties j).table.entries.map fun e => f e.2).sum).sum := by
  simp only [placesOf, List.flatMap_def, List.map_flatten, List.sum_flatten, List.map_map]
  refine congrArg List.sum (List.map_congr_left fun j _ => ?_)
  simp only [Function.comp_apply, List.map_map, ← HaloTable.map_fst_entries]
  refine congrArg List.sum (List.map_congr_left fun e he => ?_)
  simp only [Function.comp_apply, amountAt, HaloTable.mem_entries.mp he, Option.elim_some]

theorem sum_sharedAt_placesOf (ranks : List Nat) :
    ((placesOf parties ranks).map (sharedAt parties)).sum =
      (ranks.map fun j => ((parties j).table.entries.map fun e => e.2.sharedValues).sum).sum :=
  sum_amountAt_placesOf (·.sharedValues) ranks

/-- A counterpart belongs to an entry of the rank. -/
theorem Linked.of_mem_counterparts (hl : Linked size parties) (hk : k < size)
    {e : Slot × NeighborBuffers} (he : e ∈ (parties k).table.entries.filter (·.2.shared)) :
    (parties k).table.at? e.1 = some e.2 ∧ e.2.shared = true ∧
      ∃ m, Partners parties k e.1 e.2 m := by
  obtain ⟨he, hshared⟩ := List.mem_filter.mp he
  have hn := HaloTable.mem_entries.mp he
  exact ⟨hn, hshared, hl.partner k hk e.1 e.2 hn⟩

/-- What the neighbors fill is what the rank reads. -/
theorem Linked.sum_counterparts (hl : Linked size parties) (hk : k < size) :
    ((counterparts parties k).map (sharedAt parties)).sum =
      ((parties k).table.entries.map fun e => e.2.borrowedValues).sum := by
  have hfilter : ∀ es : List (Slot × NeighborBuffers),
      (es.map fun e => e.2.borrowedValues).sum =
        ((es.filter (·.2.shared)).map fun e => e.2.recv.count).sum := by
    intro es
    induction es with
    | nil => rfl
    | cons e es ih =>
      rw [List.map_cons, List.sum_cons, ih, List.filter_cons, NeighborBuffers.borrowedValues]
      split
      · rw [List.map_cons, List.sum_cons]
      · rw [Nat.zero_add]
  -- Only shared entries count, and the counterpart of each of them holds as many values.
  rw [hfilter, counterparts, List.map_map]
  refine congrArg List.sum (List.map_congr_left fun e he => ?_)
  obtain ⟨hn, hshared, m, hpartner⟩ := hl.of_mem_counterparts hk he
  simp only [Function.comp_apply, sharedAt, hpartner.entry, Option.elim_some]
  rw [NeighborBuffers.sharedValues, hpartner.shared, if_pos hshared,
    (hpartner.symm hl hk hn).count]

/-- No window is attached twice. -/
theorem Linked.nodup_counterparts (hl : Linked size parties) (hk : k < size) :
    (counterparts parties k).Nodup := by
  refine List.Nodup.map_on (fun e he e' he' heq => ?_)
    (((parties k).table.nodup_entries.of_map _).filter _)
  obtain ⟨hn, -, m, hpartner⟩ := hl.of_mem_counterparts hk he
  obtain ⟨hn', -, m', hpartner'⟩ := hl.of_mem_counterparts hk he'
  obtain ⟨hrank, hmirror⟩ := Prod.mk.inj heq
  -- Mirrored back, the places are the same.
  have hslot : e.1 = e'.1 := by
    rw [← hpartner.mirror, hrank, hmirror, hpartner'.mirror]
  rw [hslot, hn', Option.some.injEq] at hn
  exact Prod.ext hslot hn.symm

theorem Linked.counterparts_subset (hl : Linked size parties) (hk : k < size)
    (hother : ∀ s n, (parties k).table.at? s = some n → n.rank ≠ k) :
    counterparts parties k ⊆ placesOf parties ((List.range size).erase k) := by
  intro x hx
  obtain ⟨e, he, rfl⟩ := List.mem_map.mp hx
  obtain ⟨hn, -, m, hpartner⟩ := hl.of_mem_counterparts hk he
  refine List.mem_flatMap.mpr ⟨e.2.rank, ?_, List.mem_map.mpr ⟨_, ?_, rfl⟩⟩
  · rw [List.nodup_range.mem_erase_iff]
    exact ⟨hother e.1 e.2 hn, List.mem_range.mpr (hl.inRange k hk e.1 e.2 hn)⟩
  · exact HaloTable.mem_slots.mpr (Option.isSome_of_mem hpartner.entry)

/-- Values that a rank receives in the shared pool of a neighbor were sent there for this rank and
for no other one. -/
theorem Linked.borrowedValues_le (hl : Linked size parties) (hk : k < size)
    (hother : ∀ s n, (parties k).table.at? s = some n → n.rank ≠ k) :
    ((parties k).table.entries.map fun e => e.2.borrowedValues).sum ≤
      (((List.range size).erase k).map fun j =>
        ((parties j).table.entries.map fun e => e.2.sharedValues).sum).sum := by
  obtain ⟨l, hperm, hsublist⟩ :=
    List.subperm_of_subset (hl.nodup_counterparts hk) (hl.counterparts_subset hk hother)
  rw [← hl.sum_counterparts hk, ← sum_sharedAt_placesOf, ← (hperm.map (sharedAt parties)).sum_eq]
  exact (hsublist.map (sharedAt parties)).sum_le_sum fun _ _ => Nat.zero_le _

/-- What a rank sends and receives has room in the pools of all ranks. -/
theorem Linked.traffic_le (hl : Linked size parties) (hk : k < size)
    (hother : ∀ s n, (parties k).table.at? s = some n → n.rank ≠ k) {h : Heap}
    (hb : ∀ j < size, (parties j).table.Berthed h) {f : Traffic → Nat} (hf : Traffic.Counted f) :
    ((parties k).tasks.map fun k' => f ((parties k).table.traffic k')).sum ≤
      ((List.range size).map fun j => (parties j).table.poolBytes h).sum := by
  have hborrowed := hl.borrowedValues_le hk hother
  have hvalues : ((parties k).table.entries.map fun e => e.2.values).sum =
      ((parties k).table.entries.map fun e => e.2.ownedValues + e.2.sharedValues).sum +
        ((parties k).table.entries.map fun e => e.2.borrowedValues).sum := by
    rw [← List.sum_map_add]
    exact congrArg List.sum (List.map_congr_left fun e _ => e.2.values_eq)
  have hshared : ∀ j, ((parties j).table.entries.map fun e => e.2.sharedValues).sum ≤
      ((parties j).table.entries.map fun e => e.2.ownedValues + e.2.sharedValues).sum :=
    fun j => List.sum_le_sum fun e _ => Nat.le_add_left _ _
  have hpools : ∀ j < size, ((parties j).table.entries.map fun e =>
      e.2.ownedValues + e.2.sharedValues).sum * wordSize ≤ (parties j).table.poolBytes h :=
    fun j hj => (hb j hj).values_le
  rw [← List.sum_map_erase _ (List.mem_range.mpr hk)]
  refine Nat.le_trans (Party.traffic_le hf) ?_
  rw [hvalues, Nat.add_mul]
  -- its own part fits in its own pools, and what it borrows in the shared pools of the others
  refine Nat.add_le_add (hpools k hk) (Nat.le_trans (Nat.mul_le_mul_right _ hborrowed) ?_)
  rw [← List.sum_map_mul_right]
  refine List.sum_le_sum fun j hj => ?_
  exact Nat.le_trans (Nat.mul_le_mul_right _ (hshared j))
    (hpools j (List.mem_range.mp (List.mem_of_mem_erase hj)))

end Links

end StencilPlan
