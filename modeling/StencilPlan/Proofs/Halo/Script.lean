import StencilPlan.Proofs.Halo.Layout

/-!
# The moves of an exchange

What a rank does in an exchange is a fixed list of moves without repetitions. What it does with one
buffer stands in that list as a block: the moves of a send buffer and those of a shared receive
buffer follow each other without a gap, and a message is posted before it is asked for. So how far
a rank has come with a buffer is how many moves of the block are no longer ahead of it.
-/

namespace StencilPlan

/-- What is done with a send buffer. -/
def sendActions (shared : Bool) : List Action :=
  if shared then [.pack, .drained, .lockSend, .fill, .raise, .unlockSend] else [.pack, .send]

/-- What is done with a shared receive buffer. -/
def drainActions : List Action := [.filled, .lockRecv, .drain, .lower, .unlockRecv, .unpack]

/-- Some actions at one place. -/
def block (s : Slot) (actions : List Action) : List Move := actions.map (.act s)

theorem mem_block {s : Slot} {actions : List Action} {m : Move} :
    m ∈ block s actions ↔ ∃ a ∈ actions, m = .act s a := by
  simp only [block, List.mem_map, eq_comm]

theorem act_mem_block {s s' : Slot} {actions : List Action} {a : Action} :
    .act s' a ∈ block s actions ↔ s' = s ∧ a ∈ actions := by
  simp only [mem_block, Move.act.injEq]
  constructor
  · rintro ⟨b, hb, rfl, rfl⟩
    exact ⟨rfl, hb⟩
  · rintro ⟨rfl, ha⟩
    exact ⟨a, ha, rfl, rfl⟩

theorem nodup_block {s : Slot} {actions : List Action} (h : actions.Nodup) :
    (block s actions).Nodup :=
  h.map fun _ _ heq => (Move.act.inj heq).2

@[simp] theorem length_block (s : Slot) (actions : List Action) :
    (block s actions).length = actions.length := List.length_map _

theorem getElem?_block (s : Slot) (actions : List Action) (i : Nat) :
    (block s actions)[i]? = (actions[i]?).map (.act s) := List.getElem?_map

namespace HaloTable

variable {t : HaloTable} {s : Slot} {n : NeighborBuffers} {a : Action} {interior : Bool}

/-- Every buffer of the table holds a number of values. -/
def Sized (t : HaloTable) : Prop :=
  ∀ s n, t.at? s = some n → n.send.size = .ok n.send.count ∧ n.recv.size = .ok n.recv.count

/-- The places where a message is received. -/
def incoming (t : HaloTable) : List Slot :=
  (t.entries.filter fun e => !e.2.shared && e.2.recv.count ≠ 0).map (·.1)

/-- The places where a shared buffer is drained. -/
def draining (t : HaloTable) : List Slot :=
  (t.entries.filter fun e => e.2.shared && e.2.recv.count ≠ 0).map (·.1)

/-- The moves with a send buffer; an empty one is passed over. -/
def sendBlock (e : Slot × NeighborBuffers) : List Move :=
  if e.2.send.count = 0 then [] else block e.1 (sendActions e.2.shared)

/-- The moves of an exchange, without the checks on the way to them. -/
def script (t : HaloTable) (interior : Bool) : List Move :=
  t.incoming.map (.act · .post) ++ t.entries.flatMap sendBlock ++
    (if interior then [Move.interior] else []) ++ t.incoming.map (.act · .poll) ++
    t.incoming.map (.act · .await) ++ t.draining.flatMap fun s => block s drainActions

theorem messageReceives_eq_ok {es : List (Slot × NeighborBuffers)}
    (hsize : ∀ e ∈ es, e.2.recv.size = .ok e.2.recv.count) : messageReceives es =
      .ok ((es.filter fun e => !e.2.shared && e.2.recv.count ≠ 0).map (·.1)) := by
  induction es with
  | nil => rfl
  | cons e es ih =>
    obtain ⟨s, n⟩ := e
    have hn : n.recv.size = .ok n.recv.count := hsize _ List.mem_cons_self
    rw [messageReceives, ih fun e he => hsize e (List.mem_cons_of_mem _ he)]
    cases hshared : n.shared <;> by_cases hcount : n.recv.count = 0 <;>
      simp [bind, Except.bind, pure, Except.pure, hshared, hn, hcount]

theorem sharedReceives_eq_ok {es : List (Slot × NeighborBuffers)}
    (hsize : ∀ e ∈ es, e.2.recv.size = .ok e.2.recv.count) : sharedReceives es =
      .ok ((es.filter fun e => e.2.shared && e.2.recv.count ≠ 0).map (·.1)) := by
  induction es with
  | nil => rfl
  | cons e es ih =>
    obtain ⟨s, n⟩ := e
    have hn : n.recv.size = .ok n.recv.count := hsize _ List.mem_cons_self
    rw [sharedReceives, ih fun e he => hsize e (List.mem_cons_of_mem _ he)]
    cases hshared : n.shared <;> by_cases hcount : n.recv.count = 0 <;>
      simp [bind, Except.bind, pure, Except.pure, hshared, hn, hcount]

theorem sendMoves_eq_ok {es : List (Slot × NeighborBuffers)}
    (hsize : ∀ e ∈ es, e.2.send.size = .ok e.2.send.count) :
    sendMoves es = .ok (es.flatMap sendBlock) := by
  induction es with
  | nil => rfl
  | cons e es ih =>
    obtain ⟨s, n⟩ := e
    have hn : n.send.size = .ok n.send.count := hsize _ List.mem_cons_self
    rw [sendMoves, ih fun e he => hsize e (List.mem_cons_of_mem _ he)]
    by_cases hcount : n.send.count = 0 <;>
      simp [bind, Except.bind, pure, Except.pure, hn, hcount, sendBlock, block, sendActions]

/-- With buffers that hold a number of values the list of moves can be worked out. -/
theorem moves_eq_ok (h : t.Sized) : t.moves interior = .ok (t.script interior) := by
  have hsend : ∀ e ∈ t.entries, e.2.send.size = .ok e.2.send.count := fun e he =>
    (h e.1 e.2 (mem_entries.mp he)).1
  have hrecv : ∀ e ∈ t.entries, e.2.recv.size = .ok e.2.recv.count := fun e he =>
    (h e.1 e.2 (mem_entries.mp he)).2
  rw [moves, messageReceives_eq_ok hrecv, sharedReceives_eq_ok hrecv, sendMoves_eq_ok hsend]
  rfl

/-! ### Which moves there are -/

theorem mem_incoming : s ∈ t.incoming ↔ ∃ n, t.at? s = some n ∧ n.shared = false ∧
    n.recv.count ≠ 0 := by
  simp only [incoming, List.mem_map, List.mem_filter, mem_entries, Prod.exists, Bool.and_eq_true,
    Bool.not_eq_true', decide_eq_true_eq]
  constructor
  · rintro ⟨_, n, h, rfl⟩
    exact ⟨n, h⟩
  · rintro ⟨n, h⟩
    exact ⟨s, n, h, rfl⟩

theorem mem_draining : s ∈ t.draining ↔ ∃ n, t.at? s = some n ∧ n.shared = true ∧
    n.recv.count ≠ 0 := by
  simp only [draining, List.mem_map, List.mem_filter, mem_entries, Prod.exists, Bool.and_eq_true,
    decide_eq_true_eq]
  constructor
  · rintro ⟨_, n, h, rfl⟩
    exact ⟨n, h⟩
  · rintro ⟨n, h⟩
    exact ⟨s, n, h, rfl⟩

theorem mem_sends {m : Move} : m ∈ t.entries.flatMap sendBlock ↔
    ∃ s n, t.at? s = some n ∧ n.send.count ≠ 0 ∧ m ∈ block s (sendActions n.shared) := by
  simp only [List.mem_flatMap, mem_entries, Prod.exists, sendBlock]
  refine exists₂_congr fun s n => and_congr_right fun _ => ?_
  by_cases h : n.send.count = 0 <;> simp [h]

/-- What may be done with the buffers at a place. -/
def Allows (n : NeighborBuffers) : Action → Prop
  | .post | .poll | .await => n.shared = false ∧ n.recv.count ≠ 0
  | .pack => n.send.count ≠ 0
  | .send => n.shared = false ∧ n.send.count ≠ 0
  | .drained | .lockSend | .fill | .raise | .unlockSend => n.shared = true ∧ n.send.count ≠ 0
  | .filled | .lockRecv | .drain | .lower | .unlockRecv | .unpack =>
    n.shared = true ∧ n.recv.count ≠ 0
  | .deliver => False

theorem mem_script {m : Move} : m ∈ t.script interior ↔
    (∃ s ∈ t.incoming, m = .act s .post ∨ m = .act s .poll ∨ m = .act s .await) ∨
    (∃ s n, t.at? s = some n ∧ n.send.count ≠ 0 ∧ m ∈ block s (sendActions n.shared)) ∨
    (interior = true ∧ m = .interior) ∨ ∃ s ∈ t.draining, m ∈ block s drainActions := by
  -- The two sides list the parts of the script in a different order, so each part is carried over.
  have hinterior : m ∈ (if interior then [Move.interior] else []) ↔
      interior = true ∧ m = .interior := by
    cases interior <;> simp
  rw [script, List.mem_append, List.mem_append, List.mem_append, List.mem_append, List.mem_append,
    mem_sends, hinterior, List.mem_flatMap]
  simp only [List.mem_map, eq_comm (b := m)]
  constructor
  · rintro (((((⟨s, hs, h⟩ | h) | h) | ⟨s, hs, h⟩) | ⟨s, hs, h⟩) | h)
    · exact .inl ⟨s, hs, .inl h⟩
    · exact .inr (.inl h)
    · exact .inr (.inr (.inl h))
    · exact .inl ⟨s, hs, .inr (.inl h)⟩
    · exact .inl ⟨s, hs, .inr (.inr h)⟩
    · exact .inr (.inr (.inr h))
  · rintro (⟨s, hs, h | h | h⟩ | h | h | h)
    · exact .inl (.inl (.inl (.inl (.inl ⟨s, hs, h⟩))))
    · exact .inl (.inl (.inr ⟨s, hs, h⟩))
    · exact .inl (.inr ⟨s, hs, h⟩)
    · exact .inl (.inl (.inl (.inl (.inr h))))
    · exact .inl (.inl (.inl (.inr h)))
    · exact .inr h

theorem allows_of_mem_script (h : .act s a ∈ t.script interior) :
    ∃ n, t.at? s = some n ∧ Allows n a := by
  -- What is asked of the buffers is what put the move into its part of the list.
  rcases mem_script.mp h with ⟨s', hs, h⟩ | ⟨s', n, hn, hcount, h⟩ | ⟨-, h⟩ | ⟨s', hs, h⟩
  · rcases h with h | h | h
    all_goals
      obtain ⟨rfl, rfl⟩ := Move.act.inj h
      exact mem_incoming.mp hs
  · obtain ⟨rfl, ha⟩ := act_mem_block.mp h
    refine ⟨n, hn, ?_⟩
    cases hshared : n.shared <;>
      simp only [sendActions, hshared, if_true, Bool.false_eq_true, if_false, List.mem_cons,
        List.not_mem_nil, or_false] at ha
    · rcases ha with rfl | rfl
      · exact hcount
      · exact ⟨hshared, hcount⟩
    · rcases ha with rfl | rfl | rfl | rfl | rfl | rfl <;>
        first | exact ⟨hshared, hcount⟩ | exact hcount
  · cases h
  · obtain ⟨rfl, ha⟩ := act_mem_block.mp h
    obtain ⟨n, hn, hall⟩ := mem_draining.mp hs
    refine ⟨n, hn, ?_⟩
    simp only [drainActions, List.mem_cons, List.not_mem_nil, or_false] at ha
    rcases ha with rfl | rfl | rfl | rfl | rfl | rfl <;> exact hall

theorem deliver_notMem_script : .act s .deliver ∉ t.script interior := fun h =>
  (allows_of_mem_script h).elim fun _ h => h.2

/-! ### No move is made twice -/

theorem nodup_incoming (t : HaloTable) : t.incoming.Nodup :=
  (nodup_entries t).sublist (List.filter_sublist.map _)

theorem nodup_draining (t : HaloTable) : t.draining.Nodup :=
  (nodup_entries t).sublist (List.filter_sublist.map _)

/-- The part of an exchange that a move belongs to, by number. -/
def part : Move → Nat
  | .act _ .post => 0
  | .interior => 2
  | .act _ .poll => 3
  | .act _ .await => 4
  | .act _ a => if a ∈ drainActions then 5 else 1

theorem part_of_mem_sends {m : Move} (h : m ∈ t.entries.flatMap sendBlock) : part m = 1 := by
  obtain ⟨s, n, -, -, hm⟩ := mem_sends.mp h
  obtain ⟨a, ha, rfl⟩ := mem_block.mp hm
  rw [sendActions] at ha
  split at ha <;> simp only [List.mem_cons, List.not_mem_nil, or_false] at ha
  · rcases ha with rfl | rfl | rfl | rfl | rfl | rfl <;> rfl
  · rcases ha with rfl | rfl <;> rfl

theorem part_of_mem_drains {m : Move}
    (h : m ∈ t.draining.flatMap fun s => block s drainActions) : part m = 5 := by
  obtain ⟨s, -, hm⟩ := List.mem_flatMap.mp h
  obtain ⟨a, ha, rfl⟩ := mem_block.mp hm
  simp only [drainActions, List.mem_cons, List.not_mem_nil, or_false] at ha
  rcases ha with rfl | rfl | rfl | rfl | rfl | rfl <;> rfl

theorem disjoint_block {actions actions' : List Action} {s s' : Slot} (hne : s ≠ s') :
    (block s actions).Disjoint (block s' actions') := by
  intro m hm hm'
  obtain ⟨a, -, rfl⟩ := mem_block.mp hm
  exact hne (act_mem_block.mp hm').1

theorem nodup_sends (t : HaloTable) : (t.entries.flatMap sendBlock).Nodup := by
  refine List.nodup_flatMap.mpr ⟨fun e _ => ?_, ?_⟩
  · rw [sendBlock]
    split
    · exact List.nodup_nil
    · refine nodup_block ?_
      rw [sendActions]
      split <;> decide
  · refine (List.pairwise_map.mp t.nodup_entries).imp fun {e f} hne => ?_
    simp only [Function.onFun, sendBlock]
    split <;> split <;> first | exact disjoint_block hne | simp

theorem nodup_drains (t : HaloTable) :
    (t.draining.flatMap fun s => block s drainActions).Nodup :=
  List.nodup_flatMap.mpr ⟨fun _ _ => nodup_block (by decide),
    t.nodup_draining.imp fun hne => disjoint_block hne⟩

theorem nodup_script (t : HaloTable) (interior : Bool) : (t.script interior).Nodup := by
  have hmessages : ∀ a, (t.incoming.map (Move.act · a)).Nodup := fun a =>
    t.nodup_incoming.map fun _ _ h => (Move.act.inj h).1
  have hpart : ∀ {a k}, (∀ s, part (.act s a) = k) →
      ∀ m ∈ t.incoming.map (Move.act · a), part m = k := by
    intro a k h m hm
    obtain ⟨s, -, rfl⟩ := List.mem_map.mp hm
    exact h s
  -- the parts of an exchange come in the order of their numbers
  have happend : ∀ {l l' : List Move} {k : Nat}, (l.Nodup ∧ ∀ m ∈ l, part m < k) → l'.Nodup →
      (∀ m ∈ l', part m = k) → (l ++ l').Nodup ∧ ∀ m ∈ l ++ l', part m < k + 1 := by
    intro l l' k ⟨hl, hlt⟩ hl' heq
    refine ⟨List.Nodup.append hl hl' fun m hm hm' => ?_, fun m hm => ?_⟩
    · have := hlt m hm
      have := heq m hm'
      omega
    · rcases List.mem_append.mp hm with hm | hm
      · have := hlt m hm
        omega
      · have := heq m hm
        omega
  have hinterior : (if interior then [Move.interior] else []).Nodup ∧
      ∀ m ∈ (if interior then [Move.interior] else []), part m = 2 := by
    cases interior <;> simp [part]
  have hposts := happend (l := []) (k := 0) ⟨List.nodup_nil, nofun⟩ (hmessages .post)
    (hpart fun _ => rfl)
  have hsends := happend hposts t.nodup_sends fun _ hm => part_of_mem_sends hm
  have hinteriors := happend hsends hinterior.1 hinterior.2
  have hpolls := happend hinteriors (hmessages .poll) (hpart fun _ => rfl)
  have hawaits := happend hpolls (hmessages .await) (hpart fun _ => rfl)
  exact (happend hawaits t.nodup_drains fun _ hm => part_of_mem_drains hm).1

/-! ### Where the moves with a buffer stand -/

theorem flatMap_within {α β : Type} {l : List α} {f : α → List β} {x : α} (h : x ∈ l) :
    f x <:+: l.flatMap f := by
  obtain ⟨before, after, rfl⟩ := List.append_of_mem h
  exact ⟨before.flatMap f, after.flatMap f, by simp⟩

/-- The moves with a send buffer follow each other. -/
theorem sendBlock_within (hn : t.at? s = some n) (hcount : n.send.count ≠ 0) :
    block s (sendActions n.shared) <:+: t.script interior := by
  have hblock := flatMap_within (f := sendBlock) (mem_entries.mpr (show t.at? (s, n).1 = _ from hn))
  rw [sendBlock, if_neg hcount] at hblock
  refine hblock.trans ?_
  simp only [script, List.append_assoc]
  exact List.infix_append' _ _ _

/-- The moves with a shared receive buffer follow each other. -/
theorem drainBlock_within (hn : t.at? s = some n) (hshared : n.shared = true)
    (hcount : n.recv.count ≠ 0) : block s drainActions <:+: t.script interior := by
  have hs : s ∈ t.draining := mem_draining.mpr ⟨n, hn, hshared, hcount⟩
  exact (flatMap_within (f := fun s => block s drainActions) hs).trans
    (List.suffix_append _ _).isInfix

/-- A message is posted before it is asked for or waited for. -/
theorem post_before (hs : s ∈ t.incoming) : ∃ before after, t.script interior = before ++ after ∧
    .act s .post ∈ before ∧ .act s .poll ∈ after ∧ .act s .await ∈ after := by
  have hmem : ∀ a, .act s a ∈ t.incoming.map (Move.act · a) := fun a =>
    List.mem_map.mpr ⟨s, hs, rfl⟩
  refine ⟨t.incoming.map (.act · .post), t.entries.flatMap sendBlock ++
    (if interior then [Move.interior] else []) ++ t.incoming.map (.act · .poll) ++
    t.incoming.map (.act · .await) ++ t.draining.flatMap fun s => block s drainActions, ?_,
    hmem .post, ?_, ?_⟩
  · simp only [script, List.append_assoc]
  · exact List.mem_append_left _ (List.mem_append_left _ (List.mem_append_right _ (hmem .poll)))
  · exact List.mem_append_left _ (List.mem_append_right _ (hmem .await))

end HaloTable

end StencilPlan
