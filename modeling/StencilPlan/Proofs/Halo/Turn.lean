import StencilPlan.Proofs.Halo.Sound

/-!
# Taking turns at a shared window

The handshake over a shared window counts moves over all rounds. Here the counts are read off what
the two ranks still have ahead of them: how often each has filled or drained the window, and who
holds the lock. So a window is filled only when all earlier values were read, and it is read only
when it holds the values of the round.
-/

namespace StencilPlan

open Heap

namespace CrewMember

/-- How often the rank has made a move in all its rounds. -/
def times (m : CrewMember Universe) (k : Move) : Nat :=
  m.past.length + if k ∈ m.exchange.todo then 0 else 1

/-- The rank holds the lock of the shared send buffer at a place. -/
def HoldsSend (m : CrewMember Universe) (s : Slot) : Prop :=
  .act s .lockSend ∉ m.exchange.todo ∧ .act s .unlockSend ∈ m.exchange.todo

/-- The rank holds the lock of the shared receive buffer at a place. -/
def HoldsRecv (m : CrewMember Universe) (s : Slot) : Prop :=
  .act s .lockRecv ∉ m.exchange.todo ∧ .act s .unlockRecv ∈ m.exchange.todo

instance (m : CrewMember Universe) (s : Slot) : Decidable (m.HoldsSend s) :=
  inferInstanceAs (Decidable (_ ∧ _))

instance (m : CrewMember Universe) (s : Slot) : Decidable (m.HoldsRecv s) :=
  inferInstanceAs (Decidable (_ ∧ _))

end CrewMember

/-! ### Counting moves -/

section Count

variable {p : Party} {round i : Nat} {x : Exchange Universe} {m : CrewMember Universe} {k : Move}
  {b : List Move}

/-- A move of a block is done if the block has come further than the move. -/
theorem Exchange.Follows.notMem_todo_iff (hx : x.Follows p round)
    (hb : b <:+: p.table.script p.interior) (hi : b[i]? = some k) :
    k ∉ x.todo ↔ i < doneOf x.todo b := by
  obtain ⟨done, rest, hscript, htodo⟩ := hx.course
  have hk : k ∈ p.table.script p.interior := hb.subset (List.mem_of_getElem? hi)
  have hdeliver : ∀ s, k ≠ .act s .deliver := by
    rintro s rfl
    exact HaloTable.deliver_notMem_script hk
  -- Without the message in hand only the end of the script is ahead.
  rw [mem_ahead htodo hdeliver, doneOf_ahead htodo hb]
  have hnodup := p.table.nodup_script p.interior
  obtain ⟨before, after, hsplit⟩ := hb
  have hlt := (List.getElem?_eq_some_iff.mp hi).1
  have hget : (p.table.script p.interior)[before.length + i]? = some k := by
    rw [← hsplit, List.append_assoc, List.getElem?_append_right (by omega),
      Nat.add_sub_cancel_left, List.getElem?_append_left hlt, hi]
  rw [mem_rest_iff hnodup hscript hget, doneOf_eq_min hnodup hscript hsplit.symm]
  omega

/-- How often a move was made, counted over the block. -/
theorem CrewMember.Follows.made_turns (hm : m.Follows p)
    (hb : b <:+: p.table.script p.interior) (hlen : b.length = 6) (hi : b[i]? = some k) :
    made i (m.turns b) = m.times k := by
  have hdone := hm.exchange.notMem_todo_iff hb hi
  have hle := doneOf_le_length m.exchange.todo b
  have hlt := (List.getElem?_eq_some_iff.mp hi).1
  rw [made, CrewMember.turns, CrewMember.times, hlen]
  -- The rounds that are over count in full, and the one that goes on if the move is made.
  by_cases hk : k ∈ m.exchange.todo
  · have : ¬ i < doneOf m.exchange.todo b := fun h => hdone.mpr h hk
    rw [if_pos hk]
    omega
  · have := hdone.mp hk
    rw [if_neg hk]
    omega

/-- A rank has made the next move in all rounds before. -/
theorem CrewMember.times_next {rest : List Move} (htodo : m.exchange.todo = k :: rest) :
    m.times k = m.past.length := by
  rw [CrewMember.times, htodo, if_pos List.mem_cons_self, Nat.add_zero]

end Count

namespace Crew

variable {size : Nat} {parties : Nat → Party} {c d : Crew Universe} {i : Nat}

/-! ### The two sides of a window -/

section Sides

variable {k : Nat} {m m' : CrewMember Universe} {s : Slot} {n : NeighborBuffers}
  (hl : Linked size parties) (h : Sound size parties c) (hm : c.members[k]? = some m)
  (hn : (parties k).table.at? s = some n)

include hl h hm hn

/-- The handshake over a window, with the moves that the writer `m` and the reader `m'` have
made. -/
theorem Sound.shake (hm' : c.members[n.rank]? = some m') (hshared : n.shared = true)
    (hcount : n.send.count ≠ 0) :
    ∃ v p q, n.send.window = some v ∧
      Handshake (fun r => (parties k).vector r s) v.pool v.offset n.send.count p q c.world.heap ∧
      (∀ j a, (sendActions true)[j]? = some a → made j p = m.times (.act s a)) ∧
      ∀ j a, drainActions[j]? = some a → made j q = m'.times (.act ((parties k).mirror s) a) := by
  have hk := h.manned.lt hm
  obtain ⟨v, -, hsend, -⟩ := h.housed.lodged k hk s n hn
  have hshake := h.shakes.link k hk s n v hn hshared hcount hsend.window
  rw [tally_of_member hm, tally_of_member hm'] at hshake
  refine ⟨v, _, _, hsend.window, hshake, fun j a ha => ?_, fun j a ha => ?_⟩
  · apply (h.manned.follows k m hm).made_turns (fills_within hn hshared hcount) rfl
    rw [getElem?_block, ha, Option.map_some]
  · apply (h.manned.follows _ m' hm').made_turns (drains_mirror hl hk hn hshared hcount) rfl
    rw [getElem?_block, ha, Option.map_some]

/-- The reader is never ahead of the writer, and never more than one round behind. -/
theorem Sound.drains_bounds (hm' : c.members[n.rank]? = some m') (hshared : n.shared = true)
    (hcount : n.send.count ≠ 0) :
    m'.times (.act ((parties k).mirror s) .drain) ≤ m.times (.act s .fill) ∧
      m.times (.act s .drained) ≤ m'.times (.act ((parties k).mirror s) .drain) + 1 := by
  obtain ⟨v, p, q, -, hshake, hp, hq⟩ := h.shake hl hm hn hm' hshared hcount
  rw [← hp 3 .fill rfl, ← hp 1 .drained rfl, ← hq 2 .drain rfl]
  -- The moves of either side come in order, so that the handshake bounds all of them.
  constructor
  · calc made 2 q ≤ made 0 q := made_le (by decide)
      _ ≤ made 4 p := hshake.behind
      _ ≤ made 3 p := made_le (by decide)
  · have hlater : made 3 q ≤ made 2 q := made_le (by decide)
    have := hshake.ahead
    omega

/-- A window that is about to be filled was read in all rounds before. -/
theorem Sound.drains_of_fill (hm' : c.members[n.rank]? = some m') {rest : List Move}
    (htodo : m.exchange.todo = .act s .fill :: rest) :
    m'.times (.act ((parties k).mirror s) .drain) = m.past.length := by
  have hx := (h.manned.follows k m hm).exchange
  obtain ⟨hshared, hcount⟩ := (hx.allows htodo hn).resolve_right nofun
  obtain ⟨hbehind, hahead⟩ := h.drains_bounds hl hm hn hm' hshared hcount
  -- Before it fills the window the writer has seen that it was drained.
  have hdrained : m.times (.act s .drained) = m.past.length + 1 := by
    have hblock := fills_within (p := parties k) hn hshared hcount
    have hthree : doneOf m.exchange.todo (block s (sendActions true)) = 3 :=
      hx.doneOf_head htodo hblock rfl
    have hnot : .act s .drained ∉ m.exchange.todo :=
      (hx.notMem_todo_iff (i := 1) hblock rfl).mpr (by omega)
    rw [CrewMember.times, if_neg hnot]
  rw [CrewMember.times_next htodo] at hbehind
  omega

/-- The lock word says whether one of the two holds the lock, and never do both. -/
theorem Sound.lockWord (hm' : c.members[n.rank]? = some m') (hshared : n.shared = true)
    (hcount : n.send.count ≠ 0) :
    ∃ v, n.send.window = some v ∧ ¬ (m.HoldsSend s ∧ m'.HoldsRecv ((parties k).mirror s)) ∧
      c.world.heap.word? v.pool (v.offset + n.send.count) =
        some (if m.HoldsSend s ∨ m'.HoldsRecv ((parties k).mirror s) then 1 else 0) := by
  obtain ⟨v, p, q, hv, hshake, hp, hq⟩ := h.shake hl hm hn hm' hshared hcount
  -- Who has locked once more often than unlocked holds the lock.
  have hsend : made 2 p - made 5 p = if m.HoldsSend s then 1 else 0 := by
    rw [hp 2 .lockSend rfl, hp 5 .unlockSend rfl]
    simp only [CrewMember.times, CrewMember.HoldsSend]
    split <;> split <;> simp_all
  have hrecv : made 1 q - made 4 q = if m'.HoldsRecv ((parties k).mirror s) then 1 else 0 := by
    rw [hq 1 .lockRecv rfl, hq 4 .unlockRecv rfl]
    simp only [CrewMember.times, CrewMember.HoldsRecv]
    split <;> split <;> simp_all
  have hsingle := hshake.single
  rw [holders, hsend, hrecv] at hsingle
  refine ⟨v, hv, ?_, ?_⟩
  · rintro ⟨hwriter, hreader⟩
    rw [if_pos hwriter, if_pos hreader] at hsingle
    omega
  · rw [hshake.lock, holders, hsend, hrecv]
    by_cases hwriter : m.HoldsSend s
    · by_cases hreader : m'.HoldsRecv ((parties k).mirror s)
      · rw [if_pos hwriter, if_pos hreader] at hsingle
        omega
      · simp [hwriter, hreader]
    · by_cases hreader : m'.HoldsRecv ((parties k).mirror s)
      · simp [hwriter, hreader]
      · simp [hwriter, hreader]

/-- What is read in a round is what the neighbor packed in it. -/
theorem Sound.read_eq {rest : List Move} (htodo : m.exchange.todo = .act s .drain :: rest) :
    n.recv.read c.world.heap n.recv.count =
      .ok ((parties n.rank).vector m.past.length ((parties k).mirror s)) := by
  have hk := h.manned.lt hm
  have hx := (h.manned.follows k m hm).exchange
  obtain ⟨hshared, hcount⟩ := (hx.allows htodo hn).resolve_right nofun
  obtain ⟨-, v, -, hrecv, -⟩ := h.housed.lodged k hk s n hn
  have hshake := h.shakes.link_at_reader hl h.housed hk hn hshared hcount hrecv.window
  have htwo : doneOf m.exchange.todo (block s drainActions) = 2 :=
    hx.doneOf_head htodo (HaloTable.drainBlock_within hn hshared hcount) rfl
  have hreads : c.tally (·.reads s) k = 6 * m.past.length + 2 := by
    rw [tally_of_member hm, CrewMember.reads, CrewMember.turns, htwo, length_block]
    simp only [drainActions, List.length_cons, List.length_nil]
    omega
  -- With the number of reads known, the handshake tells the round whose values stand in the window.
  obtain ⟨vs, hread⟩ := hrecv.exists_read hcount
  rw [hread, hshake.read hrecv (by omega) hread]
  congr 2
  omega

end Sides

/-! ### Windows that nobody uses -/

/-- The control words of shared windows without values are zero. -/
def Unused (size : Nat) (parties : Nat → Party) (h : Heap) : Prop :=
  ∀ k < size, ∀ s n w, (parties k).table.at? s = some n → n.shared = true → n.send.count = 0 →
    n.send.window = some w →
      h.word? w.pool w.offset = some 0 ∧ h.word? w.pool (w.offset + 1) = some 0

/-- No move has to do with a shared window that has no values. -/
theorem Sound.unused_step (hl : Linked size parties) (h : Sound size parties c)
    (hunused : Unused size parties c.world.heap) (hstep : c.step i = some d) :
    Unused size parties d.world.heap := by
  obtain ⟨m, m', hr, hsteps⟩ := h.manned.steps hstep
  have hi := h.manned.lt hr.old
  have hx := (h.manned.follows i m hr.old).exchange
  generalize d.world = w at hsteps
  cases hsteps with
  | again | fail => exact hunused
  | advance _ hadvance =>
    cases hadvance with
    | interior | skip => exact hunused
    | @act s₀ n₀ a _ _ _ htodo hn₀ hperf =>
      rw [hx.table] at hn₀
      intro k hk s n v hn hshared hzero hv
      obtain ⟨u, u', hsend, hrecv, hu, hu'⟩ := h.housed.lodged i hi s₀ n₀ hn₀
      have hallows := hx.allows htodo hn₀
      obtain ⟨hlock, hready⟩ := hunused k hk s n v hn hshared hzero hv
      have hword : ∀ j, v.offset ≤ j → j < v.offset + 2 →
          w.heap.word? v.pool j = c.world.heap.word? v.pool j := by
        intro j hge hlt
        rcases hperf.alters hsend hrecv with hsame | ⟨ha, halters⟩ | ⟨ha, halters⟩
        · rw [hsame]
        · apply halters.word
          apply h.housed.send_apart hk hi hn hn₀ hshared hv hsend.window hu ?_ hge (by omega)
          -- Nothing is done with a send buffer without values.
          rintro ⟨-, rfl, rfl⟩
          obtain rfl := Option.some.inj (hn.symm.trans hn₀)
          have hsome : n.send.count ≠ 0 := by
            have := hallows.resolve_right (by rintro rfl; simp [sendActions] at ha)
            cases a <;> simp_all [HaloTable.Allows, sendActions]
          exact hsome hzero
        · apply halters.word
          apply h.housed.recv_apart hl hk hi hn hn₀ hshared hv hrecv.window hu' ?_ hge (by omega)
          rintro ⟨hshared₀, rfl, rfl⟩
          obtain ⟨n', hpartner⟩ := hl.partner k hk s n hn
          obtain rfl := Option.some.inj (hn₀.symm.trans hpartner.entry)
          have hsome : n₀.recv.count ≠ 0 := by
            by_cases hdeliver : a = .deliver
            · subst hdeliver
              exact (hx.of_deliver htodo hn₀).2
            · have := hallows.resolve_right hdeliver
              cases a <;> simp_all [HaloTable.Allows, drainActions]
          exact hsome (hpartner.count.trans hzero)
      rw [hword _ (Nat.le_refl _) (by omega), hword _ (Nat.le_succ _) (by omega)]
      exact ⟨hlock, hready⟩

theorem Sound.unused_reaches (hl : Linked size parties) (h : Sound size parties c)
    (hunused : Unused size parties c.world.heap) (hreach : Reaches c d) :
    Unused size parties d.world.heap := by
  induction hreach with
  | refl => exact hunused
  | step _ hreach hstep ih => exact (h.reaches hl hreach).unused_step hl ih hstep

/-- When all ranks have done all their rounds, no flag is up and no lock is taken. -/
theorem Sound.idle_of_finished (hl : Linked size parties) (h : Sound size parties c)
    (hunused : Unused size parties c.world.heap) (hdone : ∀ m ∈ c.members, m.finished)
    (hrounds : ∀ k < size, ∀ j < size, (parties k).rounds = (parties j).rounds) :
    Idle size parties c.world.heap := by
  intro k hk s n v hn hshared hv
  by_cases hcount : n.send.count = 0
  · rw [hcount]
    exact hunused k hk s n v hn hshared hcount hv
  · have hj := hl.inRange k hk s n hn
    obtain ⟨m, hm⟩ := h.manned.member hk
    obtain ⟨m', hm'⟩ := h.manned.member hj
    -- Six moves for each round have been made on both sides, so the handshake is back at its start.
    have hturns : ∀ {j : Nat} {m : CrewMember Universe} {b : List Move},
        c.members[j]? = some m → b.length = 6 → m.turns b = 6 * ((parties j).rounds + 1) := by
      intro j m b hm hlen
      obtain ⟨-, htodo, hpast⟩ :=
        (h.manned.follows j m hm).of_finished (hdone m (List.mem_of_getElem? hm))
      rw [CrewMember.turns, htodo, doneOf_nil, hlen, hpast]
      omega
    have hshake := h.shakes.link k hk s n v hn hshared hcount hv
    rw [tally_of_member hm, tally_of_member hm', CrewMember.writes, CrewMember.reads,
      hturns hm rfl, hturns hm' rfl, hrounds _ hj k hk] at hshake
    exact hshake.finish

end Crew

end StencilPlan
