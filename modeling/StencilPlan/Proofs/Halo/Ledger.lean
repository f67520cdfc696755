import StencilPlan.Proofs.Halo.Mail

/-!
# What the caller sees

The moves that are due say what an exchange will still show to its caller, whether a message is
taken early or late. So what was shown and what is due make up the same list from the first move
to the last: every buffer that holds anything is packed or unpacked once, with the vector that the
neighbor packed for it in the same round.
-/

namespace StencilPlan

namespace Exchange

/-- What a move ahead leads to in the end: waiting for a message leads to its delivery. -/
def leadsTo (x : Exchange Universe) : Move → Option Move
  | .act s .await => if x.Taken s then none else some (.act s .deliver)
  | .act _ .post | .act _ .poll => none
  | k => some k

/-- The moves that are due, whatever is taken when. -/
def due (x : Exchange Universe) : List Move := x.todo.filterMap x.leadsTo

end Exchange

section Due

variable {p : Party} {round : Nat} {x x' : Exchange Universe} {w w' : World Universe} {k : Move}
  {rest : List Move}

theorem due_congr {todo : List Move} (h : ∀ s, .act s .await ∈ todo → (x'.Taken s ↔ x.Taken s)) :
    todo.filterMap x'.leadsTo = todo.filterMap x.leadsTo := by
  refine List.filterMap_congr fun k hk => ?_
  rcases k with _ | ⟨s, a⟩
  · rfl
  · cases a with
    | await => simp only [Exchange.leadsTo, h s hk]
    | _ => rfl

/-- A move that does not post or take leaves the messages as they were. -/
theorem taken_iff (htodo : x.todo = k :: rest) (htodo' : x'.todo = rest)
    (hpending : x'.pending = x.pending) (hk : ∀ s, k ≠ .act s .post) (s : Slot) :
    x'.Taken s ↔ x.Taken s := by
  rw [Exchange.Taken, Exchange.Taken, hpending, htodo, htodo', List.mem_cons, not_or,
    and_iff_right (Ne.symm (hk s))]

theorem due_of_made (hk : x.leadsTo k = some k) (htodo : x.todo = k :: rest)
    (htodo' : x'.todo = rest) (hpending : x'.pending = x.pending) (hpost : ∀ s, k ≠ .act s .post) :
    x.due = k :: x'.due := by
  rw [Exchange.due, Exchange.due, htodo, htodo', List.filterMap_cons, hk,
    due_congr fun s _ => taken_iff htodo htodo' hpending hpost s]

theorem due_of_passed (hk : x.leadsTo k = none) (htodo : x.todo = k :: rest)
    (htodo' : x'.todo = rest) (htaken : ∀ s, x'.Taken s ↔ x.Taken s) : x.due = x'.due := by
  rw [Exchange.due, Exchange.due, htodo, htodo', List.filterMap_cons, hk,
    due_congr fun s _ => htaken s]

theorem Exchange.Follows.nodup_rest (hx : x.Follows p round) (htodo : x.todo = k :: rest) :
    rest.Nodup := by
  obtain ⟨done, hscript⟩ := (htodo ▸ hx.course).tail
  have hnodup := p.table.nodup_script p.interior
  rw [hscript] at hnodup
  exact List.Nodup.of_append_right hnodup

/-- Where a message is waited for, it was posted. -/
theorem Exchange.Follows.post_notMem (hx : x.Follows p round) {s : Slot}
    (htodo : x.todo = .act s .await :: rest) :
    .act s .post ∉ x.todo ∧ .act s .await ∉ rest := by
  obtain ⟨n, hn, hincoming⟩ := HaloTable.allows_of_mem_script (hx.mem_script htodo nofun)
  obtain ⟨before, after, hsplit, hpost, -, hawait⟩ := @HaloTable.post_before _ _ p.interior
    (HaloTable.mem_incoming.mpr ⟨n, hn, hincoming⟩)
  exact ⟨hx.notMem_todo_of_before htodo nofun hsplit hpost hawait, hx.notMem_rest htodo nofun⟩

/-- Taking a message early makes its delivery due now and not later. -/
theorem due_take (hx : x.Follows p round) {s : Slot} {a : Action} (ha : a = .poll ∨ a = .await)
    (htodo : x.todo = .act s a :: rest) (hs : s ∈ x.pending.map (·.1))
    (htodo' : x'.todo = .act s .deliver :: rest)
    (hpending : x'.pending = x.pending.filter (·.1 ≠ s)) : x.due.Perm x'.due := by
  have hno : ¬ x.Taken s := fun h => h.2 hs
  have hpost : .act s .post ∉ x.todo := by
    obtain ⟨e, he, rfl⟩ := List.mem_map.mp hs
    exact (hx.posted e he).1
  have htaken := taken_of_take ha htodo hpost htodo' hpending
  have hyes : x'.Taken s := (htaken s).mpr (.inl rfl)
  have hcongr : ∀ l : List Move, .act s .await ∉ l →
      l.filterMap x'.leadsTo = l.filterMap x.leadsTo := fun l hl =>
    due_congr fun s' hs' => (htaken s').trans (or_iff_right fun heq => hl (heq ▸ hs'))
  have hdue' : x'.due = .act s .deliver :: rest.filterMap x'.leadsTo := by
    rw [Exchange.due, htodo']
    rfl
  -- A message that a poll finds was due at the wait further down; there the wait comes to nothing
  -- now, while the delivery moves to the front.
  rcases ha with rfl | rfl
  · have hmem : Move.act s .await ∈ rest := by
      obtain ⟨e, he, rfl⟩ := List.mem_map.mp hs
      have hawait := (hx.posted e he).2.1
      rw [htodo] at hawait
      exact (List.mem_cons.mp hawait).resolve_left nofun
    have hnodup := hx.nodup_rest htodo
    obtain ⟨before, behind, rfl⟩ := List.append_of_mem hmem
    rw [List.nodup_middle, List.nodup_cons, List.mem_append, not_or] at hnodup
    rw [hdue', Exchange.due, htodo]
    simp only [List.filterMap_append, List.filterMap_cons, Exchange.leadsTo, if_neg hno,
      if_pos hyes, hcongr _ hnodup.1.1, hcongr _ hnodup.1.2]
    exact List.perm_middle
  · rw [hdue', hcongr _ (hx.post_notMem htodo).2, Exchange.due, htodo, List.filterMap_cons,
      Exchange.leadsTo, if_neg hno]

/-- A move that is made is not due any more, unless it only has to do with taking a message: that
changes nothing about what is due. -/
theorem Advances.due (hx : x.Follows p round) (h : Advances x w x' w') :
    (∃ k rest, x.todo = k :: rest ∧ x'.todo = rest ∧ x.due = k :: x'.due) ∨
      x.due.Perm x'.due ∧ x'.events = x.events ∧ x'.stats = x.stats := by
  cases h with
  | interior htodo =>
    exact .inl ⟨_, _, htodo, rfl, due_of_made rfl htodo rfl rfl (by simp)⟩
  | @skip s a rest htodo hn =>
    -- The script has moves only for places with buffers, but a delivery is not in the script.
    by_cases ha : a = .deliver
    · subst ha
      exact .inl ⟨_, _, htodo, rfl, due_of_made rfl htodo rfl rfl (by simp)⟩
    · have hscript := hx.mem_script htodo fun s' heq => ha (Move.act.inj heq).2
      obtain ⟨n, hn', -⟩ := HaloTable.allows_of_mem_script hscript
      rw [hx.table, hn'] at hn
      cases hn
  | @act s n a rest _ _ htodo hn h =>
    cases h with
    | post =>
      refine .inr ⟨.of_eq (due_of_passed rfl htodo rfl fun s' => ?_), rfl, rfl⟩
      simp only [Exchange.Taken, htodo, List.map_append, List.mem_append, List.mem_cons,
        Move.act.injEq, List.map_cons, List.map_nil, List.not_mem_nil]
      tauto
    | taken ha hposted =>
      have hnone : x.leadsTo (.act s a) = none := by
        rcases ha with rfl | rfl
        · rfl
        · refine if_pos ⟨(hx.post_notMem htodo).1, fun hs => ?_⟩
          obtain ⟨e, he, rfl⟩ := List.mem_map.mp hs
          simpa using List.lookup_eq_none_iff.mp hposted e he
      refine .inr ⟨.of_eq (due_of_passed hnone htodo rfl (taken_iff htodo rfl rfl ?_)), rfl, rfl⟩
      rcases ha with rfl | rfl <;> simp
    | early =>
      exact .inr
        ⟨.of_eq (due_of_passed rfl htodo rfl (taken_iff htodo rfl rfl (by simp))), rfl, rfl⟩
    | take ha hposted =>
      refine .inr ⟨due_take hx ha htodo ?_ rfl rfl, rfl, rfl⟩
      obtain ⟨before, behind, heq, -⟩ := List.lookup_eq_some_iff.mp hposted
      change x.pending = _ at heq
      simp [heq]
    | _ =>
      exact .inl ⟨_, _, htodo, rfl, due_of_made rfl htodo rfl rfl (by simp)⟩

end Due

/-! ### What a move adds -/

/-- What a move shows to the caller. -/
def Exchange.shows (x : Exchange Universe) : Move → List ExchangeEvent
  | .interior => [.interior]
  | .act s .pack =>
    ((x.table.at? s).map fun n => .packed (x.varName s) n.send.name).toList
  | .act s .deliver =>
    ((x.table.at? s).map fun n =>
      .unpacked (x.varName s) n.recv.name (wordsOf n.recv.count x.arrived)).toList
  | .act s .unpack =>
    ((x.table.at? s).map fun n => .unpacked (x.varName s) n.recv.name x.values).toList
  | _ => []

/-- What a move adds to the traffic. -/
def HaloTable.traffic (t : HaloTable) : Move → Traffic
  | .act s a =>
    match t.at? s with
    | none => .zero
    | some n =>
      match a with
      | .send => ⟨n.send.count * wordSize, 0, 0, 1⟩
      | .unlockSend => ⟨n.send.count * wordSize, 0, 1, 0⟩
      | .deliver => ⟨0, n.recv.count * wordSize, 0, 1⟩
      | .unpack => ⟨0, n.recv.count * wordSize, 1, 0⟩
      | _ => .zero
  | .interior => .zero

theorem Traffic.add_eq_ok {s t u : Traffic} : s.add t = .ok u ↔
    u = ⟨s.sentBytes + t.sentBytes, s.receivedBytes + t.receivedBytes,
        s.sharedCopies + t.sharedCopies, s.messages + t.messages⟩ ∧
      u.sentBytes < Word.bound ∧ u.receivedBytes < Word.bound ∧ u.sharedCopies < Word.bound ∧
      u.messages < Word.bound := by
  simp only [add, bind_eq_ok, Word.add, Word.check_eq_ok_iff, pure_eq_ok]
  constructor
  · rintro ⟨_, ⟨h₁, rfl⟩, _, ⟨h₂, rfl⟩, _, ⟨h₃, rfl⟩, _, ⟨h₄, rfl⟩, rfl⟩
    exact ⟨rfl, h₁, h₂, h₃, h₄⟩
  · rintro ⟨rfl, h₁, h₂, h₃, h₄⟩
    exact ⟨_, ⟨h₁, rfl⟩, _, ⟨h₂, rfl⟩, _, ⟨h₃, rfl⟩, _, ⟨h₄, rfl⟩, rfl⟩

/-- A part of the traffic that adds up. -/
def Traffic.Additive (f : Traffic → Nat) : Prop :=
  f .zero = 0 ∧ ∀ s t u : Traffic, s.add t = .ok u → f u = f s + f t

section Effect

variable {x x' : Exchange Universe} {w w' : World Universe} {k : Move} {rest : List Move}

/-- A move that is made shows what it has to show and is accounted for. -/
theorem Advances.records (hsized : x.table.Sized) (h : Advances x w x' w')
    (htodo : x.todo = k :: rest) (htodo' : x'.todo = rest) :
    x'.events = x.events ++ x.shows k ∧
      ∀ f, Traffic.Additive f → f x'.stats = f x.stats + f (x.table.traffic k) := by
  cases h with
  | interior h =>
    obtain ⟨rfl, rfl⟩ := List.cons.inj (htodo.symm.trans h)
    exact ⟨rfl, fun f hf => by rw [HaloTable.traffic, hf.1]; rfl⟩
  | @skip s a _ h hn =>
    obtain ⟨rfl, rfl⟩ := List.cons.inj (htodo.symm.trans h)
    refine ⟨?_, fun f hf => ?_⟩
    · cases a <;> simp [Exchange.shows, hn]
    · simp [HaloTable.traffic, hn, hf.1]
  | @act s n a _ _ _ h hn h' =>
    obtain ⟨rfl, rfl⟩ := List.cons.inj (htodo.symm.trans h)
    obtain ⟨hsend, hrecv⟩ := hsized s n hn
    -- Most actions count nothing; the four that do add what the table says.
    have hnothing : ∀ a, (a ≠ .send ∧ a ≠ .unlockSend ∧ a ≠ .deliver ∧ a ≠ .unpack) →
        x.table.traffic (.act s a) = .zero := by
      intro a ha
      cases a <;> simp_all [HaloTable.traffic]
    cases h' with
    | send _ _ hbytes hstats =>
      obtain ⟨rfl, -⟩ := (HaloBuffer.bytes_eq_ok hsend).mp hbytes
      refine ⟨by simp [Exchange.shows], fun f hf => ?_⟩
      simp only [HaloTable.traffic, hn]
      exact hf.2 _ _ _ hstats
    | unlockSend _ hbytes hstats =>
      obtain ⟨rfl, -⟩ := (HaloBuffer.bytes_eq_ok hsend).mp hbytes
      refine ⟨by simp [Exchange.shows], fun f hf => ?_⟩
      simp only [HaloTable.traffic, hn]
      exact hf.2 _ _ _ hstats
    | deliver hbytes _ hsize _ hstats =>
      obtain ⟨rfl, -⟩ := (HaloBuffer.bytes_eq_ok hrecv).mp hbytes
      rw [hrecv] at hsize
      obtain rfl := Except.ok.inj hsize
      refine ⟨by simp [Exchange.shows, hn]; rfl, fun f hf => ?_⟩
      simp only [HaloTable.traffic, hn]
      exact hf.2 _ _ _ hstats
    | unpack hbytes hstats =>
      obtain ⟨rfl, -⟩ := (HaloBuffer.bytes_eq_ok hrecv).mp hbytes
      refine ⟨by simp [Exchange.shows, hn]; rfl, fun f hf => ?_⟩
      simp only [HaloTable.traffic, hn]
      exact hf.2 _ _ _ hstats
    | pack =>
      refine ⟨by simp [Exchange.shows, hn]; rfl, fun f hf => ?_⟩
      rw [hnothing _ (by decide), hf.1]
      rfl
    | take => exact absurd htodo' (by simp)
    | taken ha =>
      refine ⟨by rcases ha with rfl | rfl <;> simp [Exchange.shows], fun f hf => ?_⟩
      rw [hnothing _ (by rcases ha with rfl | rfl <;> decide), hf.1]
      rfl
    | _ =>
      refine ⟨by simp [Exchange.shows], fun f hf => ?_⟩
      rw [hnothing _ (by decide), hf.1]
      rfl

end Effect

/-! ### The whole of an exchange -/

namespace Party

/-- What a rank has to do in an exchange, with the delivery of each message. -/
def tasks (p : Party) : List Move :=
  p.table.entries.flatMap HaloTable.sendBlock ++ (if p.interior then [Move.interior] else []) ++
    p.table.incoming.map (.act · .deliver) ++ p.table.draining.flatMap fun s => block s drainActions

/-- What a move shows to the caller in a round if it goes as it should: what is unpacked is what
the neighbor packed in the same round. -/
def shows (parties : Nat → Party) (p : Party) (round : Nat) : Move → List ExchangeEvent
  | .interior => [.interior]
  | .act s .pack =>
    ((p.table.at? s).map fun n => .packed (p.table.varName s) n.send.name).toList
  | .act s .deliver | .act s .unpack =>
    ((p.table.at? s).map fun n => .unpacked (p.table.varName s) n.recv.name
      ((parties n.rank).vector round (p.mirror s))).toList
  | _ => []

/-- What an exchange shows to the caller: every buffer that holds anything is packed or unpacked,
and the interior is computed if it belongs to the exchange. -/
def expected (parties : Nat → Party) (p : Party) (round : Nat) : List ExchangeEvent :=
  (p.table.entries.filter fun e => e.2.send.count ≠ 0).map
      (fun e => .packed (p.table.varName e.1) e.2.send.name) ++
    (if p.interior then [.interior] else []) ++
    (p.table.entries.filter fun e => e.2.recv.count ≠ 0).map fun e =>
      .unpacked (p.table.varName e.1) e.2.recv.name
        ((parties e.2.rank).vector round (p.mirror e.1))

variable {p : Party} {parties : Nat → Party} {round : Nat}

theorem filterMap_leadsTo {x : Exchange Universe} {l : List Move}
    (h : ∀ k ∈ l, ∃ s a, k = .act s a ∧ a ≠ .post ∧ a ≠ .poll ∧ a ≠ .await) :
    l.filterMap x.leadsTo = l := by
  refine (List.filterMap_congr fun k hk => ?_).trans List.filterMap_some
  obtain ⟨s, a, rfl, hpost, hpoll, hawait⟩ := h k hk
  cases a <;> first | rfl | contradiction

theorem due_eq_tasks {x : Exchange Universe} (htodo : x.todo = p.table.script p.interior) :
    x.due = p.tasks := by
  -- At the start nothing is taken, so each wait leads to its delivery, and a post or a poll to
  -- nothing.
  have hsends : (p.table.entries.flatMap HaloTable.sendBlock).filterMap x.leadsTo =
      p.table.entries.flatMap HaloTable.sendBlock := by
    refine filterMap_leadsTo fun k hk => ?_
    obtain ⟨s, n, -, -, hk⟩ := HaloTable.mem_sends.mp hk
    obtain ⟨a, ha, rfl⟩ := mem_block.mp hk
    refine ⟨s, a, rfl, ?_, ?_, ?_⟩ <;> rintro rfl <;> rw [sendActions] at ha <;>
      split at ha <;> simp at ha
  have hdrains : (p.table.draining.flatMap fun s => block s drainActions).filterMap x.leadsTo =
      p.table.draining.flatMap fun s => block s drainActions := by
    refine filterMap_leadsTo fun k hk => ?_
    obtain ⟨s, -, hk⟩ := List.mem_flatMap.mp hk
    obtain ⟨a, ha, rfl⟩ := mem_block.mp hk
    refine ⟨s, a, rfl, ?_, ?_, ?_⟩ <;> rintro rfl <;> simp [drainActions] at ha
  have hawaits : (p.table.incoming.map (Move.act · .await)).filterMap x.leadsTo =
      p.table.incoming.map (.act · .deliver) := by
    rw [List.filterMap_map, ← List.filterMap_eq_map]
    refine List.filterMap_congr fun s hs => ?_
    have hno : ¬ x.Taken s := fun h => h.1 (by
      rw [htodo, HaloTable.mem_script]
      exact .inl ⟨s, hs, .inl rfl⟩)
    simp only [Function.comp_apply, Exchange.leadsTo, if_neg hno]
  have hnone : ∀ a, (a = .post ∨ a = .poll) →
      (p.table.incoming.map (Move.act · a)).filterMap x.leadsTo = [] := by
    intro a ha
    refine List.filterMap_eq_nil_iff.mpr fun k hk => ?_
    obtain ⟨s, -, rfl⟩ := List.mem_map.mp hk
    rcases ha with rfl | rfl <;> rfl
  have hinterior : (if p.interior then [Move.interior] else []).filterMap x.leadsTo =
      if p.interior then [Move.interior] else [] := by
    split <;> rfl
  rw [Exchange.due, htodo, HaloTable.script]
  simp only [List.filterMap_append, hsends, hdrains, hawaits, hinterior, hnone _ (.inl rfl),
    hnone _ (.inr rfl), List.nil_append, List.append_nil, tasks]

theorem flatMap_ite {α β : Type} (l : List α) (q : α → Bool) (f : α → β) :
    (l.flatMap fun a => if q a then [f a] else []) = (l.filter q).map f := by
  induction l with
  | nil => rfl
  | cons a l ih =>
    rw [List.flatMap_cons, List.filter_cons, ih]
    split <;> rfl

theorem shows_sends (parties : Nat → Party) (p : Party) (round : Nat) :
    (p.table.entries.flatMap HaloTable.sendBlock).flatMap (p.shows parties round) =
      (p.table.entries.filter fun e => e.2.send.count ≠ 0).map
        fun e => .packed (p.table.varName e.1) e.2.send.name := by
  rw [List.flatMap_assoc, ← flatMap_ite]
  refine List.flatMap_congr fun e he => ?_
  have hat := HaloTable.mem_entries.mp he
  by_cases hcount : e.2.send.count = 0
  · simp [HaloTable.sendBlock, hcount]
  · cases hshared : e.2.shared <;>
      simp [HaloTable.sendBlock, hcount, block, sendActions, hshared, shows, hat]

/-- What is unpacked from some buffers, by either of the moves that unpack. -/
theorem shows_unpacks (parties : Nat → Party) (p : Party) (round : Nat)
    (q : Slot × NeighborBuffers → Bool) {ks : Slot → List Move}
    (hks : ∀ s n, p.table.at? s = some n → (ks s).flatMap (p.shows parties round) =
      [.unpacked (p.table.varName s) n.recv.name
        ((parties n.rank).vector round (p.mirror s))]) :
    (((p.table.entries.filter q).map (·.1)).flatMap ks).flatMap (p.shows parties round) =
      (p.table.entries.filter q).map fun e => .unpacked (p.table.varName e.1) e.2.recv.name
        ((parties e.2.rank).vector round (p.mirror e.1)) := by
  rw [List.flatMap_map, List.flatMap_assoc, List.map_eq_flatMap]
  exact List.flatMap_congr fun e he =>
    hks e.1 e.2 (HaloTable.mem_entries.mp (List.mem_filter.mp he).1)

theorem shows_tasks (parties : Nat → Party) (p : Party) (round : Nat) :
    (p.tasks.flatMap (p.shows parties round)).Perm (p.expected parties round) := by
  have hinterior : (if p.interior then [Move.interior] else []).flatMap (p.shows parties round) =
      if p.interior then [.interior] else [] := by
    split <;> rfl
  rw [tasks, List.map_eq_flatMap (l := p.table.incoming), HaloTable.incoming, HaloTable.draining]
  simp only [List.flatMap_append]
  rw [shows_sends, hinterior,
    shows_unpacks parties p round _ fun s n hn => by simp [shows, hn],
    shows_unpacks parties p round _ fun s n hn => by simp [block, drainActions, shows, hn],
    expected, List.append_assoc, ← List.map_append]
  refine List.Perm.append_left _ (List.Perm.map _ ?_)
  -- buffers in shared memory and others
  have hsplit := List.filter_append_perm (fun e : Slot × NeighborBuffers => !e.2.shared)
    (p.table.entries.filter fun e => e.2.recv.count ≠ 0)
  simp only [List.filter_filter, Bool.not_not] at hsplit
  exact hsplit

end Party

namespace Exchange

/-- What was shown and counted in an exchange of a round, and what is due in it, make up the
whole. -/
structure Accounted (parties : Nat → Party) (p : Party) (round : Nat) (x : Exchange Universe) :
    Prop where
  events : (x.events ++ x.due.flatMap (p.shows parties round)).Perm (p.expected parties round)
  traffic : ∀ f, Traffic.Additive f →
    f x.stats + (x.due.map fun k => f (p.table.traffic k)).sum =
      (p.tasks.map fun k => f (p.table.traffic k)).sum

/-- An exchange of a round has shown and counted the whole. -/
structure Complete (parties : Nat → Party) (p : Party) (round : Nat) (x : Exchange Universe) :
    Prop where
  events : x.events.Perm (p.expected parties round)
  traffic : ∀ f, Traffic.Additive f → f x.stats = (p.tasks.map fun k => f (p.table.traffic k)).sum

variable {parties : Nat → Party} {p : Party} {round : Nat} {x x' : Exchange Universe}
  {w w' : World Universe}

theorem accounted_of_start (htodo : x.todo = p.table.script p.interior) (hevents : x.events = [])
    (hstats : x.stats = .zero) : x.Accounted parties p round := by
  refine ⟨?_, fun f hf => ?_⟩
  · rw [hevents, List.nil_append, Party.due_eq_tasks htodo]
    exact p.shows_tasks parties round
  · rw [hstats, hf.1, Nat.zero_add, Party.due_eq_tasks htodo]

theorem Accounted.advance (hp : p.table.Sized) (hx : x.Follows p round)
    (hshows : ∀ k rest, x.todo = k :: rest → x.shows k = p.shows parties round k)
    (h : x.Accounted parties p round) (hstep : Advances x w x' w') :
    x'.Accounted parties p round := by
  rcases hstep.due hx with ⟨k, rest, htodo, htodo', hdue⟩ | ⟨hdue, hevents, hstats⟩
  · obtain ⟨hevents, htraffic⟩ := hstep.records (hx.table ▸ hp) htodo htodo'
    refine ⟨?_, fun f hf => ?_⟩
    · rw [hevents, hshows k rest htodo, List.append_assoc, ← List.flatMap_cons, ← hdue]
      exact h.events
    · have := h.traffic f hf
      rw [hdue, List.map_cons, List.sum_cons] at this
      rw [htraffic f hf, hx.table, ← this]
      omega
  · refine ⟨?_, fun f hf => ?_⟩
    · rw [hevents]
      exact ((hdue.symm.flatMap_right _).append_left _).trans h.events
    · rw [hstats, ← h.traffic f hf, (hdue.symm.map _).sum_nat]

theorem Accounted.complete (h : x.Accounted parties p round) (htodo : x.todo = []) :
    x.Complete parties p round := by
  have hdue : x.due = [] := by rw [due, htodo]; rfl
  refine ⟨?_, fun f hf => ?_⟩
  · have := h.events
    rwa [hdue, List.flatMap_nil, List.append_nil] at this
  · have := h.traffic f hf
    rwa [hdue] at this

/-- No part of the traffic is ever more than the whole. -/
theorem Accounted.le (h : x.Accounted parties p round) {f : Traffic → Nat}
    (hf : Traffic.Additive f) {k : Move} {rest : List Move} (hdue : x.due = k :: rest) :
    f x.stats + f (p.table.traffic k) ≤ (p.tasks.map fun k => f (p.table.traffic k)).sum := by
  have := h.traffic f hf
  rw [hdue, List.map_cons, List.sum_cons] at this
  omega

end Exchange

namespace Crew

/-- Each rank has shown and counted what it should, in the exchange it is in and in those before. -/
def Ledger (parties : Nat → Party) (c : Crew Universe) : Prop :=
  c.Keeps (fun k r x => x.Accounted parties (parties k) r) fun k r x =>
    x.Complete parties (parties k) r

/-- What the ranks are about to show is what they should. -/
def Truthful (parties : Nat → Party) (c : Crew Universe) : Prop :=
  ∀ j (m : CrewMember Universe) k rest, c.members[j]? = some m → m.exchange.todo = k :: rest →
    m.exchange.shows k = (parties j).shows parties m.past.length k

variable {size : Nat} {parties : Nat → Party} {c d : Crew Universe} {i : Nat}

theorem ledger_enlist {w : World Universe} : Ledger parties (enlist size parties w) :=
  keeps_enlist fun _ _ => Exchange.accounted_of_start rfl rfl rfl

theorem Ledger.step (hl : Linked size parties) (hc : Manned size parties c)
    (htruthful : Truthful parties c) (h : Ledger parties c) (hstep : c.step i = some d) :
    Ledger parties d := by
  refine Keeps.step hc h hstep (fun m q hm => ?_) (fun r x hx htodo => hx.complete htodo)
    fun m x w hm hold hadvance => ?_
  · exact Exchange.accounted_of_start hm.exchange.moves rfl rfl
  · exact hold.advance (hl.sized i (hc.lt hm)) (hc.follows i m hm).exchange
      (fun k rest htodo => htruthful i m k rest hm htodo) hadvance

end Crew

end StencilPlan
