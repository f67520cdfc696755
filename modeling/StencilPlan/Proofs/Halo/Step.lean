import StencilPlan.Halo.Crew
import StencilPlan.Network.Universe
import StencilPlan.Proofs.Halo.Course
import StencilPlan.Proofs.Network.Universe

/-!
# What one step can do

Every fact about a run starts from a step of one rank. `Performs` says what each action comes to,
with everything it needs to be done at all; `Advances` and `Steps` say the same for a move and for
a step of a rank. No proof about a run looks at the definition of a step again.
-/

namespace StencilPlan

/-- Nothing was received yet for what was posted, and nothing was posted twice. -/
structure Exchange.Awaits (x : Exchange Universe) : Prop where
  nodup : (x.pending.map (·.1)).Nodup
  fresh : ∀ p ∈ x.pending, p.2.data = none

/-- What an action at a place comes to, for a rank with that move already taken off its list. -/
inductive Performs (x : Exchange Universe) (w : World Universe) (s : Slot) (n : NeighborBuffers) :
    Action → Exchange Universe → World Universe → Prop
  | post {tag bytes : Nat}
      (htag : messageTag x.table.neighborhood s.var s.neighbor n.rank = .ok tag)
      (hbytes : n.recv.bytes = .ok bytes) :
      Performs x w s n .post
        { x with pending := x.pending ++ [(s, ⟨⟨n.rank, x.topology.rank, tag⟩, bytes, none⟩)] } w
  | pack {size : Nat} {values : List Binary64} (hsize : n.send.size = .ok size)
      (hpack : x.packer (x.varName s) n.send = .ok values) :
      Performs x w s n .pack
        ({ x with values := fitValues size values }.saw (.packed (x.varName s) n.send.name)) w
  | send {tag bytes : Nat} {heap : Heap} {stats : Traffic}
      (htag : messageTag x.table.neighborhood s.var
        ((x.topology.oppositeIndex? s.neighbor).getD s.neighbor) n.rank = .ok tag)
      (hwrite : n.send.write w.heap x.values = .ok heap) (hbytes : n.send.bytes = .ok bytes)
      (hstats : x.stats.add ⟨bytes, 0, 0, 1⟩ = .ok stats) :
      Performs x w s n .send { x with stats }
        ⟨heap, w.net.push ⟨x.topology.rank, n.rank, tag⟩ (x.values.flatMap (·.bytes))⟩
  | drained (hready : n.send.isReady w.heap = .ok false) : Performs x w s n .drained x w
  | lockSend {heap : Heap} (hlock : n.send.lock? w.heap = .ok (some heap)) :
      Performs x w s n .lockSend x ⟨heap, w.net⟩
  | fill {heap : Heap} (hwrite : n.send.write w.heap x.values = .ok heap) :
      Performs x w s n .fill x ⟨heap, w.net⟩
  | raise {heap : Heap} (hmark : n.send.markReady w.heap true = .ok heap) :
      Performs x w s n .raise x ⟨heap, w.net⟩
  | unlockSend {heap : Heap} {bytes : Nat} {stats : Traffic}
      (hunlock : n.send.unlock w.heap = .ok heap) (hbytes : n.send.bytes = .ok bytes)
      (hstats : x.stats.add ⟨bytes, 0, 1, 0⟩ = .ok stats) :
      Performs x w s n .unlockSend { x with stats } ⟨heap, w.net⟩
  /-- The message was taken before. -/
  | taken {a : Action} (ha : a = .poll ∨ a = .await) (hposted : x.posted? s = none) :
      Performs x w s n a x w
  /-- The message is not there yet. -/
  | early {r : Receive} (hposted : x.posted? s = some r)
      (hqueue : Universe.takeFirst? r.channel w.net.inFlight = none) :
      Performs x w s n .poll x w
  /-- The message is there. -/
  | take {a : Action} {r : Receive} {data : Payload} {rest : List (Channel × Payload)}
      (ha : a = .poll ∨ a = .await) (hposted : x.posted? s = some r)
      (hqueue : Universe.takeFirst? r.channel w.net.inFlight = some (data, rest)) :
      Performs x w s n a
        { x with
          arrived := data.take r.length
          pending := x.pending.filter (·.1 ≠ s)
          todo := .act s .deliver :: x.todo }
        ⟨w.heap, { w.net with inFlight := rest }⟩
  | deliver {bytes size : Nat} {heap : Heap} {stats : Traffic} (hbytes : n.recv.bytes = .ok bytes)
      (hlength : x.arrived.length = bytes) (hsize : n.recv.size = .ok size)
      (hwrite : n.recv.write w.heap (wordsOf size x.arrived) = .ok heap)
      (hstats : x.stats.add ⟨0, bytes, 0, 1⟩ = .ok stats) :
      Performs x w s n .deliver
        ({ x with stats }.saw (.unpacked (x.varName s) n.recv.name (wordsOf size x.arrived)))
        ⟨heap, w.net⟩
  | filled (hready : n.recv.isReady w.heap = .ok true) : Performs x w s n .filled x w
  | lockRecv {heap : Heap} (hlock : n.recv.lock? w.heap = .ok (some heap)) :
      Performs x w s n .lockRecv x ⟨heap, w.net⟩
  | drain {size : Nat} {values : List Binary64} (hsize : n.recv.size = .ok size)
      (hread : n.recv.read w.heap size = .ok values) :
      Performs x w s n .drain { x with values } w
  | lower {heap : Heap} (hmark : n.recv.markReady w.heap false = .ok heap) :
      Performs x w s n .lower x ⟨heap, w.net⟩
  | unlockRecv {heap : Heap} (hunlock : n.recv.unlock w.heap = .ok heap) :
      Performs x w s n .unlockRecv x ⟨heap, w.net⟩
  | unpack {bytes : Nat} {stats : Traffic} (hbytes : n.recv.bytes = .ok bytes)
      (hstats : x.stats.add ⟨0, bytes, 1, 0⟩ = .ok stats) :
      Performs x w s n .unpack
        ({ x with stats }.saw (.unpacked (x.varName s) n.recv.name x.values)) w

section Inversion

variable {x x' : Exchange Universe} {w w' : World Universe} {s : Slot} {n : NeighborBuffers}
  {a : Action}

theorem Exchange.Awaits.fresh_of_posted (hx : x.Awaits) {r : Receive}
    (h : x.posted? s = some r) : r.data = none := by
  obtain ⟨before, after, hpending, -⟩ := List.lookup_eq_some_iff.mp h
  exact hx.fresh (s, r) (by rw [hpending]; simp)

/-- Posting the same receive for a place again changes nothing. -/
theorem Exchange.Awaits.repost (hx : x.Awaits) {r : Transport.Handle Universe}
    (h : x.posted? s = some r) :
    (x.pending.map fun p => if p.1 = s then (s, r) else p) = x.pending := by
  obtain ⟨before, after, hpending, -⟩ := List.lookup_eq_some_iff.mp h
  have hmem : (s, r) ∈ x.pending := by rw [hpending]; simp
  refine (List.map_congr_left fun p hp => ?_).trans (List.map_id _)
  split
  · next hs => exact (List.inj_on_of_nodup_map hx.nodup hp hmem hs).symm
  · rfl

/-- Looking for a message. -/
theorem performs_of_poll (hx : x.Awaits) (h : x.perform w s n .poll = .ok (some (x', w'))) :
    Performs x w s n .poll x' w' := by
  cases hposted : x.posted? s with
  | none =>
    simp only [Exchange.perform, hposted, pure_eq_ok, Option.some.injEq, Prod.mk.injEq] at h
    obtain ⟨rfl, rfl⟩ := h
    exact .taken (.inl rfl) hposted
  | some r =>
    have hfresh := hx.fresh_of_posted hposted
    cases hqueue : Universe.takeFirst? r.channel w.net.inFlight with
    | none =>
      simp only [Exchange.perform, hposted, Transport.test, Universe.poll, hfresh, hqueue,
        Option.isSome_none, Bool.false_eq_true, if_false, pure_eq_ok, Option.some.injEq,
        Prod.mk.injEq] at h
      obtain ⟨rfl, rfl⟩ := h
      -- the receive is put back as it was
      rw [hx.repost hposted]
      exact .early hposted hqueue
    | some found =>
      obtain ⟨data, rest⟩ := found
      simp only [Exchange.perform, hposted, Transport.test, Universe.poll, hfresh, hqueue,
        Option.isSome_some, if_true, pure_eq_ok, Exchange.take?, Transport.wait,
        Option.map_some, Option.some.injEq, Prod.mk.injEq] at h
      obtain ⟨rfl, rfl⟩ := h
      exact .take (.inl rfl) hposted hqueue

/-- Waiting for a message: without one the move cannot be made. -/
theorem performs_of_await (hx : x.Awaits) (h : x.perform w s n .await = .ok (some (x', w'))) :
    Performs x w s n .await x' w' := by
  cases hposted : x.posted? s with
  | none =>
    simp only [Exchange.perform, hposted, pure_eq_ok, Option.some.injEq, Prod.mk.injEq] at h
    obtain ⟨rfl, rfl⟩ := h
    exact .taken (.inr rfl) hposted
  | some r =>
    have hfresh := hx.fresh_of_posted hposted
    cases hqueue : Universe.takeFirst? r.channel w.net.inFlight with
    | none =>
      -- Without the message the move is not made, against `h`.
      simp [Exchange.perform, hposted, Exchange.take?, Transport.wait, Universe.poll, hfresh,
        hqueue] at h
    | some found =>
      obtain ⟨data, rest⟩ := found
      simp only [Exchange.perform, hposted, Universe.poll, hfresh, hqueue, pure_eq_ok,
        Exchange.take?, Transport.wait, Option.map_some, Option.some.injEq,
        Prod.mk.injEq] at h
      obtain ⟨rfl, rfl⟩ := h
      exact .take (.inr rfl) hposted hqueue

theorem performs_of_perform (hx : x.Awaits) (h : x.perform w s n a = .ok (some (x', w'))) :
    Performs x w s n a x' w' := by
  -- The two actions that look for a message branch on the network and have lemmas of their own.
  cases a with
  | poll => exact performs_of_poll hx h
  | await => exact performs_of_await hx h
  | post =>
    simp only [Exchange.perform, bind_eq_ok, liftM_checked_eq_ok, pure_eq_ok, Option.some.injEq,
      Prod.mk.injEq] at h
    obtain ⟨tag, htag, bytes, hbytes, rfl, rfl⟩ := h
    exact .post htag hbytes
  | pack =>
    simp only [Exchange.perform, bind_eq_ok, liftM_checked_eq_ok, pure_eq_ok, Option.some.injEq,
      Prod.mk.injEq] at h
    obtain ⟨size, hsize, values, hpack, rfl, rfl⟩ := h
    exact .pack hsize hpack
  | send =>
    simp only [Exchange.perform, bind_eq_ok, liftM_checked_eq_ok, pure_eq_ok, Option.some.injEq,
      Prod.mk.injEq] at h
    obtain ⟨tag, htag, heap, hwrite, bytes, hbytes, stats, hstats, rfl, rfl⟩ := h
    exact .send htag hwrite hbytes hstats
  | drained =>
    simp only [Exchange.perform, bind_eq_ok, liftM_checked_eq_ok] at h
    -- A flag that is up lets nobody pass, so the move was not made.
    obtain ⟨ready, hready, h⟩ := h
    cases ready with
    | true => simp at h
    | false =>
      simp only [Bool.false_eq_true, if_false, pure_eq_ok, Option.some.injEq, Prod.mk.injEq] at h
      obtain ⟨rfl, rfl⟩ := h
      exact .drained hready
  | filled =>
    simp only [Exchange.perform, bind_eq_ok, liftM_checked_eq_ok] at h
    obtain ⟨ready, hready, h⟩ := h
    cases ready with
    | false => simp at h
    | true =>
      simp only [if_true, pure_eq_ok, Option.some.injEq, Prod.mk.injEq] at h
      obtain ⟨rfl, rfl⟩ := h
      exact .filled hready
  | lockSend =>
    simp only [Exchange.perform, bind_eq_ok, liftM_checked_eq_ok, pure_eq_ok] at h
    obtain ⟨heap?, hlock, h⟩ := h
    obtain ⟨heap, rfl, heq⟩ := Option.map_eq_some_iff.mp h.symm
    obtain ⟨rfl, rfl⟩ := Prod.mk.inj heq
    exact .lockSend hlock
  | lockRecv =>
    simp only [Exchange.perform, bind_eq_ok, liftM_checked_eq_ok, pure_eq_ok] at h
    obtain ⟨heap?, hlock, h⟩ := h
    obtain ⟨heap, rfl, heq⟩ := Option.map_eq_some_iff.mp h.symm
    obtain ⟨rfl, rfl⟩ := Prod.mk.inj heq
    exact .lockRecv hlock
  | fill =>
    simp only [Exchange.perform, bind_eq_ok, pure_eq_ok, Option.some.injEq, Prod.mk.injEq] at h
    obtain ⟨heap, hwrite, rfl, rfl⟩ := h
    exact .fill hwrite
  | raise =>
    simp only [Exchange.perform, bind_eq_ok, liftM_checked_eq_ok, pure_eq_ok, Option.some.injEq,
      Prod.mk.injEq] at h
    obtain ⟨heap, hmark, rfl, rfl⟩ := h
    exact .raise hmark
  | lower =>
    simp only [Exchange.perform, bind_eq_ok, liftM_checked_eq_ok, pure_eq_ok, Option.some.injEq,
      Prod.mk.injEq] at h
    obtain ⟨heap, hmark, rfl, rfl⟩ := h
    exact .lower hmark
  | unlockSend =>
    simp only [Exchange.perform, bind_eq_ok, liftM_checked_eq_ok, pure_eq_ok, Option.some.injEq,
      Prod.mk.injEq] at h
    obtain ⟨heap, hunlock, bytes, hbytes, stats, hstats, rfl, rfl⟩ := h
    exact .unlockSend hunlock hbytes hstats
  | unlockRecv =>
    simp only [Exchange.perform, bind_eq_ok, liftM_checked_eq_ok, pure_eq_ok, Option.some.injEq,
      Prod.mk.injEq] at h
    obtain ⟨heap, hunlock, rfl, rfl⟩ := h
    exact .unlockRecv hunlock
  | deliver =>
    simp only [Exchange.perform, bind_eq_ok, liftM_checked_eq_ok, guard_eq_ok, not_not] at h
    obtain ⟨bytes, hbytes, hlength, size, hsize, heap, hwrite, stats, hstats, h⟩ := h
    simp only [pure_eq_ok, Option.some.injEq, Prod.mk.injEq] at h
    obtain ⟨rfl, rfl⟩ := h
    exact .deliver hbytes hlength hsize hwrite hstats
  | drain =>
    simp only [Exchange.perform, bind_eq_ok, liftM_checked_eq_ok, pure_eq_ok, Option.some.injEq,
      Prod.mk.injEq] at h
    obtain ⟨size, hsize, values, hread, rfl, rfl⟩ := h
    exact .drain hsize hread
  | unpack =>
    simp only [Exchange.perform, bind_eq_ok, liftM_checked_eq_ok, pure_eq_ok, Option.some.injEq,
      Prod.mk.injEq] at h
    obtain ⟨bytes, hbytes, stats, hstats, rfl, rfl⟩ := h
    exact .unpack hbytes hstats

/-- An action leaves alone what an exchange began with. -/
theorem Performs.same (h : Performs x w s n a x' w') : x'.table = x.table ∧
    x'.topology = x.topology ∧ x'.packer = x.packer ∧ x'.moves = x.moves := by
  cases h <;> exact ⟨rfl, rfl, rfl, rfl⟩

/-- The moves ahead change only where a message is taken. -/
theorem Performs.todo (h : Performs x w s n a x' w') :
    x'.todo = x.todo ∨ (a = .poll ∨ a = .await) ∧ x'.todo = .act s .deliver :: x.todo := by
  cases h with
  | take ha => exact .inr ⟨ha, rfl⟩
  | _ => exact .inl rfl

end Inversion

/-- What a move comes to. -/
inductive Advances (x : Exchange Universe) (w : World Universe) :
    Exchange Universe → World Universe → Prop
  | interior {rest : List Move} (htodo : x.todo = .interior :: rest) :
      Advances x w ({ x with todo := rest }.saw .interior) w
  /-- There are no buffers at the place. -/
  | skip {s : Slot} {a : Action} {rest : List Move} (htodo : x.todo = .act s a :: rest)
      (hn : x.table.at? s = none) : Advances x w { x with todo := rest } w
  | act {s : Slot} {n : NeighborBuffers} {a : Action} {rest : List Move}
      {x' : Exchange Universe} {w' : World Universe} (htodo : x.todo = .act s a :: rest)
      (hn : x.table.at? s = some n) (h : Performs { x with todo := rest } w s n a x' w') :
      Advances x w x' w'

theorem advances_of_step {x x' : Exchange Universe} {w w' : World Universe} (hx : x.Awaits)
    (h : x.step w = .ok (some (x', w'))) : Advances x w x' w' := by
  unfold Exchange.step at h
  split at h
  · simp at h
  · next rest htodo =>
    simp only [pure_eq_ok, Option.some.injEq, Prod.mk.injEq] at h
    obtain ⟨rfl, rfl⟩ := h
    exact .interior htodo
  · next s a rest htodo =>
    cases hn : x.table.at? s with
    | none =>
      simp only [hn, pure_eq_ok, Option.some.injEq, Prod.mk.injEq] at h
      obtain ⟨rfl, rfl⟩ := h
      exact .skip htodo hn
    | some n =>
      simp only [hn] at h
      -- Taking the move off the list changes nothing of what is waited for.
      exact .act htodo hn (performs_of_perform ⟨hx.nodup, hx.fresh⟩ h)

/-- What a step of a rank comes to. -/
inductive CrewMember.Steps (m : CrewMember Universe) (w : World Universe) :
    CrewMember Universe → World Universe → Prop
  | again {p : Packer} {ps : List Packer} (hok : m.failure = none)
      (htodo : m.exchange.todo = []) (hcoming : m.coming = p :: ps) :
      Steps m w { m with
        exchange := m.exchange.again p, coming := ps, past := m.past ++ [m.exchange] } w
  | advance {x : Exchange Universe} {w' : World Universe} (hok : m.failure = none)
      (h : Advances m.exchange w x w') : Steps m w { m with exchange := x } w'
  | fail {e : Failure} (hok : m.failure = none) (h : m.exchange.step w = .error e) :
      Steps m w { m with failure := some e } w

theorem CrewMember.steps_of_step {m m' : CrewMember Universe} {w w' : World Universe}
    (hx : m.exchange.Awaits) (h : m.step w = some (m', w')) : m.Steps w m' w' := by
  unfold CrewMember.step at h
  split at h
  · cases h
  · next hok =>
    split at h
    · next hfinished =>
      split at h
      · cases h
      · next p ps hcoming =>
        obtain ⟨rfl, rfl⟩ := Prod.mk.inj (Option.some.inj h)
        exact .again hok (List.isEmpty_iff.mp hfinished) hcoming
    · split at h
      · cases h
      · next x w₁ hstep =>
        obtain ⟨rfl, rfl⟩ := Prod.mk.inj (Option.some.inj h)
        exact .advance hok (advances_of_step hx hstep)
      · next e hstep =>
        obtain ⟨rfl, rfl⟩ := Prod.mk.inj (Option.some.inj h)
        exact .fail hok hstep

namespace Crew

/-- A course that a crew can take from the state `c`. -/
inductive Reaches (c : Crew Universe) : Crew Universe → Prop
  | refl : Reaches c c
  | step {d e : Crew Universe} (i : Nat) (h : Reaches c d) (hstep : d.step i = some e) :
      Reaches c e

theorem steps_of_step {c d : Crew Universe} {i : Nat} (h : c.step i = some d) :
    ∃ m m' w, c.members[i]? = some m ∧ m.step c.world = some (m', w) ∧
      d = ⟨c.members.set i m', w⟩ := by
  simp only [step, bind, Option.bind_eq_some_iff, pure, Option.some.injEq] at h
  obtain ⟨m, hm, ⟨m', w⟩, hstep, rfl⟩ := h
  exact ⟨m, m', w, hm, hstep, rfl⟩

end Crew

end StencilPlan
