import StencilPlan.Proofs.Halo.Ledger

/-!
# What is unpacked where buffers need not fit

Ranks in one grid find each other's messages even if they do not agree on how much they exchange. A
message that is longer than the receive is cut to its length before anybody looks at it, and so the
caller is handed the first values of it; a shorter one is refused. In shared memory the reader takes
as many values as its own buffer holds.
-/

namespace StencilPlan

/-- What a rank is handed in a round for the buffers `n` at the place `s`. -/
structure Unpacks (parties : Nat → Party) (k round : Nat) (s : Slot) (n : NeighborBuffers)
    (values : List Binary64) : Prop where
  /-- As many values as the receive buffer holds. -/
  length : values.length = n.recv.count
  /-- Those of a message are the first ones that the neighbor packed in the same round. -/
  message : n.shared = false → ∃ m, (parties n.rank).table.at? ((parties k).mirror s) = some m ∧
    m.rank = k ∧ m.shared = false ∧ n.recv.count ≤ m.send.count ∧
    values = ((parties n.rank).vector round ((parties k).mirror s)).take n.recv.count

/-- All that an exchange of rank `k` has unpacked belongs to one of its places. -/
def Exchange.Fits (parties : Nat → Party) (k round : Nat) (x : Exchange Universe) : Prop :=
  ∀ var buffer values, .unpacked var buffer values ∈ x.events →
    ∃ s n, (parties k).table.at? s = some n ∧ var = (parties k).table.varName s ∧
      buffer = n.recv.name ∧ Unpacks parties k round s n values

section Moves

variable {x x' : Exchange Universe} {w w' : World Universe} {s : Slot} {n : NeighborBuffers}
  {rest : List Move}

/-- A message is delivered only if it is as long as the buffer. -/
theorem Advances.arrived (h : Advances x w x' w') (htodo : x.todo = .act s .deliver :: rest)
    (hn : x.table.at? s = some n) : n.recv.bytes = .ok x.arrived.length := by
  cases h with
  | interior htodo' => cases htodo.symm.trans htodo'
  | skip htodo' hnone =>
    obtain ⟨hact, -⟩ := List.cons.inj (htodo.symm.trans htodo')
    obtain ⟨rfl, -⟩ := Move.act.inj hact
    rw [hn] at hnone
    cases hnone
  | act htodo' hn' h =>
    obtain ⟨hact, -⟩ := List.cons.inj (htodo.symm.trans htodo')
    obtain ⟨rfl, rfl⟩ := Move.act.inj hact
    obtain rfl := Option.some.inj (hn.symm.trans hn')
    cases h with
    | deliver hbytes hlength => exact hlength ▸ hbytes
    | taken ha | take ha => rcases ha with ha | ha <;> cases ha

/-- A message of another length is refused, with both lengths in the error. -/
theorem Exchange.step_of_length_ne (htodo : x.todo = .act s .deliver :: rest)
    (hn : x.table.at? s = some n) {bytes : Nat} (hbytes : n.recv.bytes = .ok bytes)
    (hne : x.arrived.length ≠ bytes) : x.step w = .error (.tiling (.communication n.rank
      (.payloadLength x.arrived.length n.recv.name bytes))) := by
  unfold Exchange.step
  rw [htodo]
  simp only [hn, Exchange.perform, hbytes, bind, Except.bind, liftM, monadLift, MonadLift.monadLift]
  rw [if_pos hne]
  rfl

/-- Only delivering a message and unpacking what was read hand anything to the caller. -/
theorem Exchange.of_unpacked_mem_shows {move : Move} {var buffer : String}
    {values : List Binary64} (h : .unpacked var buffer values ∈ x.shows move) :
    ∃ s n, x.table.at? s = some n ∧ var = x.varName s ∧ buffer = n.recv.name ∧
      (move = .act s .deliver ∧ values = wordsOf n.recv.count x.arrived ∨
        move = .act s .unpack ∧ values = x.values) := by
  cases move with
  | interior => simp [shows] at h
  | act s a =>
    cases a with
    | deliver | unpack =>
      rw [shows, Option.mem_toList, Option.map_eq_some_iff] at h
      obtain ⟨n, hn, heq⟩ := h
      obtain ⟨rfl, rfl, rfl⟩ := ExchangeEvent.unpacked.inj heq
      exact ⟨s, n, hn, rfl, rfl, by simp⟩
    | _ => simp [shows] at h

end Moves

namespace Crew

/-- In all exchanges of all ranks what is unpacked belongs to the places. -/
def Fitting (parties : Nat → Party) (c : Crew Universe) : Prop :=
  c.Keeps (fun k r x => x.Fits parties k r) fun k r x => x.Fits parties k r

variable {size : Nat} {parties : Nat → Party} {c d : Crew Universe} {i k : Nat}
  {m : CrewMember Universe} {x : Exchange Universe} {w w' : World Universe}

/-- What is delivered is the beginning of what the neighbor packed. -/
theorem InHand.unpacks (hl : Meshed size parties) {s : Slot} {n : NeighborBuffers} (hk : k < size)
    (hn : (parties k).table.at? s = some n) (h : InHand parties k s n m)
    (hlength : m.exchange.arrived.length = n.recv.count * wordSize) :
    Unpacks parties k m.past.length s n (wordsOf n.recv.count m.exchange.arrived) := by
  obtain ⟨⟨m', hm', hshared, -⟩, harrived⟩ := h
  have hvector := Party.length_vector hm' m.past.length
  have hle : n.recv.count ≤ m'.send.count := by
    rw [harrived, length_take_payload, hvector] at hlength
    have := Nat.eq_of_mul_eq_mul_right (by decide) hlength
    omega
  have hvalues := wordsOf_take_payload (hvector ▸ hle)
  rw [← harrived] at hvalues
  refine ⟨?_, fun _ => ⟨m', hm', (hl.mirrored k hk s n m' hn hm').1, hshared, hle, hvalues⟩⟩
  rw [hvalues, List.length_take, hvector, Nat.min_eq_left hle]

/-- What a move hands to the caller is what belongs to its place. -/
theorem fits_of_advance (hl : Meshed size parties) (hmail : Mail size parties c) (hk : k < size)
    (hm : c.members[k]? = some m) (hfollows : m.Follows (parties k))
    (h : m.exchange.Fits parties k m.past.length) (hadvance : Advances m.exchange w x w') :
    x.Fits parties k m.past.length := by
  have hx := hfollows.exchange
  have hsized := hl.sized k hk
  rcases hadvance.due hx with ⟨move, rest, htodo, htodo', -⟩ | ⟨-, hevents, -⟩
  · obtain ⟨hevents, -⟩ := hadvance.records (hx.table ▸ hsized) htodo htodo'
    intro var buffer values hmem
    rw [hevents] at hmem
    rcases List.mem_append.mp hmem with hold | hnew
    · exact h var buffer values hold
    · obtain ⟨s, n, hn, rfl, rfl, hmove⟩ := Exchange.of_unpacked_mem_shows hnew
      rw [hx.table] at hn
      refine ⟨s, n, hn, by rw [Exchange.varName, hx.table], rfl, ?_⟩
      rcases hmove with ⟨rfl, rfl⟩ | ⟨rfl, rfl⟩
      · -- What is delivered is the message in hand, and a message has the length of what is waited
        -- for.
        have hbytes := hadvance.arrived htodo (hx.table ▸ hn)
        exact (hmail.hand k m s n hm hn (by rw [htodo]; exact List.mem_cons_self)).unpacks hl hk hn
          ((HaloBuffer.bytes_eq_ok (hsized s n hn).2).mp hbytes).1
      · -- Unpacking is the last move of its block, so the values are those that were read.
        obtain ⟨hshared, hcount⟩ := (hx.allows htodo hn).resolve_right (by decide)
        have hfive : doneOf m.exchange.todo (block s drainActions) = 5 :=
          hx.doneOf_head htodo (HaloTable.drainBlock_within hn hshared hcount) rfl
        refine ⟨hx.drained s n hn hshared hcount (by omega) (by omega), fun hno => ?_⟩
        rw [hshared] at hno
        cases hno
  · intro var buffer values hmem
    exact h var buffer values (hevents ▸ hmem)

theorem fitting_enlist : Fitting parties (enlist size parties w) :=
  keeps_enlist fun _ _ _ _ _ h => absurd h List.not_mem_nil

theorem Fitting.step (hl : Meshed size parties) (hc : Manned size parties c)
    (hmail : Mail size parties c) (h : Fitting parties c) (hstep : c.step i = some d) :
    Fitting parties d := by
  refine Keeps.step hc h hstep (fun m q _ _ _ _ hmem => ?_) (fun r x hx _ => hx)
    fun m x w hm hold hadvance => ?_
  · exact absurd hmem List.not_mem_nil
  · exact fits_of_advance hl hmail (hc.lt hm) hm (hc.follows i m hm) hold hadvance

/-- What ranks in one grid keep, whatever their buffers are. -/
structure Orderly (size : Nat) (parties : Nat → Party) (c : Crew Universe) : Prop where
  manned : Manned size parties c
  mail : Mail size parties c
  fitting : Fitting parties c

theorem orderly_enlist (hl : Meshed size parties) {w : World Universe}
    (hnet : w.net.inFlight = []) : Orderly size parties (enlist size parties w) :=
  ⟨manned_enlist, mail_enlist hl hnet, fitting_enlist⟩

theorem Orderly.step (hl : Meshed size parties) (h : Orderly size parties c)
    (hstep : c.step i = some d) : Orderly size parties d where
  manned := h.manned.step hl hstep
  mail := h.mail.step hl h.manned hstep
  fitting := h.fitting.step hl h.manned h.mail hstep

theorem Orderly.reaches (hl : Meshed size parties) (h : Orderly size parties c)
    (hreach : Reaches c d) : Orderly size parties d := by
  induction hreach with
  | refl => exact h
  | step _ _ hstep ih => exact ih.step hl hstep

/-- A rank that has taken a message with fewer values than it waits for fails in its next step. -/
theorem Orderly.step_of_short (h : Orderly size parties c) (hm : c.members[k]? = some m) {s : Slot}
    {n : NeighborBuffers} {rest : List Move} (hn : (parties k).table.at? s = some n)
    (hok : m.failure = none) (htodo : m.exchange.todo = .act s .deliver :: rest)
    (hbytes : n.recv.bytes = .ok (n.recv.count * wordSize)) {vs : List Binary64}
    (hvs : (parties n.rank).vector m.past.length ((parties k).mirror s) = vs)
    (hshort : vs.length < n.recv.count) :
    m.step c.world = some ({ m with failure := some (.tiling (.communication n.rank
      (.payloadLength (vs.length * wordSize) n.recv.name (n.recv.count * wordSize)))) },
        c.world) := by
  have hx := (h.manned.follows k m hm).exchange
  obtain ⟨-, harrived⟩ := h.mail.hand k m s n hm hn (by rw [htodo]; exact List.mem_cons_self)
  have hlength : m.exchange.arrived.length = vs.length * wordSize := by
    rw [harrived, hvs, length_take_payload, Nat.min_eq_right (Nat.le_of_lt hshort)]
  have hne : m.exchange.arrived.length ≠ n.recv.count * wordSize := by
    rw [hlength]
    exact fun heq => Nat.ne_of_lt hshort (Nat.eq_of_mul_eq_mul_right (by decide) heq)
  -- The first thing a delivery does is to compare the two lengths.
  have hstep := Exchange.step_of_length_ne (w := c.world) htodo (hx.table ▸ hn) hbytes hne
  rw [hlength] at hstep
  have hunfinished : m.exchange.finished = false := by rw [Exchange.finished, htodo]; rfl
  simp only [CrewMember.step, hok, hunfinished, hstep]
  rfl

end Crew

end StencilPlan
