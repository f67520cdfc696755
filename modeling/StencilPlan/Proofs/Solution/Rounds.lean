import StencilPlan.Proofs.Halo.Progress
import StencilPlan.Proofs.Solution.Muster
import StencilPlan.Proofs.Stencil.Built

/-!
# Exchanges of prepared ranks

Solutions with the same stencil and the same settings are assembled, one for each rank. They prepare
in any order and then exchange any number of times, again in any order: a rank may be rounds ahead
of the others. Whatever they do, every buffer arrives once and in its round; the messages are all
taken in the end, and the shared windows are used in turns.
-/

namespace StencilPlan

/-- A solution for each rank, all with the same stencil and settings, in a network that is still
empty. -/
structure Assembled (stencil : Stencil) (s : Settings) (solutions : List Solution)
    (w : World Universe) : Prop where
  length : solutions.length = w.net.size
  rank : ∀ (k : Nat) (sol : Solution), solutions[k]? = some sol → sol.host.rank = k
  stencil_eq : ∀ sol ∈ solutions, sol.stencil = stencil
  settings_eq : ∀ sol ∈ solutions, sol.settings = s
  inFlight : w.net.inFlight = []
  /-- No key stands for two segments. -/
  segments : Universe.Distinct w.net.segments

/-- A solution for each rank, each with a stencil and settings of its own, in a network in which no
message is under way. -/
structure Gathered (stencils : Nat → Stencil) (settings : Nat → Settings)
    (solutions : List Solution) (w : World Universe) : Prop where
  length : solutions.length = w.net.size
  rank : ∀ (k : Nat) (sol : Solution), solutions[k]? = some sol → sol.host.rank = k
  stencil_eq : ∀ (k : Nat) (sol : Solution), solutions[k]? = some sol → sol.stencil = stencils k
  settings_eq : ∀ (k : Nat) (sol : Solution), solutions[k]? = some sol → sol.settings = settings k
  inFlight : w.net.inFlight = []
  /-- No key stands for two segments. -/
  segments : Universe.Distinct w.net.segments

theorem Assembled.gathered {stencil : Stencil} {s : Settings} {solutions : List Solution}
    {w : World Universe} (h : Assembled stencil s solutions w) :
    Gathered (fun _ => stencil) (fun _ => s) solutions w :=
  ⟨h.length, h.rank, fun _ sol hsol => h.stencil_eq sol (List.mem_of_getElem? hsol),
    fun _ sol hsol => h.settings_eq sol (List.mem_of_getElem? hsol), h.inFlight, h.segments⟩

theorem Gathered.assembled {stencil : Stencil} {s : Settings} {solutions : List Solution}
    {w : World Universe} (h : Gathered (fun _ => stencil) (fun _ => s) solutions w) :
    Assembled stencil s solutions w := by
  refine ⟨h.length, h.rank, fun sol hsol => ?_, fun sol hsol => ?_, h.inFlight, h.segments⟩
  · obtain ⟨k, hk⟩ := List.mem_iff_getElem?.mp hsol
    exact h.stencil_eq k sol hk
  · obtain ⟨k, hk⟩ := List.mem_iff_getElem?.mp hsol
    exact h.settings_eq k sol hk

/-- One solution after the other, each with its place as its rank. -/
theorem gathered_map (w : World Universe) (sol : Nat → Solution)
    (hrank : ∀ k, (sol k).host.rank = k) (hnet : w.net.inFlight = [])
    (hsegments : Universe.Distinct w.net.segments) :
    Gathered (fun k => (sol k).stencil) (fun k => (sol k).settings)
      ((List.range w.net.size).map sol) w := by
  have hplace : ∀ k sol', ((List.range w.net.size).map sol)[k]? = some sol' → sol' = sol k := by
    intro k sol' h
    rw [List.getElem?_map, Option.map_eq_some_iff] at h
    obtain ⟨j, hj, rfl⟩ := h
    obtain ⟨-, rfl⟩ := List.getElem?_eq_some_iff.mp hj
    rw [List.getElem_range]
  refine ⟨by simp, fun k sol' h => ?_, fun k sol' h => ?_, fun k sol' h => ?_, hnet, hsegments⟩
  all_goals obtain rfl := hplace k sol' h
  · exact hrank k
  · rfl
  · rfl

namespace Stage

/-- What was prepared, once the buffers are attached. -/
def plan? : Stage → Option Prepared
  | settled p | ready p => some p
  | begun | drafted _ | offered .. => none

theorem exists_plan {st : Stage} (h : st.hasSettled = true) : ∃ p, st.plan? = some p := by
  cases st with
  | settled p | ready p => exact ⟨p, rfl⟩
  | begun | drafted | offered => cases h

def isReady : Stage → Bool
  | ready _ => true
  | begun | drafted _ | offered .. | settled _ => false

theorem hasSettled_of_plan? {st : Stage} {p : Prepared} (h : st.plan? = some p) :
    st.hasSettled = true := by
  cases st <;> first | rfl | cases h

theorem hasSettled_of_isReady {st : Stage} (h : st.isReady = true) : st.hasSettled = true := by
  cases st <;> first | rfl | cases h

end Stage

instance : Inhabited Topology := ⟨⟨default, default, 0, default, 0, []⟩⟩

instance : Inhabited Party := ⟨⟨default, default, fun _ _ _ => [], false, 0⟩⟩

namespace Muster

variable {stencil : Stencil} {s : Settings} {solutions : List Solution} {w : World Universe}
  {m : Muster}

/-- What a rank brings to its exchanges: the buffers and the plan it has come to. How it packs in
each of its rounds is up to the caller. -/
def party (m : Muster) (pack : Nat → Nat → String → HaloBuffer → List Binary64) (rounds k : Nat) :
    Party :=
  ((m.recruits[k]?).bind fun r => r.stage.plan?.map fun p =>
    { table := r.solution.halos, topology := p.topology, pack := pack k
      interior := p.plan.sizes.overlapComms, rounds }).getD default

/-- The ranks before the first of their exchanges, of which `rounds` more follow. -/
def crew (m : Muster) (pack : Nat → Nat → String → HaloBuffer → List Binary64) (rounds : Nat) :
    Crew Universe :=
  Crew.enlist m.recruits.length (m.party pack rounds) m.world

/-- The same ranks, where rank `k` does `rounds k` more exchanges. -/
def crewOf (m : Muster) (pack : Nat → Nat → String → HaloBuffer → List Binary64)
    (rounds : Nat → Nat) : Crew Universe :=
  Crew.enlist m.recruits.length (fun k => m.party pack (rounds k) k) m.world

theorem party_eq (pack : Nat → Nat → String → HaloBuffer → List Binary64) (rounds : Nat) {k : Nat}
    {r : Recruit} {p : Prepared} (hr : m.recruits[k]? = some r)
    (hp : r.stage.plan? = some p) : m.party pack rounds k =
      { table := r.solution.halos, topology := p.topology, pack := pack k
        interior := p.plan.sizes.overlapComms, rounds } := by
  rw [party, hr, Option.bind_some, hp, Option.map_some, Option.getD_some]

/-- All ranks have attached their buffers. -/
def AllSettled (m : Muster) : Prop := ∀ r ∈ m.recruits, r.stage.hasSettled = true

/-- All ranks are prepared. -/
def AllReady (m : Muster) : Prop := ∀ r ∈ m.recruits, r.stage.isReady = true

instance (m : Muster) : Decidable m.AllSettled :=
  inferInstanceAs (Decidable (∀ r ∈ m.recruits, r.stage.hasSettled = true))

instance (m : Muster) : Decidable m.AllReady :=
  inferInstanceAs (Decidable (∀ r ∈ m.recruits, r.stage.isReady = true))

theorem AllReady.settled (h : m.AllReady) : m.AllSettled :=
  fun r hr => Stage.hasSettled_of_isReady (h r hr)

/-! ### From the preparation to the exchanges -/

variable {stencils : Nat → Stencil} {settings : Nat → Settings}

/-- Everything is in order before the ranks begin to prepare. -/
theorem sound_of_gathered (h : Gathered stencils settings solutions w) :
    Sound stencils settings w.net (ofSolutions solutions w) := by
  have hbegun : ∀ (k : Nat) (r : Recruit), (ofSolutions solutions w).recruits[k]? = some r →
      ∃ sol, solutions[k]? = some sol ∧ r = ⟨sol, .begun⟩ := by
    intro k r hr
    rw [ofSolutions, List.getElem?_map, Option.map_eq_some_iff] at hr
    obtain ⟨sol, hsol, rfl⟩ := hr
    exact ⟨sol, hsol, rfl⟩
  -- Nobody has offered or attached anything yet, so most of what is kept says nothing.
  have hoffered : ∀ k t, ¬ (ofSolutions solutions w).Offered k t := by
    rintro k t ⟨r, hr, hstage, -⟩
    obtain ⟨sol, -, rfl⟩ := hbegun k r hr
    cases hstage
  have hsettled : ∀ k, ¬ (ofSolutions solutions w).Settled k := by
    rintro k ⟨r, hr, hstage⟩
    obtain ⟨sol, -, rfl⟩ := hbegun k r hr
    cases hstage
  constructor
  case length => rw [ofSolutions, List.length_map, h.length]
  case net => rfl
  case knows =>
    intro k r hr
    obtain ⟨sol, hsol, rfl⟩ := hbegun k r hr
    exact ⟨h.rank k sol hsol, h.stencil_eq k sol hsol, h.settings_eq k sol hsol, trivial⟩
  case met => exact fun k _ hk => absurd hk (hsettled k)
  case stocked =>
    exact ⟨fun k t ht => absurd ht (hoffered k t), fun k _ t _ _ ht => absurd ht (hoffered k t),
      h.segments, fun k t _ _ _ ht => absurd ht (hoffered k t),
      fun j t _ _ ht => absurd ht (hoffered j t)⟩

theorem sound_of_assembled (h : Assembled stencil s solutions w) :
    Sound (fun _ => stencil) (fun _ => s) w.net (ofSolutions solutions w) :=
  sound_of_gathered h.gathered

section Settled

variable {u : Universe} (pack : Nat → Nat → String → HaloBuffer → List Binary64) (rounds : Nat)

/-- What a rank has come to with its buffers attached. -/
theorem Sound.settles (h : Sound stencils settings u m) {k : Nat} {r : Recruit} {p : Prepared}
    (hr : m.recruits[k]? = some r) (hp : r.stage.plan? = some p) :
    Settles (stencils k) (settings k) u k p r.solution.halos := by
  have htells := (h.knows k r hr).stage
  -- Only two stages come after attaching, and both tell with which table.
  cases hstage : r.stage with
  | begun | drafted | offered =>
    rw [hstage] at hp
    cases hp
  | settled q =>
    rw [hstage] at hp htells
    obtain rfl := Option.some.inj hp
    exact htells
  | ready q =>
    rw [hstage] at hp htells
    obtain rfl := Option.some.inj hp
    exact htells.1

/-- What all ranks bring once their buffers are attached. -/
theorem Sound.brings (h : Sound stencils settings u m) (hall : m.AllSettled) {k : Nat}
    (hk : k < u.size) : ∃ r p, m.recruits[k]? = some r ∧ r.stage.plan? = some p ∧
      Settles (stencils k) (settings k) u k p r.solution.halos ∧ m.party pack rounds k =
        { table := r.solution.halos, topology := p.topology, pack := pack k
          interior := p.plan.sizes.overlapComms, rounds } := by
  obtain ⟨r, hr⟩ : ∃ r, m.recruits[k]? = some r := ⟨_, List.getElem?_eq_getElem (h.length ▸ hk)⟩
  obtain ⟨p, hp⟩ := Stage.exists_plan (hall r (List.mem_of_getElem? hr))
  exact ⟨r, p, hr, hp, h.settles hr hp, party_eq pack rounds hr hp⟩

/-- The ranks may differ in how many rounds they do. -/
theorem Sound.setUpEach (h : Sound (fun _ => stencil) (fun _ => s) u m) (hall : m.AllSettled)
    (rounds : Nat → Nat) : SetUpAll stencil s u fun k => m.party pack (rounds k) k := by
  intro k hk
  obtain ⟨r, p, -, -, ⟨placement, hset, htopology⟩, hparty⟩ := h.brings pack (rounds k) hall hk
  dsimp only
  rw [hparty]
  exact ⟨placement, hset, htopology⟩

theorem Sound.setUpAll (h : Sound (fun _ => stencil) (fun _ => s) u m) (hall : m.AllSettled) :
    SetUpAll stencil s u (m.party pack rounds) := h.setUpEach pack hall fun _ => rounds

theorem Sound.hallEach (h : Sound (fun _ => stencil) (fun _ => s) u m) (hall : m.AllSettled)
    (rounds : Nat → Nat) :
    ∀ k < u.size, m.Offered k (m.party pack (rounds k) k).table ∧ m.Settled k := by
  intro k hk
  obtain ⟨r, p, hr, -, -, hparty⟩ := h.brings pack (rounds k) hall hk
  have hsettled := hall r (List.mem_of_getElem? hr)
  rw [hparty]
  exact ⟨⟨r, hr, Stage.hasOffered_of_hasSettled hsettled, rfl⟩, r, hr, hsettled⟩

theorem Sound.hall (h : Sound (fun _ => stencil) (fun _ => s) u m) (hall : m.AllSettled) :
    ∀ k < u.size, m.Offered k (m.party pack rounds k).table ∧ m.Settled k :=
  h.hallEach pack hall fun _ => rounds

/-- Ranks that have attached their buffers are a crew in order. -/
theorem Sound.crewEach (h : Sound (fun _ => stencil) (fun _ => s) u m)
    (hc : stencil.catalog.WellFormed) (hs : s.Shaped stencil.catalog)
    (hinFlight : u.inFlight = []) (hall : m.AllSettled) (rounds : Nat → Nat) :
    Crew.Sound u.size (fun k => m.party pack (rounds k) k)
      (Crew.enlist m.recruits.length (fun k => m.party pack (rounds k) k) m.world) := by
  have hset := h.setUpEach pack hall rounds
  have hl := linked_of_setUp hc hs hset
  have hsettled := h.hallEach pack hall rounds
  have hnet : m.world.net.inFlight = [] := by
    rw [h.net]
    exact hinFlight
  rw [h.length]
  apply Crew.sound_enlist hl hnet
  · exact h.stocked.housed hl (fun k hk _ _ hn => hset.varName_mirror hc hs hk hn) hsettled
  · exact h.stocked.idle fun k hk => (hsettled k hk).1

theorem Sound.crew (h : Sound (fun _ => stencil) (fun _ => s) u m) (hc : stencil.catalog.WellFormed)
    (hs : s.Shaped stencil.catalog) (hinFlight : u.inFlight = []) (hall : m.AllSettled) :
    Crew.Sound u.size (m.party pack rounds) (m.crew pack rounds) :=
  h.crewEach pack hc hs hinFlight hall fun _ => rounds

theorem Sound.sameRounds (h : Sound (fun _ => stencil) (fun _ => s) u m) (hall : m.AllSettled) :
    ∀ k < u.size, ∀ j < u.size,
      (m.party pack rounds k).rounds = (m.party pack rounds j).rounds := by
  intro k hk j hj
  obtain ⟨_, _, -, -, -, hparty⟩ := h.brings pack rounds hall hk
  obtain ⟨_, _, -, -, -, hparty'⟩ := h.brings pack rounds hall hj
  rw [hparty, hparty']

/-- An exchange of any round starts with what the rank brings. -/
theorem Sound.startsRound (h : Sound (fun _ => stencil) (fun _ => s) u m)
    (hc : stencil.catalog.WellFormed) (hs : s.Shaped stencil.catalog) (hall : m.AllSettled)
    {k : Nat} (hk : k < u.size) (round : Nat) :
    Exchange.start (m.party pack rounds k).table (m.party pack rounds k).topology
        ((m.party pack rounds k).packer round) (m.party pack rounds k).interior =
      .ok ((m.party pack rounds k).enlist.exchange.again
        ((m.party pack rounds k).packer round)) := by
  have hl := linked_of_setUp hc hs (h.setUpAll pack rounds hall)
  rw [Exchange.start, HaloTable.moves_eq_ok (hl.sized k hk)]
  rfl

/-- The first exchange is the one that the rank enlists with. -/
theorem Sound.starts (h : Sound (fun _ => stencil) (fun _ => s) u m)
    (hc : stencil.catalog.WellFormed) (hs : s.Shaped stencil.catalog) (hall : m.AllSettled)
    {k : Nat} (hk : k < u.size) :
    Exchange.start (m.party pack rounds k).table (m.party pack rounds k).topology
        ((m.party pack rounds k).packer 0) (m.party pack rounds k).interior =
      .ok (m.party pack rounds k).enlist.exchange := h.startsRound pack rounds hc hs hall hk 0

/-- So does an exchange of a prepared solution, whatever it has counted so far. -/
theorem Sound.opensRound (h : Sound (fun _ => stencil) (fun _ => s) u m)
    (hc : stencil.catalog.WellFormed) (hs : s.Shaped stencil.catalog) (hready : m.AllReady)
    {k : Nat} {r : Recruit} (hr : m.recruits[k]? = some r) (round : Nat) (t : Traffic)
    (v : Verbosity) (w : World Universe) :
    (Station.openExchange ((m.party pack rounds k).packer round)).Yields v
      ⟨{ r.solution with totals := t }, w⟩
      ((m.party pack rounds k).enlist.exchange.again ((m.party pack rounds k).packer round))
      ⟨{ r.solution with totals := t }, w⟩ := by
  have hk : k < u.size := h.length ▸ (List.getElem?_eq_some_iff.mp hr).1
  -- What an exchange starts from does not depend on the totals, only on the plan and the table.
  have hstarts := h.startsRound pack rounds hc hs hready.settled hk round
  have hstage := hready r (List.mem_of_getElem? hr)
  have htells := (h.knows k r hr).stage
  cases hcase : r.stage with
  | ready p =>
    rw [hcase] at htells
    rw [party_eq pack rounds hr (show r.stage.plan? = some p by rw [hcase]; rfl)] at hstarts ⊢
    simp only [Station.openExchange, Task.yields_bind_get, Task.yields_bind_planError,
      Task.yields_checked, Solution.require, htells.2]
    exact ⟨p, rfl, hstarts, trivial⟩
  | begun | drafted | offered | settled =>
    rw [hcase] at hstage
    cases hstage

theorem Sound.opens (h : Sound (fun _ => stencil) (fun _ => s) u m)
    (hc : stencil.catalog.WellFormed) (hs : s.Shaped stencil.catalog) (hready : m.AllReady)
    {k : Nat} {r : Recruit} (hr : m.recruits[k]? = some r) (v : Verbosity) :
    (Station.openExchange ((m.party pack rounds k).packer 0)).Yields v ⟨r.solution, m.world⟩
      (m.party pack rounds k).enlist.exchange ⟨r.solution, m.world⟩ :=
  h.opensRound pack rounds hc hs hready hr 0 r.solution.totals v m.world

end Settled

end Muster

/-! ### What all exchanges come to -/

namespace Crew

variable {size : Nat} {parties : Nat → Party} {c : Crew Universe}

/-- The callers see what they should. A finished exchange of round `r` has packed every send buffer
that holds anything once, and has unpacked every such receive buffer once, with the vector that the
neighbor packed in its own round `r`; one that goes on still has some of it to show. -/
structure Delivers (parties : Nat → Party) (c : Crew Universe) : Prop where
  past : ∀ k (m : CrewMember Universe), c.members[k]? = some m → ∀ r (x : Exchange Universe),
    m.past[r]? = some x → x.events.Perm ((parties k).expected parties r)
  current : ∀ k (m : CrewMember Universe), c.members[k]? = some m → ∃ rest,
    (m.exchange.events ++ rest).Perm ((parties k).expected parties m.past.length) ∧
      (m.exchange.finished = true → rest = [])

theorem Ledger.delivers (h : Ledger parties c) : c.Delivers parties := by
  refine ⟨fun k m hm r x hx => (h.past k m hm r x hx).events, fun k m hm => ?_⟩
  refine ⟨_, (h.current k m hm).events, fun hfinished => ?_⟩
  rw [Exchange.due, List.isEmpty_iff.mp hfinished]
  rfl

/-- The two sides of every shared window take turns. Here `m` is the rank that fills the window at
the place `s`, and `m'` is the neighbor that drains it. -/
structure TakesTurns (parties : Nat → Party) (c : Crew Universe) : Prop where
  /-- What is read in a round is what the neighbor packed in it. -/
  read : ∀ k (m : CrewMember Universe) s n rest, c.members[k]? = some m →
    (parties k).table.at? s = some n → m.exchange.todo = .act s .drain :: rest →
      n.recv.read c.world.heap n.recv.count =
        .ok ((parties n.rank).vector m.past.length ((parties k).mirror s))
  /-- What is about to be overwritten was read in all rounds before. -/
  fill : ∀ k (m m' : CrewMember Universe) s n rest, c.members[k]? = some m →
    (parties k).table.at? s = some n → c.members[n.rank]? = some m' →
      m.exchange.todo = .act s .fill :: rest →
        m'.times (.act ((parties k).mirror s) .drain) = m.past.length
  /-- At most one of them holds the lock, and the lock word says so. -/
  lock : ∀ k (m m' : CrewMember Universe) s n v, c.members[k]? = some m →
    (parties k).table.at? s = some n → c.members[n.rank]? = some m' → n.shared = true →
      n.send.count ≠ 0 → n.send.window = some v →
        ¬ (m.HoldsSend s ∧ m'.HoldsRecv ((parties k).mirror s)) ∧
        c.world.heap.word? v.pool (v.offset + n.send.count) =
          some (if m.HoldsSend s ∨ m'.HoldsRecv ((parties k).mirror s) then 1 else 0)

theorem Sound.takesTurns (hl : Linked size parties) (h : Sound size parties c) :
    c.TakesTurns parties := by
  constructor
  case read => exact fun k m s n rest hm hn htodo => h.read_eq hl hm hn htodo
  case fill => exact fun k m m' s n rest hm hn hm' htodo => h.drains_of_fill hl hm hn hm' htodo
  case lock =>
    intro k m m' s n v hm hn hm' hshared hcount hv
    obtain ⟨v', hv', hboth, hword⟩ := h.lockWord hl hm hn hm' hshared hcount
    obtain rfl := Option.some.inj (hv'.symm.trans hv)
    exact ⟨hboth, hword⟩

/-- One step after the other, of the ranks with some numbers. -/
def follow (c : Crew Universe) : List Nat → Option (Crew Universe)
  | [] => some c
  | k :: ks => (c.step k).bind fun d => d.follow ks

theorem reaches_of_follow {c d : Crew Universe} {ks : List Nat} (h : c.follow ks = some d) :
    c.Reaches d := by
  induction ks generalizing c with
  | nil => exact Option.some.inj h ▸ .refl
  | cons k ks ih =>
    obtain ⟨e, hstep, h⟩ := Option.bind_eq_some_iff.mp h
    exact .trans (.step k .refl hstep) (ih h)

/-- Every shared receive buffer has the window of the send buffer that its peer has for the same
variable at the opposite offset. -/
def Attached (size : Nat) (parties : Nat → Party) : Prop :=
  ∀ k < size, ∀ s n, (parties k).table.at? s = some n → n.shared = true →
    ∃ m v v', (parties n.rank).table.at? ((parties k).mirror s) = some m ∧ m.rank = k ∧
      m.shared = true ∧
      (parties n.rank).table.varName ((parties k).mirror s) = (parties k).table.varName s ∧
      n.recv.window = some v ∧ m.send.window = some v' ∧ v.pool = v'.pool ∧
      v.offset = v'.offset ∧ n.recv.count = m.send.count

end Crew

namespace Muster

variable {stencil : Stencil} {s : Settings} {solutions : List Solution} {w : World Universe}
  {m : Muster}

/-- Without shared memory all exchanges go by messages. Whatever the order in which prepared ranks
make their moves, nobody fails, every exchange delivers what it should and can be brought to its
end, and no message is left over. -/
theorem messages_delivered (hstencil : stencil.Built) (hs : s.Reachable stencil.catalog)
    (hoff : s.useShared = false) (hstart : Assembled stencil s solutions w)
    (hreach : (ofSolutions solutions w).Reaches m) (hready : m.AllReady)
    (htags : ∀ r ∈ m.recruits, ∀ e ∈ r.solution.halos.entries,
      e.1.var * r.solution.halos.neighborhood + e.1.neighbor < tagLimit)
    (pack : Nat → Nat → String → HaloBuffer → List Binary64) (rounds : Nat) :
    (∀ k (r : Recruit), m.recruits[k]? = some r → ∀ v,
      (Station.openExchange ((m.party pack rounds k).packer 0)).Yields v ⟨r.solution, m.world⟩
        (m.party pack rounds k).enlist.exchange ⟨r.solution, m.world⟩) ∧
    ∀ c, (m.crew pack rounds).Reaches c →
      c.Unfailing ∧ c.Delivers (m.party pack rounds) ∧
      ((∀ x ∈ c.members, x.finished = true) → c.world.net.inFlight = []) ∧
      ∃ d, c.Reaches d ∧ ∀ x ∈ d.members, x.finished = true := by
  have hc := hstencil.catalog.wellFormed
  have hsound := (sound_of_assembled hstart).reaches (fun _ _ => hs.shaped)
    (fun _ _ => hstencil.nodup) hreach
  have hset := hsound.setUpAll pack rounds hready.settled
  have hl := linked_of_setUp hc hs.shaped hset
  have hcrew := hsound.crew pack rounds hc hs.shaped hstart.inFlight hready.settled
  have hrounds := hsound.sameRounds pack rounds hready.settled
  -- Without shared memory nothing is counted that has no room in the pools, which are in range.
  have hrange : ∀ k < w.net.size, (m.party pack rounds k).InRange := by
    intro k hk
    refine inRange_of_setUp hc hs.shaped hset hoff (fun j hj slot n hn => ?_) hk
    obtain ⟨r, p, hr, -, -, hparty⟩ := hsound.brings pack rounds hready.settled hj
    rw [hparty] at hn ⊢
    exact htags r (List.mem_of_getElem? hr) (slot, n) (HaloTable.mem_entries.mpr hn)
  refine ⟨fun k r hr v => hsound.opens pack rounds hc hs.shaped hready hr v, fun c hreached => ?_⟩
  have hnow := hcrew.reaches hl hreached
  have hok := hcrew.unfailing_reaches hl hrange
    (by rw [Muster.crew, hsound.length]; exact Crew.unfailing_enlist) hreached
  refine ⟨hok, hnow.ledger.delivers, fun hdone => ?_, hnow.exists_finished hl hrange hrounds hok⟩
  exact hnow.mail.inFlight_eq_nil hl hnow.manned hnow.addressed hdone hrounds

/-- Once all ranks have attached their buffers, every shared receive buffer has the window of its
peer. Whatever the order in which the ranks make their moves, the two sides of a window take turns,
every exchange delivers what it should, and in the end no flag is up and no lock is taken. -/
theorem windows_shared_in_turn (hstencil : stencil.Built) (hs : s.Reachable stencil.catalog)
    (hstart : Assembled stencil s solutions w) (hreach : (ofSolutions solutions w).Reaches m)
    (hsettled : m.AllSettled) (pack : Nat → Nat → String → HaloBuffer → List Binary64)
    (rounds : Nat) :
    Crew.Attached w.net.size (m.party pack rounds) ∧
    (∀ k < w.net.size, Exchange.start (m.party pack rounds k).table (m.party pack rounds k).topology
        ((m.party pack rounds k).packer 0) (m.party pack rounds k).interior =
      .ok (m.party pack rounds k).enlist.exchange) ∧
    ∀ c, (m.crew pack rounds).Reaches c →
      c.TakesTurns (m.party pack rounds) ∧ c.Delivers (m.party pack rounds) ∧
      ((∀ x ∈ c.members, x.finished = true) →
        Crew.Idle w.net.size (m.party pack rounds) c.world.heap) := by
  have hc := hstencil.catalog.wellFormed
  have hsound := (sound_of_assembled hstart).reaches (fun _ _ => hs.shaped)
    (fun _ _ => hstencil.nodup) hreach
  have hset := hsound.setUpAll pack rounds hsettled
  have hl := linked_of_setUp hc hs.shaped hset
  have hcrew := hsound.crew pack rounds hc hs.shaped hstart.inFlight hsettled
  have hrounds := hsound.sameRounds pack rounds hsettled
  have hall := hsound.hall pack rounds hsettled
  have hnames : ∀ k < w.net.size, ∀ slot n, (m.party pack rounds k).table.at? slot = some n →
      (m.party pack rounds n.rank).table.varName ((m.party pack rounds k).mirror slot) =
        (m.party pack rounds k).table.varName slot :=
    fun k hk _ _ hn => hset.varName_mirror hc hs.shaped hk hn
  refine ⟨fun k hk slot n hn hshared => ?_,
    fun k hk => hsound.starts pack rounds hc hs.shaped hsettled hk, fun c hreached => ?_⟩
  · obtain ⟨n', hpartner⟩ := hl.partner k hk slot n hn
    have hback := hpartner.symm hl hk hn
    have hshared' := hpartner.shared.trans hshared
    have hj := hl.inRange k hk slot n hn
    obtain ⟨v', -, hsend, -⟩ := hcrew.housed.lodged _ hj _ n' hpartner.entry
    obtain ⟨v, hplaced, -, hpool, hoffset⟩ := hsound.stocked.attached_window hl hnames hall
      hj hpartner.entry hshared' hback hsend.window
    exact ⟨n', v, v', hpartner.entry, hpartner.rank, hshared', hnames k hk slot n hn,
      hplaced.window, hsend.window, hpool, hoffset, hback.count⟩
  · have hnow := hcrew.reaches hl hreached
    refine ⟨hnow.takesTurns hl, hnow.ledger.delivers, fun hdone => ?_⟩
    -- Windows without values are never touched: their control words are still zero.
    have hunused : Crew.Unused w.net.size (m.party pack rounds) c.world.heap := by
      apply hcrew.unused_reaches hl ?_ hreached
      intro k hk slot n v hn hshared hzero hv
      have hidle := hsound.stocked.idle (fun k hk => (hall k hk).1) k hk slot n v hn hshared hv
      rwa [hzero] at hidle
    exact hnow.idle_of_finished hl hunused hdone hrounds

end Muster

namespace Couple

/-- Points in a line, with a time step. -/
def catalog : Catalog := (Catalog.declare "t" ["x"] []).toOption.getD default

/-- One variable with a halo of one point on the left. -/
def stencil : Stencil :=
  ((Stencil.new "couple" catalog).withHalo "u" "next" true 0 [1]).toOption.getD
    (.new "couple" catalog)

/-- Four points for each rank. -/
def apart : Settings :=
  ((Settings.initial catalog 1).resize catalog .localDomain "x" 4).toOption.getD default

/-- The same in shared memory. -/
def together : Settings := ((Settings.setOption catalog "use_shm" "true").run none apart).state

/-- One solution for each of two ranks. -/
def solutions (s : Settings) : List Solution :=
  [0, 1].map fun k => { Solution.new (.new k 1 .unlimited) stencil 1 with settings := s }

/-- Two ranks on one node. -/
def world : World Universe := ⟨.empty, .oneNode 2⟩

/-- The two ranks after their preparation, which they do phase by phase in turn. -/
def muster (s : Settings) : Muster :=
  ((Muster.ofSolutions (solutions s) world).follow none [0, 1, 0, 1, 0, 1, 0, 1]).getD ⟨[], world⟩

/-- Each rank packs its number and the round. -/
def pack (k round : Nat) (_ : String) (_ : HaloBuffer) : List Binary64 :=
  [⟨UInt64.ofNat (16 * k + round)⟩]

theorem catalog_built : catalog.Built :=
  .declare (show Catalog.declare "t" ["x"] [] = .ok catalog by decide +kernel)

theorem built : stencil.Built := by
  have h : (Stencil.new "couple" catalog).withHalo "u" "next" true 0 [1] = .ok stencil := by
    rfl
  exact .halo (.new catalog_built "couple") h

theorem reachable_apart : apart.Reachable catalog :=
  .resize (.initial 1) (show Idx.InRange 4 by decide)
    (show Settings.resize _ catalog .localDomain "x" 4 = _ by decide +kernel)

theorem reachable_together : together.Reachable catalog :=
  .option reachable_apart "use_shm" "true" none

theorem assembled (s : Settings) : Assembled stencil s (solutions s) world :=
  (gathered_map world
    (fun k => { Solution.new (.new k 1 .unlimited) stencil 1 with settings := s })
    (fun _ => rfl) rfl List.nodup_nil).assembled

theorem reaches {s : Settings}
    (h : ((Muster.ofSolutions (solutions s) world).follow none
      [0, 1, 0, 1, 0, 1, 0, 1]).isSome = true) :
    (Muster.ofSolutions (solutions s) world).Reaches (muster s) := Muster.reaches_getD h

end Couple

/-- Of two ranks the second one receives a message in each of two exchanges. -/
theorem Muster.messages_delivered_couple : ∃ d,
    ((Couple.muster Couple.apart).crew Couple.pack 1).Reaches d ∧
      (∀ x ∈ d.members, x.finished = true) ∧ d.world.net.inFlight = [] ∧
      d.Delivers ((Couple.muster Couple.apart).party Couple.pack 1) ∧
      ((Couple.muster Couple.apart).party Couple.pack 1 1).expected
          ((Couple.muster Couple.apart).party Couple.pack 1) 1 =
        [.interior, .unpacked "u" "u_recv_-1" [⟨1⟩]] := by
  have hready : (Couple.muster Couple.apart).AllReady := by decide +kernel
  have htags : ∀ r ∈ (Couple.muster Couple.apart).recruits, ∀ e ∈ r.solution.halos.entries,
      e.1.var * r.solution.halos.neighborhood + e.1.neighbor < tagLimit := by decide +kernel
  obtain ⟨-, hruns⟩ := Muster.messages_delivered Couple.built Couple.reachable_apart
    (by decide +kernel) (Couple.assembled _) (Couple.reaches (by decide +kernel)) hready htags
    Couple.pack 1
  obtain ⟨-, -, -, d, hreach, hdone⟩ := hruns _ .refl
  obtain ⟨-, hdelivers, hempty, -⟩ := hruns d hreach
  exact ⟨d, hreach, hdone, hempty hdone, hdelivers, by decide +kernel⟩

/-- Of two ranks the second one reads the window that the first one fills. -/
theorem Muster.windows_shared_in_turn_couple :
    (Couple.muster Couple.together).AllSettled ∧
      (∃ e ∈ ((Couple.muster Couple.together).party Couple.pack 1 1).table.entries,
        e.2.shared = true ∧ e.2.recv.count = 1) ∧
      Crew.Attached 2 ((Couple.muster Couple.together).party Couple.pack 1) ∧
      ∃ d, ((Couple.muster Couple.together).crew Couple.pack 1).Reaches d ∧
        (∀ x ∈ d.members, x.finished = true) ∧
        d.Delivers ((Couple.muster Couple.together).party Couple.pack 1) ∧
        Crew.Idle 2 ((Couple.muster Couple.together).party Couple.pack 1) d.world.heap := by
  have hsettled : (Couple.muster Couple.together).AllSettled := by decide +kernel
  obtain ⟨hattached, -, hruns⟩ := Muster.windows_shared_in_turn Couple.built
    Couple.reachable_together (Couple.assembled _) (Couple.reaches (by decide +kernel)) hsettled
    Couple.pack 1
  -- The writer does a round, then the reader, and so once more.
  have hfollow : (((Couple.muster Couple.together).crew Couple.pack 1).follow
      (.replicate 8 0 ++ .replicate 8 1 ++ .replicate 7 0 ++ .replicate 7 1)).any
        (·.members.all (·.finished)) = true := by decide +kernel
  obtain ⟨d, hd, hdone⟩ := (Option.any_eq_true _ _).mp hfollow
  have hreach := Crew.reaches_of_follow hd
  rw [List.all_eq_true] at hdone
  obtain ⟨-, hdelivers, hidle⟩ := hruns d hreach
  exact ⟨hsettled, by decide +kernel, hattached, d, hreach, hdone, hdelivers, hidle hdone⟩

end StencilPlan
