import StencilPlan.Proofs.Halo.Unpacked
import StencilPlan.Proofs.Solution.Rounds

/-!
# Prepared ranks whose buffers do not fit

Nothing makes the ranks of one grid agree on how large their local domains are or how wide their
halos. What comes of it is decided where a rank receives. A message with fewer values than the rank
waits for is refused, but of a longer one the rank takes the first values and never learns of the
others. In shared memory a rank attaches only to a window for which as many words were reserved as
for its own buffer and fails otherwise, so the numbers of values may differ within the last cache
line.
-/

namespace StencilPlan

namespace Crew

/-- Two buffers for the same variable that share a window have the same words reserved for it. -/
def Even (size : Nat) (parties : Nat → Party) : Prop :=
  ∀ k < size, ∀ s n, (parties k).table.at? s = some n → n.shared = true →
    ∀ s' m, (parties n.rank).table.at? s' = some m → m.rank = k → m.shared = true →
      (parties n.rank).table.varName s' = (parties k).table.varName s →
        m.send.reservedWords true = n.recv.reservedWords true

/-- The receiver decides how much it takes. What it unpacks is as long as its own buffer and, if it
came as a message, the beginning of what the neighbor packed in the same round. A message that is
too short makes it fail. -/
structure Measured (parties : Nat → Party) (c : Crew Universe) : Prop where
  unpacked : Fitting parties c
  short : ∀ k (m : CrewMember Universe) s n rest vs, c.members[k]? = some m →
    (parties k).table.at? s = some n → m.failure = none →
      m.exchange.todo = .act s .deliver :: rest →
        (parties n.rank).vector m.past.length ((parties k).mirror s) = vs →
          vs.length < n.recv.count →
            m.step c.world = some ({ m with failure := some (.tiling (.communication n.rank
              (.payloadLength (vs.length * wordSize) n.recv.name (n.recv.count * wordSize)))) },
                c.world)

end Crew

namespace Muster

/-- The ranks that are set up stand in one grid. -/
def InGrid (m : Muster) (grid : DimVec) : Prop :=
  ∀ r ∈ m.recruits, ∀ p ∈ r.stage.plan?, p.topology.grid = grid

instance (m : Muster) (grid : DimVec) : Decidable (m.InGrid grid) :=
  inferInstanceAs (Decidable (∀ r ∈ m.recruits, ∀ p ∈ r.stage.plan?, p.topology.grid = grid))

/-- A rank has offered its buffers and shares one of them with a neighbor that has published another
number of words for it. -/
def Clashes (m : Muster) (k : Nat) (t : HaloTable) : Prop :=
  ∃ s n t' s' n', t.at? s = some n ∧ n.shared = true ∧ m.Offered n.rank t' ∧ t'.at? s' = some n' ∧
    n'.rank = k ∧ n'.shared = true ∧ t'.varName s' = t.varName s ∧
    n'.send.reservedWords true ≠ n.recv.reservedWords true

/-- Where windows have other sizes than buffers no rank settles. It fails with an error for one of
its shared places, provided that the words of its buffers can be counted. -/
def Refusing (m : Muster) : Prop :=
  ∀ k (r : Recruit) p words, m.recruits[k]? = some r → r.stage = .offered p words →
    m.met = true → m.Clashes k r.solution.halos →
      (∀ s n, r.solution.halos.at? s = some n → n.shared = true →
        ∃ length, n.recv.reservedWords true = .ok length) →
          ∀ v, ∃ e, ((Station.settleHalos p words).run v ⟨r.solution, m.world⟩).result =
            .error (.tiling e) ∧ r.solution.halos.Refuses r.solution.halos.sharedSlots e

variable {stencils : Nat → Stencil} {settings : Nat → Settings} {u : Universe}
  {solutions : List Solution} {w : World Universe} {m : Muster} {grid : DimVec} {k : Nat}
  {slot : Slot} {n : NeighborBuffers}

/-- Only a rank that has attached its buffers brings any. -/
theorem of_party_entry {pack : Nat → Nat → String → HaloBuffer → List Binary64} {rounds : Nat}
    (hn : (m.party pack rounds k).table.at? slot = some n) : ∃ r p, m.recruits[k]? = some r ∧
      r.stage.plan? = some p ∧ m.party pack rounds k =
        { table := r.solution.halos, topology := p.topology, pack := pack k
          interior := p.plan.sizes.overlapComms, rounds } := by
  cases hr : m.recruits[k]? with
  | none =>
    rw [party, hr] at hn
    cases hn
  | some r =>
    cases hp : r.stage.plan? with
    | none =>
      rw [party, hr, Option.bind_some, hp] at hn
      cases hn
    | some p => exact ⟨r, p, rfl, hp, party_eq pack rounds hr hp⟩

variable (pack : Nat → Nat → String → HaloBuffer → List Binary64) (rounds : Nat)

/-- A rank that brings buffers has offered and attached them. -/
theorem Sound.ofEntry (h : Sound stencils settings u m)
    (hn : (m.party pack rounds k).table.at? slot = some n) :
    m.Offered k (m.party pack rounds k).table ∧ m.Settled k ∧ k < u.size ∧ ∃ placement,
      SetUp (stencils k) (settings k) u k placement (m.party pack rounds k).table ∧
        (m.party pack rounds k).topology = placement.topology := by
  obtain ⟨r, p, hr, hp, hparty⟩ := of_party_entry hn
  have hsettled := Stage.hasSettled_of_plan? hp
  obtain ⟨placement, hset, htopology⟩ := h.settles hr hp
  rw [hparty]
  exact ⟨⟨r, hr, Stage.hasOffered_of_hasSettled hsettled, rfl⟩, ⟨r, hr, hsettled⟩, h.lt hr,
    placement, hset, htopology⟩

theorem Sound.sized (h : Sound stencils settings u m) : (m.party pack rounds k).table.Sized := by
  intro slot n hn
  obtain ⟨hoffered, hsettled, -⟩ := h.ofEntry pack rounds hn
  exact h.stocked.sized hoffered hsettled slot n hn

/-- Ranks in one grid find each other's messages. -/
theorem Sound.meshed (h : Sound stencils settings u m)
    (hs : ∀ k < u.size, (settings k).Shaped (stencils k).catalog) (hgrid : m.InGrid grid)
    (rounds : Nat → Nat) : Meshed u.size fun k => m.party pack (rounds k) k := by
  have htoward : ∀ k < u.size, ∀ slot n, (m.party pack (rounds k) k).table.at? slot = some n →
      (m.party pack (rounds k) k).topology.grid = grid ∧ ∃ neighbor,
        Toward u k (m.party pack (rounds k) k).topology (m.party pack (rounds k) k).table slot n
          neighbor := by
    intro k hk slot n hn
    constructor
    · obtain ⟨r, p, hr, hp, hparty⟩ := of_party_entry hn
      rw [hparty]
      exact hgrid r (List.mem_of_getElem? hr) p hp
    · obtain ⟨-, -, -, placement, hset, htopology⟩ := h.ofEntry pack (rounds k) hn
      rw [htopology]
      exact hset.toward (hs k hk) hn
  exact meshed_of_toward (fun k _ => h.sized pack (rounds k)) htoward

/-- A rank has attached to nothing but what has the right number of words. -/
theorem Sound.reservedWords_eq (h : Sound stencils settings u m) {t t' : HaloTable} {slot' : Slot}
    {n' : NeighborBuffers} (ht : m.Offered k t) (hsettled : m.Settled k)
    (hn : t.at? slot = some n) (hshared : n.shared = true) (ht' : m.Offered n.rank t')
    (hn' : t'.at? slot' = some n') (hrank : n'.rank = k) (hshared' : n'.shared = true)
    (hname : t'.varName slot' = t.varName slot) :
    n'.send.reservedWords true = n.recv.reservedWords true := by
  obtain ⟨v, -, -, hsend⟩ := h.stocked.attached k t slot n ht hsettled hn hshared
  obtain ⟨pool, i, -, hwindow, hroomy, -⟩ :=
    (h.stocked.furnished _ _ ht').berthed.window hn' (d := .send)
      (by simp [NeighborBuffers.housed, hshared'])
  rw [hshared'] at hroomy
  obtain ⟨-, -, hroom⟩ := hsend n.rank t' slot' n' _ ht' hn' hshared' hwindow
    (by rw [Site.keyAt, hrank, hname])
  -- Two control words are part of every shared window, so there is room to compare.
  have hpos : n'.send.room true ≠ 0 := by
    have hfits := hroomy.fits
    simp only [if_true, HaloBuffer.controlWords] at hfits
    change n'.send.count + 2 ≤ n'.send.room true at hfits
    omega
  rw [HaloBuffer.reservedWords_of_room hpos, HaloBuffer.reservedWords_of_room (hroom ▸ hpos), hroom]

theorem Sound.even (h : Sound stencils settings u m) (rounds : Nat → Nat) :
    Crew.Even u.size fun k => m.party pack (rounds k) k := by
  intro k hk s n hn hshared s' n' hn' hrank hshared' hname
  obtain ⟨hoffered, hsettled, -⟩ := h.ofEntry pack (rounds k) hn
  obtain ⟨hoffered', -⟩ := h.ofEntry pack (rounds n.rank) hn'
  exact h.reservedWords_eq hoffered hsettled hn hshared hoffered' hn' hrank hshared' hname

theorem Sound.refusing (h : Sound stencils settings u m)
    (hs : ∀ k < u.size, (settings k).Shaped (stencils k).catalog) : m.Refusing := by
  rintro k r p words hr hstage hmet ⟨slot, n, t', slot', n', hn, hshared, ht', hn', hrank, hshared',
    hname, hne⟩ hcounted v
  refine Task.FailsOnly.result (Station.failsOnly_settleHalos fun slot n hn hshared => ?_)
    fun _ st hy => hne ?_
  · obtain ⟨length, hlength⟩ := hcounted slot n hn hshared
    exact HaloBuffer.roomy_of_reservedWords hlength
  · -- If it went through, the rank would have settled.
    have hnext := h.settle hs hr hstage (fun _ => hmet) hy
    obtain ⟨site, hsettle, rfl⟩ := Station.of_settleHalos hy
    have houtline := (Site.attached_of_settle hsettle).outline
    obtain ⟨n₁, hn₁, hbare⟩ := HaloTable.at?_of_outline houtline.symm hn
    obtain ⟨hrank₁, hshared₁, -, hrecv⟩ := NeighborBuffers.of_bare_eq hbare
    have hmine : ∀ r' : Recruit, (m.recruits.set k r')[k]? = some r' := fun r' => by
      rw [recruit_set hr, if_pos rfl]
    obtain ⟨placement, hset, -⟩ := hnext.settles (hmine _) rfl
    obtain ⟨neighbor, htoward⟩ := hset.toward (hs k (h.lt hr)) hn₁
    rw [← HaloBuffer.reservedWords_of_bare hrecv]
    exact hnext.reservedWords_eq ⟨_, hmine _, rfl, rfl⟩ ⟨_, hmine _, rfl⟩ hn₁
      (hshared₁.trans hshared) (offered_set_of_ne hr htoward.rank_ne (hrank₁ ▸ ht')) hn' hrank
      hshared' (hname.trans (HaloTable.varName_of_outline houtline slot).symm)

/-- Ranks in one grid exchange although each of them has a stencil and settings of its own. The
receiver takes what fits into its own buffer and fails if a message is too short for that, whatever
the order in which the ranks make their moves. -/
theorem receivers_take_what_fits (hstencil : ∀ k < w.net.size, (stencils k).Built)
    (hs : ∀ k < w.net.size, (settings k).Reachable (stencils k).catalog)
    (hstart : Gathered stencils settings solutions w)
    (hreach : (ofSolutions solutions w).Reaches m) (hgrid : m.InGrid grid)
    (rounds : Nat → Nat) :
    Crew.Even w.net.size (fun k => m.party pack (rounds k) k) ∧ m.Refusing ∧
      ∀ c, (m.crewOf pack rounds).Reaches c →
        c.Measured fun k => m.party pack (rounds k) k := by
  have hshaped := fun k hk => (hs k hk).shaped
  have hsound := (sound_of_gathered hstart).reaches hshaped
    (fun k hk => (hstencil k hk).nodup) hreach
  have hl := hsound.meshed pack hshaped hgrid rounds
  have hnet : m.world.net.inFlight = [] := by
    rw [hsound.net]
    exact hstart.inFlight
  refine ⟨hsound.even pack rounds, hsound.refusing hshaped, fun c hreached => ?_⟩
  have hnow : Crew.Orderly w.net.size (fun k => m.party pack (rounds k) k) c := by
    refine Crew.Orderly.reaches hl ?_ hreached
    rw [crewOf, hsound.length]
    exact Crew.orderly_enlist hl hnet
  refine ⟨hnow.fitting, fun k x s n rest vs hx hn hok htodo hvs hshort => ?_⟩
  -- Messages are for places that share nothing.
  have hk := hnow.manned.lt hx
  have hmem := (hnow.manned.follows k x hx).exchange.inHand s (by rw [htodo]; simp)
  obtain ⟨n', hn', hno, -⟩ := HaloTable.mem_incoming.mp hmem
  obtain rfl := Option.some.inj (hn'.symm.trans hn)
  obtain ⟨-, -, -, placement, hset, -⟩ := hsound.ofEntry pack (rounds k) hn
  have hbytes := hset.recv_bytes (hshaped k hk) (hl.sized k hk) hn hno
  exact hnow.step_of_short hx hn hok htodo hbytes hvs hshort

end Muster

namespace Lopsided

/-- Points in the plane, with a time step. -/
def catalog : Catalog := (Catalog.declare "t" ["x", "y"] []).toOption.getD default

/-- One variable with a halo of one point on the left. -/
def stencil : Stencil :=
  ((Stencil.new "uneven" catalog).withHalo "u" "next" true 0 [1, 0]).toOption.getD
    (.new "uneven" catalog)

/-- Two ranks in a row. -/
def row : Settings := ((Settings.setOption catalog "nrx" "2").run none (.initial catalog 1)).state

/-- Four points for each rank in the direction of the row. -/
def long : Settings := (row.resize catalog .localDomain "x" 4).toOption.getD default

/-- The same in shared memory. -/
def together : Settings := ((Settings.setOption catalog "use_shm" "true").run none long).state

/-- The height is up to the rank. -/
def settings (s : Settings) (heights : Nat → Int) (k : Nat) : Settings :=
  (s.resize catalog .localDomain "y" (heights k)).toOption.getD default

def solutions (s : Settings) (heights : Nat → Int) : List Solution :=
  [0, 1].map fun k =>
    { Solution.new (.new k 1 .unlimited) stencil 1 with settings := settings s heights k }

/-- The two ranks after so many phases of their preparation. -/
def muster (s : Settings) (heights : Nat → Int) (phases : Nat) : Muster :=
  ((Muster.ofSolutions (solutions s heights) Couple.world).follow none
    ((List.replicate phases [0, 1]).flatten)).getD ⟨[], Couple.world⟩

/-- The first rank is the higher one. -/
def falling (k : Nat) : Int := if k = 0 then 8 else 4

/-- The second rank is the higher one. -/
def rising (k : Nat) : Int := if k = 0 then 4 else 8

/-- Each rank numbers its values. -/
def pack (_ _ : Nat) (_ : String) (b : HaloBuffer) : List Binary64 :=
  (List.range b.count).map fun i => ⟨UInt64.ofNat i⟩

/-- What the ranks bring to an exchange by messages. -/
def party (heights : Nat → Int) : Nat → Party := (muster long heights 4).party pack 0

def crew (heights : Nat → Int) : Crew Universe := (muster long heights 4).crewOf pack fun _ => 0

theorem catalog_built : catalog.Built :=
  .declare (show Catalog.declare "t" ["x", "y"] [] = .ok catalog by decide +kernel)

theorem built : stencil.Built := by
  have h : (Stencil.new "uneven" catalog).withHalo "u" "next" true 0 [1, 0] = .ok stencil := by
    rfl
  exact .halo (.new catalog_built "uneven") h

theorem reachable_long : long.Reachable catalog :=
  .resize (.option (.initial 1) "nrx" "2" none) (show Idx.InRange 4 by decide)
    (show Settings.resize row catalog .localDomain "x" 4 = _ by decide +kernel)

theorem reachable_together : together.Reachable catalog :=
  .option reachable_long "use_shm" "true" none

theorem reachable {s : Settings} (hs : s.Reachable catalog) (heights : Nat → Int)
    (h : ∀ k < 2, Idx.InRange (heights k) ∧
      (s.resize catalog .localDomain "y" (heights k)).toOption.isSome = true) :
    ∀ k < 2, (settings s heights k).Reachable catalog := by
  intro k hk
  obtain ⟨hrange, hsome⟩ := h k hk
  rw [settings]
  cases hresize : s.resize catalog .localDomain "y" (heights k) with
  | error e =>
    rw [hresize] at hsome
    cases hsome
  | ok s' => exact .resize hs hrange hresize

theorem gathered (s : Settings) (heights : Nat → Int) :
    Gathered (fun _ => stencil) (settings s heights) (solutions s heights) Couple.world :=
  gathered_map Couple.world (fun k =>
      { Solution.new (.new k 1 .unlimited) stencil 1 with settings := settings s heights k })
    (fun _ => rfl) rfl List.nodup_nil

theorem reaches (s : Settings) (heights : Nat → Int) (phases : Nat)
    (h : ((Muster.ofSolutions (solutions s heights) Couple.world).follow none
      ((List.replicate phases [0, 1]).flatten)).isSome = true) :
    (Muster.ofSolutions (solutions s heights) Couple.world).Reaches (muster s heights phases) :=
  Muster.reaches_getD h

/-- The second rank waits for eight values. -/
theorem entry_rising : ∃ n, (party rising 1).table.at? ⟨0, 1⟩ = some n ∧ n.rank = 0 ∧
    n.recv.name = "u_recv_-1_0" ∧ n.recv.count = 8 := by
  have h : ((party rising 1).table.at? ⟨0, 1⟩).any (fun n =>
      n.rank = 0 && n.recv.name = "u_recv_-1_0" && n.recv.count = 8) = true := by decide +kernel
  obtain ⟨n, hn, hcheck⟩ := (Option.any_eq_true _ _).mp h
  simp only [Bool.and_eq_true, decide_eq_true_eq, and_assoc] at hcheck
  exact ⟨n, hn, hcheck⟩

/-- After these steps it is about to deliver a message in its first round. -/
theorem arrived_rising : ∃ d x, (crew rising).Reaches d ∧ d.members[1]? = some x ∧
    x.failure = none ∧ x.past.length = 0 ∧
      x.exchange.todo = [.act ⟨0, 1⟩ .deliver, .act ⟨0, 1⟩ .await] := by
  have h : ((crew rising).follow (.replicate 3 0 ++ .replicate 3 1)).any (fun d =>
      d.members[1]?.any fun x => x.failure.isNone && x.past.length = 0 &&
        x.exchange.todo = [.act ⟨0, 1⟩ .deliver, .act ⟨0, 1⟩ .await]) = true := by decide +kernel
  obtain ⟨d, hd, hcheck⟩ := (Option.any_eq_true _ _).mp h
  obtain ⟨x, hx, hcheck⟩ := (Option.any_eq_true _ _).mp hcheck
  simp only [Bool.and_eq_true, Option.isNone_iff_eq_none, decide_eq_true_eq, and_assoc] at hcheck
  exact ⟨d, x, Crew.reaches_of_follow hd, hx, hcheck⟩

/-- In shared memory it has reserved twice as many words as the first rank. -/
theorem clashes_rising : ∃ r p words, (muster together rising 2).recruits[1]? = some r ∧
    r.stage = .offered p words ∧ (muster together rising 2).Clashes 1 r.solution.halos ∧
      ∀ s n, r.solution.halos.at? s = some n → n.shared = true →
        ∃ length, n.recv.reservedWords true = .ok length := by
  -- all that is computed is two Booleans; what they say is taken apart below
  have h₀ : (muster together rising 2).recruits[0]?.any (fun r => r.stage.hasOffered &&
      r.solution.halos.varName ⟨0, 7⟩ = "u" && (r.solution.halos.at? ⟨0, 7⟩).any fun n =>
        n.rank = 1 && n.shared && n.send.reservedWords true = .ok 8) = true := by decide +kernel
  have h₁ : (muster together rising 2).recruits[1]?.any (fun r => r.stage.hasOffered &&
      !r.stage.hasSettled && r.solution.halos.varName ⟨0, 1⟩ = "u" &&
        ((r.solution.halos.at? ⟨0, 1⟩).any fun n =>
          n.rank = 0 && n.shared && n.recv.reservedWords true = .ok 16) &&
        r.solution.halos.entries.all fun e => e.2.recv.reservedWords true = .ok 16) = true := by
    decide +kernel
  obtain ⟨r₀, hr₀, h₀⟩ := (Option.any_eq_true _ _).mp h₀
  obtain ⟨r, hr, h₁⟩ := (Option.any_eq_true _ _).mp h₁
  simp only [Bool.and_eq_true, decide_eq_true_eq, Bool.not_eq_true', List.all_eq_true] at h₀ h₁
  obtain ⟨⟨hoffered₀, hname₀⟩, h₀⟩ := h₀
  obtain ⟨⟨⟨⟨hoffered, hopen⟩, hname⟩, h₁⟩, hcounted⟩ := h₁
  obtain ⟨n', hn', h₀⟩ := (Option.any_eq_true _ _).mp h₀
  obtain ⟨n, hn, h₁⟩ := (Option.any_eq_true _ _).mp h₁
  simp only [Bool.and_eq_true, decide_eq_true_eq] at h₀ h₁
  obtain ⟨⟨hrank', hshared'⟩, hwords'⟩ := h₀
  obtain ⟨⟨hrank, hshared⟩, hwords⟩ := h₁
  obtain ⟨p, words, hstage⟩ : ∃ p words, r.stage = .offered p words := by
    cases hstage : r.stage with
    | offered p words => exact ⟨p, words, rfl⟩
    | begun | drafted =>
      rw [hstage] at hoffered
      cases hoffered
    | settled | ready =>
      rw [hstage] at hopen
      cases hopen
  refine ⟨r, p, words, hr, hstage, ⟨⟨0, 1⟩, n, r₀.solution.halos, ⟨0, 7⟩, n', hn, hshared,
    ⟨r₀, hrank ▸ hr₀, hoffered₀, rfl⟩, hn', hrank', hshared', hname₀.trans hname.symm, ?_⟩,
    fun s n hn _ => ⟨16, hcounted (s, n) (HaloTable.mem_entries.mpr hn)⟩⟩
  rw [hwords, hwords']
  decide

end Lopsided

/-- A rank waits for four values, the neighbor sends eight, and the exchange ends as if nothing were
wrong. -/
theorem Muster.longer_message_cut :
    (Muster.ofSolutions (Lopsided.solutions Lopsided.long Lopsided.falling) Couple.world).Reaches
        (Lopsided.muster Lopsided.long Lopsided.falling 4) ∧
      (Lopsided.party Lopsided.falling 1).mirror ⟨0, 1⟩ = ⟨0, 7⟩ ∧
      (Lopsided.party Lopsided.falling 0).vector 0 ⟨0, 7⟩ =
        [⟨0⟩, ⟨1⟩, ⟨2⟩, ⟨3⟩, ⟨4⟩, ⟨5⟩, ⟨6⟩, ⟨7⟩] ∧
      ∃ d x, (Lopsided.crew Lopsided.falling).Reaches d ∧ d.members[1]? = some x ∧
        x.finished = true ∧ x.failure = none ∧
        .unpacked "u" "u_recv_-1_0" [⟨0⟩, ⟨1⟩, ⟨2⟩, ⟨3⟩] ∈ x.exchange.events := by
  refine ⟨Lopsided.reaches _ _ 4 (by decide +kernel), by decide +kernel, by decide +kernel, ?_⟩
  have hfollow : ((Lopsided.crew Lopsided.falling).follow
      (.replicate 3 0 ++ .replicate 5 1)).any (fun d => d.members[1]?.any fun x =>
        x.finished && x.failure.isNone && x.exchange.events.contains
          (.unpacked "u" "u_recv_-1_0" [⟨0⟩, ⟨1⟩, ⟨2⟩, ⟨3⟩])) = true := by decide +kernel
  obtain ⟨d, hd, hcheck⟩ := (Option.any_eq_true _ _).mp hfollow
  obtain ⟨x, hx, hcheck⟩ := (Option.any_eq_true _ _).mp hcheck
  simp only [Bool.and_eq_true, Option.isNone_iff_eq_none, List.contains_iff_mem] at hcheck
  obtain ⟨⟨hfinished, hok⟩, hmem⟩ := hcheck
  exact ⟨d, x, Crew.reaches_of_follow hd, hx, hfinished, hok, hmem⟩

/-- A rank that waits for eight values fails when it has taken a message with four, and in shared
memory it does not settle. -/
theorem Muster.receivers_take_what_fits_rising :
    (∃ d x, (Lopsided.crew Lopsided.rising).Reaches d ∧
      d.Measured (Lopsided.party Lopsided.rising) ∧
      d.members[1]? = some x ∧ x.step d.world = some ({ x with failure := some (.tiling
        (.communication 0 (.payloadLength 32 "u_recv_-1_0" 64))) }, d.world)) ∧
    ∃ r p words e, (Lopsided.muster Lopsided.together Lopsided.rising 2).recruits[1]? = some r ∧
      r.stage = .offered p words ∧ r.solution.halos.Refuses r.solution.halos.sharedSlots e ∧
      ((Station.settleHalos p words).run none ⟨r.solution,
        (Lopsided.muster Lopsided.together Lopsided.rising 2).world⟩).result =
          .error (.tiling e) := by
  constructor
  case left =>
    obtain ⟨-, -, hruns⟩ := Muster.receivers_take_what_fits Lopsided.pack
      (fun _ _ => Lopsided.built)
      (Lopsided.reachable Lopsided.reachable_long Lopsided.rising (by decide +kernel))
      (Lopsided.gathered _ _) (Lopsided.reaches _ _ 4 (by decide +kernel))
      (show (Lopsided.muster _ _ _).InGrid ⟨[("x", 2), ("y", 1)]⟩ by decide +kernel) fun _ => 0
    obtain ⟨n, hn, hrank, hname, hcount⟩ := Lopsided.entry_rising
    obtain ⟨d, x, hreach, hx, hok, hpast, htodo⟩ := Lopsided.arrived_rising
    have hmeasured := hruns d hreach
    refine ⟨d, x, hreach, hmeasured, hx, ?_⟩
    -- The neighbor has sent its four values, where eight are waited for.
    have hsent : (Lopsided.party Lopsided.rising n.rank).vector x.past.length
        ((Lopsided.party Lopsided.rising 1).mirror ⟨0, 1⟩) = [⟨0⟩, ⟨1⟩, ⟨2⟩, ⟨3⟩] := by
      rw [hrank, hpast]
      decide +kernel
    have hfails := hmeasured.short 1 x ⟨0, 1⟩ n _ _ hx hn hok htodo hsent (by rw [hcount]; decide)
    rwa [hrank, hname, hcount] at hfails
  case right =>
    obtain ⟨-, hrefusing, -⟩ := Muster.receivers_take_what_fits Lopsided.pack
      (fun _ _ => Lopsided.built)
      (Lopsided.reachable Lopsided.reachable_together Lopsided.rising (by decide +kernel))
      (Lopsided.gathered _ _) (Lopsided.reaches _ _ 2 (by decide +kernel))
      (show (Lopsided.muster _ _ _).InGrid ⟨[("x", 2), ("y", 1)]⟩ by decide +kernel) fun _ => 0
    obtain ⟨r, p, words, hr, hstage, hclashes, hcounted⟩ := Lopsided.clashes_rising
    obtain ⟨e, hresult, hrefuses⟩ :=
      hrefusing 1 r p words hr hstage (by decide +kernel) hclashes hcounted none
    exact ⟨r, p, words, e, hr, hstage, hrefuses, hresult⟩

end StencilPlan
