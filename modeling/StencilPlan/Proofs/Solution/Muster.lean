import StencilPlan.Proofs.Halo.Stock
import StencilPlan.Proofs.Solution.Phases

/-!
# Preparing together

The ranks of a universe prepare their solutions side by side. Any rank may be the next to make a
step, and a step is one phase of its preparation; the only thing a rank waits for is that with
shared memory it cannot attach to anything before all have offered. What a rank comes to in the end
depends on none of this: each is set up from its settings, and the storage of all is there. The
settings and the stencils of the ranks need not be the same.
-/

namespace StencilPlan

open Heap

/-- How far a rank has come with its preparation. -/
inductive Stage where
  | begun
  | drafted (p : Prepared)
  | offered (p : Prepared) (words : PoolWords)
  | settled (p : Prepared)
  | ready (p : Prepared)

namespace Stage

def hasOffered : Stage → Bool
  | begun | drafted _ => false
  | offered .. | settled _ | ready _ => true

def hasSettled : Stage → Bool
  | begun | drafted _ | offered .. => false
  | settled _ | ready _ => true

theorem hasOffered_of_hasSettled {s : Stage} (h : s.hasSettled = true) : s.hasOffered = true := by
  cases s <;> first | rfl | cases h

end Stage

/-- A rank that prepares its solution. -/
structure Recruit where
  solution : Solution
  stage : Stage

namespace Recruit

/-- The rank after a task that goes through. -/
def after {α : Type} (r : Recruit) (v : Verbosity) (w : World Universe)
    (x : Task (Station Universe) α) (stage : α → Stage) : Option (Recruit × World Universe) :=
  let done := x.run v ⟨r.solution, w⟩
  match done.result with
  | .ok a => some (⟨done.state.solution, stage a⟩, done.state.world)
  | .error _ => none

/-- The next phase, if it goes through. A rank that uses shared memory settles only when `met` says
that all have offered. -/
def step (r : Recruit) (met : Bool) (v : Verbosity) (w : World Universe) :
    Option (Recruit × World Universe) :=
  match r.stage with
  | .begun => r.after v w Station.draft .drafted
  | .drafted p => r.after v w (Station.offerHalos p) (.offered p)
  | .offered p words =>
    if p.plan.sizes.useShared && !met then none
    else r.after v w (Station.settleHalos p words) fun _ => .settled p
  | .settled p => r.after v w (Station.conclude p) fun _ => .ready p
  | .ready _ => none

end Recruit

/-- Ranks that prepare, and the world they share. -/
structure Muster where
  recruits : List Recruit
  world : World Universe

namespace Muster

/-- Some solutions before they are prepared. -/
def ofSolutions (solutions : List Solution) (w : World Universe) : Muster :=
  ⟨solutions.map fun s => ⟨s, .begun⟩, w⟩

/-- Whether all ranks have offered their buffers. -/
def met (m : Muster) : Bool := m.recruits.all (·.stage.hasOffered)

/-- One phase of the rank with a number; `none` if it cannot make one. -/
def step (m : Muster) (v : Verbosity) (k : Nat) : Option Muster := do
  let r ← m.recruits[k]?
  let (r, world) ← r.step m.met v m.world
  return { recruits := m.recruits.set k r, world }

/-- One phase after the other, of the ranks with some numbers. -/
def follow (m : Muster) (v : Verbosity) : List Nat → Option Muster
  | [] => some m
  | k :: ks => (m.step v k).bind fun n => n.follow v ks

/-- A course that the preparation can take. -/
inductive Reaches (m : Muster) : Muster → Prop
  | refl : Reaches m m
  | step {n o : Muster} (v : Verbosity) (k : Nat) (h : Reaches m n) (hstep : n.step v k = some o) :
      Reaches m o

theorem reaches_of_follow {m n : Muster} {v : Verbosity} {ks : List Nat}
    (h : m.follow v ks = some n) : m.Reaches n := by
  suffices ∀ ks (l : Muster), m.Reaches l → l.follow v ks = some n → m.Reaches n from
    this ks m .refl h
  intro ks
  induction ks with
  | nil =>
    intro l hl h
    exact Option.some.inj h ▸ hl
  | cons k ks ih =>
    intro l hl h
    obtain ⟨o, hstep, h⟩ := Option.bind_eq_some_iff.mp h
    exact ih o (.step v k hl hstep) h

/-- Where a course ends that can be followed. -/
theorem reaches_getD {m d : Muster} {v : Verbosity} {ks : List Nat}
    (h : (m.follow v ks).isSome = true) : m.Reaches ((m.follow v ks).getD d) := by
  obtain ⟨n, hn⟩ := Option.isSome_iff_exists.mp h
  rw [hn]
  exact reaches_of_follow hn

end Muster

/-! ### One phase of one rank -/

/-- What a phase of a rank is. -/
inductive Recruit.Next (met : Prop) (r : Recruit) (w : World Universe) :
    Recruit → World Universe → Prop
  | draft {v : Verbosity} {p : Prepared} {st : Station Universe} (hstage : r.stage = .begun)
      (hy : Station.draft.Yields v ⟨r.solution, w⟩ p st) :
      Next met r w ⟨st.solution, .drafted p⟩ st.world
  | offer {v : Verbosity} {p : Prepared} {words : PoolWords} {st : Station Universe}
      (hstage : r.stage = .drafted p)
      (hy : (Station.offerHalos p).Yields v ⟨r.solution, w⟩ words st) :
      Next met r w ⟨st.solution, .offered p words⟩ st.world
  | settle {v : Verbosity} {p : Prepared} {words : PoolWords} {st : Station Universe}
      (hstage : r.stage = .offered p words) (hmet : p.plan.sizes.useShared = true → met)
      (hy : (Station.settleHalos p words).Yields v ⟨r.solution, w⟩ () st) :
      Next met r w ⟨st.solution, .settled p⟩ st.world
  | conclude {v : Verbosity} {p : Prepared} {st : Station Universe} (hstage : r.stage = .settled p)
      (hy : (Station.conclude p).Yields v ⟨r.solution, w⟩ () st) :
      Next met r w ⟨st.solution, .ready p⟩ st.world

theorem Recruit.of_after {α : Type} {r r' : Recruit} {v : Verbosity} {w w' : World Universe}
    {x : Task (Station Universe) α} {stage : α → Stage}
    (h : r.after v w x stage = some (r', w')) : ∃ (a : α) (st : Station Universe),
      x.Yields v ⟨r.solution, w⟩ a st ∧ r' = ⟨st.solution, stage a⟩ ∧ w' = st.world := by
  unfold after at h
  dsimp only at h
  split at h
  · next a ha =>
    obtain ⟨rfl, rfl⟩ := Prod.mk.inj (Option.some.inj h)
    exact ⟨a, _, Task.yields_of_result ha, rfl, rfl⟩
  · cases h

theorem Recruit.next_of_step {r r' : Recruit} {met : Bool} {v : Verbosity} {w w' : World Universe}
    (h : r.step met v w = some (r', w')) : r.Next (met = true) w r' w' := by
  unfold step at h
  -- Each stage has one phase to go on with, and the last one has none.
  cases hstage : r.stage with
  | begun =>
    rw [hstage] at h
    obtain ⟨p, st, hy, rfl, rfl⟩ := of_after h
    exact .draft hstage hy
  | drafted p =>
    rw [hstage] at h
    obtain ⟨words, st, hy, rfl, rfl⟩ := of_after h
    exact .offer hstage hy
  | offered p words =>
    rw [hstage] at h
    dsimp only at h
    split at h
    · cases h
    · next hmet =>
      obtain ⟨⟨⟩, st, hy, rfl, rfl⟩ := of_after h
      refine .settle hstage (fun hshared => ?_) hy
      simpa [hshared] using hmet
  | settled p =>
    rw [hstage] at h
    obtain ⟨⟨⟩, st, hy, rfl, rfl⟩ := of_after h
    exact .conclude hstage hy
  | ready p =>
    rw [hstage] at h
    cases h

/-! ### What is known of a rank -/

section Knowledge

variable {stencil : Stencil} {s : Settings} {u : Universe} {k : Nat} {p : Prepared} {t : HaloTable}

/-- The table comes from offering buffers for what was drafted. -/
def Offers (stencil : Stencil) (u : Universe) (p : Prepared) (words : PoolWords) (t : HaloTable) :
    Prop :=
  ∃ (v : Verbosity) (a : Allocator) (site site' : Site Universe),
    site.world.net.size = u.size ∧ site.world.net.nodeSize = u.nodeSize ∧
      (Site.offer stencil p.plan.sizes p.topology a).Yields v site words site' ∧ t = site'.table

/-- The rank is set up with the table. -/
def Settles (stencil : Stencil) (s : Settings) (u : Universe) (k : Nat) (p : Prepared)
    (t : HaloTable) : Prop :=
  ∃ placement, SetUp stencil s u k placement t ∧ p.topology = placement.topology

/-- What the stage says about the solution of rank `k`. -/
def Stage.Tells (stencil : Stencil) (s : Settings) (u : Universe) (k : Nat) (sol : Solution) :
    Stage → Prop
  | .begun => True
  | .drafted p => Station.Drafts stencil s k u.size p
  | .offered p words =>
    Station.Drafts stencil s k u.size p ∧ Offers stencil u p words sol.halos
  | .settled p => Settles stencil s u k p sol.halos
  | .ready p => Settles stencil s u k p sol.halos ∧ sol.prepared = some p

/-- The rank has its own number, and the stencil and the settings that all have. -/
structure Recruit.Knows (stencil : Stencil) (s : Settings) (u : Universe) (k : Nat) (r : Recruit) :
    Prop where
  rank : r.solution.host.rank = k
  stencil_eq : r.solution.stencil = stencil
  settings_eq : r.solution.settings = s
  stage : r.stage.Tells stencil s u k r.solution

theorem Station.Drafts.placed (h : Station.Drafts stencil s k u.size p)
    (hs : s.Shaped stencil.catalog) : ∃ placement placed,
      Placed stencil.catalog k u.size s placement placed ∧ p.topology = placement.topology ∧
        p.plan.sizes.useShared = s.useShared := by
  obtain ⟨v, placement, placed, hplace, htopology, -, -, hshared⟩ := h
  have hplaced := placed_of_yields (hs.inRange .numRanks) hplace
  refine ⟨placement, placed, hplaced, htopology, ?_⟩
  rw [hshared, hplaced.settings]
  rfl

/-- What was offered is settled by attaching to what the others have offered. -/
theorem Offers.settles {words : PoolWords} {v : Verbosity} {w : World Universe}
    {site : Site Universe} (h : Offers stencil u p words t)
    (hdrafts : Station.Drafts stencil s k u.size p) (hs : s.Shaped stencil.catalog)
    (hk : k < u.size)
    (hy : (Site.settle p.plan.sizes p.topology.rank words).Yields v ⟨t, w⟩ () site) :
    Settles stencil s u k p site.table := by
  obtain ⟨_, _, _, _, hshared⟩ := hdrafts.placed hs
  obtain ⟨v₁, a, site₀, site₁, hsize, hnode, hoffer, rfl⟩ := h
  obtain ⟨v₀, placement, placed, hplace, htopology, -, hlocal, -⟩ := hdrafts
  rw [htopology] at hoffer hy
  exact ⟨placement, .intro hk hplace hlocal hshared hsize hnode hoffer hy, htopology⟩

/-- The table of rank `k` was laid out by the stencil and the settings. -/
def Outlined (stencil : Stencil) (s : Settings) (u : Universe) (k : Nat) (t : HaloTable) : Prop :=
  ∃ sizes topology grid words vs, sizes.useShared = s.useShared ∧ topology.Sound grid ∧
    LaidOut stencil sizes topology (u.sameNodeAs k) words stencil.vars vs ∧
    t.outline = ⟨vs, topology.size, none, none⟩

theorem Settles.outlined (h : Settles stencil s u k p t) (hs : s.Shaped stencil.catalog) :
    Outlined stencil s u k t := by
  obtain ⟨placement, hset, -⟩ := h
  obtain ⟨placed, sizes, words, vs, -, hplaced, -, hshared, hlaid, ht, -⟩ := hset.laidOut hs
  exact ⟨sizes, placement.topology, _, words, vs, hshared, hplaced.topology, hlaid, ht⟩

theorem Offers.outlined {words : PoolWords} (h : Offers stencil u p words t)
    (hdrafts : Station.Drafts stencil s k u.size p) (hs : s.Shaped stencil.catalog) :
    Outlined stencil s u k t := by
  obtain ⟨v, a, site, site', hsize, hnode, hoffer, rfl⟩ := h
  obtain ⟨placement, placed, hplaced, htopology, hshared⟩ := hdrafts.placed hs
  rw [htopology] at hoffer
  obtain ⟨vs, hlaid, houtline⟩ := (offered_of_offer hplaced.topology hoffer).outline
  rw [sameNodeAs_congr hsize hnode, hplaced.rank] at hlaid
  exact ⟨_, _, _, words, vs, hshared, hplaced.topology, hlaid, houtline⟩

theorem Recruit.Knows.outlined {r : Recruit} (h : r.Knows stencil s u k)
    (hs : s.Shaped stencil.catalog) (hoffered : r.stage.hasOffered = true) :
    Outlined stencil s u k r.solution.halos := by
  have htells := h.stage
  cases hstage : r.stage with
  | begun | drafted =>
    rw [hstage] at hoffered
    cases hoffered
  | offered p words =>
    rw [hstage] at htells
    exact htells.2.outlined htells.1 hs
  | settled p =>
    rw [hstage] at htells
    exact htells.outlined hs
  | ready p =>
    rw [hstage] at htells
    exact htells.1.outlined hs

/-- A rank has at most one entry for a variable and a neighbor. -/
theorem Outlined.separate (h : Outlined stencil s u k t) (hvars : stencil.vars.Nodup) :
    t.Separate := by
  obtain ⟨sizes, topology, grid, words, vs, -, hsound, hlaid, ht⟩ := h
  exact hlaid.separate hsound hvars ht

/-- Without shared memory nothing is shared. -/
theorem Outlined.notShared (h : Outlined stencil s u k t) (hoff : s.useShared = false) {slot : Slot}
    {n : NeighborBuffers} (hn : t.at? slot = some n) : n.shared = false := by
  obtain ⟨sizes, topology, _, words, vs, hshared, -, hlaid, ht⟩ := h
  obtain ⟨var, neighbor, hmade⟩ := hlaid.madeFor ht hn
  have hkind : n.shared = (sizes.useShared && u.sameNodeAs k n.rank) :=
    hmade.makes.of_some.2.2.2.1
  rw [hkind, hshared, hoff, Bool.false_and]

end Knowledge

/-! ### All ranks -/

namespace Muster

variable {stencils : Nat → Stencil} {settings : Nat → Settings} {u : Universe} {m n : Muster}
  {k : Nat} {v : Verbosity}

/-- The rank has offered its buffers, which are now those of the table. -/
def Offered (m : Muster) (k : Nat) (t : HaloTable) : Prop :=
  ∃ r, m.recruits[k]? = some r ∧ r.stage.hasOffered = true ∧ r.solution.halos = t

/-- The rank has attached its receive buffers. -/
def Settled (m : Muster) (k : Nat) : Prop :=
  ∃ r, m.recruits[k]? = some r ∧ r.stage.hasSettled = true

/-- Everything that ranks keep while they prepare in a universe that began as `u`. Each of them may
have a stencil and settings of its own. -/
structure Sound (stencils : Nat → Stencil) (settings : Nat → Settings) (u : Universe)
    (m : Muster) : Prop where
  length : m.recruits.length = u.size
  net : m.world.net = { u with segments := m.world.net.segments }
  knows : ∀ k (r : Recruit), m.recruits[k]? = some r → r.Knows (stencils k) (settings k) u k
  met : ∀ k, (settings k).useShared = true → m.Settled k → m.met = true
  stocked : Stocked m.Offered m.Settled m.world

section Replace

variable {r r' : Recruit} {w : World Universe}

theorem recruit_set (hr : m.recruits[k]? = some r) (j : Nat) :
    (m.recruits.set k r')[j]? = if j = k then some r' else m.recruits[j]? := by
  rw [List.getElem?_set]
  by_cases hj : k = j
  · subst hj
    rw [if_pos rfl, if_pos rfl, if_pos (List.getElem?_eq_some_iff.mp hr).1]
  · rw [if_neg hj, if_neg (Ne.symm hj)]

theorem offered_set (hr : m.recruits[k]? = some r) {j : Nat} {t : HaloTable}
    (h : Offered ⟨m.recruits.set k r', w⟩ j t) :
    j = k ∧ r'.stage.hasOffered = true ∧ r'.solution.halos = t ∨ j ≠ k ∧ m.Offered j t := by
  obtain ⟨q, hq, hoffered, ht⟩ := h
  rw [recruit_set hr] at hq
  split at hq
  · next hj =>
    obtain rfl := Option.some.inj hq
    exact .inl ⟨hj, hoffered, ht⟩
  · next hj => exact .inr ⟨hj, q, hq, hoffered, ht⟩

/-- The other ranks have still offered what they had. -/
theorem offered_set_of_ne (hr : m.recruits[k]? = some r) {j : Nat} {t : HaloTable} (hj : j ≠ k)
    (h : m.Offered j t) : Offered ⟨m.recruits.set k r', w⟩ j t := by
  obtain ⟨q, hq, hoffered⟩ := h
  exact ⟨q, by rw [recruit_set hr, if_neg hj, hq], hoffered⟩

theorem settled_set (hr : m.recruits[k]? = some r) {j : Nat} :
    Settled ⟨m.recruits.set k r', w⟩ j ↔
      j = k ∧ r'.stage.hasSettled = true ∨ j ≠ k ∧ m.Settled j := by
  by_cases hj : j = k
  · simp only [Settled, recruit_set hr, hj, if_true, Option.some.injEq, exists_eq_left', true_and,
      ne_eq, not_true_eq_false, false_and, or_false]
  · simp only [Settled, recruit_set hr, hj, if_false, false_and, ne_eq, not_false_eq_true, true_and,
      false_or]

/-- Being as far as before has not changed who has settled. -/
theorem settled_set_same (hr : m.recruits[k]? = some r)
    (hsame : r'.stage.hasSettled = r.stage.hasSettled) (j : Nat) :
    Settled ⟨m.recruits.set k r', w⟩ j ↔ m.Settled j := by
  rw [settled_set hr, hsame]
  by_cases hj : j = k
  · subst hj
    simp only [Settled, hr, Option.some.injEq, exists_eq_left', true_and, ne_eq, not_true_eq_false,
      false_and, or_false]
  · simp only [hj, false_and, ne_eq, not_false_eq_true, true_and, false_or]

/-- One rank has gone on. -/
theorem Sound.set (h : Sound stencils settings u m) (hr : m.recruits[k]? = some r)
    (hnet : w.net = { u with segments := w.net.segments })
    (hknows : r'.Knows (stencils k) (settings k) u k)
    (hforward : m.met = true → r'.stage.hasOffered = true)
    (hmet : (settings k).useShared = true → r'.stage.hasSettled = true → m.met = true)
    (hstocked : Stocked (Offered ⟨m.recruits.set k r', w⟩) (Settled ⟨m.recruits.set k r', w⟩) w) :
    Sound stencils settings u ⟨m.recruits.set k r', w⟩ := by
  refine ⟨by simpa using h.length, hnet, fun j q hq => ?_, fun j hshared hj => ?_, hstocked⟩
  · rw [recruit_set hr] at hq
    split at hq
    · next hj =>
      obtain rfl := Option.some.inj hq
      exact hj ▸ hknows
    · exact h.knows j q hq
  · -- With shared memory a rank settles only after all have offered, and no offer is taken back.
    have hall : m.met = true := by
      rcases (settled_set hr).mp hj with ⟨rfl, hsettled⟩ | ⟨-, hold⟩
      · exact hmet hshared hsettled
      · exact h.met j hshared hold
    refine List.all_eq_true.mpr fun q hq => ?_
    rcases List.mem_or_eq_of_mem_set hq with hq | rfl
    · exact List.all_eq_true.mp hall q hq
    · exact hforward hall

end Replace

section Step

variable {r r' : Recruit} {w : World Universe}

theorem next_of_step (h : m.step v k = some n) : ∃ r r' w, m.recruits[k]? = some r ∧
    r.Next (m.met = true) m.world r' w ∧ n = ⟨m.recruits.set k r', w⟩ := by
  simp only [step, bind, Option.bind_eq_some_iff, pure, Option.some.injEq] at h
  obtain ⟨r, hr, ⟨r', w⟩, hstep, rfl⟩ := h
  exact ⟨r, r', w, hr, Recruit.next_of_step hstep, rfl⟩

theorem Sound.lt (h : Sound stencils settings u m) (hr : m.recruits[k]? = some r) : k < u.size :=
  h.length ▸ (List.getElem?_eq_some_iff.mp hr).1

theorem Sound.outlined (h : Sound stencils settings u m)
    (hs : ∀ k < u.size, (settings k).Shaped (stencils k).catalog) {t : HaloTable}
    (ht : m.Offered k t) : Outlined (stencils k) (settings k) u k t := by
  obtain ⟨r, hr, hoffered, rfl⟩ := ht
  exact (h.knows k r hr).outlined (hs k (h.lt hr)) hoffered

/-- What is kept when a rank offers its buffers. -/
theorem Sound.offer (h : Sound stencils settings u m)
    (hs : ∀ k < u.size, (settings k).Shaped (stencils k).catalog)
    (hvars : ∀ k < u.size, (stencils k).vars.Nodup) (hr : m.recruits[k]? = some r) {p : Prepared}
    {words : PoolWords} (hstage : r.stage = .drafted p) {st : Station Universe}
    (hy : (Station.offerHalos p).Yields v ⟨r.solution, m.world⟩ words st) :
    Sound stencils settings u
      ⟨m.recruits.set k ⟨st.solution, .offered p words⟩, st.world⟩ := by
  have hk := h.lt hr
  obtain ⟨hrank, hstencil, hsettings, hdrafts⟩ := h.knows k r hr
  rw [hstage] at hdrafts
  obtain ⟨site, hoffer, rfl⟩ := Station.of_offerHalos hy
  obtain ⟨placement, placed, hplaced, htopology, hshared⟩ := hdrafts.placed (hs k hk)
  have hknows : Recruit.Knows (stencils k) (settings k) u k
      ⟨(Station.withSite ⟨r.solution, m.world⟩ site).solution, .offered p words⟩ := by
    refine ⟨hrank, hstencil, hsettings, hdrafts, v, _, _, site, ?_, ?_, hstencil ▸ hoffer, rfl⟩
    · rw [h.net]
    · rw [h.net]
  have hmine := hknows.outlined (hs k hk) rfl
  have hoffered := offered_of_offer (htopology ▸ hplaced.topology) hoffer
  -- Nobody else has met all ranks yet.
  have hnot : m.met ≠ true := by
    intro hmet
    have := List.all_eq_true.mp hmet r (List.mem_of_getElem? hr)
    rw [hstage] at this
    cases this
  refine h.set hr ?_ hknows (fun _ => rfl) (fun _ hno => absurd hno nofun) ?_
  · have hnet := hoffered.net
    dsimp only at hnet
    rw [h.net] at hnet
    exact hnet
  · refine h.stocked.offer hoffered
      (htopology ▸ hplaced.rank) (hmine.separate (hvars k hk)) (fun j t ht => ?_)
      (settled_set_same hr (by rw [hstage]; rfl)) (fun j t slot n ht hj hn => ?_)
    · rcases offered_set hr ht with ⟨hj, -, ht⟩ | hold
      · exact .inl ⟨hj, ht.symm⟩
      · exact .inr hold
    · have hoff : (settings j).useShared = false := by
        by_contra hon
        exact hnot (h.met j (by simpa using hon) hj)
      rcases offered_set hr ht with ⟨rfl, -, rfl⟩ | ⟨-, hold⟩
      · exact hmine.notShared hoff hn
      · exact (h.outlined hs hold).notShared hoff hn

/-- What is kept when a rank attaches its receive buffers. -/
theorem Sound.settle (h : Sound stencils settings u m)
    (hs : ∀ k < u.size, (settings k).Shaped (stencils k).catalog)
    (hr : m.recruits[k]? = some r) {p : Prepared} {words : PoolWords}
    (hstage : r.stage = .offered p words)
    (hmet : p.plan.sizes.useShared = true → m.met = true) {st : Station Universe}
    (hy : (Station.settleHalos p words).Yields v ⟨r.solution, m.world⟩ () st) :
    Sound stencils settings u ⟨m.recruits.set k ⟨st.solution, .settled p⟩, st.world⟩ := by
  have hk := h.lt hr
  have hknows := h.knows k r hr
  have hmine := hknows.outlined (hs k hk) (by rw [hstage]; rfl)
  obtain ⟨hrank, hstencil, hsettings, htells⟩ := hknows
  rw [hstage] at htells
  obtain ⟨hdrafts, hoffers⟩ := htells
  obtain ⟨site, hsettle, rfl⟩ := Station.of_settleHalos hy
  obtain ⟨placement, placed, hplaced, htopology, hshared⟩ := hdrafts.placed (hs k hk)
  have hattached := Site.attached_of_settle hsettle
  rw [htopology, hplaced.rank, hshared] at hattached
  refine h.set hr ?_ ⟨hrank, hstencil, hsettings, hoffers.settles hdrafts (hs k hk) hk hsettle⟩
    (fun _ => rfl) (fun hon _ => hmet (hshared.trans hon)) ?_
  · have hnet := hattached.net
    dsimp only at hnet
    rw [h.net] at hnet
    exact hnet
  · refine h.stocked.settle hattached
      ⟨r, hr, by rw [hstage]; rfl, rfl⟩ ?_ (fun slot n hn => ?_) (fun j t ht => ?_) (fun j => ?_)
    · -- The rank has not attached its buffers before.
      rintro ⟨q, hq, hsettled⟩
      obtain rfl := Option.some.inj (hr.symm.trans hq)
      rw [hstage] at hsettled
      cases hsettled
    · -- Its places with shared buffers are exactly the ones that are attached.
      dsimp only at hn ⊢
      cases hon : (settings k).useShared with
      | false => simp [hmine.notShared hon hn]
      | true => simp [HaloTable.mem_sharedSlots, hn]
    · rcases offered_set hr ht with ⟨hj, -, ht⟩ | hold
      · exact .inl ⟨hj, ht.symm⟩
      · exact .inr hold
    · rw [settled_set hr]
      by_cases hj : j = k
      · simp [hj, Stage.hasSettled]
      · simp [hj]

theorem Sound.step (hs : ∀ k < u.size, (settings k).Shaped (stencils k).catalog)
    (hvars : ∀ k < u.size, (stencils k).vars.Nodup) (h : Sound stencils settings u m)
    (hstep : m.step v k = some n) : Sound stencils settings u n := by
  obtain ⟨r, r', w, hr, hnext, rfl⟩ := next_of_step hstep
  have hknows := h.knows k r hr
  cases hnext with
  | offer hstage hy => exact h.offer hs hvars hr hstage hy
  | settle hstage hmet hy => exact h.settle hs hr hstage hmet hy
  | draft hstage hy =>
    obtain ⟨hkeeps, hdrafts⟩ := Station.of_draft hy
    have hranks : (⟨r.solution, m.world⟩ : Station Universe).ranks = u.size := by
      rw [Station.ranks, h.net]
      rfl
    dsimp only at hdrafts
    rw [hknows.rank, hknows.stencil_eq, hknows.settings_eq, hranks] at hdrafts
    -- a rank that drafts has yet to offer its pools, so the ranks cannot have met
    refine h.set hr ?_ ⟨hkeeps.host ▸ hknows.rank, hkeeps.stencil.trans hknows.stencil_eq,
      hkeeps.settings.trans hknows.settings_eq, hdrafts⟩ (fun hmet => ?_)
      (fun _ hno => absurd hno nofun) ?_
    · rw [hkeeps.net]
      exact h.net
    · have := List.all_eq_true.mp hmet r (List.mem_of_getElem? hr)
      rw [hstage] at this
      cases this
    · refine h.stocked.quiet hkeeps.heap hkeeps.net (fun j t ht => ?_)
        (settled_set_same hr (by rw [hstage]; rfl))
      rcases offered_set hr ht with ⟨-, hno, -⟩ | ⟨-, hold⟩
      · cases hno
      · exact hold
  | conclude hstage hy =>
    obtain rfl := Station.of_conclude hy
    have htells := hknows.stage
    rw [hstage] at htells
    refine h.set hr h.net ⟨hknows.rank, hknows.stencil_eq, hknows.settings_eq, htells, rfl⟩
      (fun _ => rfl) (fun hon _ => h.met k hon ⟨r, hr, by rw [hstage]; rfl⟩) ?_
    refine h.stocked.quiet (.refl _) rfl (fun j t ht => ?_)
      (settled_set_same hr (by rw [hstage]; rfl))
    rcases offered_set hr ht with ⟨rfl, -, ht⟩ | ⟨-, hold⟩
    · exact ⟨r, hr, by rw [hstage]; rfl, ht⟩
    · exact hold

/-- In whatever order the ranks go on, it all stays true. -/
theorem Sound.reaches (hs : ∀ k < u.size, (settings k).Shaped (stencils k).catalog)
    (hvars : ∀ k < u.size, (stencils k).vars.Nodup) (h : Sound stencils settings u m)
    (hreach : m.Reaches n) : Sound stencils settings u n := by
  induction hreach with
  | refl => exact h
  | step _ _ _ hstep ih => exact ih.step hs hvars hstep

end Step

end Muster

end StencilPlan
