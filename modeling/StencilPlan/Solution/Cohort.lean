import StencilPlan.Halo.Crew
import StencilPlan.Network.Universe
import StencilPlan.Solution.Prepare
import StencilPlan.Solution.Run

/-!
# The solutions of all ranks

Ranks of one universe each hold a solution of their own. What a rank can do alone is done rank by
rank. Preparing goes in phases, because a rank can only attach to shared buffers once all ranks
have offered theirs; so nobody begins unless everybody's settings can be resolved. An exchange
interleaves the moves of all ranks.
-/

namespace StencilPlan

/-- The solutions of all ranks, by number, and the world they share. -/
structure Cohort where
  solutions : List Solution
  world : World Universe
  /-- How much every rank writes into a journal of its own, which nobody reads. It matters all the
  same: a text that is worked out can fault. -/
  verbosity : Verbosity

/-- What one rank did of something done by all. -/
inductive RankOutcome (α : Type) where
  | done (a : α)
  | failed (e : Failure)
  /-- The rank held back because another one cannot do its part. -/
  | heldBack

namespace RankOutcome

def ofOutcome {α : Type} : Outcome α → RankOutcome α
  | .ok a => done a
  | .error e => failed e

def isDone {α : Type} : RankOutcome α → Bool
  | done _ => true
  | _ => false

end RankOutcome

namespace Cohort

/-- Lets each of some ranks do its part, which may depend on its number and what it brings. -/
def eachFrom {α β : Type} (v : Verbosity) (f : Nat → α → Task (Station Universe) β) (first : Nat)
    (world : World Universe) :
    List (Solution × RankOutcome α) → List (Solution × RankOutcome β) × World Universe
  | [] => ([], world)
  | (s, given) :: rest =>
    let (s, world, result) :=
      match given with
      | .done a =>
        let r := (f first a).run v ⟨s, world⟩
        (r.state.solution, r.state.world, RankOutcome.ofOutcome r.result)
      | .failed e => (s, world, RankOutcome.failed e)
      | .heldBack => (s, world, RankOutcome.heldBack)
    let (results, world) := eachFrom v f (first + 1) world rest
    ((s, result) :: results, world)

/-- Lets each rank that has succeeded so far go on. -/
def andThen {α β : Type} (c : Cohort × List (RankOutcome α))
    (f : Nat → α → Task (Station Universe) β) : Cohort × List (RankOutcome β) :=
  let (results, world) := eachFrom c.1.verbosity f 0 c.1.world (c.1.solutions.zip c.2)
  ({ c.1 with solutions := results.map (·.1), world }, results.map (·.2))

/-- Lets each rank do something. -/
def each {α : Type} (c : Cohort) (f : Nat → Task (Station Universe) α) :
    Cohort × List (RankOutcome α) :=
  andThen (c, c.solutions.map fun _ => RankOutcome.done ()) fun i _ => f i

/-- Tries whether every rank can find its place and a plan. -/
def rehearse (c : Cohort) : Cohort × List (RankOutcome Unit) :=
  c.each fun _ => do
    Station.unprepare
    let _ ← Station.planAhead

/-- Prepares all ranks, or none if one of them cannot. -/
def prepare (c : Cohort) : Cohort × List (RankOutcome Unit) :=
  let (c, tried) := c.rehearse
  if tried.all (·.isDone) then
    let drafts := c.each fun _ => Station.draft
    let offers := andThen drafts fun _ p => do return (p, ← Station.offerHalos p)
    let settled := andThen offers fun _ (p, words) => do
      Station.settleHalos p words
      return p
    andThen settled fun _ p => Station.conclude p
  else
    (c, tried.map fun
      | .failed e => .failed e
      | _ => .heldBack)

/-- The exchanges of the ranks that could begin one. -/
def members : List (RankOutcome (Exchange Universe)) → List (CrewMember Universe)
  | [] => []
  | .done x :: rest => .ofExchange x [] :: members rest
  | _ :: rest => members rest

/-- Gives the members of a crew back to the ranks they belong to. -/
def regroup : List (RankOutcome (Exchange Universe)) → List (CrewMember Universe) →
    List (RankOutcome (Exchange Universe))
  | .done _ :: rest, m :: ms =>
    let result :=
      match m.failure with
      | some e => RankOutcome.failed e
      | none =>
        if m.finished then RankOutcome.done m.exchange
        else RankOutcome.failed (.fault .stalled)
    result :: regroup rest ms
  | r :: rest, ms => r :: regroup rest ms
  | [], _ => []

/-- Lets all ranks exchange their halos. Each packs in its own way. -/
def exchange (c : Cohort) (packer : Solution → Packer) :
    Cohort × List (RankOutcome (Traffic × List ExchangeEvent)) :=
  let (c, opened) := c.each fun _ => do
    Station.openExchange (packer (← get).solution)
  let crew := (Crew.mk (members opened) c.world).run
  andThen ({ c with world := crew.world }, regroup opened crew.members) fun _ x => do
    let events ← Station.closeExchange x
    return (x.stats, events)

/-- One rank does something, the others do nothing. -/
def only {α : Type} (c : Cohort) (rank : Nat) (x : Task (Station Universe) α) :
    Cohort × List (RankOutcome (Option α)) :=
  c.each fun i => if i = rank then some <$> x else pure none

end Cohort

end StencilPlan
