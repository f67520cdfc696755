import StencilPlan.Halo.Exchange

/-!
# Ranks that exchange together

Several ranks exchange their halos over one network and one heap, each for some rounds. A step is
one move of one rank; any order of steps is a possible course, and ranks need not be in the same
round. `run` is one such course: it goes on until nobody can make a move.
-/

namespace StencilPlan

/-- A rank that takes part. -/
structure CrewMember (ν : Type) [Transport ν] where
  /-- The round it is in. -/
  exchange : Exchange ν
  /-- How it packs in the rounds to come. -/
  coming : List Packer
  /-- The rounds it has finished, the earliest first. -/
  past : List (Exchange ν)
  /-- Why it stopped, if it failed. -/
  failure : Option Failure

namespace CrewMember

variable {ν : Type} [Transport ν]

/-- A rank before its first move. -/
def ofExchange (x : Exchange ν) (coming : List Packer) : CrewMember ν :=
  { exchange := x, coming, past := [], failure := none }

/-- Whether the rank has done all rounds. -/
def finished (m : CrewMember ν) : Bool :=
  m.failure.isNone && m.exchange.finished && m.coming.isEmpty

/-- One step: a move, or the passage to the next round. The answer is `none` if the rank waits or
has nothing to do. -/
def step (m : CrewMember ν) (w : World ν) : Option (CrewMember ν × World ν) :=
  match m.failure with
  | some _ => none
  | none =>
    if m.exchange.finished then
      match m.coming with
      | [] => none
      | p :: ps =>
        some ({ m with
          exchange := m.exchange.again p, coming := ps, past := m.past ++ [m.exchange] }, w)
    else
      match m.exchange.step w with
      | .ok none => none
      | .ok (some (x, w)) => some ({ m with exchange := x }, w)
      | .error e => some ({ m with failure := some e }, w)

/-- Steps that are left at most. -/
def work (m : CrewMember ν) : Nat :=
  match m.failure with
  | some _ => 0
  | none =>
    m.exchange.work + 1 +
      m.coming.length * (1 + Exchange.movesWork m.exchange.moves)

/-- At most so many steps, until the rank waits or has nothing to do. -/
def advance : Nat → CrewMember ν → World ν → CrewMember ν × World ν
  | 0, m, w => (m, w)
  | k + 1, m, w =>
    match m.step w with
    | none => (m, w)
    | some (m, w) => advance k m w

end CrewMember

/-- Ranks that exchange, and the world they share. -/
structure Crew (ν : Type) [Transport ν] where
  members : List (CrewMember ν)
  world : World ν

namespace Crew

variable {ν : Type} [Transport ν]

/-- One step of the member with a number; `none` if it cannot make one. -/
def step (c : Crew ν) (i : Nat) : Option (Crew ν) := do
  let m ← c.members[i]?
  let (m, world) ← m.step c.world
  return { members := c.members.set i m, world }

/-- Whether nobody can make a step. -/
def stuck (c : Crew ν) : Bool := c.members.all fun m => (m.step c.world).isNone

/-- Lets each member in turn go on as far as it can. -/
def turn (w : World ν) : List (CrewMember ν) → List (CrewMember ν) × World ν
  | [] => ([], w)
  | m :: ms =>
    let (m, w) := m.advance m.work w
    let (ms, w) := turn w ms
    (m :: ms, w)

/-- Steps that are left at most. -/
def work (c : Crew ν) : Nat := c.members.foldr (fun m k => m.work + k) 0

/-- At most so many turns, until one of them changes nothing. -/
def turns : Nat → Crew ν → Crew ν
  | 0, c => c
  | k + 1, c =>
    let (members, world) := turn c.world c.members
    let after : Crew ν := ⟨members, world⟩
    if after.work < c.work then turns k after else after

/-- Goes on until nobody can make a step. -/
def run (c : Crew ν) : Crew ν := turns c.work c

end Crew

end StencilPlan
