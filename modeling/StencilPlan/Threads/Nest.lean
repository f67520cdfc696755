import StencilPlan.Threads.Program
import StencilPlan.Threads.Layout

/-!
# Running nested programs

A team of threads shares out the regions, and each of its threads has a team of its own for the
blocks. Bodies that are not yet begun wait in the call that started them, and any free thread of
the right team may take any of them. A region thread that waits for its blocks is free too: it may
take up another region on top of the one it is in. Every thread knows the level at which it runs;
a body notes the level it found and puts it back when it ends, in whichever way it ends.

How many threads a team gets depends on the number that is asked for, but it need not be that one:
a team of no threads, say, is given some. A layout without region threads has no team for blocks at
all, and a program that starts blocks there is told so.

A machine makes one step of one thread at a time. Which thread, and which body it takes, is left to
the schedule, so a statement about all schedules is one about all sequences of `step`.
-/

namespace StencilPlan

/-- A thread. -/
inductive ThreadName where
  /-- The thread that runs the program. -/
  | caller
  /-- A thread of the region team. -/
  | region (r : Nat)
  /-- A thread of the team that belongs to a region thread. -/
  | block (team b : Nat)
  deriving DecidableEq, Repr

/-- The number of a thread in its team. Outside of all teams it is taken for the first one. -/
def ThreadName.index : ThreadName → Nat
  | .caller => 0
  | .region r => r
  | .block _ b => b

/-- The team for the bodies that a thread starts. There is one for regions, and for blocks there is
one for each region thread of the layout. -/
def ThreadSplit.teamFor? (layout : ThreadSplit) (kind : NestKind) (name : ThreadName) :
    Option Nat :=
  match kind with
  | .regions => some 0
  | .blocks =>
    if layout.regionThreads = 0 then none else some (name.index % layout.regionThreads)

/-- What a program is told that starts blocks where there is no team for them. -/
def noTeam : PlanError := .threadPool "no block pool"

/-- A program that a thread is in. -/
structure Frame where
  /-- The level to put back when it ends. -/
  before : Nat
  /-- The number of the call it is a body of; none for the program of the caller. -/
  call : Option Nat
  /-- The region, and the block in it, that the body stands for. -/
  path : List Nat
  /-- The number of the call it waits for. -/
  waiting : Option Nat
  rest : NestProgram

/-- A thread with the programs it is in, the innermost first. -/
structure NestThread where
  name : ThreadName
  level : Nat
  frames : List Frame

/-- Bodies started together. -/
structure NestCall where
  kind : NestKind
  /-- The team that runs them. -/
  team : Nat
  /-- Where they were started. -/
  path : List Nat
  /-- Bodies that nobody has taken, with their numbers. -/
  pending : List (Nat × NestProgram)
  /-- Bodies that were taken and have not ended. -/
  running : Nat
  /-- Why a body failed. -/
  fault : Option Fault

/-- What can be seen from inside the bodies. -/
inductive NestEvent where
  /-- A body began, at a level. -/
  | entered (path : List Nat) (level : Nat)
  /-- A thread was told a number of threads, at a level. -/
  | told (path : List Nat) (level threads : Nat)
  deriving DecidableEq, Repr

/-- Threads in the middle of a program. -/
structure NestMachine where
  layout : ThreadSplit
  threads : List NestThread
  /-- All calls so far, by number. -/
  calls : List NestCall
  events : List NestEvent
  /-- What programs were told whose calls were refused, with their places. -/
  refusals : List (List Nat × PlanError)
  /-- What the program of the caller came to, once it has ended. -/
  result : Option (Checked Unit)

/-- One choice of a schedule. -/
inductive NestChoice where
  /-- A thread goes on with its innermost program. -/
  | go (thread : Nat)
  /-- A thread takes one of the bodies of a call. -/
  | take (thread call body : Nat)
  deriving DecidableEq, Repr

/-- Whether a call is over. After a failure the bodies nobody has taken are given up. -/
def NestCall.ended (c : NestCall) : Bool := c.running = 0 ∧ (c.pending.isEmpty ∨ c.fault.isSome)

/-- Whether the bodies of a call are for a thread. -/
def NestCall.isFor (c : NestCall) : ThreadName → Bool
  | .caller => false
  | .region _ => c.kind = .regions
  | .block team _ => c.kind = .blocks ∧ c.team = team

namespace NestMachine

/-- The names of all threads of a layout, where a team has so many threads as `given` says for the
number that was asked for. -/
def threadNames (given : Nat → Nat) (t : ThreadSplit) : List ThreadName :=
  .caller :: ((List.range (given t.regionThreads)).map .region ++
    (List.range t.regionThreads).flatMap fun r =>
      (List.range (given t.blockThreads)).map fun b => .block r b)

/-- The caller is about to run a program; all other threads are idle. -/
def start (given : Nat → Nat) (t : ThreadSplit) (p : NestProgram) : NestMachine where
  layout := t
  threads := (threadNames given t).map fun name =>
    { name, level := 0
      frames := if name = .caller then [⟨0, none, [], none, p⟩] else [] }
  calls := []
  events := []
  refusals := []
  result := none

def setThread (m : NestMachine) (i : Nat) (t : NestThread) : NestMachine :=
  { m with threads := m.threads.set i t }

/-- Ends the innermost program of a thread, and puts the level back. -/
def leave (m : NestMachine) (i : Nat) (t : NestThread) (f : Frame) (outer : List Frame)
    (result : Checked Unit) : NestMachine :=
  let m := m.setThread i { t with level := f.before, frames := outer }
  match f.call with
  | none => { m with result := some result }
  | some c =>
    { m with calls := m.calls.modify c fun call =>
        { call with
          running := call.running - 1
          fault := match call.fault, result with
            | none, .error e => some e
            | fault, _ => fault } }

/-- Starts bodies that a team runs and the thread waits for. -/
def begin (m : NestMachine) (i : Nat) (t : NestThread) (f : Frame) (outer : List Frame)
    (kind : NestKind) (team n : Nat) (body : Nat → NestProgram) (next : NestProgram) :
    NestMachine :=
  let call : NestCall :=
    { kind, team, path := f.path, pending := (List.range n).map fun k => (k, body k)
      running := 0, fault := none }
  let f := { f with rest := next, waiting := some m.calls.length }
  let m := m.setThread i { t with frames := f :: outer }
  { m with calls := m.calls ++ [call] }

/-- Tells a program that its call is refused. It goes on, at the same level. -/
def report (m : NestMachine) (i : Nat) (t : NestThread) (f : Frame) (outer : List Frame)
    (e : PlanError) (next : NestProgram) : NestMachine :=
  let m := m.setThread i { t with frames := { f with rest := next } :: outer }
  { m with refusals := m.refusals ++ [(f.path, e)] }

/-- Starts bodies if there is a team for them. -/
def launch (m : NestMachine) (i : Nat) (t : NestThread) (f : Frame) (outer : List Frame)
    (kind : NestKind) (n : Nat) (body : Nat → NestProgram) (next : NestProgram) : NestMachine :=
  match m.layout.teamFor? kind t.name with
  | some team => m.begin i t f outer kind team n body next
  | none => m.report i t f outer noTeam next

/-- Tells a thread a number of threads. -/
def tell (m : NestMachine) (i : Nat) (t : NestThread) (f : Frame) (outer : List Frame)
    (threads : Nat) (next : NestProgram) : NestMachine :=
  let m := m.setThread i { t with frames := { f with rest := next } :: outer }
  { m with events := m.events ++ [.told f.path t.level threads] }

/-- Goes on if the level allows this kind of work, and ends the program otherwise. -/
def guarded (m : NestMachine) (i : Nat) (t : NestThread) (f : Frame) (outer : List Frame)
    (kind : NestKind) (next : NestMachine) : NestMachine :=
  match kind.allowAt t.level with
  | .ok () => next
  | .error e => m.leave i t f outer (.error e)

/-- One step of the innermost program of a thread. -/
def proceed (m : NestMachine) (i : Nat) (t : NestThread) (f : Frame) (outer : List Frame) :
    NestMachine :=
  match f.rest with
  | .done => m.leave i t f outer (.ok ())
  | .askRegions next =>
    m.guarded i t f outer .regions (m.tell i t f outer m.layout.regionThreads next)
  | .askBlocks next =>
    m.guarded i t f outer .blocks (m.tell i t f outer m.layout.blockThreads next)
  | .regions n body next =>
    m.guarded i t f outer .regions (m.launch i t f outer .regions n body next)
  | .blocks n body next =>
    m.guarded i t f outer .blocks (m.launch i t f outer .blocks n body next)

/-- Lets a thread go on; `none` if it is idle or waits. -/
def go (m : NestMachine) (i : Nat) : Option NestMachine := do
  let t ← m.threads[i]?
  match t.frames with
  | [] => none
  | f :: outer =>
    match f.waiting with
    | none => some (m.proceed i t f outer)
    | some c =>
      let call ← m.calls[c]?
      if call.ended then
        match call.fault with
        | some e => some (m.leave i t f outer (.error e))
        | none => some (m.setThread i { t with frames := { f with waiting := none } :: outer })
      else none

/-- Whether a thread may take up a body: it is idle, or waits. -/
def free (t : NestThread) : Bool :=
  match t.frames with
  | [] => true
  | f :: _ => f.waiting.isSome

/-- Lets a thread take a body of a call; `none` if it is busy or there is no such body for it. -/
def take (m : NestMachine) (i c k : Nat) : Option NestMachine := do
  let t ← m.threads[i]?
  let call ← m.calls[c]?
  let (number, body) ← call.pending[k]?
  if free t ∧ call.isFor t.name then
    let path := call.path ++ [number]
    let level := call.kind.bodyLevel
    let frame : Frame := { before := t.level, call := some c, path, waiting := none, rest := body }
    let m := m.setThread i { t with level, frames := frame :: t.frames }
    some { m with
      calls := m.calls.set c
        { call with pending := call.pending.eraseIdx k, running := call.running + 1 }
      events := m.events ++ [.entered path level] }
  else none

/-- One step of the machine. -/
def step (m : NestMachine) : NestChoice → Option NestMachine
  | .go i => m.go i
  | .take i c k => m.take i c k

/-- The first step that can be made: threads that can go on come before threads that can take a
body. -/
def firstStep (m : NestMachine) : Option NestMachine :=
  let threads := List.range m.threads.length
  (threads.findSome? m.go).orElse fun _ =>
    (List.range m.calls.length).reverse.findSome? fun c =>
      threads.findSome? fun i => m.take i c 0

/-- At most so many steps, until the caller has ended. -/
def steps : Nat → NestMachine → NestMachine
  | 0, m => m
  | k + 1, m =>
    match m.result with
    | some _ => m
    | none =>
      match m.firstStep with
      | some m => steps k m
      | none => m

/-- The level of the caller. -/
def callerLevel (m : NestMachine) : Nat := (m.threads.head?.map (·.level)).getD 0

end NestMachine

/-- Teams of threads for nested programs. -/
structure ThreadTeams where
  layout : ThreadSplit
  deriving DecidableEq, Repr

namespace ThreadTeams

/-- Sets up the teams. -/
def build (layout : ThreadSplit) : Task Unit ThreadTeams := do
  Task.note .debug (s!"nested thread pools: {layout.regionThreads} region x " ++
    s!"{layout.blockThreads} block")
  return { layout }

/-- How the teams are shown. -/
def display (t : ThreadTeams) : String :=
  s!"NestedThreads \x7b layout: {t.layout.display} \x7d"

/-- Runs a program to its end, one thread after the other. A team has the threads it asks for, and
never less than one. -/
def execute (t : ThreadTeams) (p : NestProgram) : NestMachine :=
  (NestMachine.start (max 1) t.layout p).steps (p.work + 1)

/-- What a program comes to when it is run. -/
def run (t : ThreadTeams) (p : NestProgram) : Checked Unit :=
  ((t.execute p).result).getD (.ok ())

end ThreadTeams

end StencilPlan
