import Mathlib.Data.List.Induction
import StencilPlan.Threads.Nest

/-!
# Runs of nested programs

A run is any sequence of choices that the machine can make. It has a log of the bodies that were
begun. Every step comes down to one of a few moves of one thread, which change the innermost
program of the thread, end it, or put a body on top of it (`NestMachine.Move`). So what holds of a
machine all the time is shown move by move.

A call at the wrong level ends the program with a fault. Where faults of this kind are only
reported, the program hears of it instead, as it does if there is no team for its bodies. What it
does then is up to the program, so a run may go on with any other one in its place.
-/

namespace StencilPlan

/-- Bodies that a program starts, and how it goes on behind them. -/
structure NestLaunch where
  kind : NestKind
  count : Nat
  body : Nat → NestProgram
  next : NestProgram

namespace NestProgram

/-- What kind of work a program asks for or starts next. -/
def kind? : NestProgram → Option NestKind
  | .done => none
  | .askRegions _ => some .regions
  | .askBlocks _ => some .blocks
  | .regions .. => some .regions
  | .blocks .. => some .blocks

/-- The bodies that a program starts next. -/
def launch? : NestProgram → Option NestLaunch
  | .regions n body next => some ⟨.regions, n, body, next⟩
  | .blocks n body next => some ⟨.blocks, n, body, next⟩
  | _ => none

end NestProgram

/-- How many threads a layout has for a kind of work. -/
def ThreadSplit.threadsFor (t : ThreadSplit) : NestKind → Nat
  | .regions => t.regionThreads
  | .blocks => t.blockThreads

theorem NestKind.allowAt_eq_ok {k : NestKind} {level : Nat} :
    k.allowAt level = .ok () ↔ level = k.startLevel := by
  unfold allowAt
  split <;> simp [*]

namespace NestMachine

variable {m m' m'' : NestMachine} {i : Nat} {t : NestThread} {f : Frame} {outer : List Frame}

/-! ### Runs -/

/-- The body that a choice begins: the number of its call, its own number, and what it does. -/
def taken? (m : NestMachine) : NestChoice → Option (Nat × Nat × NestProgram)
  | .go _ => none
  | .take _ c k => do
    let call ← m.calls[c]?
    let body ← call.pending[k]?
    return (c, body)

/-- What a thread is told if the call that its program makes next is refused. -/
inductive Refuses (layout : ThreadSplit) (t : NestThread) (p : NestProgram) : PlanError → Prop
  /-- The thread is not at the level for this kind of work. -/
  | level {kind : NestKind} (hkind : p.kind? = some kind) (hlevel : t.level ≠ kind.startLevel) :
      Refuses layout t p (.threadNesting kind.setter kind.startLevel t.level)
  /-- It is, but there is no team for the bodies. -/
  | team {l : NestLaunch} (hl : p.launch? = some l) (hlevel : t.level = l.kind.startLevel)
      (hteam : layout.teamFor? l.kind t.name = none) : Refuses layout t p noTeam

/-- One machine comes from another, and these bodies were begun on the way. -/
inductive Runs (m : NestMachine) : List (Nat × Nat × NestProgram) → NestMachine → Prop
  | refl : Runs m [] m
  | step {log : List (Nat × Nat × NestProgram)} {m' m'' : NestMachine} {choice : NestChoice}
      (h : Runs m log m') (hstep : m'.step choice = some m'') :
      Runs m (log ++ (m'.taken? choice).toList) m''
  /-- A program hears that its call is refused, and goes on. -/
  | refused {log : List (Nat × Nat × NestProgram)} {m' : NestMachine} {i : Nat} {t : NestThread}
      {f : Frame} {outer : List Frame} {e : PlanError} (h : Runs m log m')
      (hi : m'.threads[i]? = some t) (hf : t.frames = f :: outer) (hw : f.waiting = none)
      (he : Refuses m'.layout t f.rest e) (next : NestProgram) :
      Runs m log (m'.report i t f outer e next)

/-- The machine after the choices of a schedule, if all of them can be made. -/
def follow (m : NestMachine) (choices : List NestChoice) : Option NestMachine :=
  choices.foldlM step m

theorem exists_runs_of_follow {choices : List NestChoice} (h : m.follow choices = some m') :
    ∃ log, Runs m log m' := by
  induction choices using List.reverseRecOn generalizing m' with
  | nil =>
    obtain rfl := Option.some.inj h
    exact ⟨[], .refl⟩
  | append_singleton choices choice ih =>
    rw [follow, List.foldlM_append] at h
    obtain ⟨m₁, hfirst, hlast⟩ := Option.bind_eq_some_iff.mp h
    obtain ⟨log, hruns⟩ := ih hfirst
    rw [List.foldlM_cons] at hlast
    obtain ⟨m₂, hstep, hnil⟩ := Option.bind_eq_some_iff.mp hlast
    obtain rfl := Option.some.inj hnil
    exact ⟨_, hruns.step hstep⟩

/-! ### Moves -/

/-- A frame with the same place in the program, whatever it does next. -/
structure Alike (f g : Frame) : Prop where
  before : g.before = f.before
  call : g.call = f.call
  path : g.path = f.path

/-- A body of a call, put on top of what a thread is in. -/
def pick (m : NestMachine) (i c k : Nat) (t : NestThread) (call : NestCall)
    (body : Nat × NestProgram) : NestMachine :=
  let path := call.path ++ [body.1]
  let m := m.setThread i { t with
    level := call.kind.bodyLevel
    frames := ⟨t.level, some c, path, none, body.2⟩ :: t.frames }
  { m with
    calls := m.calls.set c
      { call with pending := call.pending.eraseIdx k, running := call.running + 1 }
    events := m.events ++ [.entered path call.kind.bodyLevel] }

/-- The moves that a step can come down to. -/
inductive Move (m : NestMachine) : Option (Nat × Nat × NestProgram) → NestMachine → Prop
  /-- The innermost program ends. -/
  | leave {i : Nat} {t : NestThread} {f : Frame} {outer : List Frame}
      (hi : m.threads[i]? = some t) (hf : t.frames = f :: outer) (result : Checked Unit) :
      Move m none (m.leave i t f outer result)
  /-- It goes on, without waiting for anything. -/
  | advance {i : Nat} {t : NestThread} {f g : Frame} {outer : List Frame}
      (hi : m.threads[i]? = some t) (hf : t.frames = f :: outer) (hg : Alike f g)
      (hw : g.waiting = none) : Move m none (m.setThread i { t with frames := g :: outer })
  /-- It is told a number of threads. -/
  | tell {i : Nat} {t : NestThread} {f : Frame} {outer : List Frame} {kind : NestKind}
      (hi : m.threads[i]? = some t) (hf : t.frames = f :: outer) (hw : f.waiting = none)
      (hlevel : t.level = kind.startLevel) (next : NestProgram) :
      Move m none (m.tell i t f outer (m.layout.threadsFor kind) next)
  /-- It is told that its call is refused. -/
  | report {i : Nat} {t : NestThread} {f : Frame} {outer : List Frame} {e : PlanError}
      (hi : m.threads[i]? = some t) (hf : t.frames = f :: outer) (hw : f.waiting = none)
      (he : Refuses m.layout t f.rest e) (next : NestProgram) :
      Move m none (m.report i t f outer e next)
  /-- It starts bodies and waits for them. -/
  | begin {i : Nat} {t : NestThread} {f : Frame} {outer : List Frame} {l : NestLaunch}
      (hi : m.threads[i]? = some t) (hf : t.frames = f :: outer)
      (hlevel : t.level = l.kind.startLevel) (team : Nat) :
      Move m none (m.begin i t f outer l.kind team l.count l.body l.next)
  /-- A body is put on top. -/
  | take {i c k : Nat} {t : NestThread} {call : NestCall} {body : Nat × NestProgram}
      (hi : m.threads[i]? = some t) (hc : m.calls[c]? = some call)
      (hk : call.pending[k]? = some body) (hfor : call.isFor t.name = true) :
      Move m (some (c, body)) (m.pick i c k t call body)

theorem proceed_of_refused {kind : NestKind} {e : Fault} (hkind : f.rest.kind? = some kind)
    (hlevel : kind.allowAt t.level = .error e) :
    m.proceed i t f outer = m.leave i t f outer (.error e) := by
  cases hrest : f.rest <;> rw [hrest] at hkind <;> cases hkind <;>
    simp only [proceed, hrest, guarded, hlevel]

theorem proceed_of_launch {l : NestLaunch} (hl : f.rest.launch? = some l)
    (hlevel : t.level = l.kind.startLevel) :
    m.proceed i t f outer = m.launch i t f outer l.kind l.count l.body l.next := by
  have hallow := NestKind.allowAt_eq_ok.mpr hlevel
  cases hrest : f.rest <;> rw [hrest] at hl <;> cases hl <;>
    simp only [proceed, hrest, guarded, hallow]

theorem launch_of_team {kind : NestKind} {team n : Nat} {body : Nat → NestProgram}
    {next : NestProgram} (h : m.layout.teamFor? kind t.name = some team) :
    m.launch i t f outer kind n body next = m.begin i t f outer kind team n body next := by
  rw [launch, h]

theorem launch_of_noTeam {kind : NestKind} {n : Nat} {body : Nat → NestProgram}
    {next : NestProgram} (h : m.layout.teamFor? kind t.name = none) :
    m.launch i t f outer kind n body next = m.report i t f outer noTeam next := by
  rw [launch, h]

/-- Bodies are started if there is a team for them, and otherwise the program hears of it. -/
theorem move_launch {l : NestLaunch} (hi : m.threads[i]? = some t) (hf : t.frames = f :: outer)
    (hw : f.waiting = none) (hl : f.rest.launch? = some l)
    (hlevel : t.level = l.kind.startLevel) :
    Move m none (m.launch i t f outer l.kind l.count l.body l.next) := by
  cases hteam : m.layout.teamFor? l.kind t.name with
  | some team =>
    rw [launch_of_team hteam]
    exact .begin hi hf hlevel team
  | none =>
    rw [launch_of_noTeam hteam]
    exact .report hi hf hw (.team hl hlevel hteam) l.next

theorem move_proceed (hi : m.threads[i]? = some t) (hf : t.frames = f :: outer)
    (hw : f.waiting = none) : Move m none (m.proceed i t f outer) := by
  cases hkind : f.rest.kind? with
  | none =>
    cases hrest : f.rest <;> rw [hrest] at hkind <;> cases hkind
    rw [proceed, hrest]
    exact .leave hi hf _
  | some kind =>
    cases hlevel : kind.allowAt t.level with
    | error e =>
      rw [proceed_of_refused hkind hlevel]
      exact .leave hi hf _
    | ok =>
      have hstart := NestKind.allowAt_eq_ok.mp hlevel
      cases hrest : f.rest <;> rw [hrest] at hkind <;> cases hkind <;>
        simp only [proceed, hrest, guarded, hlevel]
      case askRegions.refl next => exact .tell hi hf hw hstart next
      case askBlocks.refl next => exact .tell hi hf hw hstart next
      case regions.refl n body next =>
        exact move_launch (l := ⟨.regions, n, body, next⟩) hi hf hw (by rw [hrest]; rfl) hstart
      case blocks.refl n body next =>
        exact move_launch (l := ⟨.blocks, n, body, next⟩) hi hf hw (by rw [hrest]; rfl) hstart

theorem go_eq_proceed (hi : m.threads[i]? = some t) (hf : t.frames = f :: outer)
    (hw : f.waiting = none) : m.go i = some (m.proceed i t f outer) := by
  simp only [go, hi, hf, hw, Option.bind_eq_bind, Option.bind_some]

/-- A call that is waited for has to be over. It returns, or it fails as its bodies did. -/
theorem of_go_waiting {c : Nat} (hi : m.threads[i]? = some t) (hf : t.frames = f :: outer)
    (hw : f.waiting = some c) (h : m.go i = some m') :
    ∃ call, m.calls[c]? = some call ∧ call.ended = true ∧
      match call.fault with
      | none => m' = m.setThread i { t with frames := { f with waiting := none } :: outer }
      | some e => m' = m.leave i t f outer (.error e) := by
  simp only [go, hi, hf, hw, Option.bind_eq_bind, Option.bind_some,
    Option.bind_eq_some_iff] at h
  obtain ⟨call, hc, h⟩ := h
  split at h
  · next hended =>
    refine ⟨call, hc, hended, ?_⟩
    split at h <;> next hfault => rw [hfault]; exact (Option.some.inj h).symm
  · cases h

theorem move_go (h : m.go i = some m') : Move m none m' := by
  have hall := h
  simp only [go, Option.bind_eq_bind, Option.bind_eq_some_iff] at h
  obtain ⟨t, hi, h⟩ := h
  split at h
  · cases h
  · next f outer hf =>
    cases hw : f.waiting with
    | none =>
      obtain rfl := Option.some.inj ((go_eq_proceed hi hf hw).symm.trans hall)
      exact move_proceed hi hf hw
    | some c =>
      obtain ⟨call, -, -, h⟩ := of_go_waiting hi hf hw hall
      split at h <;> subst h
      · exact .advance hi hf ⟨rfl, rfl, rfl⟩ rfl
      · exact .leave hi hf _

theorem move_take {c k : Nat} (h : m.take i c k = some m') :
    Move m (m.taken? (.take i c k)) m' := by
  simp only [take, Option.bind_eq_bind, Option.bind_eq_some_iff] at h
  obtain ⟨t, hi, call, hc, body, hk, h⟩ := h
  split at h
  · next hfor =>
    obtain rfl := Option.some.inj h
    have htaken : m.taken? (.take i c k) = some (c, body) := by
      simp only [taken?, hc, hk, Option.bind_eq_bind, Option.bind_some]
      rfl
    rw [htaken]
    exact .take hi hc hk hfor.2
  · cases h

/-- Every step is one of the moves. -/
theorem move_of_step {choice : NestChoice} (h : m.step choice = some m') :
    Move m (m.taken? choice) m' := by
  cases choice with
  | go i => exact move_go h
  | take i c k => exact move_take h

/-- What every move keeps holds at the end of a run if it holds at its beginning. -/
theorem Runs.of_move {P : List (Nat × Nat × NestProgram) → NestMachine → Prop}
    {log : List (Nat × Nat × NestProgram)} (h : Runs m log m') (hstart : P [] m)
    (hmove : ∀ {log : List (Nat × Nat × NestProgram)} {m' m'' : NestMachine}
      {taken : Option (Nat × Nat × NestProgram)},
      P log m' → Move m' taken m'' → P (log ++ taken.toList) m'') : P log m' := by
  induction h with
  | refl => exact hstart
  | step _ hstep ih => exact hmove ih (move_of_step hstep)
  | @refused log m' i t f outer e _ hi hf hw he next ih =>
    have h := hmove ih (.report hi hf hw he next)
    rwa [Option.toList_none, List.append_nil] at h

/-! ### Calls -/

@[simp] theorem calls_setThread (m : NestMachine) (i : Nat) (t : NestThread) :
    (m.setThread i t).calls = m.calls := rfl

@[simp] theorem threads_leave (m : NestMachine) (i : Nat) (t : NestThread) (f : Frame)
    (outer : List Frame) (result : Checked Unit) : (m.leave i t f outer result).threads =
      m.threads.set i { t with level := f.before, frames := outer } := by
  rw [leave]
  split <;> rfl

@[simp] theorem events_leave (m : NestMachine) (i : Nat) (t : NestThread) (f : Frame)
    (outer : List Frame) (result : Checked Unit) :
    (m.leave i t f outer result).events = m.events := by
  rw [leave]
  split <;> rfl

@[simp] theorem layout_leave (m : NestMachine) (i : Nat) (t : NestThread) (f : Frame)
    (outer : List Frame) (result : Checked Unit) :
    (m.leave i t f outer result).layout = m.layout := by
  rw [leave]
  split <;> rfl

@[simp] theorem refusals_leave (m : NestMachine) (i : Nat) (t : NestThread) (f : Frame)
    (outer : List Frame) (result : Checked Unit) :
    (m.leave i t f outer result).refusals = m.refusals := by
  rw [leave]
  split <;> rfl

@[simp] theorem length_calls_leave (m : NestMachine) (i : Nat) (t : NestThread) (f : Frame)
    (outer : List Frame) (result : Checked Unit) :
    (m.leave i t f outer result).calls.length = m.calls.length := by
  rw [leave]
  split
  · rfl
  · exact List.length_modify ..

/-- A program that ends is no longer counted as running in its call. Nothing else changes but for
the fault. -/
theorem exists_call_leave (t : NestThread) (outer : List Frame) (result : Checked Unit) {c : Nat}
    {call : NestCall} (hc : m.calls[c]? = some call) :
    ∃ call', (m.leave i t f outer result).calls[c]? = some call' ∧ call'.kind = call.kind ∧
      call'.path = call.path ∧ call'.pending = call.pending ∧
      call'.running = call.running - if f.call = some c then 1 else 0 := by
  rw [leave]
  split
  · next hcall =>
    rw [hcall, if_neg nofun]
    exact ⟨call, hc, rfl, rfl, rfl, rfl⟩
  · next c' hcall =>
    dsimp only
    rw [hcall, List.getElem?_modify, setThread, hc]
    by_cases h : c' = c
    · subst h
      rw [if_pos rfl]
      exact ⟨_, congrArg some (if_pos rfl), rfl, rfl, rfl, rfl⟩
    · rw [if_neg fun hsome => h (Option.some.inj hsome)]
      exact ⟨call, congrArg some (if_neg h), rfl, rfl, rfl, rfl⟩

/-- A body that is put on top is no longer pending in its call, but running. -/
theorem exists_call_pick (i k : Nat) (t : NestThread) {c c' : Nat} {call call' : NestCall}
    (body : Nat × NestProgram) (hc : m.calls[c]? = some call) (hc' : m.calls[c']? = some call') :
    ∃ call'', (m.pick i c k t call body).calls[c']? = some call'' ∧ call''.kind = call'.kind ∧
      call''.path = call'.path ∧
      call''.pending = (if c = c' then call'.pending.eraseIdx k else call'.pending) ∧
      call''.running = call'.running + if c = c' then 1 else 0 := by
  by_cases h : c = c'
  · subst h
    obtain rfl := Option.some.inj (hc.symm.trans hc')
    rw [if_pos rfl, if_pos rfl]
    exact ⟨_, List.getElem?_set_self (List.getElem?_eq_some_iff.mp hc).1, rfl, rfl, rfl, rfl⟩
  · rw [if_neg h, if_neg h]
    exact ⟨call', (List.getElem?_set_ne h).trans hc', rfl, rfl, rfl, rfl⟩

/-- What a call is about never changes. -/
theorem Move.exists_call {taken : Option (Nat × Nat × NestProgram)} (h : Move m taken m')
    {c : Nat} {call : NestCall} (hc : m.calls[c]? = some call) :
    ∃ call', m'.calls[c]? = some call' ∧ call'.kind = call.kind ∧ call'.path = call.path := by
  cases h with
  | leave hi hf result =>
    obtain ⟨call', hc', hkind, hpath, -⟩ := exists_call_leave _ _ result hc
    exact ⟨call', hc', hkind, hpath⟩
  | advance | tell | report => exact ⟨call, hc, rfl, rfl⟩
  | begin =>
    refine ⟨call, ?_, rfl, rfl⟩
    rw [NestMachine.begin]
    exact (List.getElem?_append_left (List.getElem?_eq_some_iff.mp hc).1).trans hc
  | take _ hc' =>
    obtain ⟨call', hcall', hkind, hpath, -⟩ := exists_call_pick _ _ _ _ hc' hc
    exact ⟨call', hcall', hkind, hpath⟩

end NestMachine

end StencilPlan
