import StencilPlan.Error

/-!
# Tasks: work that keeps a journal

A task works on a state, may write records into a journal and may fail. What it wrote and the
state it reached outlive a failure. How much is written is decided by the verbosity under which
the task runs; the text of a record that is not written is never worked out, so a fault inside
that text cannot happen either.
-/

namespace StencilPlan

/-- How important a record is, the most important first. -/
inductive Severity where
  | warn
  | info
  | debug
  | trace
  deriving DecidableEq, Repr

/-- Zero for the most important records. -/
def Severity.rank : Severity → Nat
  | warn => 0
  | info => 1
  | debug => 2
  | trace => 3

/-- The severity with a name, in lower case. -/
def Severity.ofName? : String → Option Severity
  | "warn" => some warn
  | "info" => some info
  | "debug" => some debug
  | "trace" => some trace
  | _ => none

/-- The name of a severity, in upper case. -/
def Severity.label : Severity → String
  | warn => "WARN"
  | info => "INFO"
  | debug => "DEBUG"
  | trace => "TRACE"

/-- One line of the journal. -/
structure Record where
  severity : Severity
  text : String
  deriving DecidableEq, Repr

/-- A record with its severity. -/
def Record.render (r : Record) : String := r.severity.label ++ " " ++ r.text

/-- The least important severity still written; nothing is written at `none`. -/
abbrev Verbosity := Option Severity

/-- Whether records of this severity are written. -/
def Verbosity.writes (v : Verbosity) (s : Severity) : Bool :=
  match v with
  | none => false
  | some least => s.rank ≤ least.rank

/-- What a task came to: its result, the state it left and the records it wrote. -/
structure Run (σ α : Type) where
  result : Outcome α
  state : σ
  journal : List Record

/-- Work on a state `σ` that yields an `α`. -/
def Task (σ α : Type) : Type := Verbosity → σ → Run σ α

namespace Task

variable {σ τ α β : Type}

/-- Runs a task. -/
def run (x : Task σ α) (v : Verbosity) (s : σ) : Run σ α := x v s

instance : Monad (Task σ) where
  pure a := fun _ s => ⟨.ok a, s, []⟩
  bind x f := fun v s =>
    match x v s with
    | ⟨.error e, s', j⟩ => ⟨.error e, s', j⟩
    | ⟨.ok a, s', j⟩ =>
      let r := f a v s'
      ⟨r.result, r.state, j ++ r.journal⟩

instance : MonadStateOf σ (Task σ) where
  get := fun _ s => ⟨.ok s, s, []⟩
  set s := fun _ _ => ⟨.ok (), s, []⟩
  modifyGet f := fun _ s => ⟨.ok (f s).1, (f s).2, []⟩

instance : MonadLift (Except Failure) (Task σ) where
  monadLift x := fun _ s => ⟨x, s, []⟩

/-- Stops with a failure; the state stays as it is. -/
def fail (e : Failure) : Task σ α := fun _ s => ⟨.error e, s, []⟩

/-- Stops because of a mistake of the caller. -/
def reject (e : PlanError) : Task σ α := fail (.tiling e)

/-- Work without a state can be done anywhere. -/
instance : MonadLift (Task Unit) (Task σ) where
  monadLift x := fun v s =>
    let r := x v ()
    ⟨r.result, s, r.journal⟩

/-- Work on a part of the state. -/
def zoom (part : σ → τ) (put : τ → σ → σ) (x : Task τ α) : Task σ α := fun v s =>
  let r := x v (part s)
  ⟨r.result, put r.state s, r.journal⟩

/-- Work on a value of its own, which is yielded as the work leaves it. -/
def apart (s : σ) (x : Task σ α) : Task τ (α × σ) := fun v t =>
  let r := x v s
  ⟨r.result.map fun a => (a, r.state), t, r.journal⟩

/-- Turns any failure into a value. -/
def outcome (x : Task σ α) : Task σ (Outcome α) := fun v s =>
  let r := x v s
  ⟨.ok r.result, r.state, r.journal⟩

/-- Turns a mistake of the caller into a value; a fault still stops the task. -/
def attempt (x : Task σ α) : Task σ (Except PlanError α) := fun v s =>
  match x v s with
  | ⟨.ok a, s', j⟩ => ⟨.ok (.ok a), s', j⟩
  | ⟨.error (.tiling e), s', j⟩ => ⟨.ok (.error e), s', j⟩
  | ⟨.error (.fault f), s', j⟩ => ⟨.error (.fault f), s', j⟩

/-- Writes a record whose text may fault while it is worked out. -/
def noteWith (severity : Severity) (text : Checked String) : Task σ Unit := fun v s =>
  if v.writes severity then
    match text with
    | .ok t => ⟨.ok (), s, [⟨severity, t⟩]⟩
    | .error f => ⟨.error (.fault f), s, []⟩
  else
    ⟨.ok (), s, []⟩

/-- Writes a record. -/
def note (severity : Severity) (text : String) : Task σ Unit :=
  noteWith severity (.ok text)

@[simp] theorem run_pure (a : α) (v : Verbosity) (s : σ) :
    (pure a : Task σ α).run v s = ⟨.ok a, s, []⟩ := rfl

@[simp] theorem run_fail (e : Failure) (v : Verbosity) (s : σ) :
    (fail e : Task σ α).run v s = ⟨.error e, s, []⟩ := rfl

/-- A task that succeeds hands its value and its state on. -/
theorem run_bind_ok {x : Task σ α} {f : α → Task σ β} {v : Verbosity} {s s' : σ} {a : α}
    {j : List Record} (h : x.run v s = ⟨.ok a, s', j⟩) :
    (x >>= f).run v s =
      ⟨((f a).run v s').result, ((f a).run v s').state, j ++ ((f a).run v s').journal⟩ := by
  simp only [run] at h ⊢
  simp only [bind, h]

/-- A task that fails hides everything after it. -/
theorem run_bind_error {x : Task σ α} {f : α → Task σ β} {v : Verbosity} {s s' : σ}
    {e : Failure} {j : List Record} (h : x.run v s = ⟨.error e, s', j⟩) :
    (x >>= f).run v s = ⟨.error e, s', j⟩ := by
  simp only [run] at h ⊢
  simp only [bind, h]

/-- A record never changes the state. -/
theorem state_note (severity : Severity) (text : String) (v : Verbosity) (s : σ) :
    ((note severity text).run v s).state = s := by
  simp only [run, note, noteWith]
  split <;> rfl

end Task

end StencilPlan
