import Mathlib.Algebra.GroupWithZero.Nat
import Mathlib.Algebra.Order.BigOperators.Group.List
import Mathlib.Algebra.Order.Group.Nat
import Mathlib.Data.List.Perm.Basic
import StencilPlan.Proofs.Threads.Runs

/-!
# Levels under any schedule

A thread that waits may be made to run a body of another call on top of the one it is in. The level
of the thread is right all the same, because the programs of a thread form a stack: the thread has
the level of the innermost one, and each of them puts back the level of the next.
-/

namespace StencilPlan

/-! ### Levels -/

/-- A program in its place: one of the bodies of its call, or the program of the caller. -/
structure Frame.Stands (calls : List NestCall) (f : Frame) : Prop where
  waiting : ∀ c, f.waiting = some c → c < calls.length
  caller : f.call = none → f.path = []
  body : ∀ c, f.call = some c → ∃ call k, calls[c]? = some call ∧ f.path = call.path ++ [k]

theorem Frame.Stands.mono {calls calls' : List NestCall} {f : Frame}
    (h : f.Stands calls)
    (hcalls : ∀ (c : Nat) call, calls[c]? = some call →
      ∃ call', calls'[c]? = some call' ∧ call'.kind = call.kind ∧ call'.path = call.path) :
    f.Stands calls' := by
  refine ⟨fun c hc => ?_, h.caller, fun c hc => ?_⟩
  · obtain ⟨_, hc', -⟩ := hcalls c _ (List.getElem?_eq_getElem (h.waiting c hc))
    exact (List.getElem?_eq_some_iff.mp hc').1
  · obtain ⟨call, k, hcall, hpath⟩ := h.body c hc
    obtain ⟨call', hcall', -, hsame⟩ := hcalls c call hcall
    exact ⟨call', k, hcall', hsame ▸ hpath⟩

/-- What is seen from inside a body fits the place of the body in the program. -/
def NestEvent.Fits (layout : ThreadSplit) : NestEvent → Prop
  | .entered path level => level = path.length ∧ (level = 1 ∨ level = 2)
  | .told path level threads =>
    level = path.length ∧ ∃ k : NestKind, level = k.startLevel ∧ threads = layout.threadsFor k

/-- What a program is told of a refusal fits its place: it is not where this kind of work may be
started, or it is in a region and there are no teams for blocks. -/
def RefusalFits (layout : ThreadSplit) (path : List Nat) (e : PlanError) : Prop :=
  (∃ k : NestKind, path.length ≠ k.startLevel ∧
    e = .threadNesting k.setter k.startLevel path.length) ∨
  layout.regionThreads = 0 ∧ path.length = 1 ∧ e = noTeam

/-- The bodies that are started, with their numbers. -/
def NestLaunch.bodies (l : NestLaunch) : List (Nat × NestProgram) :=
  (List.range l.count).map fun k => (k, l.body k)

namespace NestMachine

variable {m m' : NestMachine} {taken : Option (Nat × Nat × NestProgram)} {i c level : Nat}
  {calls calls' : List NestCall} {t : NestThread} {f g : Frame} {outer frames : List Frame}

/-- The level is that of the innermost program, and each program puts back that of the next one. -/
def Stacked (calls : List NestCall) : Nat → List Frame → Prop
  | level, [] => level = 0
  | level, f :: outer => level = f.path.length ∧ f.Stands calls ∧ Stacked calls f.before outer

theorem Stacked.mono (h : Stacked calls level frames)
    (hcalls : ∀ (c : Nat) call, calls[c]? = some call →
      ∃ call', calls'[c]? = some call' ∧ call'.kind = call.kind ∧ call'.path = call.path) :
    Stacked calls' level frames := by
  induction frames generalizing level with
  | nil => exact h
  | cons f outer ih =>
    obtain ⟨hlevel, hstands, houter⟩ := h
    exact ⟨hlevel, hstands.mono hcalls, ih houter⟩

theorem Stacked.stands (h : Stacked calls level frames) : ∀ f ∈ frames, f.Stands calls := by
  induction frames generalizing level with
  | nil => exact fun _ hf => absurd hf List.not_mem_nil
  | cons f outer ih =>
    obtain ⟨-, hstands, houter⟩ := h
    exact List.forall_mem_cons.mpr ⟨hstands, ih houter⟩

/-- Another program in the same place does not disturb the stack. -/
theorem Stacked.replace (h : Stacked calls level (f :: outer)) (hg : Alike f g)
    (hw : ∀ c, g.waiting = some c → c < calls.length) : Stacked calls level (g :: outer) := by
  obtain ⟨hlevel, hstands, houter⟩ := h
  refine ⟨hg.path ▸ hlevel, ⟨hw, fun hc => ?_, fun c hc => ?_⟩, hg.before ▸ houter⟩
  · exact hg.path.trans (hstands.caller (hg.call ▸ hc))
  · obtain ⟨call, k, hcall, hpath⟩ := hstands.body c (hg.call ▸ hc)
    exact ⟨call, k, hcall, hg.path.trans hpath⟩

theorem Stacked.replace_idle (h : Stacked calls level (f :: outer)) (hg : Alike f g)
    (hw : g.waiting = none) : Stacked calls level (g :: outer) :=
  h.replace hg fun c hc => by
    rw [hw] at hc
    cases hc

/-- All threads have the level they should have, and all that was seen was right. -/
structure Leveled (m : NestMachine) : Prop where
  threads : ∀ t ∈ m.threads, Stacked m.calls t.level t.frames
  calls : ∀ (c : Nat) call, m.calls[c]? = some call → call.path.length = call.kind.startLevel
  events : ∀ e ∈ m.events, e.Fits m.layout
  refusals : ∀ r ∈ m.refusals, RefusalFits m.layout r.1 r.2

theorem leveled_start (given : Nat → Nat) (layout : ThreadSplit) (p : NestProgram) :
    (start given layout p).Leveled := by
  refine ⟨fun t ht => ?_, fun c call hc => by simp [start] at hc,
    fun e he => by simp [start] at he, fun r hr => by simp [start] at hr⟩
  obtain ⟨name, -, rfl⟩ := List.mem_map.mp ht
  dsimp only
  split
  · exact ⟨rfl, ⟨nofun, fun _ => rfl, nofun⟩, rfl⟩
  · rfl

theorem Leveled.stacked (h : m.Leveled) (hi : m.threads[i]? = some t) :
    Stacked m.calls t.level t.frames := h.threads t (List.mem_of_getElem? hi)

/-- Only the thread that moves has to be looked at. -/
theorem Leveled.threads_set (h : m.Leveled) (hm : Move m taken m')
    (hset : m'.threads = m.threads.set i t) (ht : Stacked m'.calls t.level t.frames) :
    ∀ t ∈ m'.threads, Stacked m'.calls t.level t.frames := by
  intro u hu
  rw [hset] at hu
  rcases List.mem_or_eq_of_mem_set hu with hu | rfl
  · exact (h.threads u hu).mono fun _ _ => hm.exists_call
  · exact ht

/-- Calls that are there already are still the same. -/
theorem Leveled.calls_of_length (h : m.Leveled) (hm : Move m taken m')
    (hlen : m'.calls.length = m.calls.length) (c : Nat) (call : NestCall)
    (hc : m'.calls[c]? = some call) : call.path.length = call.kind.startLevel := by
  have hlt := hlen ▸ (List.getElem?_eq_some_iff.mp hc).1
  obtain ⟨call', hc', hkind, hpath⟩ := hm.exists_call (List.getElem?_eq_getElem hlt)
  obtain rfl := Option.some.inj (hc'.symm.trans hc)
  rw [hkind, hpath]
  exact h.calls c _ (List.getElem?_eq_getElem hlt)

theorem teamFor?_eq_none {layout : ThreadSplit} {kind : NestKind} {name : ThreadName} :
    layout.teamFor? kind name = none ↔ kind = .blocks ∧ layout.regionThreads = 0 := by
  cases kind <;> simp [ThreadSplit.teamFor?]

/-- A thread is told of a refusal only where there is one. -/
theorem Refuses.fits {layout : ThreadSplit} {e : PlanError} (h : Refuses layout t f.rest e)
    (hlevel : t.level = f.path.length) : RefusalFits layout f.path e := by
  cases h with
  | @level kind hkind hne =>
    rw [hlevel] at hne ⊢
    exact .inl ⟨kind, hne, rfl⟩
  | team hl hstart hteam =>
    obtain ⟨hkind, hnone⟩ := teamFor?_eq_none.mp hteam
    rw [hkind] at hstart
    exact .inr ⟨hnone, hlevel.symm.trans hstart, rfl⟩

theorem Leveled.move (h : m.Leveled) (hm : Move m taken m') : m'.Leveled := by
  -- Calls are only ever added to or changed in place, so frames that wait for one keep it.
  have hmono : ∀ {level frames}, Stacked m.calls level frames → Stacked m'.calls level frames :=
    fun hs => hs.mono fun _ _ => hm.exists_call
  cases hm with
  | @leave i t f outer hi hf result =>
    have hs := h.stacked hi
    rw [hf] at hs
    exact ⟨h.threads_set (.leave hi hf result) (threads_leave ..) (hmono hs.2.2),
      h.calls_of_length (.leave hi hf result) (length_calls_leave ..), by simpa using h.events,
      by simpa using h.refusals⟩
  | @advance i t f g outer hi hf hg hw =>
    have hs := h.stacked hi
    rw [hf] at hs
    exact ⟨h.threads_set (.advance hi hf hg hw) rfl (hs.replace_idle hg hw), h.calls, h.events,
      h.refusals⟩
  | @tell i t f outer kind hi hf hw hlevel next =>
    have hs := h.stacked hi
    rw [hf] at hs
    refine ⟨h.threads_set (.tell hi hf hw hlevel next) rfl
      (hs.replace_idle ⟨rfl, rfl, rfl⟩ hw), h.calls, ?_, h.refusals⟩
    exact List.forall_mem_append.mpr ⟨h.events, List.forall_mem_singleton.mpr
      ⟨hs.1, kind, hlevel, rfl⟩⟩
  | @report i t f outer e hi hf hw he next =>
    have hs := h.stacked hi
    rw [hf] at hs
    refine ⟨h.threads_set (.report hi hf hw he next) rfl
      (hs.replace_idle ⟨rfl, rfl, rfl⟩ hw), h.calls, h.events, ?_⟩
    exact List.forall_mem_append.mpr ⟨h.refusals, List.forall_mem_singleton.mpr (he.fits hs.1)⟩
  | @begin i t f outer l hi hf hlevel team =>
    have hs := h.stacked hi
    rw [hf] at hs
    refine ⟨h.threads_set (.begin hi hf hlevel team) rfl
      ((hmono hs).replace ⟨rfl, rfl, rfl⟩ fun c hc => ?_), fun c call hc => ?_, h.events,
      h.refusals⟩
    · obtain rfl := Option.some.inj hc
      simp [NestMachine.begin]
    · simp only [NestMachine.begin, List.getElem?_append] at hc
      split at hc
      · exact h.calls c call hc
      · obtain rfl := List.mem_singleton.mp (List.mem_of_getElem? hc)
        exact hs.1.symm.trans hlevel
  | @take i c k t call body hi hc hk hfor =>
    have hpath : call.kind.bodyLevel = (call.path ++ [body.1]).length := by
      rw [List.length_append, h.calls c call hc]
      rfl
    have hnew := (Move.take hi hc hk hfor).exists_call hc
    refine ⟨h.threads_set (.take hi hc hk hfor) rfl ⟨hpath, ⟨fun _ hnone => ?_, fun hnone => ?_,
      fun c' hc' => ?_⟩, hmono (h.stacked hi)⟩,
      h.calls_of_length (.take hi hc hk hfor) (List.length_set ..), ?_, h.refusals⟩
    · cases hnone
    · cases hnone
    · obtain rfl := Option.some.inj hc'
      -- The new frame works for the call whose body it has taken.
      obtain ⟨call', hcall', -, hsame⟩ := hnew
      exact ⟨call', body.1, hcall', by rw [hsame]⟩
    · refine List.forall_mem_append.mpr ⟨h.events, List.forall_mem_singleton.mpr ⟨hpath, ?_⟩⟩
      cases call.kind
      · exact .inl rfl
      · exact .inr rfl

/-! ### Bodies that are running -/

/-- How many bodies of a call the threads are in. -/
def inside (m : NestMachine) (c : Nat) : Nat :=
  (m.threads.map fun t => t.frames.countP (·.call = some c)).sum

/-- A change of one item changes the sum by as much. -/
theorem sum_map_set {α : Type} (g : α → Nat) {as : List α} {i : Nat} {a : α}
    (h : as[i]? = some a) (b : α) : ((as.set i b).map g).sum + g a = (as.map g).sum + g b := by
  induction as generalizing i with
  | nil => cases h
  | cons a' as ih =>
    cases i with
    | zero =>
      obtain rfl := Option.some.inj h
      simp only [List.set_cons_zero, List.map_cons, List.sum_cons]
      omega
    | succ i =>
      have hsum := ih (i := i) h
      simp only [List.set_cons_succ, List.map_cons, List.sum_cons]
      omega

theorem inside_set (hi : m.threads[i]? = some t) {u : NestThread}
    (hset : m'.threads = m.threads.set i u) (c : Nat) :
    m'.inside c + t.frames.countP (·.call = some c) =
      m.inside c + u.frames.countP (·.call = some c) := by
  rw [inside, hset]
  exact sum_map_set _ hi u

/-- Nobody is in a body of a call that does not exist. -/
theorem Leveled.inside_eq_zero (h : m.Leveled) (hc : m.calls.length ≤ c) : m.inside c = 0 := by
  have hnone : ∀ t ∈ m.threads, t.frames.countP (·.call = some c) = 0 := by
    intro t ht
    refine List.countP_eq_zero.mpr fun f hf hcall => ?_
    obtain ⟨call, k, hcall, -⟩ := ((h.threads t ht).stands f hf).body c (of_decide_eq_true hcall)
    have := (List.getElem?_eq_some_iff.mp hcall).1
    omega
  exact List.sum_eq_zero (List.forall_mem_map.mpr hnone)

/-- The bodies that are running are counted. -/
def Counted (m : NestMachine) : Prop :=
  ∀ (c : Nat) call, m.calls[c]? = some call → call.running = m.inside c

/-- It does not matter what a program does next. -/
theorem inside_replace (hi : m.threads[i]? = some t) (hf : t.frames = f :: outer) (hg : Alike f g)
    (hset : m'.threads = m.threads.set i { t with frames := g :: outer }) (c : Nat) :
    m'.inside c = m.inside c := by
  have hinside := inside_set hi hset c
  simp only [hf, List.countP_cons, hg.call] at hinside
  omega

theorem Counted.move (h : m.Counted) (hl : m.Leveled) (hm : Move m taken m') : m'.Counted := by
  intro c call' hc'
  cases hm with
  | @leave i t f outer hi hf result =>
    -- The body that ends is one running body less in its call, and no other call changes.
    have hlt := length_calls_leave m i t f outer result ▸ (List.getElem?_eq_some_iff.mp hc').1
    have hc := List.getElem?_eq_getElem hlt
    obtain ⟨call, hleave, -, -, -, hrunning⟩ :=
      exists_call_leave (i := i) (f := f) t outer result hc
    obtain rfl := Option.some.inj (hleave.symm.trans hc')
    have hinside := inside_set hi (threads_leave m i t f outer result) c
    rw [hf, List.countP_cons] at hinside
    rw [hrunning, h c _ hc]
    by_cases hcall : f.call = some c <;> simp [hcall] at hinside ⊢ <;> omega
  | advance hi hf hg => exact (h c call' hc').trans (inside_replace hi hf hg rfl c).symm
  | @tell i t f outer _ hi hf _ _ next | @report i t f outer _ hi hf _ _ next =>
    have hg : Alike f { f with rest := next } := ⟨rfl, rfl, rfl⟩
    exact (h c call' hc').trans (inside_replace hi hf hg rfl c).symm
  | @begin i t f outer l hi hf hlevel team =>
    have hg : Alike f { f with rest := l.next, waiting := some m.calls.length } := ⟨rfl, rfl, rfl⟩
    have hinside : (m.begin i t f outer l.kind team l.count l.body l.next).inside c = m.inside c :=
      inside_replace hi hf hg rfl c
    -- The new call has no running body yet, and no thread is inside of it.
    simp only [NestMachine.begin, calls_setThread, List.getElem?_append] at hc'
    rw [hinside]
    split at hc'
    · exact h c call' hc'
    · next hnew =>
      obtain rfl := List.mem_singleton.mp (List.mem_of_getElem? hc')
      exact (hl.inside_eq_zero (Nat.le_of_not_lt hnew)).symm
  | @take i c' k t call body hi hc hk hfor =>
    -- The mirror image of leaving: one more body is running in the call it was taken from.
    have hlt : c < m.calls.length := by
      have := (List.getElem?_eq_some_iff.mp hc').1
      rwa [pick, List.length_set] at this
    have hcall := List.getElem?_eq_getElem hlt
    obtain ⟨call'', hpick, -, -, -, hrunning⟩ := exists_call_pick i k t body hc hcall
    obtain rfl := Option.some.inj (hpick.symm.trans hc')
    have hinside := inside_set hi (show (m.pick i c' k t call body).threads = _ from rfl) c
    rw [List.countP_cons] at hinside
    rw [hrunning, h c _ hcall]
    by_cases hsame : c' = c <;> simp [hsame] at hinside ⊢ <;> omega

/-! ### Bodies of one call -/

/-- The bodies of a call that were begun, in the order of their beginning. -/
def begun (c : Nat) (log : List (Nat × Nat × NestProgram)) : List (Nat × NestProgram) :=
  log.filterMap fun e => if e.1 = c then some e.2 else none

/-- Each body of a call is either begun or pending. -/
def Shared (l : NestLaunch) (c : Nat) (log : List (Nat × Nat × NestProgram)) (m : NestMachine) :
    Prop :=
  ∃ call, m.calls[c]? = some call ∧ (begun c log ++ call.pending).Perm l.bodies

theorem Shared.move {l : NestLaunch} {log : List (Nat × Nat × NestProgram)}
    (h : Shared l c log m) (hm : Move m taken m') : Shared l c (log ++ taken.toList) m' := by
  obtain ⟨call, hc, hperm⟩ := h
  cases hm with
  | leave hi hf result =>
    obtain ⟨call', hc', -, -, hpending, -⟩ := exists_call_leave _ _ result hc
    exact ⟨call', hc', by rwa [hpending, Option.toList_none, List.append_nil]⟩
  | advance | tell | report =>
    exact ⟨call, hc, by rwa [Option.toList_none, List.append_nil]⟩
  | begin =>
    refine ⟨call, ?_, by rwa [Option.toList_none, List.append_nil]⟩
    exact (List.getElem?_append_left (List.getElem?_eq_some_iff.mp hc).1).trans hc
  | @take i c' k t call' body hi hc' hk hfor =>
    obtain ⟨call'', hcall'', -, -, hpending, -⟩ := exists_call_pick i k t body hc' hc
    refine ⟨call'', hcall'', ?_⟩
    rw [hpending, begun, List.filterMap_append, ← begun]
    by_cases hsame : c' = c
    · subst hsame
      obtain rfl := Option.some.inj (hc'.symm.trans hc)
      obtain ⟨hlt, rfl⟩ := List.getElem?_eq_some_iff.mp hk
      rw [if_pos rfl]
      -- The body goes from one list to the other.
      have hmoved := List.getElem_cons_eraseIdx_perm hlt
      simpa [List.append_assoc] using (hmoved.append_left (begun c' log)).trans hperm
    · simpa [hsame] using hperm

/-- Whoever waits for a call is in the one program that made it. -/
def Awaited (i c : Nat) (f : Frame) (outer : List Frame) (m : NestMachine) : Prop :=
  ∀ (j : Nat) t g post, m.threads[j]? = some t → g :: post <:+ t.frames → g.waiting = some c →
    j = i ∧ g = f ∧ post = outer

/-- Nothing changes if no thread gets a new program that waits for the call. -/
theorem Awaited.set (h : Awaited i c f outer m) {j : Nat} {u : NestThread}
    (hj : m.threads[j]? = some t) (hset : m'.threads = m.threads.set j u)
    (hu : ∀ g post, g :: post <:+ u.frames → g.waiting = some c → g :: post <:+ t.frames) :
    Awaited i c f outer m' := by
  intro j' t' g post hj' hsuffix hw
  rw [hset, List.getElem?_set] at hj'
  split at hj'
  · next hsame =>
    subst hsame
    split at hj'
    · obtain rfl := Option.some.inj hj'
      exact h j t g post hj (hu g post hsuffix hw) hw
    · cases hj'
  · exact h j' t' g post hj' hsuffix hw

/-- Below a program that does not wait for the call there is only what was there before. -/
theorem suffix_of_suffix_cons {top g : Frame} {rest post frames : List Frame}
    (hrest : rest <:+ frames) (htop : top.waiting ≠ some c) (h : g :: post <:+ top :: rest)
    (hw : g.waiting = some c) : g :: post <:+ frames := by
  rcases List.suffix_cons_iff.mp h with heq | h
  · obtain ⟨rfl, -⟩ := List.cons.inj heq
    exact absurd hw htop
  · exact h.trans hrest

theorem Awaited.move (h : Awaited i c f outer m) (hc : c < m.calls.length)
    (hm : Move m taken m') : Awaited i c f outer m' := by
  cases hm with
  | @leave j t f' outer' hj hf result =>
    refine h.set hj (threads_leave m j t f' outer' result) fun g post hsuffix _ => ?_
    exact hf ▸ hsuffix.trans (List.suffix_cons f' outer')
  | @advance j t f' g' outer' hj hf hg hw =>
    refine h.set hj rfl fun g post => suffix_of_suffix_cons (hf ▸ List.suffix_cons f' outer') ?_
    exact fun hsome => nomatch hw.symm.trans hsome
  | @tell j t f' outer' _ hj hf hw _ next | @report j t f' outer' _ hj hf hw _ next =>
    refine h.set hj rfl fun g post => suffix_of_suffix_cons (hf ▸ List.suffix_cons f' outer') ?_
    exact fun hsome => nomatch hw.symm.trans hsome
  | @begin j t f' outer' l hj hf hlevel team =>
    refine h.set hj rfl fun g post => suffix_of_suffix_cons (hf ▸ List.suffix_cons f' outer') ?_
    -- A call that is made now is another one than the call that is waited for.
    exact fun hsome => Nat.ne_of_gt hc (Option.some.inj hsome)
  | @take j c' k t call body hj hc' hk hfor =>
    -- What is put on the stack is a fresh body, which waits for nothing.
    exact h.set hj rfl fun g post => suffix_of_suffix_cons List.suffix_rfl nofun

/-! ### Runs -/

theorem Move.layout_eq (hm : Move m taken m') : m'.layout = m.layout := by
  cases hm with
  | leave hi hf result => exact layout_leave ..
  | advance | tell | report | begin | take => rfl

/-- What is right at any time. -/
structure Sound (layout : ThreadSplit) (m : NestMachine) : Prop where
  layout : m.layout = layout
  leveled : m.Leveled
  counted : m.Counted

theorem Sound.move {layout : ThreadSplit} (h : m.Sound layout) (hm : Move m taken m') :
    m'.Sound layout :=
  ⟨hm.layout_eq.trans h.layout, h.leveled.move hm, h.counted.move h.leveled hm⟩

theorem sound_of_runs {given : Nat → Nat} {layout : ThreadSplit} {p : NestProgram}
    {log : List (Nat × Nat × NestProgram)} (h : Runs (start given layout p) log m) :
    m.Sound layout :=
  h.of_move (P := fun _ m => m.Sound layout)
    ⟨rfl, leveled_start given layout p, fun c call hc => by simp [start] at hc⟩
    fun h hm => h.move hm

/-- The level that a thread should have: none outside of all bodies, the first one in the body of a
region and the second one in that of a block. -/
def RightLevel (m : NestMachine) (t : NestThread) : Prop :=
  match t.frames with
  | [] => t.level = 0
  | f :: _ => t.level = f.path.length ∧ (f.call = none → t.level = 0) ∧
      ∀ c call, f.call = some c → m.calls[c]? = some call →
        (call.kind = .regions → t.level = 1) ∧ (call.kind = .blocks → t.level = 2)

theorem Leveled.rightLevel (h : m.Leveled) (ht : t ∈ m.threads) : m.RightLevel t := by
  have hs := h.threads t ht
  unfold RightLevel
  split
  · next hf => rwa [hf] at hs
  · next f outer hf =>
    rw [hf] at hs
    obtain ⟨hlevel, hstands, -⟩ := hs
    refine ⟨hlevel, fun hc => by rw [hlevel, hstands.caller hc]; rfl, fun c call hc hcall => ?_⟩
    obtain ⟨call', k, hcall', hpath⟩ := hstands.body c hc
    obtain rfl := Option.some.inj (hcall'.symm.trans hcall)
    rw [hlevel, hpath, List.length_append, h.calls c _ hcall]
    constructor <;> intro hkind <;> rw [hkind] <;> rfl

/-- What is right about a call from its beginning on. It was made by a thread `t` whose innermost
program is `f`. -/
structure Serves (l : NestLaunch) (c i : Nat) (t : NestThread) (f : Frame) (outer : List Frame)
    (log : List (Nat × Nat × NestProgram)) (m : NestMachine) : Prop where
  /-- No body is begun twice. -/
  once : ∃ rest, (begun c log ++ rest).Perm l.bodies
  /-- Whoever comes back to the call is the thread that made it, at the level and in the program in
  which it made it. -/
  back : ∀ (j : Nat) u g post, m.threads[j]? = some u → u.frames = g :: post →
    g.waiting = some c → j = i ∧ u.level = t.level ∧
      g = { f with rest := l.next, waiting := some c } ∧ post = outer
  /-- From there the call returns to that program, if none of its bodies failed. Otherwise the
  program fails with it. -/
  returns : ∀ u g m', m.threads[i]? = some u → u.frames = g :: outer → g.waiting = some c →
    m.go i = some m' → ∃ call, m.calls[c]? = some call ∧ call.ended = true ∧
      match call.fault with
      | none => m' = m.setThread i
          { u with level := t.level, frames := { f with rest := l.next } :: outer }
      | some e => m' = m.leave i u g outer (.error e)
  /-- If it returns, all of its bodies were run to their end. -/
  whole : ∀ call, m.calls[c]? = some call → call.ended = true → call.fault = none →
    (begun c log).Perm l.bodies ∧ ∀ u ∈ m.threads, ∀ g ∈ u.frames, g.call ≠ some c

/-- Nobody waits for a call before it is made, and then only the program that made it. -/
theorem Leveled.awaited_begin (h : m.Leveled) (hi : m.threads[i]? = some t)
    (hf : t.frames = f :: outer) (l : NestLaunch) (team : Nat) :
    Awaited i m.calls.length { f with rest := l.next, waiting := some m.calls.length } outer
      (m.begin i t f outer l.kind team l.count l.body l.next) := by
  -- The number of the new call is not taken yet, and frames wait for calls that were made.
  have hnobody : ∀ (j : Nat) u g post, m.threads[j]? = some u → g :: post <:+ u.frames →
      g.waiting ≠ some m.calls.length := fun j u g post hj hsuffix hw =>
    Nat.lt_irrefl _ (((h.stacked hj).stands g (hsuffix.subset List.mem_cons_self)).waiting _ hw)
  intro j u g post hj hsuffix hw
  change (m.threads.set i _)[j]? = some u at hj
  rw [List.getElem?_set] at hj
  split at hj
  · next hsame =>
    split at hj
    · obtain rfl := Option.some.inj hj
      rcases List.suffix_cons_iff.mp hsuffix with heq | hsuffix
      · obtain ⟨rfl, rfl⟩ := List.cons.inj heq
        exact ⟨hsame.symm, rfl, rfl⟩
      · exact absurd hw (hnobody i t g post hi (hf ▸ hsuffix.trans (List.suffix_cons f outer)))
    · cases hj
  · exact absurd hw (hnobody j u g post hj hsuffix)

theorem serves_of_runs {layout : ThreadSplit} {l : NestLaunch}
    {log : List (Nat × Nat × NestProgram)} {team : Nat} (hs : m.Sound layout)
    (hi : m.threads[i]? = some t) (hf : t.frames = f :: outer) (hw : f.waiting = none)
    (hlevel : t.level = l.kind.startLevel)
    (h : Runs (m.begin i t f outer l.kind team l.count l.body l.next) log m') :
    Serves l m.calls.length i t f outer log m' := by
  have hbegin := hs.move (.begin hi hf hlevel team)
  have hshared : Shared l m.calls.length []
      (m.begin i t f outer l.kind team l.count l.body l.next) := by
    refine ⟨_, List.getElem?_concat_length, ?_⟩
    exact List.Perm.refl _
  -- Three invariants go through the run together: the awaited frame needs the call to be there.
  obtain ⟨hsound, hshared, hawaited⟩ := h.of_move
    (P := fun log m' => m'.Sound layout ∧ Shared l m.calls.length log m' ∧
      Awaited i m.calls.length { f with rest := l.next, waiting := some m.calls.length } outer m')
    ⟨hbegin, hshared, hs.leveled.awaited_begin hi hf l team⟩
    (fun ⟨hsound, hshared, hawaited⟩ hm => ⟨hsound.move hm, hshared.move hm,
      have ⟨_, hc, _⟩ := hshared
      hawaited.move (List.getElem?_eq_some_iff.mp hc).1 hm⟩)
  obtain ⟨call, hc, hperm⟩ := hshared
  have hback : ∀ (j : Nat) u g post, m'.threads[j]? = some u → u.frames = g :: post →
      g.waiting = some m.calls.length → j = i ∧ u.level = t.level ∧
        g = { f with rest := l.next, waiting := some m.calls.length } ∧ post = outer := by
    intro j u g post hj hu hg
    obtain ⟨rfl, rfl, rfl⟩ := hawaited j u g post hj (hu ▸ List.suffix_rfl) hg
    have hstacked := hsound.leveled.stacked hj
    have hstacked' := hs.leveled.stacked hi
    rw [hu] at hstacked
    rw [hf] at hstacked'
    exact ⟨rfl, hstacked.1.trans hstacked'.1.symm, rfl, rfl⟩
  refine ⟨⟨call.pending, hperm⟩, hback, fun u g m'' hu hg hgw hgo => ?_,
    fun call' hc' hended hfault => ?_⟩
  · obtain ⟨-, hsame, rfl, -⟩ := hback i u g outer hu hg hgw
    obtain ⟨call', hc', hended, hnext⟩ := of_go_waiting hu hg hgw hgo
    refine ⟨call', hc', hended, ?_⟩
    -- The frame goes on as it was before the call, with what comes after it.
    have hgoes : ({ f with rest := l.next } : Frame) =
        { f with rest := l.next, waiting := none } := by rw [← hw]
    rw [← hsame, hgoes]
    exact hnext
  · obtain rfl := Option.some.inj (hc.symm.trans hc')
    simp only [NestCall.ended, hfault, Option.isSome_none, Bool.false_eq_true, or_false,
      decide_eq_true_eq] at hended
    obtain ⟨hrunning, hpending⟩ := hended
    rw [List.isEmpty_iff.mp hpending, List.append_nil] at hperm
    refine ⟨hperm, fun u hu g hg hcall => ?_⟩
    -- The body would be counted as running.
    have hinside := hsound.counted _ call hc
    rw [hrunning] at hinside
    have hzero := List.sum_eq_zero_iff.mp hinside.symm _ (List.mem_map_of_mem hu)
    exact List.countP_eq_zero.mp hzero g hg (decide_eq_true hcall)

/-- What comes of a call that is refused where the program hears of it. Whatever the program does
then, it does at the level at which it made the call. Nothing was started. -/
structure Hears (m : NestMachine) (i : Nat) (t : NestThread) (f : Frame) (outer : List Frame)
    (e : PlanError) (next : NestProgram) : Prop where
  runs : Runs m [] (m.report i t f outer e next)
  told : (m.report i t f outer e next).refusals = m.refusals ++ [(f.path, e)]
  thread : (m.report i t f outer e next).threads[i]? =
    some { t with frames := { f with rest := next } :: outer }
  calls : (m.report i t f outer e next).calls = m.calls
  events : (m.report i t f outer e next).events = m.events

theorem hears_of_refuses {e : PlanError} (hi : m.threads[i]? = some t) (hf : t.frames = f :: outer)
    (hw : f.waiting = none) (he : Refuses m.layout t f.rest e) (next : NestProgram) :
    Hears m i t f outer e next where
  runs := .refused .refl hi hf hw he next
  told := rfl
  thread := List.getElem?_set_self (List.getElem?_eq_some_iff.mp hi).1
  calls := rfl
  events := rfl

end NestMachine

namespace Stolen

open NestMachine

/-- The blocks of a region. -/
def region : Nat → NestProgram := fun _ => .askBlocks (.blocks 1 (fun _ => .done) .done)

/-- Two regions of one block. -/
def program : NestProgram := .regions 2 region .done

/-- One thread of each kind. While the region thread waits for the block of the first region, it
takes up the second one. -/
def choices : List NestChoice :=
  [.go 0, .take 1 0 0, .go 1, .go 1, .take 1 0 0, .go 1, .go 1, .take 2 2 0, .go 2, .go 1, .go 1,
    .take 2 1 0, .go 2, .go 1, .go 1]

def first : NestMachine := start (max 1) ⟨1, 1, 1⟩ program

/-- The machine after so many choices. -/
def machine (k : Nat) : NestMachine := (first.follow (choices.take k)).getD first

/-- The machine when the caller has started the regions. -/
def started : NestMachine := (first.go 0).getD first

theorem runs_machine : ∃ log, Runs first log (machine 7) :=
  exists_runs_of_follow (show first.follow (choices.take 7) = some (machine 7) from rfl)

theorem runs_started : ∃ log, Runs started log (machine 15) :=
  exists_runs_of_follow (show started.follow choices.tail = some (machine 15) from rfl)

end Stolen

/-- A layout without region threads runs regions all the same, but they cannot start any blocks. -/
example : ((ThreadTeams.mk ⟨0, 1, 1⟩).execute Stolen.program).refusals =
    [([0], noTeam), ([1], noTeam)] := by rfl

end StencilPlan
