import Mathlib.Data.List.Nodup
import StencilPlan.Network.Universe
import StencilPlan.Proofs.Memory.Heap

/-!
# The network inside one process

Messages on one channel come in the order in which they were sent, whatever goes on elsewhere: a
send adds to the end of the queue of its channel, a receive takes the front, and the other queues
stay as they are. Segments are kept by key; publishing one replaces the segment of its key and
claiming one takes it away.
-/

namespace StencilPlan.Universe

section TakeFirst

variable {κ α : Type} [DecidableEq κ] {k : κ} {a : α} {es rest : List (κ × α)}

/-- What is taken is the first pair with the key. -/
theorem takeFirst?_eq_some_iff : takeFirst? k es = some (a, rest) ↔
    ∃ before behind, es = before ++ (k, a) :: behind ∧ rest = before ++ behind ∧
      ∀ e ∈ before, e.1 ≠ k := by
  induction es generalizing rest with
  | nil => simp [takeFirst?]
  | cons e es ih =>
    rw [takeFirst?]
    -- If the first pair has the key nothing stands before it; else it stands before the one taken.
    by_cases he : e.1 = k
    · rw [if_pos he]
      constructor
      · intro h
        obtain ⟨rfl, rfl⟩ := Prod.mk.inj (Option.some.inj h)
        exact ⟨[], es, by simp [← he], rfl, by simp⟩
      · rintro ⟨before, behind, hes, rfl, hbefore⟩
        cases before with
        | nil =>
          obtain ⟨rfl, rfl⟩ := List.cons.inj hes
          rfl
        | cons b before =>
          obtain ⟨rfl, -⟩ := List.cons.inj hes
          exact absurd he (hbefore e (by simp))
    · rw [if_neg he]
      simp only [Option.map_eq_some_iff, Prod.exists, Prod.mk.injEq]
      constructor
      · rintro ⟨a', rest', h, rfl, rfl⟩
        obtain ⟨before, behind, rfl, rfl, hbefore⟩ := ih.mp h
        refine ⟨e :: before, behind, rfl, rfl, fun x hx => ?_⟩
        rcases List.mem_cons.mp hx with rfl | hx
        · exact he
        · exact hbefore x hx
      · rintro ⟨before, behind, hes, rfl, hbefore⟩
        cases before with
        | nil =>
          obtain ⟨rfl, -⟩ := List.cons.inj hes
          exact absurd rfl he
        | cons b before =>
          obtain ⟨rfl, rfl⟩ := List.cons.inj hes
          exact ⟨a, before ++ behind,
            ih.mpr ⟨before, behind, rfl, rfl, fun x hx => hbefore x (by simp [hx])⟩, rfl, rfl⟩

theorem takeFirst?_eq_none_iff : takeFirst? k es = none ↔ ∀ e ∈ es, e.1 ≠ k := by
  induction es with
  | nil => simp [takeFirst?]
  | cons e es ih =>
    rw [takeFirst?]
    by_cases he : e.1 = k <;> simp [he, ih]

end TakeFirst

/-- Two ranks share a node or they do not. -/
theorem sameNodeAs_comm (u : Universe) {me peer : Nat} (h : me < u.size) (h' : peer < u.size) :
    u.sameNodeAs me peer = u.sameNodeAs peer me := by
  simp only [sameNodeAs, h, h', true_and, eq_comm]

/-! ### Queues -/

variable {u u' : Universe} {c c' : Channel} {data : Payload}

theorem queue_push (u : Universe) (c c' : Channel) (data : Payload) :
    (u.push c data).queue c' = if c = c' then u.queue c' ++ [data] else u.queue c' := by
  simp only [queue, push, List.filter_append, List.map_append]
  by_cases h : c = c' <;> simp [h]

/-- Taking the first message of a channel takes the front of its queue. -/
theorem queue_of_takeFirst? {rest : List (Channel × Payload)}
    (h : takeFirst? c u.inFlight = some (data, rest)) (c' : Channel) :
    u.queue c' = if c = c' then data :: queue { u with inFlight := rest } c'
      else queue { u with inFlight := rest } c' := by
  obtain ⟨before, behind, hu, rfl, hbefore⟩ := takeFirst?_eq_some_iff.mp h
  simp only [queue, hu, List.filter_append, List.map_append, List.filter_cons]
  by_cases hc : c = c'
  · subst hc
    -- What stands before the message belongs to other channels.
    have hnone : before.filter (·.1 = c) = [] := by
      rw [List.filter_eq_nil_iff]
      simpa using hbefore
    simp [hnone]
  · simp [hc]

theorem queue_eq_nil_of_takeFirst? (h : takeFirst? c u.inFlight = none) : u.queue c = [] := by
  simp only [queue, List.map_eq_nil_iff, List.filter_eq_nil_iff, decide_eq_true_eq]
  exact fun e he => takeFirst?_eq_none_iff.mp h e he

/-! ### Segments -/

/-- The segments after one was published. -/
def published (k : SegmentKey) (seg : Segment) (segs : List (SegmentKey × Segment)) :
    List (SegmentKey × Segment) :=
  match takeFirst? k segs with
  | some (_, rest) => rest ++ [(k, seg)]
  | none => segs ++ [(k, seg)]

variable {segs : List (SegmentKey × Segment)} {k k' : SegmentKey} {seg seg' : Segment}

/-- Each key has at most one segment. -/
def Distinct (segs : List (SegmentKey × Segment)) : Prop := (segs.map (·.1)).Nodup

theorem Distinct.eq_of_mem (hd : Distinct segs) (h : (k, seg) ∈ segs) (h' : (k, seg') ∈ segs) :
    seg = seg' := by
  have := List.inj_on_of_nodup_map hd h h' rfl
  exact (Prod.mk.inj this).2

theorem distinct_append_of_notMem (hd : Distinct segs) (hk : ∀ e ∈ segs, e.1 ≠ k) :
    Distinct (segs ++ [(k, seg)]) := by
  rw [Distinct, List.map_append, List.map_singleton, List.nodup_append]
  refine ⟨hd, by simp, fun a ha b hb => ?_⟩
  obtain ⟨e, he, rfl⟩ := List.mem_map.mp ha
  rw [List.mem_singleton.mp hb]
  exact hk e he

/-- Taking the segment of a key leaves those of the other keys. -/
theorem of_takeFirst?_segments (hd : Distinct segs) {rest : List (SegmentKey × Segment)}
    (h : takeFirst? k segs = some (seg, rest)) :
    (k, seg) ∈ segs ∧ Distinct rest ∧ ∀ e, e ∈ rest ↔ e ∈ segs ∧ e.1 ≠ k := by
  obtain ⟨before, behind, rfl, rfl, hbefore⟩ := takeFirst?_eq_some_iff.mp h
  -- The segments around the one that is taken have other keys, as keys are distinct.
  rw [Distinct, List.map_append, List.map_cons, List.nodup_middle, List.nodup_cons,
    ← List.map_append] at hd
  refine ⟨by simp, hd.2, fun e => ?_⟩
  constructor
  · intro he
    refine ⟨?_, fun hk => hd.1 (List.mem_map.mpr ⟨e, he, hk⟩)⟩
    rcases List.mem_append.mp he with he | he
    · exact List.mem_append_left _ he
    · exact List.mem_append_right _ (List.mem_cons_of_mem _ he)
  · rintro ⟨he, hk⟩
    rcases List.mem_append.mp he with he | he
    · exact List.mem_append_left _ he
    · rcases List.mem_cons.mp he with rfl | he
      · exact absurd rfl hk
      · exact List.mem_append_right _ he

theorem distinct_published (hd : Distinct segs) : Distinct (published k seg segs) := by
  unfold published
  cases h : takeFirst? k segs with
  | none => exact distinct_append_of_notMem hd (takeFirst?_eq_none_iff.mp h)
  | some p =>
    obtain ⟨-, hrest, hmem⟩ :=
      of_takeFirst?_segments hd (show takeFirst? k segs = some (p.1, p.2) from h)
    exact distinct_append_of_notMem hrest fun e he => ((hmem e).mp he).2

/-- Publishing settles the segment of one key. -/
theorem mem_published (hd : Distinct segs) (e : SegmentKey × Segment) :
    e ∈ published k seg segs ↔ e = (k, seg) ∨ e ∈ segs ∧ e.1 ≠ k := by
  unfold published
  cases h : takeFirst? k segs with
  | none =>
    have hnone := takeFirst?_eq_none_iff.mp h
    simp only [List.mem_append, List.mem_singleton]
    constructor
    · rintro (he | rfl)
      · exact .inr ⟨he, hnone e he⟩
      · exact .inl rfl
    · rintro (rfl | ⟨he, -⟩)
      · exact .inr rfl
      · exact .inl he
  | some p =>
    obtain ⟨-, -, hmem⟩ :=
      of_takeFirst?_segments hd (show takeFirst? k segs = some (p.1, p.2) from h)
    simp only [List.mem_append, List.mem_singleton, hmem, or_comm]

/-- Publishing changes the segments of the network and who holds a pool, and nothing else. -/
theorem publish_eq (k : SegmentKey) (seg : Segment) (w : World Universe) :
    (publish k seg w).net = { w.net with segments := published k seg w.net.segments } ∧
      Heap.SameWords w.heap (publish k seg w).heap := by
  unfold publish published
  cases takeFirst? k w.net.segments with
  | none => exact ⟨rfl, .refl _⟩
  | some p => exact ⟨rfl, Heap.sameWords_letGo _ _⟩

theorem yields_claim {w w' : World Universe} {v : Verbosity}
    (h : (claim k).Yields v w (some seg) w') :
    ∃ rest, takeFirst? k w.net.segments = some (seg, rest) ∧
      w' = { w with net := { w.net with segments := rest } } := by
  simp only [claim, Task.yields_bind_get] at h
  cases htake : takeFirst? k w.net.segments with
  | none => simp [htake] at h
  | some p =>
    simp only [htake, Task.yields_bind_set, Task.yields_pure, Option.some.injEq] at h
    obtain ⟨rfl, rfl⟩ := h
    exact ⟨p.2, rfl, rfl⟩

/-- Looking for a segment is not what fails. -/
theorem exists_claim (k : SegmentKey) (w : World Universe) (v : Verbosity) :
    ∃ found w', (claim k).Yields v w found w' := by
  simp only [claim, Task.yields_bind_get]
  cases takeFirst? k w.net.segments with
  | none => exact ⟨none, w, Task.yields_pure.mpr ⟨rfl, rfl⟩⟩
  | some p =>
    exact ⟨some p.1, _, Task.yields_bind_set.mpr (Task.yields_pure.mpr ⟨rfl, rfl⟩)⟩

end StencilPlan.Universe
