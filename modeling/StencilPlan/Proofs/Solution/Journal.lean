import StencilPlan.Proofs.Halo.Quiet
import StencilPlan.Proofs.Solution.Calls
import StencilPlan.Proofs.Solution.Sending

/-!
# Preparing a solution, whoever listens

What a rank does before the last meeting comes to the same under every verbosity. The record after
that meeting multiplies the regions of the rank by the blocks of a region, and the product may leave
64 bits where nothing else does. So the verbosity can be told from the outcome exactly where the
product is too large (`Station.Uncounted`) and only one of two listeners hears the record.
-/

namespace StencilPlan

open StencilPlan.Task

/-! ### Before the last meeting -/

theorem ThreadSplit.quiet_compute (budget divisor blockThreads : Nat) :
    Quiet (ThreadSplit.compute budget divisor blockThreads) :=
  follows_bind (follows_checked _) fun _ => follows_bind (follows_note _ _) fun _ => follows_pure _

namespace Station

section Phases

variable {ν : Type} {α : Type}

theorem quiet_onSite {x : Task (Site ν) α} (h : Quiet x) :
    Quiet (onSite x : Task (Station ν) α) :=
  follows_zoom h (fun _ => rfl) fun _ _ => rfl

theorem quiet_unprepare : Quiet (unprepare : Task (Station ν) Unit) :=
  follows_bind_get fun _ => follows_ite
    (follows_bind (follows_modify fun _ => rfl) fun _ => follows_bind (follows_note _ _) fun _ =>
      follows_bind (quiet_onSite Site.quiet_release) fun _ => follows_modify fun _ => rfl)
    (follows_pure _)

theorem quiet_orRelease {x : Task (Site ν) α} (h : Quiet x) :
    Quiet (orRelease x : Task (Station ν) α) := by
  refine follows_bind (follows_attempt (quiet_onSite h)) fun r => ?_
  cases r with
  | ok a => exact follows_pure _
  | error e => exact follows_bind (quiet_onSite Site.quiet_release) fun _ => follows_reject _

variable [Transport ν]

theorem quiet_planAhead : Quiet (planAhead : Task (Station ν) (Placement × Plan)) := by
  refine follows_bind_get fun s => follows_bind (follows_apart (fun v w => ?_)
    fun v w placement placed h => ?_) fun a => ?_
  · exact (follows_placeRank _ _ _ v w _).1
  · -- The tiles of the settings are not touched, so the map that replaces them changes nothing.
    have htiles : placed.withTilesOf s.solution.settings = placed := by
      rw [(Placed.of_yields h).settings]
      rfl
    exact htiles ▸ (follows_placeRank _ _ s.solution.settings).yields w h
  · obtain ⟨placement, placed⟩ := a
    exact follows_bind (follows_stateless placed.follows_resolve) fun _ => follows_pure _

theorem quiet_draft : Quiet (draft : Task (Station ν) Prepared) :=
  follows_bind quiet_unprepare fun _ => follows_bind_get fun _ =>
    follows_bind (follows_note _ _) fun _ => follows_bind quiet_planAhead fun _ =>
    follows_bind (follows_stateless (ThreadSplit.quiet_compute _ _ _)) fun _ => follows_pure _

theorem quiet_offerHalos (p : Prepared) : Quiet (offerHalos p : Task (Station ν) PoolWords) :=
  follows_bind_get fun _ => quiet_orRelease (Site.quiet_offer _ _ _ _)

theorem quiet_settleHalos [QuietTransport ν] (p : Prepared) (words : PoolWords) :
    Quiet (settleHalos p words : Task (Station ν) Unit) :=
  quiet_orRelease (Site.quiet_settle _ _ _)

end Phases

end Station

/-! ### The last record -/

namespace Task

variable {σ α β : Type} {v w : Verbosity} {s t s' : σ}

theorem Yields.agrees {x : Task σ α} {a : α} (h : x.Yields v s a s') (h' : x.Yields w s a s') :
    x.Agrees v w s := ⟨h'.1.trans h.1.symm, h'.2.trans h.2.symm⟩

theorem Faults.agrees {x : Task σ α} {f : Fault} (h : x.Faults v s f s')
    (h' : x.Faults w s f s') : x.Agrees v w s := ⟨h'.1.trans h.1.symm, h'.2.trans h.2.symm⟩

theorem Faults.not_agrees {x : Task σ α} {a : α} {f : Fault} (h : x.Faults v s f t)
    (h' : x.Yields w s a s') : ¬ x.Agrees v w s := fun hagrees =>
  nomatch h'.1.symm.trans (hagrees.1.trans h.1)

theorem Agrees.symm {x : Task σ α} (h : x.Agrees v w s) : x.Agrees w v s :=
  ⟨h.1.symm, h.2.symm⟩

end Task

/-- The blocks of the rank can be counted in 64 bits. -/
def Prepared.Counted (p : Prepared) : Prop :=
  Idx.InRange (p.plan.counts.regions.total * p.plan.counts.blocks.total)

instance (p : Prepared) : Decidable p.Counted := inferInstanceAs (Decidable (Idx.InRange _))

namespace Station

variable {ν : Type} [Transport ν] {st st' : Station ν} {p : Prepared} {v w : Verbosity}

theorem yields_meet : (meet : Task (Station ν) Unit).Yields v st () st.met := by
  simp only [meet, yields_bind_get, yields_bind_note, yields_modify]
  rfl

/-- Nothing goes wrong if nobody hears the record or its number is small enough. -/
theorem yields_conclude (hp : v.writes .info = true → p.Counted) :
    (conclude p).Yields v st () (st.met.withPrepared p) := by
  refine yields_bind.mpr ⟨(), st.met, yields_meet, yields_bind_get.mpr ?_⟩
  refine yields_bind.mpr ⟨(), st.met, ?_, yields_modify.mpr rfl⟩
  unfold Yields run noteWith
  split
  · next hheard =>
    rw [TileCounts.allBlocks, Idx.mul, Idx.check_of_inRange (hp hheard)]
    exact ⟨rfl, rfl⟩
  · exact ⟨rfl, rfl⟩

/-- The ranks have met by then, but the rank keeps nothing of what it prepared. -/
theorem faults_conclude (hheard : v.writes .info = true) (hp : ¬ p.Counted) :
    (conclude p).Faults v st .arithmetic st.met := by
  refine yields_meet.faults_bind ?_
  have hover : p.plan.counts.allBlocks = .error .arithmetic := if_neg hp
  unfold Faults run
  simp only [bind, get, getThe, MonadStateOf.get, noteWith, hheard, hover, if_true]
  exact ⟨rfl, rfl⟩

theorem agrees_conclude_iff :
    (conclude p).Agrees v w st ↔ v.writes .info = w.writes .info ∨ p.Counted := by
  by_cases hp : p.Counted
  · exact iff_of_true ((yields_conclude fun _ => hp).agrees (yields_conclude fun _ => hp))
      (.inr hp)
  · have hdeaf : ∀ u : Verbosity, u.writes .info = false →
        (conclude p).Yields u st () (st.met.withPrepared p) := fun u hu =>
      yields_conclude fun h => absurd (hu.symm.trans h) nofun
    have hfault : ∀ u : Verbosity, u.writes .info = true →
        (conclude p).Faults u st .arithmetic st.met := fun u hu => faults_conclude hu hp
    cases hv : v.writes .info <;> cases hw : w.writes .info
    · exact iff_of_true ((hdeaf v hv).agrees (hdeaf w hw)) (.inl rfl)
    · exact iff_of_false (fun h => (hfault w hw).not_agrees (hdeaf v hv) h.symm) (by simp [hp])
    · exact iff_of_false ((hfault v hv).not_agrees (hdeaf w hw)) (by simp [hp])
    · exact iff_of_true ((hfault v hv).agrees (hfault w hw)) (.inl rfl)

/-! ### The whole preparation -/

/-- Everything up to the last meeting goes through, with `p` as what was drafted. -/
def Readies (v : Verbosity) (st : Station ν) (p : Prepared) (st' : Station ν) : Prop :=
  ∃ st₁ words st₂, draft.Yields v st p st₁ ∧ (offerHalos p).Yields v st₁ words st₂ ∧
    (settleHalos p words).Yields v st₂ () st'

theorem yields_prepare_iff : prepare.Yields v st () st' ↔
    ∃ p st₃, Readies v st p st₃ ∧ (conclude p).Yields v st₃ () st' := by
  simp only [prepare, Readies, yields_bind (x := draft), yields_bind (x := offerHalos _),
    yields_bind (x := settleHalos _ _)]
  constructor
  · rintro ⟨p, st₁, hdraft, words, st₂, hoffer, ⟨⟩, st₃, hsettle, hconclude⟩
    exact ⟨p, st₃, ⟨st₁, words, st₂, hdraft, hoffer, hsettle⟩, hconclude⟩
  · rintro ⟨p, st₃, ⟨st₁, words, st₂, hdraft, hoffer, hsettle⟩, hconclude⟩
    exact ⟨p, st₁, hdraft, words, st₂, hoffer, (), st₃, hsettle, hconclude⟩

theorem Readies.faults_prepare {st₃ : Station ν} {f : Fault} (h : Readies v st p st₃)
    (hconclude : (conclude p).Faults v st₃ f st') : prepare.Faults v st f st' := by
  obtain ⟨st₁, words, st₂, hdraft, hoffer, hsettle⟩ := h
  exact hdraft.faults_bind (hoffer.faults_bind (hsettle.faults_bind hconclude))

/-- Drafting takes away what was prepared, and the buffers do not bring it back. -/
theorem Readies.prepared (h : Readies v st p st') : st'.solution.prepared = none := by
  obtain ⟨st₁, words, st₂, hdraft, hoffer, hsettle⟩ := h
  have hnone := (clears_of_unprepare (yields_draft.mp hdraft).1).prepared
  obtain ⟨_, -, rfl⟩ := of_offerHalos hoffer
  obtain ⟨_, -, rfl⟩ := of_settleHalos hsettle
  exact hnone

/-- A preparation that nobody hears goes through, and the blocks of what it prepares are more than
can be counted. -/
def Uncounted (st : Station ν) : Prop :=
  ∃ p st', prepare.Yields none st () st' ∧ st'.solution.prepared = some p ∧ ¬ p.Counted

theorem uncounted_iff : st.Uncounted ↔ ∃ p st', Readies none st p st' ∧ ¬ p.Counted := by
  constructor
  · rintro ⟨p, st', hprepare, hprepared, hp⟩
    obtain ⟨q, st₃, hready, hconclude⟩ := yields_prepare_iff.mp hprepare
    rw [met_of_conclude hconclude] at hprepared
    obtain rfl : q = p := Option.some.inj hprepared
    exact ⟨q, st₃, hready, hp⟩
  · rintro ⟨p, st₃, hready, hp⟩
    exact ⟨p, st₃.met.withPrepared p,
      yields_prepare_iff.mpr ⟨p, st₃, hready, yields_conclude nofun⟩, rfl, hp⟩

variable [QuietTransport ν]

theorem Readies.under (h : Readies v st p st') (w : Verbosity) : Readies w st p st' := by
  obtain ⟨st₁, words, st₂, hdraft, hoffer, hsettle⟩ := h
  exact ⟨st₁, words, st₂, quiet_draft.yields w hdraft, (quiet_offerHalos p).yields w hoffer,
    (quiet_settleHalos p words).yields w hsettle⟩

theorem agrees_prepare_iff : prepare.Agrees v w st ↔
    ∀ p st', Readies v st p st' → (conclude p).Agrees v w st' := by
  simp only [prepare, quiet_draft.agrees_bind_iff, (quiet_offerHalos _).agrees_bind_iff,
    (quiet_settleHalos _ _).agrees_bind_iff]
  constructor
  · rintro h p st₃ ⟨st₁, words, st₂, hdraft, hoffer, hsettle⟩
    exact h p st₁ hdraft words st₂ hoffer () st₃ hsettle
  · intro h p st₁ hdraft words st₂ hoffer _ st₃ hsettle
    exact h p st₃ ⟨st₁, words, st₂, hdraft, hoffer, hsettle⟩

/-- Two verbosities give one outcome of a preparation unless just one of them has the last record
written and its number of blocks does not fit into 64 bits. Then the preparation goes through
unheard, and where it is heard it faults and nothing is prepared. -/
theorem prepare_same_unless_uncounted (st : Station ν) (v w : Verbosity) :
    (prepare.Agrees v w st ↔ v.writes .info = w.writes .info ∨ ¬ st.Uncounted) ∧
      (st.Uncounted → v.writes .info = true →
        ∃ st', prepare.Faults v st .arithmetic st' ∧ st'.solution.prepared = none) := by
  refine ⟨?_, fun huncounted hheard => ?_⟩
  · simp only [agrees_prepare_iff, agrees_conclude_iff, uncounted_iff]
    constructor
    · intro h
      by_contra! hno
      obtain ⟨hdiffer, p, st', hready, hp⟩ := hno
      exact (h p st' (hready.under v)).elim hdiffer hp
    · rintro (hsame | hcounted) p st' hready
      · exact .inl hsame
      · exact .inr (by_contra fun hp => hcounted ⟨p, st', hready.under none, hp⟩)
  · obtain ⟨p, st', hready, hp⟩ := uncounted_iff.mp huncounted
    exact ⟨st'.met, (hready.under v).faults_prepare (faults_conclude hheard hp), hready.prepared⟩

end Station

namespace Vast

/-- A plane without a fold. -/
def catalog : Catalog := (Catalog.declare "t" ["x", "y"] []).toOption.getD default

/-- The only rank, which has 2 ^ 40 points in each dimension. A region is one point wide, and a
block is one point. -/
def station : Station Universe :=
  [("l", "1099511627776"), ("rx", "1"), ("b", "1")].foldl
    (fun st o => ((Station.setOption o.1 o.2).run none st).state)
    ⟨.new (.new 0 1 .unlimited) ((Stencil.new "vast" catalog).withVar "u") 1, ⟨.empty, .oneNode 1⟩⟩

/-- The rank after a preparation that nobody hears. -/
def prepared : Station Universe := (Station.prepare.run none station).state

theorem yields_prepared : Station.prepare.Yields none station () prepared := by
  have hok : (Station.prepare.run none station).result.toOption.isSome = true := by decide +kernel
  obtain ⟨_, hyields⟩ := exists_yields_of_isSome hok
  exact hyields

theorem uncounted : station.Uncounted := by
  have hmany : prepared.solution.prepared.any (fun p => !decide p.Counted) = true := by
    decide +kernel
  obtain ⟨p, hp, hcheck⟩ := (Option.any_eq_true _ _).mp hmany
  exact ⟨p, prepared, yields_prepared, hp, by simpa using hcheck⟩

end Vast

/-- The rank of four points has no more blocks than can be counted, so all verbosities agree there;
of the vast rank only those agree that hear the same. -/
theorem prepare_same_unless_uncounted_vast :
    (∀ v w, Station.prepare.Agrees v w Wide.station) ∧
      Station.prepare.Agrees (some .info) (some .trace) Vast.station ∧
      ¬ Station.prepare.Agrees none (some .info) Vast.station ∧
      ∃ st, Station.prepare.Faults (some .trace) Vast.station .arithmetic st ∧
        st.solution.prepared = none := by
  have hwide : ¬ Wide.station.Uncounted := by
    rintro ⟨p, st, hprepare, hp, hmany⟩
    obtain ⟨-, rfl⟩ := hprepare.unique Wide.yields_prepared
    have hfew : Wide.prepared.solution.prepared.all (fun p => decide p.Counted) = true := by
      decide +kernel
    simp [hp, hmany] at hfew
  refine ⟨fun v w => (Station.prepare_same_unless_uncounted _ v w).1.mpr (.inr hwide),
    (Station.prepare_same_unless_uncounted _ _ _).1.mpr (.inl rfl), fun hagrees => ?_,
    (Station.prepare_same_unless_uncounted _ _ none).2 Vast.uncounted rfl⟩
  rcases (Station.prepare_same_unless_uncounted _ _ _).1.mp hagrees with h | h
  · cases h
  · exact h Vast.uncounted

/-- A preparation that goes through unheard is a failure with a listener. -/
theorem heard_preparation_faults : Station.prepare.Yields none Vast.station () Vast.prepared ∧
    (Station.prepare.run (some .info) Vast.station).result = .error (.fault .arithmetic) :=
  ⟨Vast.yields_prepared, by decide +kernel⟩

end StencilPlan
