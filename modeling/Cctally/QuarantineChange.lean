import Cctally.QuarantineStep

/-!
# What a record does

A record of the journal starts a new generation, or it changes the record of each
axis in one of a few ways: it covers it, is its witness, releases it, or takes from
it what it had.
-/

namespace Cctally.Quarantine

open State

/-! ## What a record does -/

def Reads (e : Entry) (a : String) (r : Reading) (controlAxes : List Axis) : Prop :=
  e.excluded = false ∧ (∃ clock, e.rec_.body = .observation true clock (some r) controlAxes) ∧ r.accountKey = some a

def Bears (e : Entry) (a : String) (x : Axis) : Prop := ∃ r axes, Reads e a r axes ∧ r.bears x = true

def ControlReading (e : Entry) (a : String) (x : Axis) (obs : String) (capture : Int) : Prop :=
  ∃ r axes, Reads e a r axes ∧ x ∈ axes ∧ r.observationId = obs ∧ r.captureEpoch = capture

/-- A valid completion of the axis that names the observation: no episode is open, and the capture
is not before the latest cohort's `E`. -/
def Completes (s : State) (e : Entry) (a : String) (x : Axis) (completion obs : String) (capture : Int) : Prop :=
  (∃ names axes, e.rec_.body = .op (.authorityCompletion (some a) (some (s.generation : Int)) (some obs) names) ∧
    axesOf names = some axes ∧ x ∈ axes) ∧
  e.rec_.id = completion ∧ accepted s e = true ∧ s.openEpisode = none ∧ absentOr s.cohort (fun c => c.e ≤ capture)

def Witnesses (s : State) (e : Entry) (a : String) (x : Axis) (witness : String) (key : Option WitnessKey) : Prop :=
  ∃ r axes, Reads e a r axes ∧ r.observationId = witness ∧ witnessKeyOf r x = key ∧ x ∈ r.eligibleAxes ∧
    qualifies r (s.merged (some a)) x = true ∧ (noteTimes s e.rec_).barrierOpen = true

def Releases (s : State) (e : Entry) (a : String) (x : Axis) (witness completion : String) : Prop :=
  e.rec_.body = .op (.axisRelease (some a) (some x) (some (s.generation : Int)) (some witness) (some completion)) ∧
  accepted s e = true

inductive Revokes (s : State) (e : Entry) (a : String) (x : Axis) (key : Option WitnessKey) : Prop
  | administrative (he : e.excluded = false)
      (hb : e.rec_.body = .administrative ∨ e.rec_.body = .op .administrative)
  | manualCredit (he : e.excluded = false)
      (hb : ∃ effective date capture text, e.rec_.body = .op (.weeklyCreditFloor effective date capture text))
      (hx : x = .sevenDay) (ha : scopeOf e.rec_ = EXCLUDED_SCOPE ∨ scopeOf e.rec_ = a)
  | reading {r axes} (h : Reads e a r axes) (hx : r.bears x = true)
      (hk : backwardKey r x key = true ∨ orderRegressed (s.scope a) r x = true)

def UnwitnessedRelease (s : State) (e : Entry) : Prop :=
  ∃ a x completion, e.excluded = false ∧ e.rec_.stamped = true ∧
    e.rec_.body = .op (.axisRelease (some a) (some x) (some (s.generation : Int)) none (some completion)) ∧
    s.hasTrigger = true ∧ (s.axis a x).state = .paused ∧ (s.axis a x).coverageId = some completion ∧
    s.pendingWitness a x = none

inductive Change (s : State) (e : Entry) (a : String) (x : Axis) (rec_ : AxisRecovery) : AxisRecovery → Prop
  | kept (hb : s.hasTrigger = true → rec_.pending ≠ none → ¬ Bears e a x)
      (hr : s.hasTrigger = true → rec_.state = .recovered → ¬ Revokes s e a x rec_.witnessKey) : Change s e a x rec_ rec_
  | voided {new : AxisRecovery} (hs : new.state = .paused) (hw : new.witnessId = none)
      (hc : new.coverageId = none ∨ new.coverageId = rec_.coverageId)
      (hh : rec_.state = .recovered ∨ rec_.witnessId ≠ none ∨ rec_.coverageId ≠ none) : Change s e a x rec_ new
  | covered {w : ControlWitness} (ht : s.hasTrigger = true) (hs : rec_.state = .paused) (hn : rec_.coverageId = none)
      (hw : s.control.get? a = some w) (hx : x ∈ w.axes)
      (h : Completes s e a x e.rec_.id w.observationId w.captureEpoch) :
      Change s e a x rec_ { rec_ with coverageId := some e.rec_.id }
  | witnessed {new : AxisRecovery} {w : String} (hs : new.state = .paused) (hc : new.coverageId = rec_.coverageId)
      (hn : rec_.coverageId ≠ none) (hw : new.witnessId = some w) (h : Witnesses s e a x w new.witnessKey) :
      Change s e a x rec_ new
  | released {new : AxisRecovery} {completion : String} (hs : new.state = .recovered)
      (hk : new.witnessKey = rec_.witnessKey) (hc : new.coverageId = rec_.coverageId)
      (hr : new.releaseId ≠ none) (hw' : new.witnessId = rec_.witnessId) (hn : rec_.coverageId = some completion)
      (hw : ∀ w, rec_.pending = some w → Releases s e a x w completion)
      (hu : rec_.pending = none → UnwitnessedRelease s e) : Change s e a x rec_ new

structure Restarts (s s' : State) : Prop where
  generation : s'.generation = s.generation + 1
  axis : ∀ a x, s'.axis a x = s'.freshAxis
  control : ∀ a, s'.control.get? a = none

structure Steps (s : State) (e : Entry) (s' : State) : Prop where
  generation : s'.generation = s.generation
  latestTrigger : s'.latestTrigger = s.latestTrigger
  axis : ∀ a x, Change s e a x (s.axis a x) (s'.axis a x)
  control : ∀ a w, s'.control.get? a = some w →
    s.control.get? a = some w ∨ ∀ x ∈ w.axes, ControlReading e a x w.observationId w.captureEpoch

theorem restarts_onTrigger (s : State) (kind : TriggerKind) (reason : String) (at_ : Coordinate) (time : Option String) :
    Restarts s (s.onTrigger kind reason at_ time) where
  generation := rfl
  axis a x := by
    have hsub : (s.onTrigger kind reason at_ time).accounts.sub a = .empty := by
      rw [onTrigger, Dict.sub, Dict.get?_mapValues]
      cases s.accounts.get? a <;> rfl
    rw [State.axis, hsub, Dict.get?_empty, Option.getD_none]
  control a := Dict.get?_empty a

theorem Restarts.quiet {s s' s'' : State} (h : Restarts s s') (hq : Quiet s' s'') : Restarts s s'' where
  generation := hq.generation.trans h.generation
  axis a x := by rw [hq.axis, h.axis, freshAxis, freshAxis, hq.latestTrigger]
  control a := by rw [hq.control, h.control]

theorem Restarts.after {s s' s'' : State} (h : Restarts s' s'') (hq : Quiet s s') : Restarts s s'' where
  generation := by rw [h.generation, hq.generation]
  axis := h.axis
  control := h.control

theorem restarts_onExcluded (s : State) (at_ : Coordinate) (rec_ : Rec) : Restarts s (onExcluded s at_ rec_) := by
  have h := restarts_onTrigger s .excluded rec_.family at_ rec_.time
  unfold onExcluded
  dsimp only
  split
  · exact h.quiet (quiet_absorbReading _ _ _ _ _)
  · exact h.quiet (quiet_absorbEvent _ _ _ _)
  · exact h.quiet (quiet_absorbWeeklyEffect _ _ _)
  · exact h

theorem quiet_noteTimes (s : State) (rec_ : Rec) : Quiet s (noteTimes s rec_) :=
  (quiet_noteClock s _).trans (quiet_noteAdmitted _ _)

theorem noteTimes_fields (s : State) (rec_ : Rec) : (noteTimes s rec_).episodes = s.episodes ∧
    (noteTimes s rec_).cohort = s.cohort ∧ (noteTimes s rec_).bounds = s.bounds := by
  have hc (clock : Option Int) : (s.noteClock clock).episodes = s.episodes ∧ (s.noteClock clock).cohort = s.cohort ∧
      (s.noteClock clock).bounds = s.bounds := by
    unfold noteClock
    split
    · split <;> exact ⟨rfl, rfl, rfl⟩
    · exact ⟨rfl, rfl, rfl⟩
  have ha (t : State) (at_ : Option Int) : (t.noteAdmitted at_).episodes = t.episodes ∧
      (t.noteAdmitted at_).cohort = t.cohort ∧ (t.noteAdmitted at_).bounds = t.bounds := by
    unfold noteAdmitted
    split
    · exact ⟨rfl, rfl, rfl⟩
    · split <;> exact ⟨rfl, rfl, rfl⟩
  obtain ⟨h₁, h₂, h₃⟩ := ha (s.noteClock _) rec_.epoch
  obtain ⟨h₁', h₂', h₃'⟩ := hc _
  exact ⟨h₁.trans h₁', h₂.trans h₂', h₃.trans h₃'⟩

theorem noteTimes_openEpisode (s : State) (rec_ : Rec) : (noteTimes s rec_).openEpisode = s.openEpisode := by
  rw [openEpisode, openEpisode, (noteTimes_fields s rec_).1]

theorem noteTimes_scope (s : State) (rec_ : Rec) : (noteTimes s rec_).scope = s.scope := by
  funext name
  rw [State.scope, State.scope, (noteTimes_fields s rec_).2.2]

theorem noteTimes_merged (s : State) (rec_ : Rec) (a : Option String) : (noteTimes s rec_).merged a = s.merged a := by
  rw [merged, merged, noteTimes_scope]

/-! ## Records that neither bear nor revoke -/

section
variable {s : State} {e : Entry} {a : String} {x : Axis} {rec_ : AxisRecovery}

theorem not_bears (h : ∀ clock r axes, e.rec_.body ≠ .observation true clock (some r) axes) : ¬ Bears e a x := by
  rintro ⟨r, axes, ⟨-, ⟨clock, hb⟩, -⟩, -⟩
  exact h clock r axes hb

theorem not_revokes (h : ∀ clock r axes, e.rec_.body ≠ .observation true clock (some r) axes)
    (hadm : e.rec_.body ≠ .administrative ∧ e.rec_.body ≠ .op .administrative)
    (hcredit : ∀ t d c text, e.rec_.body ≠ .op (.weeklyCreditFloor t d c text)) (key : Option WitnessKey) :
    ¬ Revokes s e a x key := by
  rintro (⟨-, hb | hb⟩ | ⟨-, ⟨t, d, c, text, hb⟩, -, -⟩ | ⟨⟨-, ⟨clock, hb⟩, -⟩, -, -⟩)
  · exact hadm.1 hb
  · exact hadm.2 hb
  · exact hcredit _ _ _ _ hb
  · exact h _ _ _ hb

theorem Change.idle (hb : ¬ Bears e a x) (hr : ∀ key, ¬ Revokes s e a x key) : Change s e a x rec_ rec_ :=
  .kept (fun _ _ => hb) (fun _ _ => hr _)

theorem revoked_none {reason : Revocation} {time : Option String} {v : Bool} (h : revoked reason time v rec_ = none) :
    rec_.state = .paused ∧ rec_.witnessId = none := by
  unfold revoked at h
  split at h
  · rename_i hc
    refine ⟨?_, hc.2.1⟩
    cases hs : rec_.state
    · rfl
    · exact absurd hs hc.1
  · cases h

theorem revoked_some {reason : Revocation} {time : Option String} {v : Bool} {new : AxisRecovery}
    (h : revoked reason time v rec_ = some new) : new.state = .paused ∧ new.witnessId = none ∧
      (new.coverageId = none ∨ new.coverageId = rec_.coverageId) ∧
      (rec_.state = .recovered ∨ rec_.witnessId ≠ none ∨ rec_.coverageId ≠ none) := by
  unfold revoked at h
  split at h
  · cases h
  · rename_i hc
    cases h
    refine ⟨rfl, rfl, ?_, by tauto⟩
    cases v
    · right
      simp only [Bool.false_eq_true, if_false]
      split <;> rfl
    · exact .inl rfl

theorem Change.revoked (reason : Revocation) (time : Option String) (v : Bool) :
    Change s e a x rec_ ((State.revoked reason time v rec_).getD rec_) := by
  cases h : State.revoked reason time v rec_ with
  | none =>
    obtain ⟨hs, hw⟩ := revoked_none h
    refine .kept (fun _ hp => absurd ?_ hp) (fun _ hr => ?_)
    · rw [AxisRecovery.pending, hw, ite_self]
    · rw [hs] at hr; cases hr
  | some new =>
    obtain ⟨hs, hw, hc, hh⟩ := revoked_some h
    exact .voided hs hw hc hh

theorem Steps.idle {s' : State} (h : Quiet s s') (hb : ∀ a x, ¬ Bears e a x) (hr : ∀ a x key, ¬ Revokes s e a x key) :
    Steps s e s' where
  generation := h.generation
  latestTrigger := h.latestTrigger
  axis a x := by rw [h.axis]; exact .idle (hb a x) (hr a x)
  control a w hw := .inl (by rw [← h.control, hw])

theorem Steps.of_frame {s' : State} (hg : s'.generation = s.generation) (hl : s'.latestTrigger = s.latestTrigger)
    (hc : s'.control = s.control) (h : ∀ a x, Change s e a x (s.axis a x) (s'.axis a x)) : Steps s e s' where
  generation := hg
  latestTrigger := hl
  axis := h
  control a w hw := .inl (by rw [← hc, hw])

theorem Steps.quiet {s' s'' : State} (h : Steps s e s') (hq : Quiet s' s'') : Steps s e s'' where
  generation := hq.generation.trans h.generation
  latestTrigger := hq.latestTrigger.trans h.latestTrigger
  axis a x := by rw [hq.axis]; exact h.axis a x
  control a w hw := h.control a w (by rw [← hq.control, hw])

theorem steps_revokeAll {t : State} (hq : Quiet s t) (reason : Revocation) (time : Option String) (v : Bool) :
    Steps s e (t.revokeAll reason time AXES v) := by
  have hf := frame_revokeAll t reason time AXES v
  refine .of_frame (hf.generation.trans hq.generation) (hf.latestTrigger.trans hq.latestTrigger)
    (hf.control.trans hq.control) fun a x => ?_
  rw [axis_revokeAll t reason time nodup_AXES, if_pos (mem_AXES x), hq.axis]
  exact .revoked reason time v

theorem steps_revokeAccount {t : State} (hq : Quiet s t) (b : String) (reason : Revocation) (time : Option String)
    (v : Bool) (hb : ∀ a x, ¬ Bears e a x) (hr : ∀ a x key, ¬ Revokes s e a x key) :
    Steps s e (AXES.foldl (fun s x => revokeAxis reason time v s b x) t) := by
  have hf := frame_revokeAxes reason time v AXES t b
  refine .of_frame (hf.generation.trans hq.generation) (hf.latestTrigger.trans hq.latestTrigger)
    (hf.control.trans hq.control) fun a x => ?_
  rw [axis_revokeAxes reason time v nodup_AXES, hq.axis]
  split
  · exact .revoked reason time v
  · exact .idle (hb a x) (hr a x)

theorem not_bears_op {op : Op} (h : e.rec_.body = .op op) (a : String) (x : Axis) : ¬ Bears e a x :=
  not_bears fun _ _ _ hb => by rw [h] at hb; cases hb

theorem not_revokes_op {op : Op} (h : e.rec_.body = .op op) (hadm : op ≠ .administrative)
    (hcredit : ∀ t d c text, op ≠ .weeklyCreditFloor t d c text) (a : String) (x : Axis) (key : Option WitnessKey) :
    ¬ Revokes s e a x key := by
  refine not_revokes (fun _ _ _ hb => ?_) ⟨fun hb => ?_, fun hb => ?_⟩ (fun _ _ _ _ hb => ?_) key
  · rw [h] at hb; cases hb
  · rw [h] at hb; cases hb
  · rw [h] at hb; cases hb; exact hadm rfl
  · rw [h] at hb; cases hb; exact hcredit _ _ _ _ rfl

theorem steps_completion (he : e.excluded = false) (hst : e.rec_.stamped = true) {generation : Option Int}
    {observation : Option String} {names : List String}
    (hb : e.rec_.body = .op (.authorityCompletion (some a) generation observation names)) :
    Steps s e ((noteTimes s e.rec_).onAuthorityCompletion a e.rec_.id generation observation names).2 := by
  have hq := quiet_noteTimes s e.rec_
  have hbears := not_bears_op hb
  have hrev := not_revokes_op (s := s) hb nofun nofun
  obtain h | ⟨axes, w, o, rfl, hax, hw, rfl, hall, hn, t, ht, h⟩ :=
    onAuthorityCompletion_cases (noteTimes s e.rec_) a e.rec_.id generation observation names
  · rw [h]
    exact .idle hq hbears hrev
  have hacc : accepted s e = true := by simp [accepted, he, hst, hb, h]
  rw [h]
  refine Steps.quiet ?_ ht
  have hf := frame_cover e.rec_.id a (axes.filter (· ∈ (noteTimes s e.rec_).coverableAxes a o)) (noteTimes s e.rec_)
  refine .of_frame (hf.generation.trans hq.generation) (hf.latestTrigger.trans hq.latestTrigger)
    (hf.control.trans hq.control) fun b y => ?_
  rw [axis_cover, hq.axis]
  split
  swap
  · exact .idle (hbears b y) (hrev b y)
  rename_i hc
  obtain ⟨rfl, hy⟩ := hc
  obtain ⟨hyx, hyc⟩ := List.mem_filter.1 hy
  obtain ⟨htr, hopen, w', hw', rfl, hE, hyw, hs, hcov⟩ := mem_coverableAxes.1 (of_decide_eq_true hyc)
  rw [hq.control] at hw'
  rw [hq.axis] at hs hcov
  refine .covered (hq.hasTrigger ▸ htr) hs hcov hw' hyw ⟨⟨names, axes, ?_, hax, hyx⟩, rfl, hacc, ?_, ?_⟩
  · rw [hb, hq.generation]
  · rw [← noteTimes_openEpisode s e.rec_, hopen]
  · rw [← (noteTimes_fields s e.rec_).2.1]; exact hE

theorem steps_release (he : e.excluded = false) (hst : e.rec_.stamped = true) {y : Option Axis} {generation : Option Int}
    {witness completion : Option String} (hb : e.rec_.body = .op (.axisRelease (some a) y generation witness completion)) :
    Steps s e ((noteTimes s e.rec_).onRelease a y generation witness completion e.rec_.id e.rec_.time).2 := by
  have hq := quiet_noteTimes s e.rec_
  have hbears := not_bears_op hb
  have hrev := not_revokes_op (s := s) hb nofun nofun
  obtain h | ⟨y, c, rfl, rfl, rfl, ht, hs, hc, hw, h⟩ :=
    onRelease_cases (noteTimes s e.rec_) a y generation witness completion e.rec_.id e.rec_.time
  · rw [h]
    exact .idle hq hbears hrev
  have hacc : accepted s e = true := by simp [accepted, he, hst, hb, h]
  rw [h]
  refine .of_frame hq.generation hq.latestTrigger hq.control fun b z => ?_
  rw [axis_setAxis]
  split
  swap
  · rw [hq.axis]; exact .idle (hbears b z) (hrev b z)
  rename_i hbz
  obtain ⟨rfl, rfl⟩ := hbz
  rw [hq.axis] at hs hc ⊢
  rw [pendingWitness, hq.axis] at hw
  rw [hq.generation] at hb
  refine .released rfl rfl rfl nofun rfl hc (fun w hp => ⟨?_, hacc⟩) fun hp => ?_
  · rw [hb, ← hw, hp]
  · refine ⟨a, y, c, he, hst, ?_, hq.hasTrigger ▸ ht, hs, hc, hp⟩
    rw [hb, ← hw, hp]

/-! ## A reading -/

theorem settled_none {cal : Calendar} {own : ScopeBounds} {r : Reading} (h : settled cal own r x rec_ = none)
    (hx : r.bears x = true) : rec_.pending = none ∧
      (rec_.state = .recovered → backwardKey r x rec_.witnessKey = false ∧ orderRegressed own r x = false) := by
  unfold settled at h
  rw [if_neg (by simp [hx])] at h
  split at h
  · rename_i hs
    refine ⟨by simp [AxisRecovery.pending, hs], fun _ => ?_⟩
    cases hrev : revocationOf own r rec_ x with
    | some reason =>
      rw [hrev, Option.bind_some] at h
      rw [(revoked_none h).1] at hs
      cases hs
    | none =>
      unfold revocationOf at hrev
      split at hrev
      · cases hrev
      split at hrev
      · cases hrev
      · rename_i hb ho
        exact ⟨by simpa using hb, by simpa using ho⟩
  · rename_i hs
    refine ⟨?_, fun h' => absurd h' hs⟩
    split at h
    · cases h
    · rename_i hp
      simpa using hp

theorem settled_some {cal : Calendar} {own : ScopeBounds} {r : Reading} {new : AxisRecovery}
    (h : settled cal own r x rec_ = some new) :
    new.state = .paused ∧ new.witnessId = none ∧ new.coverageId = rec_.coverageId ∧
      (rec_.state = .recovered ∨ rec_.witnessId ≠ none) := by
  unfold settled at h
  split at h
  · cases h
  split at h
  · rename_i hrec
    obtain ⟨reason, -, h⟩ := Option.bind_eq_some_iff.1 h
    unfold State.revoked at h
    split at h
    · cases h
    · cases h
      refine ⟨rfl, rfl, ?_, .inl hrec⟩
      simp only [Bool.false_eq_true, if_false]
  · rename_i hs
    split at h
    · rename_i hp
      cases h
      refine ⟨?_, rfl, rfl, .inr fun hw => ?_⟩
      swap
      · rw [AxisRecovery.pending, hw, ite_self] at hp
        cases hp
      cases hst : rec_.state
      · rfl
      · exact absurd hst hs
    · cases h

theorem witnessed_some {m : ScopeBounds} {r : Reading} {new : AxisRecovery} (h : witnessed m r x rec_ = some new) :
    rec_.state = .paused ∧ rec_.coverageId ≠ none ∧ x ∈ r.eligibleAxes ∧ qualifies r m x = true ∧
      new.state = rec_.state ∧ new.coverageId = rec_.coverageId ∧ new.witnessId = some r.observationId ∧
      new.witnessKey = witnessKeyOf r x := by
  unfold witnessed at h
  split at h
  · cases h
  rename_i hc
  push Not at hc
  split at h
  · rename_i hq
    cases h
    exact ⟨hc.1, hc.2.1, hc.2.2.2, hq, rfl, rfl, rfl, rfl⟩
  · cases h

theorem change_readRecord (cal : Calendar) {r : Reading} {controlAxes : List Axis} (h : Reads e a r controlAxes) :
    Change s e a x rec_ (readRecord cal (noteTimes s e.rec_) a r x rec_) := by
  have hread {r' : Reading} {axes : List Axis} (h' : Reads e a r' axes) : r' = r := by
    obtain ⟨-, ⟨clock, hb⟩, -⟩ := h
    obtain ⟨-, ⟨clock', hb'⟩, -⟩ := h'
    rw [hb] at hb'
    cases hb'
    rfl
  have hsettle : Change s e a x rec_ ((settled cal (s.scope a) r x rec_).getD rec_) ∧
      ((settled cal (s.scope a) r x rec_).getD rec_).coverageId = rec_.coverageId := by
    cases hsome : settled cal (s.scope a) r x rec_ with
    | some new =>
      obtain ⟨hs, hw, hc, hh⟩ := settled_some hsome
      exact ⟨.voided hs hw (.inr hc) (hh.imp_right .inl), hc⟩
    | none =>
      refine ⟨.kept (fun _ hp => ?_) (fun _ hs hrev => ?_), rfl⟩
      · rintro ⟨r', axes, h', hx⟩
        exact hp (settled_none hsome (hread h' ▸ hx)).1
      · obtain ⟨-, ⟨clock, hb⟩, -⟩ := h
        rcases hrev with ⟨-, hb' | hb'⟩ | ⟨-, ⟨t, d, c, text, hb'⟩, -, -⟩ | ⟨h', hx, hk⟩
        · rw [hb] at hb'; cases hb'
        · rw [hb] at hb'; cases hb'
        · rw [hb] at hb'; cases hb'
        · obtain rfl := hread h'
          obtain ⟨h₁, h₂⟩ := (settled_none hsome hx).2 hs
          rw [h₁, h₂] at hk
          simp at hk
  unfold readRecord
  rw [noteTimes_scope, noteTimes_merged]
  dsimp only
  split
  swap
  · exact hsettle.1
  rename_i hopen
  cases hw : witnessed (s.merged (some a)) r x ((settled cal (s.scope a) r x rec_).getD rec_) with
  | none => exact hsettle.1
  | some new =>
    obtain ⟨hs, hc, hel, hq, hs', hc', hw', hk⟩ := witnessed_some hw
    rw [hsettle.2] at hc hc'
    exact .witnessed (hs'.trans hs) hc' hc hw' ⟨r, controlAxes, h, rfl, hk.symm, hel, hq, hopen⟩

theorem steps_evaluate (cal : Calendar) (he : e.excluded = false) {clock : Option Int} {r : Reading}
    {controlAxes : List Axis} (hb : e.rec_.body = .observation true clock (some r) controlAxes) :
    Steps s e ((noteTimes s e.rec_).evaluateReading cal r.accountKey r).2 := by
  have hq := quiet_noteTimes s e.rec_
  obtain ⟨t, name, possible, hf, ht⟩ := evaluateReading_eq cal (noteTimes s e.rec_) r.accountKey r
  have hqt := quiet_absorbReading t name r possible false
  refine .of_frame ?_ ?_ ?_ fun b y => ?_
  · rw [ht, hqt.generation, hf.generation, hq.generation]
  · rw [ht, hqt.latestTrigger, hf.latestTrigger, hq.latestTrigger]
  · rw [ht, hqt.control, hf.control, hq.control]
  have hother (hne : r.accountKey ≠ some b) : Change s e b y (s.axis b y) (s.axis b y) := by
    have hno {r' : Reading} {axes : List Axis} (h' : Reads e b r' axes) : False := by
      obtain ⟨-, ⟨clock', hb'⟩, ha⟩ := h'
      rw [hb] at hb'
      cases hb'
      exact hne ha
    refine .idle (fun ⟨_, _, h', _⟩ => hno h') fun key hrev => ?_
    rcases hrev with ⟨-, hb' | hb'⟩ | ⟨-, ⟨t, d, c, text, hb'⟩, -, -⟩ | ⟨h', -, -⟩
    · rw [hb] at hb'; cases hb'
    · rw [hb] at hb'; cases hb'
    · rw [hb] at hb'; cases hb'
    · exact hno h'
  cases ha : r.accountKey with
  | none =>
    rw [axis_evaluateReading_none, hq.axis]
    exact hother (by rw [ha]; nofun)
  | some a =>
    by_cases htr : s.hasTrigger = true
    · rw [axis_evaluateReading cal (hq.hasTrigger.trans htr), hq.axis]
      by_cases hab : a = b
      · rw [if_pos hab]
        subst hab
        exact change_readRecord cal ⟨he, ⟨clock, hb⟩, ha⟩
      · rw [if_neg hab]
        exact hother (by rw [ha]; simpa using hab)
    · rw [evaluateReading_noTrigger cal (hq.hasTrigger.trans (by simpa using htr)),
        (quiet_absorbReading _ a r _ false).axis, hq.axis]
      exact .kept (fun h => absurd h htr) (fun h => absurd h htr)

/-! ## One record -/

theorem Steps.onControlWitness {t : State} (h : Steps s e t) {r : Reading} {axes : List Axis}
    (hr : Reads e a r axes) {controlAxes : List Axis} (hx : ∀ x ∈ controlAxes, x ∈ axes) :
    Steps s e (t.onControlWitness a ⟨r.observationId, r.captureEpoch, controlAxes, r.weeklyEndEpoch⟩) := by
  unfold State.onControlWitness
  split
  · exact h
  split
  · exact h
  refine ⟨h.generation, h.latestTrigger, h.axis, fun b w hw => ?_⟩
  rw [Dict.get?_set] at hw
  split at hw
  · rename_i hab
    cases hw
    subst hab
    exact .inr fun x hx' => ⟨r, axes, hr, hx x hx', rfl, rfl⟩
  · exact h.control b w hw

theorem steps_reading (cal : Calendar) (he : e.excluded = false) {clock : Option Int} {r : Reading}
    {controlAxes : List Axis} (hb : e.rec_.body = .observation true clock (some r) controlAxes) :
    Steps s e (onReading cal (noteTimes s e.rec_) r controlAxes).2 := by
  have h := steps_evaluate (s := s) cal he hb
  unfold onReading
  dsimp only
  split
  · rename_i a ha
    split
    · exact h
    · exact h.onControlWitness ⟨he, ⟨clock, hb⟩, ha⟩ fun x hx => of_decide_eq_true (List.mem_filter.1 hx).2
  · exact h

theorem steps_credit {effective : Option Int} {date : Option String} {capture : Option Int} {text : Option String}
    (hb : e.rec_.body = .op (.weeklyCreditFloor effective date capture text)) :
    Steps s e
      (if scopeOf e.rec_ = EXCLUDED_SCOPE then (noteTimes s e.rec_).revokeAll .manualCredit e.rec_.time [.sevenDay] false
       else revokeAxis .manualCredit e.rec_.time false (noteTimes s e.rec_) (scopeOf e.rec_) .sevenDay) := by
  have hq := quiet_noteTimes s e.rec_
  -- a credit revokes the weekly axis of its scope, and no other
  have hother {a : String} {x : Axis} (h : ¬ (x = .sevenDay ∧ (scopeOf e.rec_ = EXCLUDED_SCOPE ∨ scopeOf e.rec_ = a))) :
      Change s e a x (s.axis a x) (s.axis a x) := by
    refine .idle (not_bears_op hb a x) fun key hrev => ?_
    rcases hrev with ⟨-, hb' | hb'⟩ | ⟨-, -, hx, ha⟩ | ⟨⟨-, ⟨clock, hb'⟩, -⟩, -, -⟩
    · rw [hb] at hb'; cases hb'
    · rw [hb] at hb'; cases hb'
    · exact h ⟨hx, ha⟩
    · rw [hb] at hb'; cases hb'
  by_cases hs : scopeOf e.rec_ = EXCLUDED_SCOPE
  · rw [if_pos hs]
    have hf := frame_revokeAll (noteTimes s e.rec_) .manualCredit e.rec_.time [.sevenDay] false
    refine .of_frame (hf.generation.trans hq.generation) (hf.latestTrigger.trans hq.latestTrigger)
      (hf.control.trans hq.control) fun a x => ?_
    rw [axis_revokeAll _ _ _ (by decide), hq.axis]
    split
    · exact .revoked _ _ _
    · rename_i hx
      exact hother fun h => hx (List.mem_singleton.2 h.1)
  · rw [if_neg hs]
    have hf := frame_rewrite (noteTimes s e.rec_) (scopeOf e.rec_) .sevenDay
      (revoked .manualCredit e.rec_.time false ((noteTimes s e.rec_).axis (scopeOf e.rec_) .sevenDay))
    refine .of_frame (hf.generation.trans hq.generation) (hf.latestTrigger.trans hq.latestTrigger)
      (hf.control.trans hq.control) fun a x => ?_
    rw [axis_revokeAxis, hq.axis]
    split
    · exact .revoked _ _ _
    · rename_i hx
      exact hother fun ⟨h₁, h₂⟩ => hx ⟨h₂.resolve_left hs, h₁.symm⟩

theorem steps_onEvent {event : Event} (hb : e.rec_.body = .event event) :
    Steps s e (onEvent (noteTimes s e.rec_) e.rec_ event) := by
  have hbears (a : String) (x : Axis) : ¬ Bears e a x := not_bears fun _ _ _ hb' => by rw [hb] at hb'; cases hb'
  have hrev (a : String) (x : Axis) (key : Option WitnessKey) : ¬ Revokes s e a x key := by
    refine not_revokes (fun _ _ _ hb' => ?_) ⟨fun hb' => ?_, fun hb' => ?_⟩ (fun _ _ _ _ hb' => ?_) key <;>
      rw [hb] at hb' <;> cases hb'
  have hq := (quiet_noteTimes s e.rec_).trans (quiet_absorbEvent _ (scopeOf e.rec_) event false)
  unfold onEvent
  dsimp only
  split
  swap
  · exact .idle hq hbears hrev
  unfold onDeletionOutcome
  split
  · exact .idle hq hbears hrev
  split
  · exact steps_revokeAll hq _ _ _
  · exact steps_revokeAccount hq _ _ _ _ hbears hrev

theorem steps_close (cal : Calendar) (episode : Option Coordinate)
    (hidle : ∀ {t}, Quiet (noteTimes s e.rec_) t → Steps s e t) :
    Steps s e (match (noteTimes s e.rec_).onEpisodeClose e.at_ e.rec_.time episode with
      | (true, s) => s.setPosition cal
      | (false, s) => s) := by
  have h := quiet_onEpisodeClose (noteTimes s e.rec_) e.at_ e.rec_.time episode
  split
  · rename_i t ht
    rw [ht] at h
    exact hidle (h.trans (quiet_setPosition cal t))
  · rename_i t ht
    rw [ht] at h
    exact hidle h

theorem onOp_cases (cal : Calendar) (he : e.excluded = false) {op : Op} (hb : e.rec_.body = .op op) :
    Restarts s (onOp cal (noteTimes s e.rec_) e.at_ e.rec_ op) ∨ Steps s e (onOp cal (noteTimes s e.rec_) e.at_ e.rec_ op) := by
  have hq := quiet_noteTimes s e.rec_
  have htrigger (kind : TriggerKind) (reason : String) :
      Restarts s ((noteTimes s e.rec_).onTrigger kind reason e.at_ e.rec_.time) :=
    (restarts_onTrigger _ kind reason e.at_ e.rec_.time).after hq
  have hidle (hadm : op ≠ .administrative) (hcredit : ∀ t d c text, op ≠ .weeklyCreditFloor t d c text) {t : State}
      (h : Quiet (noteTimes s e.rec_) t) : Steps s e t :=
    .idle (hq.trans h) (not_bears_op hb) (not_revokes_op hb hadm hcredit)
  have hclose (episode : Option Coordinate) (hadm : op ≠ .administrative)
      (hcredit : ∀ t d c text, op ≠ .weeklyCreditFloor t d c text) :=
    steps_close cal episode fun {t} h => hidle hadm hcredit (t := t) h
  cases op with
  | legacySpoolActivity reason =>
    unfold onOp
    dsimp only
    split
    · exact .inr (hidle (by simp) (by simp) (.refl _))
    left
    split
    · exact (htrigger _ _).quiet (quiet_onEpisodeOpen _ _ _)
    · refine ((htrigger .legacySpool reason).quiet ?_).quiet (quiet_setPosition cal _)
      split
      · exact quiet_onEpisodeClose _ _ _ _
      · exact .refl _
  | boundary expectedId failure episode =>
    unfold onOp
    dsimp only
    split
    · exact .inr (hidle (by simp) (by simp) (.refl _))
    split
    · exact .inr (hclose none (by simp) (by simp))
    split
    · exact .inr (hidle (by simp) (by simp) (.refl _))
    · exact .inl ((htrigger _ _).quiet (quiet_onEpisodeOpen _ _ _))
  | inventoryCompletion episode =>
    unfold onOp
    dsimp only
    split
    · exact .inr (hidle (by simp) (by simp) (.refl _))
    · exact .inr (hclose episode (by simp) (by simp))
  | authorityCompletion account generation observation axes =>
    right
    unfold onOp
    cases account with
    | none => exact hidle (by simp) (by simp) (.refl _)
    | some account =>
      dsimp only
      split
      · exact hidle (by simp) (by simp) (.refl _)
      · rename_i hst
        exact steps_completion he (by simpa using hst) hb
  | axisRelease account axis generation witness authority =>
    right
    unfold onOp
    cases account with
    | none => exact hidle (by simp) (by simp) (.refl _)
    | some account =>
      dsimp only
      split
      · exact hidle (by simp) (by simp) (.refl _)
      · rename_i hst
        exact steps_release he (by simpa using hst) hb
  | weeklyCreditFloor => exact .inr ((steps_credit hb).quiet (quiet_absorbWeeklyEffect _ _ _))
  | administrative => exact .inr (steps_revokeAll hq _ _ _)
  | other => exact .inr (hidle (by simp) (by simp) (.refl _))

/-- **A record starts a new generation, or changes each axis in one of few ways.** -/
theorem onEntry_cases (cal : Calendar) (s : State) (e : Entry) :
    Restarts s (onEntry cal s e) ∨ Steps s e (onEntry cal s e) := by
  unfold onEntry
  by_cases he : e.excluded = true
  · rw [if_pos he]
    exact .inl (restarts_onExcluded s e.at_ e.rec_)
  rw [if_neg he]
  have he' : e.excluded = false := by simpa using he
  have hq := quiet_noteTimes s e.rec_
  have hidle (h : ∀ clock r axes, e.rec_.body ≠ .observation true clock (some r) axes)
      (hadm : e.rec_.body ≠ .administrative) (hop : ∀ op, e.rec_.body ≠ .op op) {t : State} (hq : Quiet s t) :
      Steps s e t :=
    .idle hq (fun _ _ => not_bears h)
      (fun _ _ => not_revokes h ⟨hadm, hop .administrative⟩ fun _ _ _ _ => hop (.weeklyCreditFloor _ _ _ _))
  unfold onRecord
  cases hb : e.rec_.body with
  | observation isClaude clock reading controlAxes =>
    right
    have hnot (h : isClaude = true → reading = none) {t : State} (hq : Quiet s t) : Steps s e t := by
      refine hidle (fun _ _ _ hb' => ?_) (fun hb' => ?_) (fun _ hb' => ?_) hq
      · rw [hb] at hb'; cases hb'; cases h rfl
      · rw [hb] at hb'; cases hb'
      · rw [hb] at hb'; cases hb'
    cases isClaude with
    | false => exact hnot nofun (.refl s)
    | true =>
      cases reading with
      | none => exact hnot (fun _ => rfl) hq
      | some r => exact steps_reading cal he' hb
  | op op => exact onOp_cases cal he' hb
  | administrative => exact .inr (steps_revokeAll hq _ _ _)
  | event event => exact .inr (steps_onEvent hb)
  | other =>
    refine .inr (hidle (fun _ _ _ hb' => ?_) (fun hb' => ?_) (fun _ hb' => ?_) hq) <;>
      rw [hb] at hb' <;> cases hb'

end

end Cctally.Quarantine
