import Cctally.QuarantineChange

/-!
# States that agree

Two states agree when every query answers alike: the same generation and trigger,
episodes, cohort and clock, and the same bounds, control witness and records of
every scope, account and axis. A record of the journal keeps agreement.
-/

namespace Cctally.Quarantine

open State

structure Agree (c s : State) : Prop where
  generation : c.generation = s.generation
  latestTrigger : c.latestTrigger = s.latestTrigger
  episodes : c.episodes = s.episodes
  cohort : c.cohort = s.cohort
  expired : c.expired = s.expired
  maxAdmittedAt : c.maxAdmittedAt = s.maxAdmittedAt
  nonInert : c.nonInertCrossPeriod = s.nonInertCrossPeriod
  scope : c.scope = s.scope
  control : ∀ a, c.control.get? a = s.control.get? a
  axis : c.axis = s.axis

namespace Agree

variable {c s : State}

theorem trans {t : State} (h : Agree c s) (h' : Agree s t) : Agree c t :=
  ⟨h.1.trans h'.1, h.2.trans h'.2, h.3.trans h'.3, h.4.trans h'.4, h.5.trans h'.5, h.6.trans h'.6, h.7.trans h'.7,
    h.8.trans h'.8, fun a => (h.9 a).trans (h'.9 a), h.10.trans h'.10⟩

theorem hasTrigger (h : Agree c s) : c.hasTrigger = s.hasTrigger := by
  rw [State.hasTrigger, State.hasTrigger, h.generation]

theorem openEpisode (h : Agree c s) : c.openEpisode = s.openEpisode := by
  rw [State.openEpisode, State.openEpisode, h.episodes]

theorem merged (h : Agree c s) (a : Option String) : c.merged a = s.merged a := by
  rw [State.merged, State.merged, h.scope]

theorem released (h : Agree c s) (a : String) (x : Axis) : c.released a x = s.released a x := by
  rw [State.released, State.released, h.axis]

theorem barrierOpen (h : Agree c s) : c.barrierOpen = s.barrierOpen := by
  rw [State.barrierOpen, State.barrierOpen, h.openEpisode, h.cohort, h.expired]

theorem waitingFor (h : Agree c s) (a : String) (x : Axis) : c.waitingFor a x = s.waitingFor a x := by
  unfold State.waitingFor
  rw [h.hasTrigger, h.released, h.openEpisode, h.cohort, h.expired, h.axis]

theorem axisGate (h : Agree c s) (a : Option String) (x : Axis) : c.axisGate a x = s.axisGate a x := by
  unfold State.axisGate
  rw [h.hasTrigger]
  cases a with
  | none => rfl
  | some a => dsimp only; rw [h.released, h.waitingFor]

theorem pendingWitness (h : Agree c s) (a : String) (x : Axis) : c.pendingWitness a x = s.pendingWitness a x := by
  rw [State.pendingWitness, State.pendingWitness, h.axis]

theorem coverableAxes (h : Agree c s) (a obs : String) : c.coverableAxes a obs = s.coverableAxes a obs := by
  unfold State.coverableAxes
  rw [h.hasTrigger, h.openEpisode, h.control, h.cohort, h.axis]
  simp only [h.released]

theorem weeklyPossibleEffect (h : Agree c s) (a : Option String) (r : Reading) :
    c.weeklyPossibleEffect a r = s.weeklyPossibleEffect a r := by
  unfold State.weeklyPossibleEffect
  rw [h.merged]

/-! ## Transitions -/

theorem setScope_eq (s : State) (name : String) (value : ScopeBounds) : ∃ bounds dirty,
    s.setScope name value = { s with bounds := bounds, dirtyBounds := dirty } ∧
      ∀ m, (bounds.get? m).getD .empty = if name = m then value else s.scope m := by
  unfold State.setScope
  split
  · rename_i hv
    refine ⟨s.bounds, s.dirtyBounds, rfl, fun m => ?_⟩
    split
    · rename_i hm
      rw [← hm, hv, Option.getD_some]
    · rfl
  · refine ⟨_, _, rfl, fun m => ?_⟩
    rw [Dict.get?_set]
    split <;> rfl

theorem setScope (h : Agree c s) (name : String) (value : ScopeBounds) :
    Agree (c.setScope name value) (s.setScope name value) := by
  obtain ⟨b, d, hc, hb⟩ := setScope_eq c name value
  obtain ⟨b', d', hs, hb'⟩ := setScope_eq s name value
  rw [hc, hs]
  refine ⟨h.1, h.2, h.3, h.4, h.5, h.6, h.7, funext fun m => ?_, h.9, h.10⟩
  rw [State.scope, State.scope, hb, hb', h.scope]

theorem touchAllAccounts (h : Agree c s) : Agree c.touchAllAccounts s.touchAllAccounts :=
  ⟨h.1, h.2, h.3, h.4, h.5, h.6, h.7, h.8, h.9, h.10⟩

theorem noteAdmitted (h : Agree c s) (t : Option Int) : Agree (c.noteAdmitted t) (s.noteAdmitted t) := by
  unfold State.noteAdmitted
  rw [h.maxAdmittedAt]
  cases t with
  | none => exact h
  | some t =>
    dsimp only
    split
    · exact ⟨h.1, h.2, h.3, h.4, h.5, rfl, h.7, h.8, h.9, h.10⟩
    · exact h

theorem noteClock (h : Agree c s) (clock : Option Int) : Agree (c.noteClock clock) (s.noteClock clock) := by
  unfold State.noteClock
  rw [h.cohort, h.expired, h.openEpisode]
  split
  · split
    · exact ⟨h.1, h.2, h.3, rfl, rfl, h.6, h.7, h.8, h.9, h.10⟩
    · exact h
  · exact h

theorem noteTimes (h : Agree c s) (rec_ : Rec) : Agree (noteTimes c rec_) (noteTimes s rec_) :=
  (h.noteClock _).noteAdmitted _

theorem onTrigger (h : Agree c s) (kind : TriggerKind) (reason : String) (at_ : Coordinate) (time : Option String) :
    Agree (c.onTrigger kind reason at_ time) (s.onTrigger kind reason at_ time) := by
  have hc := restarts_onTrigger c kind reason at_ time
  have hs := restarts_onTrigger s kind reason at_ time
  have htrigger : (c.onTrigger kind reason at_ time).latestTrigger = (s.onTrigger kind reason at_ time).latestTrigger := by
    simp only [State.onTrigger, h.generation]
  refine ⟨?_, htrigger, h.3, h.4, h.5, h.6, h.7, h.8, fun _ => rfl, funext fun a => funext fun x => ?_⟩
  · rw [hc.generation, hs.generation, h.generation]
  · rw [hc.axis, hs.axis, freshAxis, freshAxis, htrigger]

theorem setPosition (cal : Calendar) (h : Agree c s) : Agree (c.setPosition cal) (s.setPosition cal) := by
  have hk : Cohort.fromH cal (c.maxAdmittedAt.getD 0) = Cohort.fromH cal (s.maxAdmittedAt.getD 0) := by
    rw [h.maxAdmittedAt]
  unfold State.setPosition
  dsimp only
  rw [hk, h.scope]
  generalize Cohort.fromH cal (s.maxAdmittedAt.getD 0) = k
  have hcohort : Agree { c with cohort := some k, expired := false } { s with cohort := some k, expired := false } :=
    ⟨h.1, h.2, h.3, rfl, rfl, h.6, h.7, h.8, h.9, h.10⟩
  have h' := hcohort.setScope COHORT_SCOPE
    ⟨(s.scope COHORT_SCOPE).weekly.absorbCohort k, (s.scope COHORT_SCOPE).fiveHour.absorbCohort k⟩
  exact ⟨h'.1, h'.2, h'.3, h'.4, h'.5, h'.6, h'.7, h'.8, h'.9, h'.10⟩

theorem closeCurrent (h : Agree c s) (at_ : Coordinate) (time : Option String) :
    Agree (c.closeCurrent at_ time) (s.closeCurrent at_ time) := by
  unfold State.closeCurrent
  rw [h.openEpisode, h.episodes]
  split
  · exact h
  · exact ⟨h.1, h.2, rfl, h.4, h.5, h.6, h.7, h.8, h.9, h.10⟩

theorem onEpisodeOpen (h : Agree c s) (key : Coordinate) (time : Option String) :
    Agree (c.onEpisodeOpen key time) (s.onEpisodeOpen key time) := by
  have h' := h.closeCurrent key time
  unfold State.onEpisodeOpen
  dsimp only
  rw [h'.episodes]
  exact ⟨h'.1, h'.2, rfl, rfl, rfl, h'.6, h'.7, h'.8, h'.9, h'.10⟩

def Both (p q : Bool × State) : Prop := p.1 = q.1 ∧ Agree p.2 q.2

theorem onEpisodeClose (h : Agree c s) (at_ : Coordinate) (time : Option String) (episode : Option Coordinate) :
    Both (c.onEpisodeClose at_ time episode) (s.onEpisodeClose at_ time episode) := by
  unfold State.onEpisodeClose
  rw [h.openEpisode]
  split
  · exact ⟨rfl, h⟩
  · split
    · exact ⟨rfl, (h.closeCurrent at_ time).touchAllAccounts⟩
    · exact ⟨rfl, h⟩

theorem absorbReading (h : Agree c s) (name : String) (r : Reading) (possible excluded : Bool) :
    Agree (c.absorbReading name r possible excluded) (s.absorbReading name r possible excluded) := by
  unfold State.absorbReading
  rw [h.scope]
  exact h.setScope name _

theorem absorbWeeklyEffect (h : Agree c s) (name : String) (effect : WeeklyEffect) :
    Agree (c.absorbWeeklyEffect name effect) (s.absorbWeeklyEffect name effect) := by
  unfold State.absorbWeeklyEffect
  rw [h.scope]
  exact h.setScope name _

theorem absorbFiveHourEffect (h : Agree c s) (name : String) (effect : FiveHourEffect) :
    Agree (c.absorbFiveHourEffect name effect) (s.absorbFiveHourEffect name effect) := by
  unfold State.absorbFiveHourEffect
  rw [h.scope]
  exact h.setScope name _

theorem absorbEvent (h : Agree c s) (name : String) (event : Event) (excluded : Bool) :
    Agree (c.absorbEvent name event excluded) (s.absorbEvent name event excluded) := by
  cases event with
  | snapshotAccept _ _ _ _ key _ =>
    cases key with
    | none => exact h.absorbWeeklyEffect name _
    | some key => exact (h.absorbWeeklyEffect name _).absorbFiveHourEffect name _
  | weekReset => exact h.absorbWeeklyEffect name _
  | fiveHourCredit key =>
    cases key with
    | none => exact h
    | some key => exact h.absorbFiveHourEffect name _
  | weeklyCreditEffects => exact h
  | other => exact h

theorem onControlWitness (h : Agree c s) (a : String) (w : ControlWitness) :
    Agree (c.onControlWitness a w) (s.onControlWitness a w) := by
  unfold State.onControlWitness
  rw [h.hasTrigger, h.control]
  split
  · exact h
  split
  · exact h
  refine ⟨h.1, h.2, h.3, h.4, h.5, h.6, h.7, h.8, fun b => ?_, h.10⟩
  rw [Dict.get?_set, Dict.get?_set, h.control]

/-! ## Transitions of records -/

theorem of_frame {c' s' : State} (h : Agree c s) (hc : Frame c c') (hs : Frame s s') (hx : c'.axis = s'.axis) :
    Agree c' s' where
  generation := by rw [hc.generation, hs.generation, h.generation]
  latestTrigger := by rw [hc.latestTrigger, hs.latestTrigger, h.latestTrigger]
  episodes := by rw [hc.episodes, hs.episodes, h.episodes]
  cohort := by rw [hc.cohort, hs.cohort, h.cohort]
  expired := by rw [hc.expired, hs.expired, h.expired]
  maxAdmittedAt := by rw [hc.maxAdmittedAt, hs.maxAdmittedAt, h.maxAdmittedAt]
  nonInert := by rw [hc.nonInert, hs.nonInert, h.nonInert]
  scope := by rw [funext hc.scope, funext hs.scope, h.scope]
  control a := by rw [hc.control, hs.control, h.control]
  axis := hx

theorem rewrite (h : Agree c s) (a : String) (x : Axis) (new : Option AxisRecovery) :
    Agree (c.rewrite a x new) (s.rewrite a x new) :=
  h.of_frame (frame_rewrite c a x new) (frame_rewrite s a x new) <| funext fun b => funext fun y => by
    rw [axis_rewrite, axis_rewrite, h.axis]

theorem foldl {α : Type*} {f : State → α → State} (hf : ∀ c s x, Agree c s → Agree (f c x) (f s x)) :
    ∀ (l : List α) {c s : State}, Agree c s → Agree (l.foldl f c) (l.foldl f s)
  | [], _, _, h => h
  | x :: l, _, _, h => foldl hf l (hf _ _ x h)

theorem revokeAxis (h : Agree c s) (reason : Revocation) (time : Option String) (v : Bool) (a : String) (x : Axis) :
    Agree (revokeAxis reason time v c a x) (revokeAxis reason time v s a x) := by
  unfold State.revokeAxis
  rw [h.axis]
  exact h.rewrite a x _

theorem revokeAxes (h : Agree c s) (reason : Revocation) (time : Option String) (v : Bool) (axes : List Axis) (a : String) :
    Agree (axes.foldl (fun s x => State.revokeAxis reason time v s a x) c)
      (axes.foldl (fun s x => State.revokeAxis reason time v s a x) s) :=
  foldl (fun _ _ x h => h.revokeAxis reason time v a x) axes h

theorem revokeAll (h : Agree c s) (reason : Revocation) (time : Option String) {axes : List Axis} (hn : axes.Nodup)
    (v : Bool) : Agree (c.revokeAll reason time axes v) (s.revokeAll reason time axes v) :=
  h.of_frame (frame_revokeAll c reason time axes v) (frame_revokeAll s reason time axes v) <|
    funext fun b => funext fun y => by rw [axis_revokeAll _ _ _ hn, axis_revokeAll _ _ _ hn, h.axis]

theorem onDeletionOutcome (h : Agree c s) (a : Option String) (time : Option String) :
    Agree (c.onDeletionOutcome a time) (s.onDeletionOutcome a time) := by
  unfold State.onDeletionOutcome
  rw [h.nonInert]
  split
  · exact h
  split
  · exact h.revokeAll _ _ nodup_AXES _
  · exact h.revokeAxes _ _ _ AXES _

theorem cover (h : Agree c s) (id a : String) (x : Axis) : Agree (cover id a c x) (cover id a s x) := by
  unfold State.cover
  rw [h.axis]
  exact h.rewrite a x (some _)

theorem onAuthorityCompletion (h : Agree c s) (a id : String) (generation : Option Int) (observation : Option String)
    (axes : List String) : Both (c.onAuthorityCompletion a id generation observation axes)
      (s.onAuthorityCompletion a id generation observation axes) := by
  unfold State.onAuthorityCompletion
  rw [h.generation, h.hasTrigger, h.control]
  split
  · exact ⟨rfl, h⟩
  split
  swap
  · exact ⟨rfl, h⟩
  split
  · exact ⟨rfl, h⟩
  simp only [h.coverableAxes]
  split
  · exact ⟨rfl, h⟩
  have hcover {l : List Axis} : Agree (l.foldl (State.cover id a) c) (l.foldl (State.cover id a) s) :=
    foldl (fun _ _ x h => h.cover id a x) l h
  split
  · exact ⟨rfl, hcover.absorbWeeklyEffect a _⟩
  · exact ⟨rfl, hcover⟩

theorem onRelease (h : Agree c s) (a : String) (x : Option Axis) (generation : Option Int)
    (witness completion : Option String) (id : String) (time : Option String) :
    Both (c.onRelease a x generation witness completion id time) (s.onRelease a x generation witness completion id time) := by
  unfold State.onRelease
  cases x with
  | none => exact ⟨rfl, h⟩
  | some x =>
    dsimp only
    rw [h.generation, h.hasTrigger, h.axis, h.pendingWitness]
    split
    · exact ⟨rfl, h⟩
    split
    · exact ⟨rfl, h⟩
    · exact ⟨rfl, h.rewrite a x (some _)⟩

theorem settleAxis (cal : Calendar) (h : Agree c s) (own : ScopeBounds) (a : String) (r : Reading) (x : Axis) :
    Agree (settleAxis cal own a r c x) (settleAxis cal own a r s x) := by
  unfold State.settleAxis
  rw [h.axis]
  exact h.rewrite a x _

theorem witnessAxis (h : Agree c s) (m : ScopeBounds) (a : String) (r : Reading) (x : Axis) :
    Agree (witnessAxis m a r c x) (witnessAxis m a r s x) := by
  unfold State.witnessAxis
  rw [h.axis]
  exact h.rewrite a x _

theorem evaluateReading (cal : Calendar) (h : Agree c s) (a : Option String) (r : Reading) :
    Agree (c.evaluateReading cal a r).2 (s.evaluateReading cal a r).2 := by
  cases a with
  | none =>
    unfold State.evaluateReading
    dsimp only
    rw [h.weeklyPossibleEffect]
    exact h.absorbReading _ _ _ _
  | some a =>
    unfold State.evaluateReading
    dsimp only
    have hsettle : Agree (if c.hasTrigger then AXES.foldl (State.settleAxis cal (c.scope a) a r) c else c)
        (if s.hasTrigger then AXES.foldl (State.settleAxis cal (s.scope a) a r) s else s) := by
      rw [h.hasTrigger, h.scope]
      split
      · exact foldl (fun _ _ x h => h.settleAxis cal _ a r x) AXES h
      · exact h
    generalize (if c.hasTrigger then AXES.foldl (State.settleAxis cal (c.scope a) a r) c else c) = c' at hsettle ⊢
    generalize (if s.hasTrigger then AXES.foldl (State.settleAxis cal (s.scope a) a r) s else s) = s' at hsettle ⊢
    have hwitness :
        Agree (if c'.hasTrigger && c'.barrierOpen then AXES.foldl (State.witnessAxis (c'.merged (some a)) a r) c' else c')
          (if s'.hasTrigger && s'.barrierOpen then AXES.foldl (State.witnessAxis (s'.merged (some a)) a r) s' else s') := by
      rw [hsettle.hasTrigger, hsettle.barrierOpen, hsettle.merged]
      split
      · exact foldl (fun _ _ x h => h.witnessAxis _ a r x) AXES hsettle
      · exact hsettle
    rw [hwitness.weeklyPossibleEffect]
    exact hwitness.absorbReading a r _ _

/-! ## The fold -/

theorem onReading (cal : Calendar) (h : Agree c s) (r : Reading) (controlAxes : List Axis) :
    Agree (onReading cal c r controlAxes).2 (onReading cal s r controlAxes).2 := by
  have h' := h.evaluateReading cal r.accountKey r
  unfold Quarantine.onReading
  dsimp only
  split
  · split
    · exact h'
    · exact h'.onControlWitness _ _
  · exact h'

theorem onEvent (h : Agree c s) (rec_ : Rec) (event : Event) : Agree (onEvent c rec_ event) (onEvent s rec_ event) := by
  have h' := h.absorbEvent (scopeOf rec_) event false
  unfold Quarantine.onEvent
  dsimp only
  split
  · exact h'.onDeletionOutcome _ _
  · exact h'

theorem onExcluded (h : Agree c s) (at_ : Coordinate) (rec_ : Rec) : Agree (onExcluded c at_ rec_) (onExcluded s at_ rec_) := by
  have h' := h.onTrigger .excluded rec_.family at_ rec_.time
  unfold Quarantine.onExcluded
  dsimp only
  split
  · exact h'.absorbReading _ _ _ _
  · exact h'.absorbEvent _ _ _
  · exact h'.absorbWeeklyEffect _ _
  · exact h'

theorem closeAndPlace (cal : Calendar) (h : Agree c s) (at_ : Coordinate) (time : Option String)
    (episode : Option Coordinate) :
    Agree (match c.onEpisodeClose at_ time episode with | (true, s) => s.setPosition cal | (false, s) => s)
      (match s.onEpisodeClose at_ time episode with | (true, s) => s.setPosition cal | (false, s) => s) := by
  obtain ⟨hb, hs⟩ := h.onEpisodeClose at_ time episode
  cases hc : c.onEpisodeClose at_ time episode with
  | mk b c' =>
  cases hs' : s.onEpisodeClose at_ time episode with
  | mk b' s' =>
    rw [hc, hs'] at hb hs
    dsimp only at hb hs
    subst hb
    cases b with
    | true => exact hs.setPosition cal
    | false => exact hs

theorem onOp (cal : Calendar) (h : Agree c s) (at_ : Coordinate) (rec_ : Rec) (op : Op) :
    Agree (onOp cal c at_ rec_ op) (onOp cal s at_ rec_ op) := by
  cases op with
  | legacySpoolActivity reason =>
    have h' := h.onTrigger .legacySpool reason at_ rec_.time
    unfold Quarantine.onOp
    dsimp only
    split
    · exact h
    split
    · exact h'.onEpisodeOpen _ _
    · refine Agree.setPosition cal ?_
      split
      · exact (h'.onEpisodeClose at_ rec_.time none).2
      · exact h'
  | boundary expectedId failure episode =>
    have hcontinue : c.onEpisodeContinue = s.onEpisodeContinue := by
      funext key
      unfold onEpisodeContinue
      rw [h.openEpisode]
    unfold Quarantine.onOp
    dsimp only
    rw [hcontinue]
    split
    · exact h
    split
    · exact h.closeAndPlace cal at_ rec_.time none
    split
    · exact h
    · exact (h.onTrigger _ _ _ _).onEpisodeOpen _ _
  | inventoryCompletion episode =>
    unfold Quarantine.onOp
    dsimp only
    split
    · exact h
    · exact h.closeAndPlace cal at_ rec_.time episode
  | authorityCompletion account generation observation axes =>
    cases account with
    | none => exact h
    | some account =>
      unfold Quarantine.onOp
      dsimp only
      split
      · exact h
      · exact (h.onAuthorityCompletion account rec_.id generation observation axes).2
  | axisRelease account axis generation witness authority =>
    cases account with
    | none => exact h
    | some account =>
      unfold Quarantine.onOp
      dsimp only
      split
      · exact h
      · exact (h.onRelease account axis generation witness authority rec_.id rec_.time).2
  | weeklyCreditFloor effective date capture text =>
    unfold Quarantine.onOp
    dsimp only
    split
    · exact (h.revokeAll _ _ (by decide) _).absorbWeeklyEffect _ _
    · exact (h.revokeAxis _ _ _ _ _).absorbWeeklyEffect _ _
  | administrative => exact h.revokeAll _ _ nodup_AXES _
  | other => exact h

theorem onRecord (cal : Calendar) (h : Agree c s) (at_ : Coordinate) (rec_ : Rec) :
    Agree (onRecord cal c at_ rec_) (onRecord cal s at_ rec_) := by
  have h' := h.noteTimes rec_
  unfold Quarantine.onRecord
  split
  · exact h
  · split
    · exact h'.onReading cal _ _
    · exact h'
  · exact h'.onOp cal at_ rec_ _
  · exact h'.revokeAll _ _ nodup_AXES _
  · exact h'.onEvent rec_ _
  · exact h'

theorem onEntry (cal : Calendar) (h : Agree c s) (e : Entry) : Agree (onEntry cal c e) (onEntry cal s e) := by
  unfold Quarantine.onEntry
  split
  · exact h.onExcluded e.at_ e.rec_
  · exact h.onRecord cal e.at_ e.rec_

/-- **The fold keeps agreement.** -/
theorem fold (cal : Calendar) (h : Agree c s) (entries : List Entry) : Agree (fold cal c entries) (fold cal s entries) :=
  foldl (fun _ _ e h => h.onEntry cal e) entries h

theorem accepted (h : Agree c s) (e : Entry) : accepted c e = accepted s e := by
  have h' := h.noteTimes e.rec_
  unfold Quarantine.accepted
  congr 1
  split
  · exact (h'.onAuthorityCompletion _ _ _ _ _).1
  · exact (h'.onRelease _ _ _ _ _ _ _).1
  · rfl

end Agree

end Cctally.Quarantine
