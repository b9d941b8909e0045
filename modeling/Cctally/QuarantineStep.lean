import Cctally.QuarantineFold

/-!
# What a transition does to a record

The record of an axis is rewritten by a few functions of the record itself; every
other transition leaves the records, the control witnesses and the generation as
they are.
-/

namespace Cctally.Quarantine.State

structure Quiet (s s' : State) : Prop where
  generation : s'.generation = s.generation
  latestTrigger : s'.latestTrigger = s.latestTrigger
  accounts : s'.accounts = s.accounts
  control : s'.control = s.control

theorem Quiet.refl (s : State) : Quiet s s := ⟨rfl, rfl, rfl, rfl⟩

theorem Quiet.trans {s s' s'' : State} (h : Quiet s s') (h' : Quiet s' s'') : Quiet s s'' :=
  ⟨h'.1.trans h.1, h'.2.trans h.2, h'.3.trans h.3, h'.4.trans h.4⟩

theorem Quiet.axis {s s' : State} (h : Quiet s s') (a : String) (x : Axis) : s'.axis a x = s.axis a x := by
  simp only [State.axis, freshAxis, h.accounts, h.latestTrigger]

theorem Quiet.hasTrigger {s s' : State} (h : Quiet s s') : s'.hasTrigger = s.hasTrigger := by
  rw [State.hasTrigger, State.hasTrigger, h.generation]

theorem quiet_setScope (s : State) (name : String) (value : ScopeBounds) : Quiet s (s.setScope name value) := by
  unfold setScope
  split
  · exact .refl s
  · exact ⟨rfl, rfl, rfl, rfl⟩

theorem quiet_touchAllAccounts (s : State) : Quiet s s.touchAllAccounts := ⟨rfl, rfl, rfl, rfl⟩

theorem quiet_noteAdmitted (s : State) (t : Option Int) : Quiet s (s.noteAdmitted t) := by
  unfold noteAdmitted
  split
  · exact .refl s
  · split
    · exact ⟨rfl, rfl, rfl, rfl⟩
    · exact .refl s

theorem quiet_noteClock (s : State) (clock : Option Int) : Quiet s (s.noteClock clock) := by
  unfold noteClock
  split
  · split
    · exact ⟨rfl, rfl, rfl, rfl⟩
    · exact .refl s
  · exact .refl s

theorem quiet_setPosition (cal : Calendar) (s : State) : Quiet s (s.setPosition cal) := by
  have h : Quiet s { s with cohort := some (Cohort.fromH cal (s.maxAdmittedAt.getD 0)), expired := false } :=
    ⟨rfl, rfl, rfl, rfl⟩
  exact (h.trans (quiet_setScope _ _ _)).trans ⟨rfl, rfl, rfl, rfl⟩

theorem quiet_closeCurrent (s : State) (at_ : Coordinate) (time : Option String) : Quiet s (s.closeCurrent at_ time) := by
  unfold closeCurrent
  split
  · exact .refl s
  · exact ⟨rfl, rfl, rfl, rfl⟩

theorem quiet_onEpisodeOpen (s : State) (key : Coordinate) (time : Option String) : Quiet s (s.onEpisodeOpen key time) :=
  (quiet_closeCurrent s key time).trans ⟨rfl, rfl, rfl, rfl⟩

theorem quiet_onEpisodeClose (s : State) (at_ : Coordinate) (time : Option String) (episode : Option Coordinate) :
    Quiet s (s.onEpisodeClose at_ time episode).2 := by
  unfold onEpisodeClose
  split
  · exact .refl s
  · split
    · exact (quiet_closeCurrent s at_ time).trans (quiet_touchAllAccounts _)
    · exact .refl s

theorem quiet_absorbReading (s : State) (name : String) (r : Reading) (p e : Bool) : Quiet s (s.absorbReading name r p e) :=
  quiet_setScope s name _

theorem quiet_absorbWeeklyEffect (s : State) (name : String) (effect : WeeklyEffect) :
    Quiet s (s.absorbWeeklyEffect name effect) :=
  quiet_setScope s name _

theorem quiet_absorbFiveHourEffect (s : State) (name : String) (effect : FiveHourEffect) :
    Quiet s (s.absorbFiveHourEffect name effect) :=
  quiet_setScope s name _

theorem quiet_absorbEvent (s : State) (scope : String) (event : Event) (excluded : Bool) :
    Quiet s (s.absorbEvent scope event excluded) := by
  cases event with
  | snapshotAccept _ _ _ _ key _ =>
    cases key with
    | none => exact quiet_absorbWeeklyEffect s scope _
    | some key => exact (quiet_absorbWeeklyEffect s scope _).trans (quiet_absorbFiveHourEffect _ scope _)
  | weekReset => exact quiet_absorbWeeklyEffect s scope _
  | fiveHourCredit key =>
    cases key with
    | none => exact .refl s
    | some key => exact quiet_absorbFiveHourEffect s scope _
  | weeklyCreditEffects => exact .refl s
  | other => exact .refl s

/-! ## Records rewritten -/

theorem axis_setAxis (s : State) (a b : String) (x y : Axis) (rec_ : AxisRecovery) :
    (s.setAxis a x rec_).axis b y = if a = b ∧ x = y then rec_ else s.axis b y := by
  have h := Dict.getSub?_setSub s.accounts a b x y rec_
  unfold Dict.getSub? at h
  simp only [State.axis, setAxis, h, freshAxis]
  split <;> rfl

structure Frame (s s' : State) : Prop where
  generation : s'.generation = s.generation
  latestTrigger : s'.latestTrigger = s.latestTrigger
  episodes : s'.episodes = s.episodes
  cohort : s'.cohort = s.cohort
  expired : s'.expired = s.expired
  maxAdmittedAt : s'.maxAdmittedAt = s.maxAdmittedAt
  bounds : s'.bounds = s.bounds
  control : s'.control = s.control
  nonInert : s'.nonInertCrossPeriod = s.nonInertCrossPeriod

theorem Frame.refl (s : State) : Frame s s := ⟨rfl, rfl, rfl, rfl, rfl, rfl, rfl, rfl, rfl⟩

theorem Frame.trans {s s' s'' : State} (h : Frame s s') (h' : Frame s' s'') : Frame s s'' :=
  ⟨h'.1.trans h.1, h'.2.trans h.2, h'.3.trans h.3, h'.4.trans h.4, h'.5.trans h.5, h'.6.trans h.6, h'.7.trans h.7,
    h'.8.trans h.8, h'.9.trans h.9⟩

theorem frame_rewrite (s : State) (a : String) (x : Axis) (new : Option AxisRecovery) : Frame s (s.rewrite a x new) := by
  cases new with
  | none => exact .refl s
  | some rec_ => exact ⟨rfl, rfl, rfl, rfl, rfl, rfl, rfl, rfl, rfl⟩

theorem frame_foldl {α : Type*} {f : State → α → State} (h : ∀ s x, Frame s (f s x)) (l : List α) (s : State) :
    Frame s (l.foldl f s) := by
  induction l generalizing s with
  | nil => exact .refl s
  | cons x l ih => exact (h s x).trans (ih (f s x))

theorem Frame.scope {s s' : State} (h : Frame s s') (name : String) : s'.scope name = s.scope name := by
  rw [State.scope, State.scope, h.bounds]

theorem Frame.merged {s s' : State} (h : Frame s s') (a : Option String) : s'.merged a = s.merged a := by
  have hs : s'.scope = s.scope := funext h.scope
  simp only [State.merged, hs]

theorem Frame.barrierOpen {s s' : State} (h : Frame s s') : s'.barrierOpen = s.barrierOpen := by
  simp only [State.barrierOpen, openEpisode, h.episodes, h.cohort, h.expired]

theorem axis_rewrite (s : State) (a b : String) (x y : Axis) (new : Option AxisRecovery) :
    (s.rewrite a x new).axis b y = if a = b ∧ x = y then new.getD (s.axis b y) else s.axis b y := by
  cases new with
  | none => simp [rewrite]
  | some rec_ => exact axis_setAxis s a b x y rec_

theorem axis_foldl_rewrite {a : String} {f : State → Axis → State} {g : Axis → AxisRecovery → Option AxisRecovery}
    (h : ∀ s x, f s x = s.rewrite a x (g x (s.axis a x))) : ∀ {axes : List Axis}, axes.Nodup → ∀ (s : State) b y,
      (axes.foldl f s).axis b y =
        if a = b ∧ y ∈ axes then (g y (s.axis b y)).getD (s.axis b y) else s.axis b y
  | [], _, s, b, y => by simp
  | x :: axes, hn, s, b, y => by
    rw [List.nodup_cons] at hn
    rw [List.foldl_cons, axis_foldl_rewrite h hn.2, h, axis_rewrite]
    by_cases hb : a = b
    · subst hb
      by_cases hx : x = y
      · subst hx; simp [hn.1]
      · simp [hx, Ne.symm hx]
    · simp [hb]

theorem axis_absent {s : State} {a : String} (h : a ∉ s.accounts.keys) (x : Axis) : s.axis a x = s.freshAxis := by
  have hsub : s.accounts.sub a = .empty := by rw [Dict.sub, Dict.get?_eq_none.2 h, Option.getD_none]
  rw [State.axis, hsub, Dict.get?_empty, Option.getD_none]

theorem revoked_freshAxis (reason : Revocation) (time : Option String) (v : Bool) (s : State) :
    revoked reason time v s.freshAxis = none := by
  simp [revoked, freshAxis]

theorem axis_revokeAxis (reason : Revocation) (time : Option String) (v : Bool) (s : State) (a b : String) (x y : Axis) :
    (revokeAxis reason time v s a x).axis b y =
      if a = b ∧ x = y then (revoked reason time v (s.axis b y)).getD (s.axis b y) else s.axis b y := by
  rw [revokeAxis, axis_rewrite]
  by_cases h : a = b ∧ x = y
  · obtain ⟨rfl, rfl⟩ := h; rfl
  · rw [if_neg h, if_neg h]

theorem axis_revokeAxes (reason : Revocation) (time : Option String) (v : Bool) {axes : List Axis} (hn : axes.Nodup)
    (s : State) (a b : String) (y : Axis) :
    (axes.foldl (fun s x => revokeAxis reason time v s a x) s).axis b y =
      if a = b ∧ y ∈ axes then (revoked reason time v (s.axis b y)).getD (s.axis b y) else s.axis b y :=
  axis_foldl_rewrite (g := fun _ rec_ => revoked reason time v rec_) (fun _ _ => rfl) hn s b y

theorem frame_revokeAxes (reason : Revocation) (time : Option String) (v : Bool) (axes : List Axis) (s : State)
    (a : String) : Frame s (axes.foldl (fun s x => revokeAxis reason time v s a x) s) :=
  frame_foldl (fun s x => frame_rewrite s a x _) axes s

theorem frame_revokeAll (s : State) (reason : Revocation) (time : Option String) (axes : List Axis) (v : Bool) :
    Frame s (s.revokeAll reason time axes v) :=
  frame_foldl (fun s a => frame_revokeAxes reason time v axes s a) _ s

/-- **Every account is revoked**: one without records has nothing to revoke. -/
theorem axis_revokeAll (s : State) (reason : Revocation) (time : Option String) {axes : List Axis} (hn : axes.Nodup)
    (v : Bool) (b : String) (y : Axis) :
    (s.revokeAll reason time axes v).axis b y =
      if y ∈ axes then (revoked reason time v (s.axis b y)).getD (s.axis b y) else s.axis b y := by
  have hfold : ∀ (l : List String), l.Nodup → ∀ s : State,
      (l.foldl (fun s a => axes.foldl (fun s x => revokeAxis reason time v s a x) s) s).axis b y =
        if b ∈ l ∧ y ∈ axes then (revoked reason time v (s.axis b y)).getD (s.axis b y) else s.axis b y := by
    intro l
    induction l with
    | nil => intro _ s; simp
    | cons a l ih =>
      intro hl s
      rw [List.nodup_cons] at hl
      rw [List.foldl_cons, ih hl.2, axis_revokeAxes reason time v hn]
      by_cases hb : a = b
      · subst hb; simp [hl.1]
      · simp [hb, Ne.symm hb]
  rw [revokeAll, hfold _ (nodup_sortedSet _)]
  by_cases hb : b ∈ s.accounts.keys
  · simp [mem_sortedSet, hb]
  · rw [axis_absent hb, revoked_freshAxis]
    simp

theorem frame_cover (id a : String) (l : List Axis) (s : State) : Frame s (l.foldl (cover id a) s) := by
  have h (s : State) (x : Axis) : Frame s (cover id a s x) := ⟨rfl, rfl, rfl, rfl, rfl, rfl, rfl, rfl, rfl⟩
  exact frame_foldl h l s

theorem axis_cover (id a b : String) (y : Axis) : ∀ (l : List Axis) (s : State),
    (l.foldl (cover id a) s).axis b y =
      if a = b ∧ y ∈ l then { s.axis b y with coverageId := some id } else s.axis b y
  | [], s => by simp
  | x :: l, s => by
    rw [List.foldl_cons, axis_cover id a b y l, cover, axis_setAxis]
    by_cases hb : a = b
    · subst hb
      by_cases hx : x = y
      · subst hx
        by_cases hm : x ∈ l <;> simp [hm]
      · simp [hx, Ne.symm hx]
    · simp [hb]

def readRecord (cal : Calendar) (s : State) (a : String) (r : Reading) (x : Axis) (rec_ : AxisRecovery) : AxisRecovery :=
  let rec_ := (settled cal (s.scope a) r x rec_).getD rec_
  if s.barrierOpen then (witnessed (s.merged (some a)) r x rec_).getD rec_ else rec_

theorem nodup_AXES : AXES.Nodup := by decide

theorem axis_evaluateReading (cal : Calendar) {s : State} (ht : s.hasTrigger = true) (a b : String) (r : Reading)
    (y : Axis) : (s.evaluateReading cal (some a) r).2.axis b y =
      if a = b then readRecord cal s a r y (s.axis b y) else s.axis b y := by
  have hsettle := axis_foldl_rewrite (f := settleAxis cal (s.scope a) a r) (a := a)
    (g := fun x rec_ => settled cal (s.scope a) r x rec_) (fun _ _ => rfl) nodup_AXES s b y
  have hframe : Frame s (AXES.foldl (settleAxis cal (s.scope a) a r) s) :=
    frame_foldl (fun s x => frame_rewrite s a x _) AXES s
  have ht' : (AXES.foldl (settleAxis cal (s.scope a) a r) s).hasTrigger = true := by
    rw [hasTrigger, hframe.generation]; exact ht
  simp only [evaluateReading, ht, if_true]
  rw [(quiet_absorbReading _ a r _ false).axis]
  simp only [ht', Bool.true_and, hframe.barrierOpen, hframe.merged]
  unfold readRecord
  by_cases ho : s.barrierOpen = true
  · have hwitness := axis_foldl_rewrite (f := witnessAxis (s.merged (some a)) a r) (a := a)
      (g := fun x rec_ => witnessed (s.merged (some a)) r x rec_) (fun _ _ => rfl) nodup_AXES
      (AXES.foldl (settleAxis cal (s.scope a) a r) s) b y
    rw [if_pos ho, hwitness, hsettle]
    by_cases hb : a = b
    · simp [hb, mem_AXES, ho]
    · simp [hb]
  · rw [if_neg ho, hsettle]
    by_cases hb : a = b
    · simp [hb, mem_AXES, ho]
    · simp [hb]

theorem evaluateReading_eq (cal : Calendar) (s : State) (a : Option String) (r : Reading) :
    ∃ t name possible, Frame s t ∧ (s.evaluateReading cal a r).2 = t.absorbReading name r possible false := by
  cases a with
  | none => exact ⟨s, EXCLUDED_SCOPE, _, .refl s, rfl⟩
  | some a =>
    have hsettle : Frame s (if s.hasTrigger then AXES.foldl (settleAxis cal (s.scope a) a r) s else s) := by
      split
      · exact frame_foldl (fun s x => frame_rewrite s a x _) AXES s
      · exact .refl s
    have hwitness (m : ScopeBounds) (t : State) :
        Frame t (if t.hasTrigger && t.barrierOpen then AXES.foldl (witnessAxis m a r) t else t) := by
      split
      · exact frame_foldl (fun s x => frame_rewrite s a x _) AXES t
      · exact .refl t
    refine ⟨_, a, _, ?_, rfl⟩
    exact hsettle.trans (hwitness _ _)

theorem axis_evaluateReading_none (cal : Calendar) (s : State) (r : Reading) (b : String) (y : Axis) :
    (s.evaluateReading cal none r).2.axis b y = s.axis b y :=
  (quiet_absorbReading s EXCLUDED_SCOPE r _ false).axis b y

theorem evaluateReading_noTrigger (cal : Calendar) {s : State} (ht : s.hasTrigger = false) (a : String) (r : Reading) :
    (s.evaluateReading cal (some a) r).2 = s.absorbReading a r (s.weeklyPossibleEffect (some a) r) false := by
  simp [evaluateReading, ht]

theorem mem_coverableAxes {s : State} {a o : String} {x : Axis} :
    x ∈ s.coverableAxes a o ↔ s.hasTrigger = true ∧ s.openEpisode = none ∧ ∃ w, s.control.get? a = some w ∧
      w.observationId = o ∧ absentOr s.cohort (fun c => c.e ≤ w.captureEpoch) ∧ x ∈ w.axes ∧
      (s.axis a x).state = .paused ∧ (s.axis a x).coverageId = none := by
  have hs : ¬ s.released a x = true ↔ (s.axis a x).state = .paused := by
    unfold released
    cases (s.axis a x).state <;> simp
  unfold coverableAxes
  by_cases ht : s.hasTrigger = true
  swap
  · simp [ht]
  by_cases ho : s.openEpisode = none
  swap
  · simp [ho, Option.isSome_iff_ne_none]
  cases hc : s.control.get? a with
  | none => simp [ht, ho]
  | some w =>
    by_cases hw : w.observationId = o
    swap
    · simp [ht, ho, hw]
    by_cases he : absentOr s.cohort (fun c => c.e ≤ w.captureEpoch)
    · simp [ht, ho, hw, he, mem_AXES, ← hs]
    · simp [ht, ho, hw, he]

theorem onAuthorityCompletion_cases (s : State) (a id : String) (generation : Option Int) (observation : Option String)
    (names : List String) :
    s.onAuthorityCompletion a id generation observation names = (false, s) ∨
      ∃ axes w o, generation = some (s.generation : Int) ∧ axesOf names = some axes ∧ s.control.get? a = some w ∧
        observation = some o ∧ axes.all (· ∈ w.axes) = true ∧ axes.filter (· ∈ s.coverableAxes a o) ≠ [] ∧
        ∃ t, Quiet ((axes.filter (· ∈ s.coverableAxes a o)).foldl (cover id a) s) t ∧
          s.onAuthorityCompletion a id generation observation names = (true, t) := by
  unfold onAuthorityCompletion
  by_cases hg : generation ≠ some (s.generation : Int) ∨ (!s.hasTrigger) = true
  · exact .inl (if_pos hg)
  rw [if_neg hg]
  push Not at hg
  cases hx : axesOf names with
  | none => exact .inl rfl
  | some axes =>
  cases hw : s.control.get? a with
  | none => exact .inl rfl
  | some w =>
  cases observation with
  | none => exact .inl rfl
  | some o =>
    dsimp only
    by_cases hall : axes.all (· ∈ w.axes) = true
    swap
    · exact .inl (if_pos hall)
    by_cases hn : axes.filter (· ∈ s.coverableAxes a o) = []
    · exact .inl (by rw [if_neg (not_not_intro hall), if_pos hn])
    rw [if_neg (not_not_intro hall), if_neg hn]
    refine .inr ⟨axes, w, o, hg.1, rfl, rfl, rfl, hall, hn, ?_⟩
    split
    · exact ⟨_, quiet_absorbWeeklyEffect _ a _, rfl⟩
    · exact ⟨_, .refl _, rfl⟩

theorem onRelease_cases (s : State) (a : String) (x : Option Axis) (generation : Option Int)
    (witness completion : Option String) (id : String) (time : Option String) :
    s.onRelease a x generation witness completion id time = (false, s) ∨
      ∃ y c, x = some y ∧ completion = some c ∧ generation = some (s.generation : Int) ∧ s.hasTrigger = true ∧
        (s.axis a y).state = .paused ∧ (s.axis a y).coverageId = some c ∧ s.pendingWitness a y = witness ∧
        s.onRelease a x generation witness completion id time =
          (true, s.setAxis a y { s.axis a y with
            state := .recovered, releaseId := some id, recoveredAt := time, revocation := none, notBefore := none }) := by
  unfold onRelease
  cases x with
  | none => exact .inl rfl
  | some y =>
    dsimp only
    by_cases hg : generation ≠ some (s.generation : Int) ∨ (!s.hasTrigger) = true
    · exact .inl (if_pos hg)
    rw [if_neg hg]
    split
    · exact .inl rfl
    · rename_i h
      push Not at hg h
      obtain ⟨c, hc⟩ := Option.ne_none_iff_exists'.1 h.2.1
      refine .inr ⟨y, c, rfl, ?_, hg.1, by simpa using hg.2, h.1, hc, h.2.2.2, rfl⟩
      rw [← h.2.2.1, hc]

end Cctally.Quarantine.State
