import Cctally.QuarantineMarks

/-!
# The tables behind a state

Inside a cycle the tables are right outside the marks, and the triggers that are
missing are those the state still holds. A transition keeps this; a trigger keeps it
where no control witness would be cleared without a mark.
-/

namespace Cctally.Quarantine

open State

/-! ## Triggers -/

def triggers (s : State) (e : Entry) : Bool :=
  e.excluded ||
    match e.rec_.body with
    | .op (.legacySpoolActivity _) => e.rec_.stamped
    | .op (.boundary expectedId inventoryFailure inventoryEpisode) =>
      e.rec_.stamped && expectedId && inventoryFailure && !inventoryEpisode.any s.onEpisodeContinue
    | _ => false

structure Before (s t : State) : Prop where
  marks : Marks s t
  accounts : t.accounts = s.accounts
  control : t.control = s.control
  dirtyControl : t.dirtyControl = s.dirtyControl

theorem before_noteTimes (s : State) (rec_ : Rec) : Before s (noteTimes s rec_) := by
  have hq := quiet_noteTimes s rec_
  refine ⟨Marks.noteTimes s rec_, hq.accounts, hq.control, ?_⟩
  have hc (clock : Option Int) : (s.noteClock clock).dirtyControl = s.dirtyControl := by
    unfold noteClock
    split
    · split <;> rfl
    · rfl
  have ha (t : State) (at_ : Option Int) : (t.noteAdmitted at_).dirtyControl = t.dirtyControl := by
    unfold noteAdmitted
    split
    · rfl
    · split <;> rfl
  exact (ha _ _).trans (hc _)

inductive Effect (s : State) : Bool → State → Prop
  | restart {t s'} (kind : TriggerKind) (reason : String) (at_ : Coordinate) (time : Option String) :
      Before s t → Marks (t.onTrigger kind reason at_ time) s' → Effect s true s'
  | marks {s'} : Marks s s' → Effect s false s'

theorem noteTimes_onEpisodeContinue (s : State) (rec_ : Rec) : (noteTimes s rec_).onEpisodeContinue = s.onEpisodeContinue := by
  funext key
  unfold onEpisodeContinue
  rw [noteTimes_openEpisode]

theorem marks_closeAndPlace (cal : Calendar) {s t : State} (h : Marks s t) (at_ : Coordinate) (time : Option String)
    (episode : Option Coordinate) :
    Marks s (match t.onEpisodeClose at_ time episode with | (true, s) => s.setPosition cal | (false, s) => s) := by
  have hclose := Marks.onEpisodeClose t at_ time episode
  split
  · rename_i u hu
    rw [hu] at hclose
    exact (h.trans hclose).trans (Marks.setPosition cal u)
  · rename_i u hu
    rw [hu] at hclose
    exact h.trans hclose

theorem effect_onOp (cal : Calendar) (s : State) {e : Entry} (he : e.excluded = false) {op : Op} (hb : e.rec_.body = .op op) :
    Effect s (triggers s e) (onOp cal (noteTimes s e.rec_) e.at_ e.rec_ op) := by
  have hbefore := before_noteTimes s e.rec_
  have hmarks := hbefore.marks
  unfold triggers
  rw [he, hb, Bool.false_or]
  cases op with
  | legacySpoolActivity reason =>
    unfold onOp
    dsimp only
    cases hs : e.rec_.stamped with
    | false => exact .marks hmarks
    | true =>
      rw [if_neg (by simp)]
      refine .restart .legacySpool reason e.at_ e.rec_.time hbefore ?_
      split
      · exact Marks.onEpisodeOpen _ _ _
      · refine Marks.trans ?_ (Marks.setPosition cal _)
        split
        · exact Marks.onEpisodeClose _ _ _ _
        · exact Marks.refl _
  | boundary expectedId failure episode =>
    unfold onOp
    dsimp only
    rw [noteTimes_onEpisodeContinue]
    cases hs : e.rec_.stamped && expectedId with
    | false =>
      rw [if_pos (by simpa [or_iff_not_imp_left] using hs)]
      exact .marks hmarks
    | true =>
      rw [if_neg (by simpa using hs)]
      cases failure with
      | false => exact .marks (marks_closeAndPlace cal hmarks _ _ _)
      | true =>
        rw [if_neg (by simp)]
        cases hc : episode.any s.onEpisodeContinue with
        | true => exact .marks hmarks
        | false =>
          rw [if_neg (by simp)]
          exact .restart .legacySpool _ e.at_ e.rec_.time hbefore (Marks.onEpisodeOpen _ _ _)
  | inventoryCompletion episode =>
    unfold onOp
    dsimp only
    split
    · exact .marks hmarks
    · exact .marks (marks_closeAndPlace cal hmarks _ _ _)
  | authorityCompletion account generation observation axes =>
    refine .marks ?_
    cases account with
    | none => exact hmarks
    | some account =>
      unfold onOp
      dsimp only
      split
      · exact hmarks
      · exact hmarks.trans (Marks.onAuthorityCompletion _ _ _ _ _ _)
  | axisRelease account axis generation witness authority =>
    refine .marks ?_
    cases account with
    | none => exact hmarks
    | some account =>
      unfold onOp
      dsimp only
      split
      · exact hmarks
      · exact hmarks.trans (Marks.onRelease _ _ _ _ _ _ _ _)
  | weeklyCreditFloor effective date capture text =>
    refine .marks (hmarks.trans ?_)
    refine Marks.trans ?_ (Marks.setScope _ (scopeOf e.rec_) _)
    split
    · exact Marks.revokeAll _ _ _ _ _
    · exact Marks.rewrite _ _ _ _
  | administrative => exact .marks (hmarks.trans (Marks.revokeAll _ _ _ _ _))
  | other => exact .marks hmarks

theorem effect_onEntry (cal : Calendar) (s : State) (e : Entry) : Effect s (triggers s e) (onEntry cal s e) := by
  unfold onEntry
  by_cases he : e.excluded = true
  · rw [if_pos he, triggers, he, Bool.true_or]
    refine .restart .excluded e.rec_.family e.at_ e.rec_.time ⟨Marks.refl s, rfl, rfl, rfl⟩ ?_
    unfold onExcluded
    dsimp only
    split
    · exact Marks.setScope _ _ _
    · exact Marks.absorbEvent _ _ _ _
    · exact Marks.setScope _ _ _
    · exact Marks.refl _
  rw [if_neg he]
  have he' : e.excluded = false := by simpa using he
  have hmarks := Marks.noteTimes s e.rec_
  have hquiet (h : ∀ op, e.rec_.body ≠ .op op) : triggers s e = false := by
    unfold triggers
    rw [he', Bool.false_or]
    split
    · rename_i hb; exact absurd hb (h _)
    · rename_i hb; exact absurd hb (h _)
    · rfl
  unfold onRecord
  cases hb : e.rec_.body with
  | observation isClaude clock reading controlAxes =>
    rw [hquiet fun op h => by rw [hb] at h; cases h]
    cases isClaude with
    | false => exact .marks (Marks.refl s)
    | true =>
      cases reading with
      | none => exact .marks hmarks
      | some r =>
        refine .marks (hmarks.trans ?_)
        have heval := Marks.evaluateReading cal (noteTimes s e.rec_) r.accountKey r
        dsimp only [onReading]
        split
        · split
          · exact heval
          · exact heval.trans (Marks.onControlWitness _ _ _)
        · exact heval
  | op op => exact effect_onOp cal s he' hb
  | administrative =>
    rw [hquiet fun op h => by rw [hb] at h; cases h]
    exact .marks (hmarks.trans (Marks.revokeAll _ _ _ _ _))
  | event event =>
    rw [hquiet fun op h => by rw [hb] at h; cases h]
    refine .marks (hmarks.trans ?_)
    have habsorb := Marks.absorbEvent (noteTimes s e.rec_) (scopeOf e.rec_) event false
    dsimp only [onEvent]
    split
    · exact habsorb.trans (Marks.onDeletionOutcome _ _ _)
    · exact habsorb
  | other =>
    rw [hquiet fun op h => by rw [hb] at h; cases h]
    exact .marks hmarks

structure Sound (s : State) : Prop where
  fresh : s.generation = 0 → ∀ a x, s.axis a x = s.freshAxis
  released : ∀ a x, (s.axis a x).state = .recovered →
    (s.axis a x).releaseId ≠ none ∧ (s.axis a x).witnessId ≠ none ∧ (s.axis a x).coverageId ≠ none

theorem witnessId_of_pending {rec_ : AxisRecovery} (h : rec_.pending ≠ none) : rec_.witnessId ≠ none := by
  intro hw
  rw [AxisRecovery.pending, hw, ite_self] at h
  exact h rfl

theorem Sound.onEntry {s : State} (h : Sound s) (cal : Calendar) {e : Entry} (hu : ¬ UnwitnessedRelease s e) :
    Sound (onEntry cal s e) := by
  obtain hr | hs := onEntry_cases cal s e
  · refine ⟨fun hg => ?_, fun a x hst => ?_⟩
    · rw [hr.generation] at hg; omega
    · rw [hr.axis] at hst; cases hst
  constructor
  · intro hg a x
    rw [hs.generation] at hg
    have hfresh := h.fresh hg a x
    have hsame : (Quarantine.onEntry cal s e).freshAxis = s.freshAxis := by
      rw [freshAxis, freshAxis, hs.latestTrigger]
    generalize hnew : (Quarantine.onEntry cal s e).axis a x = new
    cases hnew ▸ hs.axis a x with
    | kept => rw [hfresh, hsame]
    | voided _ _ _ hh => rw [hfresh] at hh; simp [freshAxis] at hh
    | covered ht => rw [hasTrigger, hg] at ht; cases ht
    | witnessed _ _ hn => rw [hfresh] at hn; simp [freshAxis] at hn
    | released _ _ _ _ _ hn => rw [hfresh] at hn; cases hn
  · intro a x hst
    generalize hnew : (Quarantine.onEntry cal s e).axis a x = new at hst ⊢
    cases hnew ▸ hs.axis a x with
    | kept => exact h.released a x hst
    | voided hs' => rw [hs'] at hst; cases hst
    | covered _ hs' => rw [hs'] at hst; cases hst
    | witnessed hs' => rw [hs'] at hst; cases hst
    | released _ _ hc hr hw' hn _ hu' =>
      refine ⟨hr, ?_, by rw [hc, hn]; simp⟩
      rw [hw']
      exact witnessId_of_pending fun hp => hu (hu' hp)

/-! ## Tables inside a cycle -/

def TriggerRows (rows : Dict Nat Trigger) (s : State) : Prop :=
  (∀ k ∈ rows.keys, k ≤ s.generation) ∧ latestOf rows = s.latestTrigger ∧
    (s.latestTrigger.map Trigger.seq).getD 0 = s.generation

def weeklyAtRest (db : Tables) (scope : String) : Option WeeklyBounds := (db.weekly.get? scope).getD (some .empty)

def fiveHourAtRest (db : Tables) (scope : String) : Option FiveHourBounds := (db.fiveHour.get? scope).getD (some .empty)

def metaAtRest (db : Tables) : Option Meta := db.metaRow.getD (some ⟨none, false, none⟩)

def axisAtRest (db : Tables) (generation : Nat) (fresh : AxisRecovery) (a : String) (x : Axis) : AxisRecovery :=
  (((db.axisState.sub generation).getSub? a x).map fun row => (axisFromRow row).getD fresh).getD fresh

structure Stored (db : Tables) (s : State) : Prop where
  triggers : ∃ rows, s.newTriggers.foldlM insertTrigger db.triggers = .ok rows ∧ TriggerRows rows s
  episodes : EpisodesStored db.episodes s
  weekly : Behind (weeklyAtRest db) (fun n => some (s.scope n).weekly) s.dirtyBounds
  fiveHour : Behind (fiveHourAtRest db) (fun n => some (s.scope n).fiveHour) s.dirtyBounds
  verifiedWeekly : ∀ n, db.weekly.get? n ≠ some none
  verifiedFiveHour : ∀ n, db.fiveHour.get? n ≠ some none
  control : Behind db.control.get? (fun a => (s.control.get? a).map some) s.dirtyControl
  metaRow : s.dirtyMeta = false → metaAtRest db = some (metaOf s)
  axis : s.generation ≠ 0 → Behind (axisAtRest db s.generation s.freshAxis) s.axis s.dirtyAccounts
  newer : ∀ g, s.generation < g → db.axisState.get? g = none

theorem Stored.marks {db : Tables} {s s' : State} (h : Stored db s) (hm : Marks s s') : Stored db s' where
  triggers := by
    obtain ⟨rows, hrows, hk, hl, hseq⟩ := h.triggers
    refine ⟨rows, by rw [hm.newTriggers, hrows], fun k hk' => ?_, hl.trans hm.latestTrigger.symm, ?_⟩
    · rw [hm.generation]; exact hk k hk'
    · rw [hm.generation, hm.latestTrigger, hseq]
  episodes := hm.episodes _ h.episodes
  weekly := h.weekly.after (hm.scope.map fun b => some b.weekly)
  fiveHour := h.fiveHour.after (hm.scope.map fun b => some b.fiveHour)
  verifiedWeekly := h.verifiedWeekly
  verifiedFiveHour := h.verifiedFiveHour
  control := h.control.after (hm.control.map fun w => w.map some)
  metaRow hd := by
    obtain ⟨hd, he⟩ := hm.metaRow hd
    rw [h.metaRow hd, he]
  axis hg := by
    rw [hm.generation] at hg ⊢
    have hfresh : s'.freshAxis = s.freshAxis := by rw [freshAxis, freshAxis, hm.latestTrigger]
    rw [hfresh]
    exact (h.axis hg).after hm.axis
  newer g hg := h.newer g (hm.generation ▸ hg)

theorem latestOf_set {rows : Dict Nat Trigger} {n : Nat} (h : ∀ k ∈ rows.keys, k ≤ n) (trig : Trigger) :
    latestOf (rows.set (n + 1) trig) = some trig := by
  have hmax : (rows.set (n + 1) trig).keys.max? = some (n + 1) := by
    rw [List.max?_eq_some_iff]
    refine ⟨Dict.mem_keys_set.2 (.inl rfl), fun k hk => ?_⟩
    rcases Dict.mem_keys_set.1 hk with rfl | hk
    · exact le_rfl
    · exact (h k hk).trans (Nat.le_succ n)
  rw [latestOf, hmax, Option.bind_some, Dict.get?_set_self]

/-- **A trigger clears what it marks**, where each account with a control witness is known or marked. -/
theorem Stored.onTrigger {db : Tables} {s : State} (h : Stored db s) (kind : TriggerKind) (reason : String)
    (at_ : Coordinate) (time : Option String)
    (hc : ∀ a, s.control.get? a ≠ none → a ∈ s.accounts.keys ∨ a ∈ s.dirtyControl) :
    Stored db (s.onTrigger kind reason at_ time) where
  triggers := by
    obtain ⟨rows, hrows, hk, -, -⟩ := h.triggers
    have hnew : rows.get? (s.generation + 1) = none :=
      Dict.get?_eq_none.2 fun hm => absurd (hk _ hm) (by omega)
    refine ⟨rows.set (s.generation + 1) ⟨s.generation + 1, at_, kind, reason, time⟩, ?_, ?_, latestOf_set hk _, rfl⟩
    · simp only [State.onTrigger, List.foldlM_append, hrows, List.foldlM_cons, List.foldlM_nil]
      simp [bind, Except.bind, insertTrigger, hnew, pure, Except.pure]
    · intro k hk'
      rcases Dict.mem_keys_set.1 hk' with rfl | hk'
      · exact le_rfl
      · exact (hk k hk').trans (Nat.le_succ _)
  episodes := h.episodes
  weekly := h.weekly
  fiveHour := h.fiveHour
  verifiedWeekly := h.verifiedWeekly
  verifiedFiveHour := h.verifiedFiveHour
  control := by
    intro a ha
    rw [State.onTrigger, List.mem_append, not_or] at ha
    have hnone : s.control.get? a = none := by
      by_contra hs
      exact (hc a hs).elim ha.1 ha.2
    have hrest : db.control.get? a = (s.control.get? a).map some := h.control a ha.2
    rw [hrest, hnone]
    rfl
  metaRow := nofun
  axis _ := by
    have hr := restarts_onTrigger s kind reason at_ time
    intro a _
    funext x
    have hnone : (db.axisState.sub (s.generation + 1)).getSub? a x = none := by
      rw [Dict.sub, h.newer (s.generation + 1) (by omega)]
      rfl
    rw [hr.axis, axisAtRest, hr.generation, hnone]
    rfl
  newer g hg := h.newer g (lt_trans (Nat.lt_succ_self _) hg)

def ClearsControl (s : State) (e : Entry) : Prop :=
  triggers s e = true → ∀ a, s.control.get? a ≠ none → a ∈ s.accounts.keys ∨ a ∈ s.dirtyControl

theorem Stored.onEntry {db : Tables} {s : State} (h : Stored db s) (cal : Calendar) {e : Entry} (hc : ClearsControl s e) :
    Stored db (onEntry cal s e) := by
  have heff := effect_onEntry cal s e
  cases ht : Quarantine.triggers s e with
  | false =>
    rw [ht] at heff
    cases heff with
    | marks hm => exact h.marks hm
  | true =>
    rw [ht] at heff
    cases heff with
    | @restart t _ kind reason at_ time hb hm =>
      refine ((h.marks hb.marks).onTrigger kind reason at_ time fun a ha => ?_).marks hm
      rw [hb.accounts, hb.dirtyControl]
      rw [hb.control] at ha
      exact hc ht a ha

/-! ## Writing back -/

theorem upsertEpisode_cons {row e : Episode} (h : e.opener ≠ row.opener) (rows : List Episode) :
    upsertEpisode (row :: rows) e = row :: upsertEpisode rows e := by
  rw [upsertEpisode, if_neg (Ne.symm h)]

theorem persistEpisodes_cons (dirty : List Coordinate) (row : Episode) : ∀ (eps rows : List Episode),
    (∀ e ∈ eps, e.opener ≠ row.opener) → persistEpisodes (row :: rows) dirty eps = row :: persistEpisodes rows dirty eps
  | [], _, _ => rfl
  | e :: eps, rows, h => by
    have htail : ∀ f ∈ eps, f.opener ≠ row.opener := fun f hf => h f (List.mem_cons_of_mem e hf)
    have ih := persistEpisodes_cons dirty row eps
    simp only [persistEpisodes, List.foldl_cons] at ih ⊢
    split
    · rw [upsertEpisode_cons (h e List.mem_cons_self), ih _ htail]
    · rw [ih _ htail]

/-- **The rows become the episodes.** -/
theorem persistEpisodes_eq {dirty : List Coordinate} : ∀ {rows eps : List Episode}, Matches dirty rows eps →
    (openers eps).Nodup → persistEpisodes rows dirty eps = eps
  | [], [], _, _ => rfl
  | [], e :: eps, h, hn => by
    obtain ⟨hne, hn⟩ := List.nodup_cons.1 hn
    have htail : Matches dirty [] eps := fun f hf => h f (List.mem_cons_of_mem e hf)
    have hother : ∀ f ∈ eps, f.opener ≠ e.opener := fun f hf he => hne (he ▸ List.mem_map_of_mem hf)
    have hhead : persistEpisodes [] dirty (e :: eps) = persistEpisodes [e] dirty eps := by
      simp only [persistEpisodes, List.foldl_cons, if_pos (h e List.mem_cons_self), upsertEpisode]
    rw [hhead, persistEpisodes_cons dirty e eps [] hother, persistEpisodes_eq htail hn]
  | row :: rows, e :: eps, ⟨ho, ht, he, h⟩, hn => by
    obtain ⟨hne, hn⟩ := List.nodup_cons.1 hn
    have hother : ∀ f ∈ eps, f.opener ≠ e.opener := fun f hf he => hne (he ▸ List.mem_map_of_mem hf)
    have hhead : persistEpisodes (row :: rows) dirty (e :: eps) = persistEpisodes (e :: rows) dirty eps := by
      simp only [persistEpisodes, List.foldl_cons]
      split
      · rw [upsertEpisode, if_pos ho]
        obtain ⟨opener, openedAt, closer, closedAt⟩ := e
        obtain rfl : row.opener = opener := ho
        obtain rfl : row.openedAt = openedAt := ht
        rfl
      · rename_i hd
        rw [he.resolve_right hd]
    rw [hhead, persistEpisodes_cons dirty e eps rows hother, persistEpisodes_eq h hn]

theorem axisFromRow_axisRow {s : State} (h : Sound s) (a : String) (x : Axis) :
    axisFromRow (axisRow s a x) = some (s.axis a x) := by
  have hr := h.released a x
  unfold axisRow axisFromRow
  generalize s.axis a x = rec_ at hr ⊢
  obtain ⟨state, coverage, witness, release, revocation, since, recoveredAt, notBefore, key⟩ := rec_
  cases state with
  | paused => simp [STATE_PAUSED, STATE_RELEASED]
  | recovered =>
    obtain ⟨h₁, h₂, h₃⟩ := hr rfl
    simp_all [STATE_PAUSED, STATE_RELEASED]

theorem get?_writeMarked {α : Type*} (dirty : List String) (value : String → α) (rows : Dict String α) (k : String) :
    (writeMarked dirty value rows).get? k = if k ∈ dirty then some (value k) else rows.get? k := by
  have hset (r : Dict String α) (k k' : String) :
      (r.set k (value k)).get? k' = if k = k' then some (value k') else r.get? k' := by
    rw [Dict.get?_set]
    by_cases hk : k = k' <;> simp [hk]
  have h := look_foldl Dict.get? (fun r k => r.set k (value k)) (fun k => some (value k)) hset k (sortedSet dirty) rows
  rw [writeMarked, h]
  simp only [mem_sortedSet]

theorem get?_persistControl (dirty : List String) (control : Dict String ControlWitness)
    (rows : Dict String (Option ControlWitness)) (k : String) :
    (persistControl dirty control rows).get? k = if k ∈ dirty then (control.get? k).map some else rows.get? k := by
  refine (look_foldl Dict.get? _ (fun k => (control.get? k).map some) (fun r k k' => ?_) k (sortedSet dirty) rows).trans ?_
  · cases hw : control.get? k with
    | none =>
      dsimp only
      rw [Dict.get?_erase]
      by_cases hk : k = k'
      · subst hk; simp [hw]
      · simp [hk]
    | some w =>
      dsimp only
      rw [Dict.get?_set]
      by_cases hk : k = k'
      · subst hk; simp [hw]
      · simp [hk]
  · simp only [mem_sortedSet]

theorem getSub?_persistAxes (s : State) (rows : Dict String (Dict Axis AxisRow)) (a : String) (x : Axis) :
    (persistAxes s rows).getSub? a x = if a ∈ s.dirtyAccounts then some (axisRow s a x) else rows.getSub? a x := by
  have hset (r : Dict String (Dict Axis AxisRow)) (k k' : String) :
      (AXES.foldl (fun r x => r.setSub k x (axisRow s k x)) r).getSub? k' =
        if k = k' then fun x => some (axisRow s k' x) else r.getSub? k' := by
    funext y
    simp only [AXES, List.foldl_cons, List.foldl_nil, Dict.getSub?_setSub]
    by_cases hk : k = k'
    · subst hk; cases y <;> simp
    · simp [hk]
  have h := look_foldl Dict.getSub? _ (fun k x => some (axisRow s k x)) hset a (sortedSet s.dirtyAccounts) rows
  rw [persistAxes, h]
  simp only [mem_sortedSet]
  split <;> rfl

structure AtRest (db : Tables) (s : State) : Prop where
  triggers : TriggerRows db.triggers s
  episodes : db.episodes = s.episodes
  openers : (openers s.episodes).Nodup
  weekly : ∀ n, weeklyAtRest db n = some (s.scope n).weekly
  fiveHour : ∀ n, fiveHourAtRest db n = some (s.scope n).fiveHour
  verifiedWeekly : ∀ n, db.weekly.get? n ≠ some none
  verifiedFiveHour : ∀ n, db.fiveHour.get? n ≠ some none
  control : ∀ a, db.control.get? a = (s.control.get? a).map some
  metaRow : metaAtRest db = some (metaOf s)
  axis : s.generation ≠ 0 → axisAtRest db s.generation s.freshAxis = s.axis
  newer : ∀ g, s.generation < g → db.axisState.get? g = none

/-- **A cycle's write makes the tables right.** -/
theorem Stored.persist {db : Tables} {s : State} (h : Stored db s) (hs : Sound s) :
    ∃ db', persistState db s = .ok db' ∧ AtRest db' s := by
  obtain ⟨rows, hrows, htriggers⟩ := h.triggers
  refine ⟨_, by unfold persistState; rw [hrows]; rfl, ?_⟩
  constructor
  · exact htriggers
  · exact persistEpisodes_eq h.episodes.1 h.episodes.2
  · exact h.episodes.2
  · refine congrFun (h.weekly.flush fun n => ?_)
    rw [weeklyAtRest, get?_writeMarked]
    split <;> rfl
  · refine congrFun (h.fiveHour.flush fun n => ?_)
    rw [fiveHourAtRest, get?_writeMarked]
    split <;> rfl
  · intro n
    rw [get?_writeMarked]
    split
    · intro h
      cases h
    · exact h.verifiedWeekly n
  · intro n
    rw [get?_writeMarked]
    split
    · intro h
      cases h
    · exact h.verifiedFiveHour n
  · exact congrFun (h.control.flush fun a => get?_persistControl _ _ _ a)
  · rw [metaAtRest]
    dsimp only
    split
    · rfl
    · rename_i hd
      exact h.metaRow (by simpa using hd)
  · intro hg
    refine (h.axis hg).flush fun a => ?_
    funext x
    rw [axisAtRest, if_neg hg]
    dsimp only
    rw [Dict.sub, Dict.get?_set_self, Option.getD_some, getSub?_persistAxes]
    split
    · rw [Option.map_some, Option.getD_some, axisFromRow_axisRow hs, Option.getD_some]
    · rfl
  · intro g hg
    dsimp only
    split
    · exact h.newer g hg
    · rw [Dict.get?_set_ne _ _ (Nat.ne_of_lt hg)]
      exact h.newer g hg

end Cctally.Quarantine
