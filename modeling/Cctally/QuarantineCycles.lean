import Cctally.QuarantineStored
import Cctally.QuarantineRecovery

/-!
# Cycles against one fold

The tables after any number of cycles load to a state that agrees with the fold of
all their records at once: what is loaded is right, and marks nothing.
-/

namespace Cctally.Quarantine

open State

/-! ## Loading -/

theorem get?_ofList_documents {α : Type*} (rows : Dict String (Option α)) (k : String) :
    (Dict.ofList (rows.entries.filterMap fun p => p.2.map fun v => (p.1, v))).get? k = (rows.get? k).join := by
  have hn : ((rows.entries.filterMap fun p => p.2.map fun v => (p.1, v)).map Prod.fst).Nodup := by
    refine List.Nodup.sublist ?_ rows.nodup
    generalize rows.entries = l
    induction l with
    | nil => exact List.Sublist.slnil
    | cons p l ih =>
      obtain ⟨k, v⟩ := p
      cases v with
      | none => exact ih.cons k
      | some v => exact ih.cons_cons k
  ext v
  rw [Dict.get?_ofList_eq_some hn, Option.join_eq_some_iff, Dict.get?_eq_some, List.mem_filterMap]
  constructor
  · rintro ⟨⟨k', v'⟩, hm, he⟩
    obtain ⟨w, rfl, hw⟩ := Option.map_eq_some_iff.1 he
    cases hw
    exact hm
  · intro hm
    exact ⟨_, hm, rfl⟩

theorem verified_of_isSome {α : Type*} {rows : Dict String (Option α)} (h : ∀ n, rows.get? n ≠ some none) :
    ∃ docs, verified rows = some docs ∧ ∀ n, docs.get? n = (rows.get? n).join := by
  have hall : rows.values.all Option.isSome = true := by
    rw [List.all_eq_true]
    intro v hv
    obtain ⟨k, hk⟩ := Dict.mem_values.1 hv
    cases v with
    | none => exact absurd hk (h k)
    | some v => rfl
  exact ⟨_, if_pos hall, get?_ofList_documents rows⟩

theorem get?_ofList_map {α : Type*} {l : List String} (hn : l.Nodup) (f : String → α) (k : String) :
    (Dict.ofList (l.map fun k => (k, f k))).get? k = if k ∈ l then some (f k) else none := by
  have hkeys : ((l.map fun k => (k, f k)).map Prod.fst).Nodup := by
    rw [List.map_map]
    simpa [Function.comp_def] using hn
  split
  · rename_i hk
    exact (Dict.get?_ofList_eq_some hkeys).2 (List.mem_map_of_mem hk)
  · rename_i hk
    refine Dict.get?_eq_none.2 fun hm => hk ?_
    rw [Dict.mem_keys_ofList, List.map_map] at hm
    simpa [Function.comp_def] using hm

theorem get?_loadBounds (weekly : Dict String WeeklyBounds) (fiveHour : Dict String FiveHourBounds) (n : String) :
    ((loadBounds weekly fiveHour).get? n).getD .empty =
      ⟨(weekly.get? n).getD .empty, (fiveHour.get? n).getD .empty⟩ := by
  rw [loadBounds, get?_ofList_map (List.nodup_dedup _)
    (fun scope => (⟨(weekly.get? scope).getD .empty, (fiveHour.get? scope).getD .empty⟩ : ScopeBounds))]
  split
  · rfl
  · rename_i hk
    rw [List.mem_dedup, List.mem_append, not_or] at hk
    rw [Dict.get?_eq_none.2 hk.1, Dict.get?_eq_none.2 hk.2]
    rfl

theorem join_eq_atRest {α : Type*} {row : Option (Option α)} (h : row ≠ some none) (default : α) {v : α}
    (hv : row.getD (some default) = some v) : row.join.getD default = v := by
  cases row with
  | none => simpa using hv
  | some row =>
    cases row with
    | none => exact absurd rfl h
    | some w => simpa using hv

theorem axis_loadAccounts (db : Tables) {trigger : Trigger} (h : trigger.seq ≠ 0) (a : String) (x : Axis) :
    (((loadAccounts db.axisState (some trigger)).sub a).get? x).getD { since := trigger.time } =
      axisAtRest db trigger.seq { since := trigger.time } a x := by
  unfold loadAccounts
  dsimp only
  rw [if_neg h, axisAtRest]
  generalize db.axisState.sub trigger.seq = rows
  rw [Dict.getSub?, Dict.sub, Dict.sub, Dict.get?_mapValues]
  cases rows.get? a with
  | none => rfl
  | some row => rw [Option.map_some, Option.getD_some, Option.getD_some, Dict.get?_mapValues]

def loaded (nonInertCrossPeriod : Bool) (db : Tables) (weekly : Dict String WeeklyBounds)
    (fiveHour : Dict String FiveHourBounds) (m : Meta) : State :=
  { generation := ((latestOf db.triggers).map Trigger.seq).getD 0, latestTrigger := latestOf db.triggers
    episodes := db.episodes, cohort := m.cohort, expired := m.expired, maxAdmittedAt := m.maxAdmittedAt
    bounds := loadBounds weekly fiveHour, accounts := loadAccounts db.axisState (latestOf db.triggers)
    control := loadControl db.control, nonInertCrossPeriod := nonInertCrossPeriod
    newTriggers := [], dirtyEpisodes := [], dirtyBounds := [], dirtyAccounts := [], dirtyMeta := false, dirtyControl := [] }

theorem loadState_eq (nonInertCrossPeriod : Bool) {db : Tables} {weekly : Dict String WeeklyBounds}
    {fiveHour : Dict String FiveHourBounds} {m : Meta} (hw : verified db.weekly = some weekly)
    (hf : verified db.fiveHour = some fiveHour) (hm : metaAtRest db = some m) :
    loadState nonInertCrossPeriod db = .ok (loaded nonInertCrossPeriod db weekly fiveHour m) := by
  unfold loadState
  rw [hw, hf]
  unfold metaAtRest at hm
  cases hd : db.metaRow with
  | none =>
    rw [hd] at hm
    cases hm
    rfl
  | some row =>
    rw [hd, Option.getD_some] at hm
    subst hm
    rfl

theorem matches_self (dirty : List Coordinate) : ∀ eps, Matches dirty eps eps
  | [] => nofun
  | _ :: eps => ⟨rfl, rfl, .inl rfl, matches_self dirty eps⟩

/-- **Tables that are right load to the state they are right of.** -/
theorem AtRest.load {db : Tables} {s : State} (h : AtRest db s) (hs : Sound s) :
    ∃ c, loadState s.nonInertCrossPeriod db = .ok c ∧ Agree c s ∧ Stored db c := by
  obtain ⟨weekly, hw, hgetw⟩ := verified_of_isSome h.verifiedWeekly
  obtain ⟨fiveHour, hf, hgetf⟩ := verified_of_isSome h.verifiedFiveHour
  obtain ⟨hkeys, hlatest, hseq⟩ := h.triggers
  have hagree : Agree (loaded s.nonInertCrossPeriod db weekly fiveHour (metaOf s)) s := by
    have hgen : (loaded s.nonInertCrossPeriod db weekly fiveHour (metaOf s)).generation = s.generation := by
      rw [← hseq, ← hlatest]; rfl
    refine ⟨hgen, hlatest, h.episodes, rfl, rfl, rfl, rfl, funext fun n => ?_, fun a => ?_, funext fun a => funext fun x => ?_⟩
    · rw [State.scope, loaded, get?_loadBounds, hgetw, hgetf, join_eq_atRest (h.verifiedWeekly n) _ (h.weekly n),
        join_eq_atRest (h.verifiedFiveHour n) _ (h.fiveHour n)]
    · rw [loaded, loadControl, get?_ofList_documents, h.control]
      cases s.control.get? a <;> rfl
    · by_cases hg : s.generation = 0
      · -- without a trigger there are no rows to read
        rw [hs.fresh hg, State.axis, freshAxis, freshAxis]
        have haccounts : (loaded s.nonInertCrossPeriod db weekly fiveHour (metaOf s)).accounts = .empty := by
          rw [loaded, hlatest]
          cases ht : s.latestTrigger with
          | none => rfl
          | some trigger =>
            rw [ht, Option.map_some, Option.getD_some, hg] at hseq
            exact if_pos hseq
        rw [haccounts]
        exact congrArg (fun t => ({ since := t } : AxisRecovery)) (congrArg (fun t => t.bind Trigger.time) hlatest)
      · rw [← h.axis hg]
        cases ht : s.latestTrigger with
        | none => rw [ht] at hseq; exact absurd hseq.symm hg
        | some trigger =>
          rw [ht, Option.map_some, Option.getD_some] at hseq
          have hx := axis_loadAccounts db (hseq ▸ hg) a x
          rw [State.axis, freshAxis, freshAxis, ht, loaded, hlatest, ht, ← hseq]
          exact hx
  refine ⟨_, loadState_eq _ hw hf h.metaRow, hagree, ?_⟩
  constructor
  · refine ⟨db.triggers, rfl, ?_, rfl, rfl⟩
    rw [hagree.generation]
    exact hkeys
  · refine ⟨matches_self _ _, ?_⟩
    rw [hagree.episodes]
    exact h.openers
  · intro n _
    rw [hagree.scope]
    exact h.weekly n
  · intro n _
    rw [hagree.scope]
    exact h.fiveHour n
  · exact h.verifiedWeekly
  · exact h.verifiedFiveHour
  · intro a _
    dsimp only
    rw [hagree.control]
    exact h.control a
  · exact fun _ => h.metaRow
  · intro hg a _
    rw [hagree.generation] at hg
    rw [hagree.axis, hagree.generation, ← h.axis hg, freshAxis, freshAxis, hagree.latestTrigger]
  · rw [hagree.generation]
    exact h.newer

/-! ## Runs -/

section
variable (cal : Calendar) (nonInertCrossPeriod : Bool)

def valid (s : State) : List Entry → List Entry
  | [] => []
  | e :: es => (if accepted s e then [e] else []) ++ valid (onEntry cal s e) es

def validCycles (db : Tables) : List (List Entry) → Except DatabaseError (List Entry)
  | [] => pure []
  | batch :: rest => do
    let s ← loadState nonInertCrossPeriod db
    let db ← persistState db (fold cal s batch)
    let more ← validCycles db rest
    pure (valid cal s batch ++ more)

def Kept (s : State) (e : Entry) : Prop := ClearsControl s e ∧ ¬ UnwitnessedRelease s e

def KeptCycles (db : Tables) : List (List Entry) → Prop
  | [] => True
  | batch :: rest =>
    ∀ c, loadState nonInertCrossPeriod db = .ok c →
      Throughout (fun l e => Kept (fold cal c l) e) batch ∧
      ∀ db', persistState db (fold cal c batch) = .ok db' → KeptCycles db' rest

variable {cal nonInertCrossPeriod}

theorem Agree.sound {c s : State} (h : Agree c s) (hs : Sound s) : Sound c where
  fresh hg a x := by
    rw [h.axis, hs.fresh (h.generation ▸ hg), freshAxis, freshAxis, h.latestTrigger]
  released a x hst := by
    rw [h.axis] at hst ⊢
    exact hs.released a x hst

theorem Agree.valid {c s : State} (h : Agree c s) : ∀ entries, valid cal c entries = valid cal s entries
  | [] => rfl
  | e :: es => by rw [Quarantine.valid, Quarantine.valid, h.accepted, (h.onEntry cal e).valid es]

theorem valid_append : ∀ (entries more : List Entry) (s : State),
    valid cal s (entries ++ more) = valid cal s entries ++ valid cal (fold cal s entries) more
  | [], _, _ => rfl
  | e :: es, more, s => by
    rw [List.cons_append, valid, valid, valid_append es more, List.append_assoc]
    rfl

theorem nonInert_onEntry (s : State) (e : Entry) : (onEntry cal s e).nonInertCrossPeriod = s.nonInertCrossPeriod := by
  have heff := effect_onEntry cal s e
  cases ht : triggers s e with
  | false =>
    rw [ht] at heff
    cases heff with
    | marks hm => exact hm.nonInert
  | true =>
    rw [ht] at heff
    cases heff with
    | restart _ _ _ _ hb hm => exact hm.nonInert.trans hb.marks.nonInert

/-- **The tables of a cycle stay right outside the marks.** -/
theorem stored_fold {db : Tables} {c : State} (h : Stored db c) (hs : Sound c) {batch : List Entry}
    (hk : Throughout (fun l e => Kept (fold cal c l) e) batch) :
    Stored db (fold cal c batch) ∧ Sound (fold cal c batch) ∧
      (fold cal c batch).nonInertCrossPeriod = c.nonInertCrossPeriod := by
  induction batch using List.reverseRecOn with
  | nil => exact ⟨h, hs, rfl⟩
  | append_singleton l e ih =>
    obtain ⟨hl, hc, hu⟩ := throughout_snoc.1 hk
    obtain ⟨hst, hso, hni⟩ := ih hl
    have hsnoc : fold cal c (l ++ [e]) = onEntry cal (fold cal c l) e := by
      rw [fold, List.foldl_append]
      rfl
    rw [hsnoc]
    exact ⟨hst.onEntry cal hc, hso.onEntry cal hu, (nonInert_onEntry _ e).trans hni⟩

def Tracks (nonInertCrossPeriod : Bool) (db : Tables) (s : State) : Prop :=
  ∃ c, loadState nonInertCrossPeriod db = .ok c ∧ Agree c s ∧ Stored db c ∧ Sound c ∧
    c.nonInertCrossPeriod = nonInertCrossPeriod

theorem tracks_empty : Tracks nonInertCrossPeriod Tables.empty (State.empty nonInertCrossPeriod) := by
  have hsound : Sound (State.empty nonInertCrossPeriod) := by
    constructor
    · intro _ a x; rfl
    · intro a x h; cases h
  have hrest : AtRest Tables.empty (State.empty nonInertCrossPeriod) := by
    refine ⟨⟨nofun, rfl, rfl⟩, rfl, List.nodup_nil, fun _ => rfl, fun _ => rfl, fun _ => nofun, fun _ => nofun, fun _ => rfl,
      rfl, fun h => absurd rfl h, fun _ _ => rfl⟩
  obtain ⟨c, hc, hagree, hstored⟩ := hrest.load hsound
  exact ⟨c, hc, hagree, hstored, hagree.sound hsound, hagree.nonInert⟩

theorem cycles_track : ∀ (cycles : List (List Entry)) {db : Tables} {s : State}, Tracks nonInertCrossPeriod db s →
    KeptCycles cal nonInertCrossPeriod db cycles →
      ∃ db', cycles.foldlM (cycle cal nonInertCrossPeriod) db = .ok db' ∧
        Tracks nonInertCrossPeriod db' (fold cal s cycles.flatten) ∧
        validCycles cal nonInertCrossPeriod db cycles = .ok (valid cal s cycles.flatten)
  | [], db, s, ht, _ => ⟨db, rfl, ht, rfl⟩
  | batch :: rest, db, s, ⟨c, hload, hagree, hstored, hsound, hni⟩, hk => by
    obtain ⟨hbatch, hrest⟩ := hk c hload
    obtain ⟨hst, hso, hni'⟩ := stored_fold hstored hsound hbatch
    obtain ⟨db', hpersist, hright⟩ := hst.persist hso
    have hfold : Agree (fold cal c batch) (fold cal s batch) := hagree.fold cal batch
    have htracks : Tracks nonInertCrossPeriod db' (fold cal s batch) := by
      obtain ⟨c', hload', hagree', hstored'⟩ := hright.load hso
      rw [hni', hni] at hload'
      exact ⟨c', hload', hagree'.trans hfold, hstored', hagree'.sound hso, by rw [hagree'.nonInert, hni', hni]⟩
    obtain ⟨db'', hrun, htracks', hvalid⟩ := cycles_track rest htracks (hrest db' hpersist)
    have hcycle : cycle cal nonInertCrossPeriod db batch = .ok db' := by
      unfold cycle
      rw [hload]
      exact hpersist
    refine ⟨db'', ?_, ?_, ?_⟩
    · rw [List.foldlM_cons, hcycle]
      exact hrun
    · have hflat : fold cal s (batch :: rest).flatten = fold cal (fold cal s batch) rest.flatten := by
        rw [List.flatten_cons, fold, List.foldl_append]
        rfl
      rw [hflat]
      exact htracks'
    · have hsplit : valid cal s (batch :: rest).flatten = valid cal c batch ++ valid cal (fold cal s batch) rest.flatten := by
        rw [List.flatten_cons, valid_append, hagree.valid]
      rw [hsplit, validCycles, hload]
      simp only [bind, Except.bind, hpersist, hvalid]
      rfl

/-- **The state is a function of the journal alone.** Where no trigger clears an unmarked control
witness and no release comes without one, the tables of the cycles load to a state that agrees
with one fold over all the records, and the same completions and releases are valid in both. -/
theorem cycles_agree (cal : Calendar) (nonInertCrossPeriod : Bool) (cycles : List (List Entry))
    (h : KeptCycles cal nonInertCrossPeriod Tables.empty cycles) :
    ∃ db c, runCycles cal nonInertCrossPeriod cycles = .ok db ∧ loadState nonInertCrossPeriod db = .ok c ∧
      Agree c (run cal nonInertCrossPeriod cycles.flatten) ∧
      (∀ a x, c.axisGate a x = (run cal nonInertCrossPeriod cycles.flatten).axisGate a x) ∧
      (∀ a x, c.waitingFor a x = (run cal nonInertCrossPeriod cycles.flatten).waitingFor a x) ∧
      (∀ a x, c.pendingWitness a x = (run cal nonInertCrossPeriod cycles.flatten).pendingWitness a x) ∧
      (∀ a obs, c.coverableAxes a obs = (run cal nonInertCrossPeriod cycles.flatten).coverableAxes a obs) ∧
      validCycles cal nonInertCrossPeriod Tables.empty cycles =
        .ok (valid cal (State.empty nonInertCrossPeriod) cycles.flatten) := by
  obtain ⟨db, hrun, ⟨c, hload, hagree, -⟩, hvalid⟩ := cycles_track cycles tracks_empty h
  exact ⟨db, c, hrun, hload, hagree, hagree.axisGate, hagree.waitingFor, hagree.pendingWitness, hagree.coverableAxes, hvalid⟩

end

def keptRun : List (List Entry) := [[record 0 0 true "excluded" .other], [controlRecord, completionRecord]]

theorem kept_keptRun : KeptCycles plainCalendar false Tables.empty keptRun := by
  have hkept {s : State} {e : Entry} (ht : triggers s e = true → ∀ a, s.control.get? a = none)
      (hb : ∀ a x g w c, e.rec_.body ≠ .op (.axisRelease a x g w c)) : Kept s e := by
    refine ⟨fun h a hne => absurd (ht h a) hne, ?_⟩
    rintro ⟨a, x, c, -, -, h, -⟩
    exact hb _ _ _ _ _ h
  intro c hc
  have hnone : ∀ a, c.control.get? a = none := by
    cases hc
    intro a
    rfl
  refine ⟨?_, fun db _ c' _ => ⟨?_, fun _ _ => trivial⟩⟩
  · intro pre e rest hl
    obtain ⟨rfl, hl⟩ | ⟨pre', rfl, hl⟩ := List.cons_eq_append_iff.1 hl
    · cases hl
      exact hkept (fun _ => hnone) nofun
    · simp at hl
  · intro pre e rest hl
    have he : e ∈ [controlRecord, completionRecord] := by rw [hl]; simp
    rcases List.mem_cons.1 he with rfl | he
    · exact hkept (fun h => by cases h) nofun
    · rw [List.mem_singleton.1 he]
      exact hkept (fun h => by cases h) nofun

theorem cycles_agree_kept : ∃ db c, runCycles plainCalendar false keptRun = .ok db ∧ loadState false db = .ok c ∧
    Agree c (run plainCalendar false keptRun.flatten) := by
  obtain ⟨db, c, hrun, hload, hagree, -⟩ := cycles_agree plainCalendar false keptRun kept_keptRun
  exact ⟨db, c, hrun, hload, hagree⟩

def staleRun : List (List Entry) :=
  [[record 0 0 true "excluded" .other, controlRecord], [record 2 20 true "excluded" .other]]

/-- The second trigger clears a control witness that the tables keep: its account has no record of
any axis, so nothing marks it, and the axis is coverable in the cycles alone. -/
theorem stale_control :
    ((runCycles plainCalendar false staleRun >>= loadState false).toOption.map fun c =>
        ((c.control.get? "a").map ControlWitness.observationId, c.coverableAxes "a" "control")) =
      some (some "control", [.fiveHour]) ∧
    (run plainCalendar false staleRun.flatten).control.get? "a" = none ∧
      (run plainCalendar false staleRun.flatten).coverableAxes "a" "control" = [] := by
  decide +kernel

end Cctally.Quarantine
