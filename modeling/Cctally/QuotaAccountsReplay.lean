import Cctally.QuotaAccounts

/-!
# A full replay over any earlier batches

A row's account is the last decision that covered one of its observations, else the stamp of
its first one. Over a cache that batches left, an earlier decision takes the stamp's place.
-/

namespace Cctally.QuotaAccounts

variable {I R : Type*}

section
variable [DecidableEq I]

theorem setdefault_of_mem {κ α : Type*} [DecidableEq κ] {d : Dict κ α} {k : κ} (v : α) (h : k ∈ d.keys) :
    d.setdefault k v = d := by
  obtain ⟨w, hw⟩ := Dict.mem_keys.1 h
  rw [Dict.setdefault, hw]

def Recorded (accounts : FileAccounts I) (d : Decision I) : Prop := applyDecision accounts d = accounts

theorem applyDecision_cases (d : Decision I) :
    (∀ accounts : FileAccounts I, applyDecision accounts d = accounts) ∨
      ∃ key, ∀ accounts : FileAccounts I, applyDecision accounts d = accounts.setdefault key d.accountKey := by
  obtain ⟨identity, incarnation, offset, scope, account, at_⟩ := d
  cases identity with
  | none => exact .inl fun _ => rfl
  | some identity =>
    cases incarnation with
    | none => exact .inl fun _ => rfl
    | some incarnation =>
      cases offset with
      | none => exact .inl fun _ => rfl
      | some offset =>
        cases scope with
        | none => exact .inl fun _ => rfl
        | some scope =>
          cases at_ with
          | none => exact .inl fun _ => rfl
          | some at_ => exact .inr ⟨(identity, incarnation, offset), fun _ => rfl⟩

theorem recorded_self (accounts : FileAccounts I) (d : Decision I) : Recorded (applyDecision accounts d) d := by
  rcases applyDecision_cases d with hdropped | ⟨key, hkey⟩
  · exact hdropped _
  · rw [Recorded, hkey, hkey]
    exact setdefault_of_mem _ (Dict.mem_keys_setdefault.2 (.inl rfl))

theorem Recorded.step {accounts : FileAccounts I} {d : Decision I} (h : Recorded accounts d) (d' : Decision I) :
    Recorded (applyDecision accounts d') d := by
  rcases applyDecision_cases d with hdropped | ⟨key, hkey⟩
  · exact hdropped _
  rcases applyDecision_cases d' with hdropped' | ⟨key', hkey'⟩
  · rw [hdropped']
    exact h
  · have hmem : key ∈ accounts.keys := by
      rw [Recorded, hkey] at h
      rw [← h]
      exact Dict.mem_keys_setdefault.2 (.inl rfl)
    rw [Recorded, hkey, hkey']
    exact setdefault_of_mem _ (Dict.mem_keys_setdefault.2 (.inr hmem))

theorem Recorded.run {accounts : FileAccounts I} {d : Decision I} (h : Recorded accounts d) (ds : List (Decision I)) :
    Recorded (applyFileAccountRecords accounts ds) d := by
  induction ds generalizing accounts with
  | nil => exact h
  | cons d' ds ih => exact ih (h.step d')

theorem applyFileAccountRecords_append (accounts : FileAccounts I) (ds ds' : List (Decision I)) :
    applyFileAccountRecords accounts (ds ++ ds') = applyFileAccountRecords (applyFileAccountRecords accounts ds) ds' :=
  List.foldl_append

theorem recorded_of_mem {accounts : FileAccounts I} {ds : List (Decision I)} :
    ∀ d ∈ ds, Recorded (applyFileAccountRecords accounts ds) d := by
  induction ds generalizing accounts with
  | nil => exact nofun
  | cons d' ds ih =>
    intro d hd
    rcases List.mem_cons.1 hd with rfl | hd
    · exact (recorded_self accounts d).run ds
    · exact ih d hd

theorem applyFileAccountRecords_recorded {accounts : FileAccounts I} {ds : List (Decision I)}
    (h : ∀ d ∈ ds, Recorded accounts d) : applyFileAccountRecords accounts ds = accounts := by
  induction ds with
  | nil => rfl
  | cons d ds ih =>
    have hd : applyDecision accounts d = accounts := h d List.mem_cons_self
    rw [applyFileAccountRecords, List.foldl_cons, hd]
    exact ih fun d' hd' => h d' (List.mem_cons_of_mem _ hd')

theorem applyFileAccountRecords_again (accounts : FileAccounts I) (ds ds' : List (Decision I)) :
    applyFileAccountRecords (applyFileAccountRecords accounts ds) (ds ++ ds') =
      applyFileAccountRecords accounts (ds ++ ds') := by
  rw [applyFileAccountRecords_append, applyFileAccountRecords_recorded recorded_of_mem, ← applyFileAccountRecords_append]

end

/-! ## What a row's writes come to -/

section
variable (checks : R → Bool)

abbrev Answered (R : Type*) := Option (Option String) × Observation R

def about (key : QuotaKey) (o : Observation R) : Bool := decide (o.naturalKey = some key) && lands checks o

def lastDecided (key : QuotaKey) (answered : List (Answered R)) : Option (Option String) :=
  ((answered.filter fun p => about checks key p.2).filterMap (·.1)).getLast?

def firstStamp (key : QuotaKey) (os : List (Observation R)) : Option (Option String) :=
  ((os.filter (about checks key)).head?).map (·.account)

def accountOf (rows : QuotaRows R) (key : QuotaKey) : Option (Option String) := (rows.get? key).map (·.account)

variable {checks} {key : QuotaKey}

theorem accountOf_set (rows : QuotaRows R) (k : QuotaKey) (row : QuotaRow R) :
    accountOf (rows.set k row) key = if k = key then some row.account else accountOf rows key := by
  rw [accountOf, Dict.get?_set]
  by_cases hk : k = key
  · rw [if_pos hk, if_pos hk]
    rfl
  · rw [if_neg hk, if_neg hk]
    rfl

theorem accountOf_write (rows : QuotaRows R) (p : Answered R) :
    accountOf (write checks rows p) key =
      if about checks key p.2 then p.1.or ((accountOf rows key).or (some p.2.account)) else accountOf rows key := by
  rw [write, about]
  cases hk : p.2.naturalKey with
  | none => rfl
  | some k =>
    by_cases hlands : lands checks p.2 = true
    · simp only [hlands, if_true, Bool.and_true, Option.some.injEq, decide_eq_true_eq]
      by_cases heq : k = key
      · subst heq
        rw [if_pos rfl]
        cases hdecided : p.1 with
        | none =>
          cases hrow : rows.get? k with
          | none =>
            simp only
            rw [accountOf_set, if_pos rfl, accountOf, hrow]
            rfl
          | some row =>
            simp only
            rw [accountOf, hrow]
            rfl
        | some decided =>
          cases hrow : rows.get? k with
          | none =>
            simp only
            rw [accountOf_set, if_pos rfl]
            rfl
          | some row =>
            simp only
            by_cases hsame : row.account = decided
            · rw [if_pos hsame, accountOf, hrow, ← hsame]
              rfl
            · rw [if_neg hsame, accountOf_set, if_pos rfl]
              rfl
      · rw [if_neg heq]
        split
        · rw [accountOf_set, if_neg heq]
        · rfl
        · rw [accountOf_set, if_neg heq]
        · split
          · rfl
          · rw [accountOf_set, if_neg heq]
    · rw [Bool.not_eq_true] at hlands
      simp only [hlands, Bool.and_false, Bool.false_eq_true, if_false]

theorem lastDecided_cons (p : Answered R) (answered : List (Answered R)) :
    lastDecided checks key (p :: answered) =
      (lastDecided checks key answered).or (if about checks key p.2 then p.1 else none) := by
  rw [lastDecided, lastDecided, List.filter_cons]
  split
  · rw [List.filterMap_cons]
    cases p.1 with
    | none => rw [Option.or_none]
    | some decided =>
      simp only
      rw [List.getLast?_cons]
      cases List.getLast? _ <;> rfl
  · rw [Option.or_none]

theorem firstStamp_cons (o : Observation R) (os : List (Observation R)) :
    firstStamp checks key (o :: os) = (if about checks key o then some o.account else none).or (firstStamp checks key os) := by
  rw [firstStamp, firstStamp, List.filter_cons]
  split
  · rfl
  · rfl

theorem accountOf_writes (rows : QuotaRows R) (answered : List (Answered R)) :
    accountOf (answered.foldl (write checks) rows) key =
      (lastDecided checks key answered).or ((accountOf rows key).or (firstStamp checks key (answered.map (·.2)))) := by
  induction answered generalizing rows with
  | nil => exact (Option.or_none).symm
  | cons p answered ih =>
    rw [List.foldl_cons, ih, accountOf_write, lastDecided_cons, List.map_cons, firstStamp_cons]
    by_cases habout : about checks key p.2 = true
    · simp only [habout, if_true]
      cases lastDecided checks key answered <;> cases p.1 <;> cases accountOf rows key <;> rfl
    · rw [Bool.not_eq_true] at habout
      simp only [habout, Bool.false_eq_true, if_false, Option.or_none, Option.none_or]

/-! ## Batches -/

variable [DecidableEq I] (identify : String → String → Option I)

def history : FileAccounts I → List (List (Record I R)) → List (Answered R)
  | _, [] => []
  | accounts, batch :: batches =>
    answers identify (applyFileAccountRecords accounts (decisions batch)) (observations batch) ++
      history (applyFileAccountRecords accounts (decisions batch)) batches

def applyBatches (checks : R → Bool) (cache : Cache I R) (batches : List (List (Record I R))) : Cache I R :=
  batches.foldl (applyBatch checks identify) cache

omit [DecidableEq I] in
theorem decisions_append (a b : List (Record I R)) : decisions (a ++ b) = decisions a ++ decisions b :=
  List.filterMap_append

omit [DecidableEq I] in
theorem observations_append (a b : List (Record I R)) : observations (a ++ b) = observations a ++ observations b :=
  List.filterMap_append

theorem map_snd_answers (accounts : FileAccounts I) (os : List (Observation R)) :
    (answers identify accounts os).map (·.2) = os := by
  rw [answers, List.map_map]
  exact List.map_id _

theorem map_snd_history (accounts : FileAccounts I) (batches : List (List (Record I R))) :
    (history identify accounts batches).map (·.2) = observations batches.flatten := by
  induction batches generalizing accounts with
  | nil => rfl
  | cons batch batches ih =>
    rw [history, List.map_append, map_snd_answers, ih, List.flatten_cons, observations_append]

theorem applyBatches_eq (cache : Cache I R) (batches : List (List (Record I R))) :
    (applyBatches identify checks cache batches).accounts =
        applyFileAccountRecords cache.accounts (decisions batches.flatten) ∧
      (applyBatches identify checks cache batches).quota =
        (history identify cache.accounts batches).foldl (write checks) cache.quota := by
  induction batches generalizing cache with
  | nil => exact ⟨rfl, rfl⟩
  | cons batch batches ih =>
    obtain ⟨haccounts, hquota⟩ := ih (applyBatch checks identify cache batch)
    refine ⟨?_, ?_⟩
    · rw [List.flatten_cons, decisions_append, applyFileAccountRecords_append]
      exact haccounts
    · rw [history, List.foldl_append]
      exact hquota

/-- The account the journal gives a row: the last of its decisions, else its first stamp. -/
def ruled (checks : R → Bool) (journal : List (Record I R)) (key : QuotaKey) : Option (Option String) :=
  (lastDecided checks key (answers identify (applyFileAccountRecords Dict.empty (decisions journal)) (observations journal))).or
    (firstStamp checks key (observations journal))

theorem accountOf_fresh (journal : List (Record I R)) :
    accountOf (applyBatch checks identify emptyCache journal).quota key = ruled identify checks journal key := by
  rw [applyBatch, applyQuotaRecords, accountOf_writes, map_snd_answers]
  rfl

def KeepsStamps (checks : R → Bool) (batches : List (List (Record I R))) (journal : List (Record I R)) : Prop :=
  ∀ key, lastDecided checks key (answers identify (applyFileAccountRecords Dict.empty (decisions journal))
      (observations journal)) = none →
    ∀ account, lastDecided checks key (history identify Dict.empty batches) = some account →
      firstStamp checks key (observations journal) = some account

theorem accountOf_replay (batches : List (List (Record I R))) (rest : List (Record I R)) :
    accountOf (applyBatch checks identify (applyBatches identify checks emptyCache batches) (batches.flatten ++ rest)).quota key =
      (lastDecided checks key (answers identify
        (applyFileAccountRecords Dict.empty (decisions (batches.flatten ++ rest))) (observations (batches.flatten ++ rest)))).or
      ((lastDecided checks key (history identify Dict.empty batches)).or
        (firstStamp checks key (observations (batches.flatten ++ rest)))) := by
  obtain ⟨haccounts, hquota⟩ : _ ∧ (applyBatches identify checks emptyCache batches).quota = _ :=
    applyBatches_eq identify emptyCache batches
  have hmap : applyFileAccountRecords (applyBatches identify checks emptyCache batches).accounts
      (decisions (batches.flatten ++ rest)) = applyFileAccountRecords Dict.empty (decisions (batches.flatten ++ rest)) := by
    rw [haccounts, decisions_append]
    exact applyFileAccountRecords_again _ _ _
  have hearlier : ∀ stamp, firstStamp checks key (observations batches.flatten) = some stamp →
      firstStamp checks key (observations (batches.flatten ++ rest)) = some stamp := by
    intro stamp hstamp
    rw [firstStamp] at hstamp
    rw [firstStamp, observations_append, List.filter_append, List.head?_append]
    cases hhead : ((observations batches.flatten).filter (about checks key)).head? with
    | none =>
      rw [hhead] at hstamp
      cases hstamp
    | some o =>
      rw [hhead] at hstamp
      exact hstamp
  rw [applyBatch]
  simp only
  rw [hmap, applyQuotaRecords, accountOf_writes, map_snd_answers, hquota, accountOf_writes, map_snd_history]
  have hnone : accountOf (emptyCache : Cache I R).quota key = none := rfl
  have hstart : (emptyCache : Cache I R).accounts = Dict.empty := rfl
  rw [hnone, hstart, Option.none_or]
  cases hstamp : firstStamp checks key (observations batches.flatten) with
  | none => rw [Option.or_none]
  | some stamp =>
    rw [hearlier stamp hstamp]
    cases lastDecided checks key (history identify Dict.empty batches) <;> rfl

/-- **When a full replay settles every row**: over whatever batches of the journal left, it gives
each row the account of a fresh replay exactly when no row has lost an earlier decision that
differs from its first stamp. -/
theorem replay_eq_fresh_iff (checks : R → Bool) (batches : List (List (Record I R))) (rest : List (Record I R)) :
    (∀ key, accountOf (applyBatch checks identify emptyCache (batches.flatten ++ rest)).quota key =
      ruled identify checks (batches.flatten ++ rest) key) ∧
    ((∀ key, accountOf (applyBatch checks identify (applyBatches identify checks emptyCache batches)
          (batches.flatten ++ rest)).quota key =
        accountOf (applyBatch checks identify emptyCache (batches.flatten ++ rest)).quota key) ↔
      KeepsStamps identify checks batches (batches.flatten ++ rest)) := by
  refine ⟨fun key => accountOf_fresh identify _, ?_⟩
  constructor
  · intro h key hundecided account hdecided
    have hkey := h key
    rw [accountOf_replay, accountOf_fresh, ruled, hundecided, Option.none_or, Option.none_or, hdecided] at hkey
    exact hkey.symm
  · intro h key
    rw [accountOf_replay, accountOf_fresh, ruled]
    cases hlast : lastDecided checks key (answers identify (applyFileAccountRecords Dict.empty
        (decisions (batches.flatten ++ rest))) (observations (batches.flatten ++ rest))) with
    | some account => rfl
    | none =>
      cases hdecided : lastDecided checks key (history identify Dict.empty batches) with
      | none => rfl
      | some account =>
        rw [h key hlast account hdecided]
        rfl

end

def rolloutKey (root path : String) : Option String := some (root ++ ":" ++ path)

def decidedFor (incarnation : Int) (account : String) : Record String Unit :=
  .decision ⟨some "root:rollout", some incarnation, some 0, some "root", some account, some "2026-09-01"⟩

def stamped : Record String Unit :=
  .observation ⟨some "codex", some "root", some "rollout", some 5, some "weekly", (), some "bob"⟩

/-- The file is decided for one account, observed under another's stamp, and then truncated: the
row keeps the account of the decision that no longer governs it. -/
theorem truncated_keeps_decision :
    accountOf (applyBatch (fun _ => true) rolloutKey
        (applyBatches rolloutKey (fun _ => true) emptyCache [[decidedFor 0 "alice", stamped], [decidedFor 1 "carol"]])
        [decidedFor 0 "alice", stamped, decidedFor 1 "carol"]).quota ⟨"codex", "rollout", 5, "weekly"⟩ =
      some (some "alice") ∧
    accountOf (applyBatch (fun _ => true) rolloutKey emptyCache
        [decidedFor 0 "alice", stamped, decidedFor 1 "carol"]).quota ⟨"codex", "rollout", 5, "weekly"⟩ =
      some (some "bob") := by
  decide +kernel

end Cctally.QuotaAccounts
