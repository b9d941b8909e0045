import Cctally.Dict
import Cctally.Except
import Cctally.Election
import Mathlib.Data.Prod.Lex
import Mathlib.Data.String.Basic
import Mathlib.Data.List.Perm.Basic

/-!
# The conversation publication barrier

A conversation is sealed once every contributor has reached its readiness
target or is suspended. A suspended contributor is an exclusion whose accepted
facts still supply the thread.
-/

namespace Cctally.Barrier

structure Thread where
  conversationKey : Option String
  sourceRootKey : Option String
  nativeThreadId : Option String
  rootThreadId : Option String
  parentThreadId : Option String
  sourcePath : Option String
  cwd : Option String
  gitJson : Option String
  sourceKind : Option String
  threadSourceJson : Option String
  modelProvider : Option String
  contextWindow : Option Int
  deriving DecidableEq

def pendingHold : String := "verification-pending"

def suspensionHolds : List String :=
  ["decoder-unavailable", "decode-error", "verification-unverified", "container-absent"]

/-- The generation of a row a suspended contributor of unknown membership is known by. -/
def retainedGeneration : String := "retained"

def certificateVersion : Nat := 1

structure Target where
  identity : String
  sourcePath : String
  generation : String
  completeLineEnd : Option Int
  hold : Option String
  watermarkGeneration : Option String
  watermarkOffset : Option Int
  deriving DecidableEq

inductive TargetVerdict where
  | ready
  | required (reason : String)
  | suspended (reason : String)
  deriving DecidableEq

inductive SealError where
  | unknownBarrierHold (hold : String)
  | notAnInteger

def classifyTarget (t : Target) : Except SealError TargetVerdict :=
  match t.hold with
  | some hold =>
    if hold ∈ suspensionHolds then .ok (.suspended hold)
    else if hold = pendingHold then .ok (.required hold)
    else .error (.unknownBarrierHold hold)
  | none =>
    if t.watermarkGeneration ≠ some t.generation then .ok (.required "membership-unproven")
    else
      match t.watermarkOffset, t.completeLineEnd with
      | none, _ => .ok (.required "membership-unproven")
      | some _, none => .ok (.required "accounting-incomplete")
      | some offset, some lineEnd =>
        if offset < lineEnd then .ok (.required "membership-unproven") else .ok .ready

/-- A membership row. Its metadata is the text `metadata_from_thread` wrote, which reads back as the thread. -/
structure MemberFact where
  identity : String
  generation : String
  sourcePath : String
  metadataJson : Option Thread
  metadataOffset : Option Int
  deriving DecidableEq

def MemberFact.supplied (f : MemberFact) : Option ((String ×ₗ Int) × Thread) :=
  match f.metadataJson, f.metadataOffset with
  | some thread, some offset => some (toLex (f.sourcePath, offset), thread)
  | _, _ => none

def last (facts : List ((String ×ₗ Int) × Thread)) : Option ((String ×ₗ Int) × Thread) :=
  facts.foldl (Winner.champion Prod.fst fun _ => ()) none

def selectThread (candidates : List MemberFact) (retained : Option Thread) : Option Thread :=
  let facts := candidates.filterMap MemberFact.supplied
  match retained.bind fun want => facts.find? fun fact => fact.2 = want with
  | some fact => some fact.2
  | none => (last facts).map Prod.snd

structure Contributor where
  identity : String
  path : String
  generation : String
  completeLineEnd : Int
  deriving DecidableEq

structure Exclusion where
  identity : String
  path : String
  reason : String
  acceptedGeneration : Option String
  deriving DecidableEq

structure SealedThread where
  fields : Thread
  seen : Option (Option String × Option String)
  deriving DecidableEq

structure Certificate where
  version : Nat
  conversationKey : String
  revision : Int
  contributors : List Contributor
  exclusions : List Exclusion
  thread : Option SealedThread
  deriving DecidableEq

structure SealDecision where
  sealable : Bool
  blocking : List (String × String)
  certificate : Option Certificate
  deriving DecidableEq

abbrev Row := Target × TargetVerdict

def standing (targets : List Target) : Except SealError (List Row) := do
  let byIdentity := Dict.ofList (targets.map fun t => (t.identity, t))
  let rows ← byIdentity.values.mapM fun t => do return (t, ← classifyTarget t)
  return rows.insertionSort fun a b => a.1.identity ≤ b.1.identity

def blockedBy : Row → Option (String × String)
  | (t, .required reason) => some (t.identity, reason)
  | _ => none

def contributor (t : Target) : Except SealError Contributor :=
  match t.completeLineEnd with
  | some lineEnd => .ok ⟨t.identity, t.sourcePath, t.generation, lineEnd⟩
  | none => .error .notAnInteger

def exclusion : Row → Option Exclusion
  | (_, .ready) => none
  | (t, .required reason) => some ⟨t.identity, t.sourcePath, reason, t.watermarkGeneration⟩
  | (t, .suspended reason) => some ⟨t.identity, t.sourcePath, reason, t.watermarkGeneration⟩

def effective : Row → String
  | (t, .ready) => t.generation
  | (t, _) => t.watermarkGeneration.getD retainedGeneration

def candidates (rows : List Row) (members : List MemberFact) : List MemberFact :=
  rows.flatMap fun r => members.filter fun f => f.identity = r.1.identity ∧ f.generation = effective r

def sealedThread (rows : List Row) (members : List MemberFact) (retainedThread : Option Thread) : Option Thread :=
  let thread := selectThread (candidates rows members) retainedThread
  -- an unreadable contributor never retracts a published thread
  if thread = none ∧ rows.filterMap exclusion ≠ [] then retainedThread else thread

def sealRows (conversationKey : String) (revision : Int) (rows : List Row) (members : List MemberFact)
    (timestamps : Option (Option String × Option String)) (retainedThread : Option Thread) :
    Except SealError SealDecision := do
  let blocking := rows.filterMap blockedBy
  if blocking ≠ [] then
    return ⟨false, blocking, none⟩
  let contributors ← (rows.filter fun r => r.2 = .ready).mapM fun r => contributor r.1
  let thread := (sealedThread rows members retainedThread).map fun fields => ⟨fields, timestamps⟩
  return ⟨true, [], some ⟨certificateVersion, conversationKey, revision, contributors, rows.filterMap exclusion, thread⟩⟩

def decideSeal (conversationKey : String) (revision : Int) (targets : List Target) (members : List MemberFact)
    (timestamps : Option (Option String × Option String)) (retainedThread : Option Thread) :
    Except SealError SealDecision := do
  let rows ← standing targets
  sealRows conversationKey revision rows members timestamps retainedThread

theorem last_mem {facts : List ((String ×ₗ Int) × Thread)} {fact : (String ×ₗ Int) × Thread}
    (h : last facts = some fact) : fact ∈ facts := by
  obtain ⟨-, hnone⟩ | ⟨w, hw, hwin⟩ := @Winner.foldl_champion_none _ _ _ _ _ Prod.fst (fun _ => ()) facts
  · rw [last, hnone] at h
    cases h
  · rw [last, hw] at h
    cases h
    exact hwin.1

theorem last_eq_none {facts : List ((String ×ₗ Int) × Thread)} : last facts = none ↔ facts = [] := by
  obtain ⟨hnil, hnone⟩ | ⟨w, hw, hwin⟩ := @Winner.foldl_champion_none _ _ _ _ _ Prod.fst (fun _ => ()) facts
  · rw [last, hnone]
    simp [hnil]
  · rw [last, hw]
    refine ⟨nofun, ?_⟩
    rintro rfl
    cases hwin.1

theorem last_congr {facts facts' : List ((String ×ₗ Int) × Thread)} (h : (facts.map Prod.fst).Nodup)
    (hp : facts.Perm facts') : last facts = last facts' := by
  obtain ⟨rfl, -⟩ | ⟨w, hw, hwin⟩ := @Winner.foldl_champion_none _ _ _ _ _ Prod.fst (fun _ => ()) facts
  · rw [hp.symm.eq_nil]
  obtain ⟨rfl, -⟩ | ⟨w', hw', hwin'⟩ := @Winner.foldl_champion_none _ _ _ _ _ Prod.fst (fun _ => ()) facts'
  · rw [hp.eq_nil]
  have hset : {c | c ∈ facts'} = {c | c ∈ facts} := Set.ext fun c => hp.mem_iff.symm
  rw [hset] at hwin'
  have heq : w = w' := hwin.unique (fun a ha b hb hr _ => List.inj_on_of_nodup_map h ha hb hr) hwin'
  rw [last, last, hw, hw', heq]

def supplies (cs : List MemberFact) : List Thread := (cs.filterMap MemberFact.supplied).map Prod.snd

theorem selectThread_eq (cs : List MemberFact) (retained : Option Thread) :
    selectThread cs retained =
      if ∃ want ∈ retained, want ∈ supplies cs then retained
      else (last (cs.filterMap MemberFact.supplied)).map Prod.snd := by
  cases retained with
  | none => simp [selectThread]
  | some want =>
    simp only [selectThread, Option.bind_some, Option.mem_some_iff, exists_eq_left']
    cases hfind : (cs.filterMap MemberFact.supplied).find? fun fact => fact.2 = want with
    | none =>
      have hnot : want ∉ supplies cs := by
        intro hmem
        obtain ⟨fact, hfact, rfl⟩ := List.mem_map.1 hmem
        have := List.find?_eq_none.1 hfind fact hfact
        simp at this
      rw [if_neg hnot]
    | some fact =>
      have heq : fact.2 = want := by simpa using List.find?_some hfind
      have hmem : want ∈ supplies cs := List.mem_map.2 ⟨fact, List.mem_of_find?_eq_some hfind, heq⟩
      rw [if_pos hmem]
      exact congrArg some heq

theorem selectThread_supplied {cs : List MemberFact} {retained : Option Thread} {thread : Thread}
    (h : selectThread cs retained = some thread) : thread ∈ supplies cs := by
  rw [selectThread_eq] at h
  split at h
  · rename_i hwant
    obtain ⟨want, hretained, hmem⟩ := hwant
    cases h
    cases hretained
    exact hmem
  · obtain ⟨fact, hlast, rfl⟩ := Option.map_eq_some_iff.1 h
    exact List.mem_map_of_mem (last_mem hlast)

theorem selectThread_of_supplied {cs : List MemberFact} {thread : Thread} (h : thread ∈ supplies cs) :
    selectThread cs (some thread) = some thread := by
  rw [selectThread_eq, if_pos ⟨thread, rfl, h⟩]

theorem selectThread_eq_none {cs : List MemberFact} {retained : Option Thread} :
    selectThread cs retained = none ↔ supplies cs = [] := by
  rw [selectThread_eq]
  split
  · rename_i hwant
    obtain ⟨want, hretained, hmem⟩ := hwant
    cases hretained
    refine ⟨nofun, fun hnil => ?_⟩
    rw [hnil] at hmem
    cases hmem
  · rw [Option.map_eq_none_iff, last_eq_none, supplies, List.map_eq_nil_iff]

theorem selectThread_congr {cs cs' : List MemberFact} (h : ((cs.filterMap MemberFact.supplied).map Prod.fst).Nodup)
    (hp : cs.Perm cs') (retained : Option Thread) : selectThread cs retained = selectThread cs' retained := by
  have hfacts := hp.filterMap MemberFact.supplied
  have hmem : ∀ want, want ∈ supplies cs ↔ want ∈ supplies cs' := fun want => (hfacts.map Prod.snd).mem_iff
  rw [selectThread_eq, selectThread_eq, last_congr h hfacts]
  simp only [hmem]

/-! ## The rows of a seal -/

def KnownHold (t : Target) : Prop := ∀ hold ∈ t.hold, hold ∈ suspensionHolds ∨ hold = pendingHold

def verdict (t : Target) : TargetVerdict :=
  match classifyTarget t with
  | .ok v => v
  | .error _ => .ready

theorem classifyTarget_known {t : Target} (h : KnownHold t) : classifyTarget t = .ok (verdict t) := by
  have hok : ∃ v, classifyTarget t = .ok v := by
    unfold classifyTarget
    cases hhold : t.hold with
    | none =>
      dsimp only
      repeat' split
      all_goals exact ⟨_, rfl⟩
    | some hold =>
      dsimp only
      obtain hs | hp := h hold hhold
      · exact ⟨_, if_pos hs⟩
      · by_cases hs : hold ∈ suspensionHolds
        · exact ⟨_, if_pos hs⟩
        · exact ⟨_, by rw [if_neg hs, if_pos hp]⟩
  obtain ⟨v, hv⟩ := hok
  rw [verdict, hv]

theorem ready_iff {t : Target} :
    classifyTarget t = .ok .ready ↔ t.hold = none ∧ t.watermarkGeneration = some t.generation ∧
      ∃ offset ∈ t.watermarkOffset, ∃ lineEnd ∈ t.completeLineEnd, lineEnd ≤ offset := by
  unfold classifyTarget
  cases t.hold with
  | some hold =>
    dsimp only
    refine ⟨fun h => ?_, fun h => nomatch h.1⟩
    split at h
    · cases h
    · split at h <;> cases h
  | none =>
    dsimp only
    by_cases hgen : t.watermarkGeneration = some t.generation
    · rw [if_neg (not_not_intro hgen)]
      cases t.watermarkOffset with
      | none => simp
      | some offset =>
        cases t.completeLineEnd with
        | none => simp
        | some lineEnd =>
          by_cases hlt : offset < lineEnd
          · simp [hlt]
          · simp [hlt, hgen, not_lt.1 hlt]
    · simp [hgen]

def rowsOf (targets : List Target) : List Row :=
  (targets.map fun t => (t, verdict t)).insertionSort fun a b => a.1.identity ≤ b.1.identity

theorem perm_rowsOf (targets : List Target) : (rowsOf targets).Perm (targets.map fun t => (t, verdict t)) :=
  List.perm_insertionSort _ _

theorem mem_rowsOf {targets : List Target} {r : Row} : r ∈ rowsOf targets ↔ r.1 ∈ targets ∧ r.2 = verdict r.1 := by
  rw [(perm_rowsOf targets).mem_iff, List.mem_map]
  refine ⟨?_, fun ⟨ht, hv⟩ => ⟨r.1, ht, Prod.ext rfl hv.symm⟩⟩
  rintro ⟨t, ht, rfl⟩
  exact ⟨ht, rfl⟩

theorem rowsOf_congr {targets targets' : List Target} (h : (targets.map Target.identity).Nodup)
    (hp : targets.Perm targets') : rowsOf targets = rowsOf targets' := by
  refine insertionSort_congr (fun r : Row => r.1.identity) ?_ (hp.map _)
  rw [List.map_map]
  exact h

theorem standing_eq {targets : List Target} (hids : (targets.map Target.identity).Nodup)
    (hholds : ∀ t ∈ targets, KnownHold t) : standing targets = .ok (rowsOf targets) := by
  have hkeys : ((targets.map fun t => (t.identity, t)).map Prod.fst).Nodup := by
    rw [List.map_map]
    exact hids
  have hvalues : (Dict.ofList (targets.map fun t => (t.identity, t))).values.Perm targets := by
    have := (Dict.perm_ofList hkeys).map Prod.snd
    rw [List.map_map] at this
    simpa [Dict.values, Function.comp_def] using this
  rw [standing, Except.mapM_pure (g := fun t => (t, verdict t)), Except.ok_bind]
  · have hids' := (hvalues.map Target.identity).nodup_iff.2 hids
    exact congrArg Except.ok (rowsOf_congr hids' hvalues)
  · intro t ht
    rw [classifyTarget_known (hholds t (hvalues.mem_iff.1 ht))]
    rfl

theorem blocked_eq_nil {targets : List Target} (hholds : ∀ t ∈ targets, KnownHold t) :
    (rowsOf targets).filterMap blockedBy = [] ↔ ∀ t ∈ targets, ∀ reason, classifyTarget t ≠ .ok (.required reason) := by
  rw [List.filterMap_eq_nil_iff]
  constructor
  · intro h t ht reason hreq
    have hv : verdict t = .required reason := by rw [verdict, hreq]
    have hrow := h (t, verdict t) (mem_rowsOf.2 ⟨ht, rfl⟩)
    rw [hv] at hrow
    cases hrow
  · intro h r hr
    obtain ⟨ht, hv⟩ := mem_rowsOf.1 hr
    cases hkind : r.2 with
    | ready => rw [← Prod.eta r, hkind]; rfl
    | suspended reason => rw [← Prod.eta r, hkind]; rfl
    | required reason =>
      refine absurd ?_ (h r.1 ht reason)
      rw [classifyTarget_known (hholds r.1 ht), ← hv, hkind]

section
variable {targets : List Target}

theorem mem_candidates {rows : List Row} {members : List MemberFact} {f : MemberFact} :
    f ∈ candidates rows members ↔ f ∈ members ∧ ∃ r ∈ rows, f.identity = r.1.identity ∧ f.generation = effective r := by
  simp only [candidates, List.mem_flatMap, List.mem_filter, decide_eq_true_eq]
  exact ⟨fun ⟨r, hr, hf, h⟩ => ⟨hf, r, hr, h⟩, fun ⟨hf, r, hr, h⟩ => ⟨r, hr, hf, h⟩⟩

theorem perm_candidates (rows : List Row) {members members' : List MemberFact} (hp : members.Perm members') :
    (candidates rows members).Perm (candidates rows members') :=
  List.Perm.flatMap_left rows fun _ _ => hp.filter _

theorem supplies_congr {cs cs' : List MemberFact} (h : ∀ f, f ∈ cs ↔ f ∈ cs') (thread : Thread) :
    thread ∈ supplies cs ↔ thread ∈ supplies cs' := by
  simp only [supplies, List.mem_map, List.mem_filterMap, h]

theorem sealedThread_settles {rows rows' : List Row} {members : List MemberFact} {retained : Option Thread}
    (hcs : ∀ f, f ∈ candidates rows' members ↔ f ∈ candidates rows members)
    (hex : rows.filterMap exclusion ≠ [] → rows'.filterMap exclusion ≠ []) :
    sealedThread rows' members (sealedThread rows members retained) = sealedThread rows members retained := by
  cases hsel : selectThread (candidates rows members) retained with
  | some thread =>
    have hsealed : sealedThread rows members retained = some thread := by
      rw [sealedThread, hsel]
      exact if_neg fun h => nomatch h.1
    have hsup : thread ∈ supplies (candidates rows' members) :=
      (supplies_congr hcs thread).2 (selectThread_supplied hsel)
    rw [hsealed, sealedThread, selectThread_of_supplied hsup]
    exact if_neg fun h => nomatch h.1
  | none =>
    -- no candidate supplies a thread, before or after
    have hnil : supplies (candidates rows' members) = [] := by
      rw [selectThread_eq_none] at hsel
      refine List.eq_nil_iff_forall_not_mem.2 fun thread hmem => ?_
      rw [supplies_congr hcs, hsel] at hmem
      cases hmem
    have hnone : ∀ r, selectThread (candidates rows' members) r = none := fun r => selectThread_eq_none.2 hnil
    simp only [sealedThread, hsel, hnone, true_and]
    by_cases hrows : rows.filterMap exclusion = []
    · simp [hrows]
    · simp [hrows, hex hrows]

def Degrades (t t' : Target) : Prop :=
  t' = t ∨ (classifyTarget t = .ok .ready ∧ t'.identity = t.identity ∧ (∃ hold ∈ suspensionHolds, t'.hold = some hold) ∧
    t'.watermarkGeneration = t.watermarkGeneration ∧ t'.watermarkOffset = t.watermarkOffset)

theorem verdict_suspended {t : Target} {hold : String} (hmem : hold ∈ suspensionHolds) (h : t.hold = some hold) :
    classifyTarget t = .ok (.suspended hold) := by
  unfold classifyTarget
  rw [h]
  exact if_pos hmem

theorem Degrades.known {t t' : Target} (h : Degrades t t') (ht : KnownHold t) : KnownHold t' := by
  obtain rfl | ⟨-, -, ⟨hold, hmem, hhold⟩, -⟩ := h
  · exact ht
  · intro hold' hhold'
    rw [hhold, Option.mem_some_iff] at hhold'
    exact .inl (hhold' ▸ hmem)

theorem Degrades.effective_eq {t t' : Target} (h : Degrades t t') :
    effective (t', verdict t') = effective (t, verdict t) := by
  obtain rfl | ⟨hready, -, ⟨hold, hmem, hhold⟩, hgen, -⟩ := h
  · rfl
  · have hv : verdict t = .ready := by rw [verdict, hready]
    have hv' : verdict t' = .suspended hold := by rw [verdict, verdict_suspended hmem hhold]
    simp only [hv, hv', effective, hgen, (ready_iff.1 hready).2.1, Option.getD_some]

theorem Degrades.exclusion {t t' : Target} (h : Degrades t t') (hex : exclusion (t, verdict t) ≠ none) :
    exclusion (t', verdict t') ≠ none := by
  obtain rfl | ⟨hready, -⟩ := h
  · exact hex
  · rw [verdict, hready] at hex
    exact absurd rfl hex

theorem Degrades.not_required {t t' : Target} (h : Degrades t t')
    (hreq : ∀ reason, classifyTarget t ≠ .ok (.required reason)) (reason : String) :
    classifyTarget t' ≠ .ok (.required reason) := by
  obtain rfl | ⟨-, -, ⟨hold, hmem, hhold⟩, -⟩ := h
  · exact hreq reason
  · rw [verdict_suspended hmem hhold]
    nofun

theorem Degrades.identity_eq {t t' : Target} (h : Degrades t t') : t'.identity = t.identity := by
  obtain rfl | ⟨-, h, -⟩ := h
  · rfl
  · exact h

theorem candidates_degrades {targets targets' : List Target} (h : List.Forall₂ Degrades targets targets')
    (members : List MemberFact) (f : MemberFact) :
    f ∈ candidates (rowsOf targets') members ↔ f ∈ candidates (rowsOf targets) members := by
  have hrows : ∀ l : List Target, f ∈ candidates (rowsOf l) members ↔
      f ∈ members ∧ ∃ t ∈ l, f.identity = t.identity ∧ f.generation = effective (t, verdict t) := by
    intro l
    rw [mem_candidates]
    refine and_congr_right fun _ => ⟨?_, fun ⟨t, ht, hf⟩ => ⟨(t, verdict t), mem_rowsOf.2 ⟨ht, rfl⟩, hf⟩⟩
    rintro ⟨⟨t, v⟩, hr, hf⟩
    obtain ⟨ht, rfl : v = verdict t⟩ := mem_rowsOf.1 hr
    exact ⟨t, ht, hf⟩
  rw [hrows, hrows]
  refine and_congr_right fun _ => ?_
  induction h with
  | nil => exact Iff.rfl
  | cons hd _ ih => simp only [List.mem_cons, exists_eq_or_imp, hd.identity_eq, hd.effective_eq, ih]

theorem exclusions_degrades {targets targets' : List Target} (h : List.Forall₂ Degrades targets targets')
    (hex : (rowsOf targets).filterMap exclusion ≠ []) : (rowsOf targets').filterMap exclusion ≠ [] := by
  have hrows : ∀ l : List Target, (rowsOf l).filterMap exclusion ≠ [] ↔ ∃ t ∈ l, exclusion (t, verdict t) ≠ none := by
    intro l
    rw [Ne, List.filterMap_eq_nil_iff]
    constructor
    · intro h
      by_contra hnone
      push Not at hnone
      refine h fun r hr => ?_
      obtain ⟨ht, hv⟩ := mem_rowsOf.1 hr
      have := hnone r.1 ht
      rwa [← hv] at this
    · rintro ⟨t, ht, hne⟩ h
      exact hne (h (t, verdict t) (mem_rowsOf.2 ⟨ht, rfl⟩))
  rw [hrows] at hex ⊢
  obtain ⟨t, ht, hne⟩ := hex
  induction h with
  | nil => cases ht
  | @cons a b _ _ hd _ ih =>
    obtain rfl | ht := List.mem_cons.1 ht
    · exact ⟨b, List.mem_cons_self .., hd.exclusion hne⟩
    · obtain ⟨t', ht', hne'⟩ := ih ht
      exact ⟨t', List.mem_cons_of_mem _ ht', hne'⟩

end

/-! ## The decision -/

structure Shares (targets : List Target) (cert : Certificate) : Prop where
  once : (cert.contributors.map Contributor.identity ++ cert.exclusions.map Exclusion.identity).Perm
    (targets.map Target.identity)
  contributor : ∀ c ∈ cert.contributors, ∃ t ∈ targets, classifyTarget t = .ok .ready ∧ c.identity = t.identity ∧
    c.path = t.sourcePath ∧ c.generation = t.generation ∧ some c.completeLineEnd = t.completeLineEnd
  exclusion : ∀ e ∈ cert.exclusions, ∃ t ∈ targets, ∃ reason, classifyTarget t = .ok (.suspended reason) ∧
    e = ⟨t.identity, t.sourcePath, reason, t.watermarkGeneration⟩

def RanksDistinct (targets : List Target) (members : List MemberFact) : Prop :=
  ∀ rows, standing targets = .ok rows → rows.filterMap blockedBy = [] →
    (((candidates rows members).filterMap MemberFact.supplied).map Prod.fst).Nodup

def Certificate.fields (cert : Certificate) : Option Thread := cert.thread.map SealedThread.fields

section
variable {targets : List Target}

def contributorOf (t : Target) : Contributor := ⟨t.identity, t.sourcePath, t.generation, t.completeLineEnd.getD 0⟩

def certify (conversationKey : String) (revision : Int) (rows : List Row) (members : List MemberFact)
    (timestamps : Option (Option String × Option String)) (retainedThread : Option Thread) : Certificate :=
  ⟨certificateVersion, conversationKey, revision, (rows.filter fun r => r.2 = .ready).map fun r => contributorOf r.1,
    rows.filterMap exclusion, (sealedThread rows members retainedThread).map fun fields => ⟨fields, timestamps⟩⟩

theorem certify_fields (conversationKey : String) (revision : Int) (rows : List Row) (members : List MemberFact)
    (timestamps : Option (Option String × Option String)) (retainedThread : Option Thread) :
    (certify conversationKey revision rows members timestamps retainedThread).fields =
      sealedThread rows members retainedThread := by
  rw [Certificate.fields, certify, Option.map_map]
  exact Option.map_id'

theorem ready_of_row {targets : List Target} (hholds : ∀ t ∈ targets, KnownHold t) {r : Row} (hr : r ∈ rowsOf targets)
    (hready : r.2 = .ready) : r.1 ∈ targets ∧ classifyTarget r.1 = .ok .ready := by
  obtain ⟨ht, hv⟩ := mem_rowsOf.1 hr
  exact ⟨ht, by rw [classifyTarget_known (hholds r.1 ht), ← hv, hready]⟩

theorem contributor_ready {t : Target} (h : classifyTarget t = .ok .ready) : contributor t = .ok (contributorOf t) := by
  obtain ⟨-, -, offset, -, lineEnd, hend, -⟩ := ready_iff.1 h
  rw [contributor, contributorOf, hend]
  rfl

theorem decideSeal_eq (hids : (targets.map Target.identity).Nodup) (hholds : ∀ t ∈ targets, KnownHold t)
    (conversationKey : String) (revision : Int) (members : List MemberFact)
    (timestamps : Option (Option String × Option String)) (retainedThread : Option Thread) :
    decideSeal conversationKey revision targets members timestamps retainedThread = .ok
      (if (rowsOf targets).filterMap blockedBy ≠ [] then ⟨false, (rowsOf targets).filterMap blockedBy, none⟩
      else ⟨true, [], some (certify conversationKey revision (rowsOf targets) members timestamps retainedThread)⟩) := by
  rw [decideSeal, standing_eq hids hholds, Except.ok_bind, sealRows]
  split
  · rfl
  · rw [Except.mapM_pure (g := fun r : Row => contributorOf r.1)]
    · rfl
    · intro r hr
      rw [List.mem_filter, decide_eq_true_eq] at hr
      exact contributor_ready (ready_of_row hholds hr.1 hr.2).2

theorem once_of_rows : ∀ rows : List Row,
    ((rows.filter fun r => r.2 = .ready).map (fun r => r.1.identity) ++
      (rows.filterMap exclusion).map Exclusion.identity).Perm (rows.map fun r => r.1.identity)
  | [] => List.Perm.refl _
  | (t, .ready) :: rows => by
    have hnone : ((t, .ready) :: rows).filterMap exclusion = rows.filterMap exclusion := List.filterMap_cons_none rfl
    simpa [hnone] using once_of_rows rows
  | (t, .required reason) :: rows => by
    simpa [exclusion] using List.perm_middle.trans ((once_of_rows rows).cons t.identity)
  | (t, .suspended reason) :: rows => by
    simpa [exclusion] using List.perm_middle.trans ((once_of_rows rows).cons t.identity)

theorem shares_certify (hholds : ∀ t ∈ targets, KnownHold t)
    (hreq : ∀ t ∈ targets, ∀ reason, classifyTarget t ≠ .ok (.required reason)) (conversationKey : String)
    (revision : Int) (members : List MemberFact) (timestamps : Option (Option String × Option String))
    (retainedThread : Option Thread) :
    Shares targets (certify conversationKey revision (rowsOf targets) members timestamps retainedThread) := by
  refine ⟨?_, ?_, ?_⟩
  · have honce := once_of_rows (rowsOf targets)
    have hrows := (perm_rowsOf targets).map fun r : Row => r.1.identity
    rw [List.map_map] at hrows
    rw [certify, List.map_map]
    exact honce.trans hrows
  · intro c hc
    obtain ⟨r, hr, rfl⟩ := List.mem_map.1 hc
    rw [List.mem_filter, decide_eq_true_eq] at hr
    obtain ⟨ht, hready⟩ := ready_of_row hholds hr.1 hr.2
    obtain ⟨-, -, offset, -, lineEnd, hend, -⟩ := ready_iff.1 hready
    refine ⟨r.1, ht, hready, rfl, rfl, rfl, ?_⟩
    rw [contributorOf, hend]
    rfl
  · intro e he
    obtain ⟨⟨t, v⟩, hr, hrow⟩ := List.mem_filterMap.1 he
    obtain ⟨ht, rfl : v = verdict t⟩ := mem_rowsOf.1 hr
    cases hv : verdict t with
    | ready =>
      rw [hv] at hrow
      cases hrow
    | required reason => exact absurd (hv ▸ classifyTarget_known (hholds t ht)) (hreq t ht reason)
    | suspended reason =>
      rw [hv] at hrow
      exact ⟨t, ht, reason, hv ▸ classifyTarget_known (hholds t ht), (Option.some.inj hrow).symm⟩

theorem seals_of_unblocked (hids : (targets.map Target.identity).Nodup) (hholds : ∀ t ∈ targets, KnownHold t)
    (hreq : ∀ t ∈ targets, ∀ reason, classifyTarget t ≠ .ok (.required reason)) (conversationKey : String)
    (revision : Int) (members : List MemberFact) (timestamps : Option (Option String × Option String))
    (retainedThread : Option Thread) :
    decideSeal conversationKey revision targets members timestamps retainedThread = .ok ⟨true, [],
      some (certify conversationKey revision (rowsOf targets) members timestamps retainedThread)⟩ := by
  rw [decideSeal_eq hids hholds, if_neg (not_not_intro ((blocked_eq_nil hholds).2 hreq))]

theorem ranks_of (hids : (targets.map Target.identity).Nodup) (hholds : ∀ t ∈ targets, KnownHold t)
    {members : List MemberFact} (hranks : RanksDistinct targets members)
    (hblock : (rowsOf targets).filterMap blockedBy = []) :
    (((candidates (rowsOf targets) members).filterMap MemberFact.supplied).map Prod.fst).Nodup :=
  hranks (rowsOf targets) (standing_eq hids hholds) hblock

theorem decideSeal_congr (hids : (targets.map Target.identity).Nodup) (hholds : ∀ t ∈ targets, KnownHold t)
    {members : List MemberFact} (hranks : RanksDistinct targets members) {targets' : List Target}
    {members' : List MemberFact} (ht : targets'.Perm targets) (hm : members'.Perm members) (conversationKey : String)
    (revision : Int) (timestamps : Option (Option String × Option String)) (retainedThread : Option Thread) :
    decideSeal conversationKey revision targets' members' timestamps retainedThread =
      decideSeal conversationKey revision targets members timestamps retainedThread := by
  have hids' : (targets'.map Target.identity).Nodup := (ht.map _).nodup_iff.2 hids
  have hholds' : ∀ t ∈ targets', KnownHold t := fun t h => hholds t (ht.mem_iff.1 h)
  rw [decideSeal_eq hids' hholds', decideSeal_eq hids hholds, rowsOf_congr hids' ht]
  by_cases hblock : (rowsOf targets).filterMap blockedBy = []
  · have hthread : sealedThread (rowsOf targets) members' retainedThread =
        sealedThread (rowsOf targets) members retainedThread := by
      have hcs := perm_candidates (rowsOf targets) hm.symm
      rw [sealedThread, sealedThread, selectThread_congr (ranks_of hids hholds hranks hblock) hcs]
    rw [certify, certify, hthread]
  · rw [if_pos hblock, if_pos hblock]

theorem exists_of_degrades {targets targets' : List Target} (h : List.Forall₂ Degrades targets targets') :
    ∀ t' ∈ targets', ∃ t ∈ targets, Degrades t t' := by
  induction h with
  | nil => nofun
  | @cons t t' _ _ hd _ ih =>
    intro s hs
    obtain rfl | hs := List.mem_cons.1 hs
    · exact ⟨t, List.mem_cons_self .., hd⟩
    · obtain ⟨u, hu, hd'⟩ := ih s hs
      exact ⟨u, List.mem_cons_of_mem _ hu, hd'⟩

theorem identities_of_degrades {targets targets' : List Target} (h : List.Forall₂ Degrades targets targets') :
    targets'.map Target.identity = targets.map Target.identity := by
  induction h with
  | nil => rfl
  | cons hd _ ih => rw [List.map_cons, List.map_cons, hd.identity_eq, ih]

theorem seals_degraded (hids : (targets.map Target.identity).Nodup) (hholds : ∀ t ∈ targets, KnownHold t)
    (hreq : ∀ t ∈ targets, ∀ reason, classifyTarget t ≠ .ok (.required reason)) {targets' : List Target}
    (hdeg : List.Forall₂ Degrades targets targets') (conversationKey : String) (revision : Int)
    (members : List MemberFact) (timestamps : Option (Option String × Option String)) (retainedThread : Option Thread)
    (key' : String) (revision' : Int) (timestamps' : Option (Option String × Option String)) :
    ∃ cert', decideSeal key' revision' targets' members timestamps'
        (certify conversationKey revision (rowsOf targets) members timestamps retainedThread).fields =
          .ok ⟨true, [], some cert'⟩ ∧
      cert'.fields = (certify conversationKey revision (rowsOf targets) members timestamps retainedThread).fields := by
  have hids' : (targets'.map Target.identity).Nodup := identities_of_degrades hdeg ▸ hids
  have hholds' : ∀ t' ∈ targets', KnownHold t' := by
    intro t' ht'
    obtain ⟨t, ht, hd⟩ := exists_of_degrades hdeg t' ht'
    exact hd.known (hholds t ht)
  have hreq' : ∀ t' ∈ targets', ∀ reason, classifyTarget t' ≠ .ok (.required reason) := by
    intro t' ht'
    obtain ⟨t, ht, hd⟩ := exists_of_degrades hdeg t' ht'
    exact hd.not_required (hreq t ht)
  refine ⟨_, seals_of_unblocked hids' hholds' hreq' .., ?_⟩
  rw [certify_fields, certify_fields]
  exact sealedThread_settles (candidates_degrades hdeg members) (exclusions_degrades hdeg)

/-- **A seal is a function of the rows, whatever their order; it is given exactly when no target is required, and
shares the targets out; sealing again, also after any contributors became suspended, keeps the thread.** -/
theorem decideSeal_settles (conversationKey : String) (revision : Int) (targets : List Target)
    (members : List MemberFact) (timestamps : Option (Option String × Option String)) (retainedThread : Option Thread)
    (hids : (targets.map Target.identity).Nodup) (hholds : ∀ t ∈ targets, KnownHold t)
    (hranks : RanksDistinct targets members) :
    ∃ d, decideSeal conversationKey revision targets members timestamps retainedThread = .ok d ∧
      (∀ targets' members', targets'.Perm targets → members'.Perm members →
        decideSeal conversationKey revision targets' members' timestamps retainedThread = .ok d) ∧
      (d.sealable = true ↔ ∀ t ∈ targets, ∀ reason, classifyTarget t ≠ .ok (.required reason)) ∧
      (d.sealable = true ↔ ∃ cert, d.certificate = some cert) ∧
      ∀ cert, d.certificate = some cert → Shares targets cert ∧
        (∀ key' revision' timestamps', ∃ cert',
          decideSeal key' revision' targets members timestamps' cert.fields = .ok ⟨true, [], some cert'⟩ ∧
            cert'.fields = cert.fields) ∧
        ∀ targets', List.Forall₂ Degrades targets targets' → ∀ key' revision' timestamps', ∃ cert',
          decideSeal key' revision' targets' members timestamps' cert.fields = .ok ⟨true, [], some cert'⟩ ∧
            cert'.fields = cert.fields := by
  refine ⟨_, decideSeal_eq hids hholds .., ?_, ?_, ?_, ?_⟩
  · intro targets' members' ht hm
    rw [decideSeal_congr hids hholds hranks ht hm, decideSeal_eq hids hholds]
  · rw [← blocked_eq_nil hholds]
    split <;> simp_all
  · split <;> simp
  · intro cert hcert
    split at hcert
    · cases hcert
    · rename_i hblock
      rw [not_not, blocked_eq_nil hholds] at hblock
      obtain rfl := Option.some.inj hcert
      refine ⟨shares_certify hholds hblock .., ?_, fun targets' hdeg => seals_degraded hids hholds hblock hdeg _ _ _ _ _⟩
      exact seals_degraded hids hholds hblock (List.forall₂_same.2 fun t _ => .inl rfl) _ _ _ _ _

def worked : List Target :=
  [⟨"a", "/r/a.jsonl", "g1", some 100, none, some "g1", some 100⟩,
    ⟨"b", "/r/b.jsonl", "new", none, some "decode-error", some "old", some 60⟩]

def workedThread (path cwd : String) : Thread :=
  ⟨some "k", none, none, none, none, some path, some cwd, none, none, none, none, some 272000⟩

def workedMembers : List MemberFact :=
  [⟨"a", "g1", "/r/a.jsonl", some (workedThread "/r/a.jsonl" "A"), some 0⟩,
    ⟨"b", "old", "/r/b.jsonl", some (workedThread "/r/b.jsonl" "B"), some 0⟩,
    ⟨"b", "new", "/r/b.jsonl", some (workedThread "/r/b.jsonl" "C"), some 0⟩]

theorem decideSeal_settles_worked :
    ∃ d, decideSeal "k" 7 worked workedMembers none none = .ok d ∧
      decideSeal "k" 7 worked.reverse workedMembers.reverse none none = .ok d ∧
      ∃ cert, d.certificate = some cert ∧ Shares worked cert := by
  have hids : (worked.map Target.identity).Nodup := by decide
  have hholds : ∀ t ∈ worked, KnownHold t := by
    intro t ht hold hhold
    simp only [worked, List.mem_cons, List.not_mem_nil, or_false] at ht
    obtain rfl | rfl := ht
    · cases hhold
    · cases hhold
      decide
  have hranks : RanksDistinct worked workedMembers := by
    intro rows hrows _
    rw [standing_eq hids hholds] at hrows
    obtain rfl := Except.ok.inj hrows
    decide +kernel
  obtain ⟨d, hd, horder, hseal, hcert, hall⟩ :=
    decideSeal_settles "k" 7 worked workedMembers none none hids hholds hranks
  have hreq : ∀ t ∈ worked, ∀ reason, classifyTarget t ≠ .ok (.required reason) := by
    intro t ht reason
    simp only [worked, List.mem_cons, List.not_mem_nil, or_false] at ht
    obtain rfl | rfl := ht
    · exact fun h => nomatch h
    · exact fun h => nomatch h
  obtain ⟨cert, hc⟩ := hcert.1 (hseal.2 hreq)
  exact ⟨d, hd, horder _ _ (List.reverse_perm _) (List.reverse_perm _), cert, hc, (hall cert hc).1⟩

end

end Cctally.Barrier
