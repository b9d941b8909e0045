import Cctally.AccountFence
import Cctally.AttributionJournal

/-!
# The attribution tables

A replay walks the lines past the cursor and inserts what they decide, first wins; the
writer of a decision inserts it a first time when it appends it.
-/

namespace Cctally.Attribution

open AccountProtocol

structure Decision where
  accountKey : Option String
  basis : String
  reason : Option String
  rule : String
  decidedAt : String
  values : ItemValues
  journalSegment : String
  journalOffset : Int
  deriving DecidableEq

structure TimelineRow where
  row : ObservationRow
  journalSegment : String
  journalOffset : Int
  deriving DecidableEq

structure Conflicts where
  count : Int
  lastAt : Option String
  deriving DecidableEq

abbrev Fingerprint := Option (String × Int × Option (String × Int))

structure Db where
  decisions : Dict String Decision
  timeline : List TimelineRow
  cursor : Option (Coordinate × Fingerprint)
  conflicts : Option Conflicts

/-- The range a fence is looked up in: its predecessor's line and what follows. -/
def atOrAfter (floor c : Coordinate) : Bool :=
  decide (segmentSortKey floor.segment < segmentSortKey c.segment) ||
    decide (c.segment = floor.segment) && decide (floor.offset ≤ c.offset)

def cutoverOf (p : Coordinate × Line) : Option CutoverBoundary :=
  match p.2.body with
  | .cutover b => if p.2.stamped then some b else none
  | _ => none

/-- `_revision_found_for`: a revision op that records its own coordinate and names the cutover. -/
def revisionFor (cutover : Coordinate) (p : Coordinate × Line) : Option RevisionBoundary :=
  match p.2.body with
  | .revision r =>
    if atOrAfter cutover p.1 ∧ p.2.stamped ∧ p.2.currentRevision ∧ (r.segment, r.endOffset) = (p.1.segment, p.1.offset) ∧
        (r.cutoverSegment, r.cutoverOffset) = (cutover.segment, cutover.offset) then some r
    else none
  | _ => none

def revision3For (cutover revision2 : Coordinate) (p : Coordinate × Line) : Option Revision3Boundary :=
  match p.2.body with
  | .revision3 r =>
    if atOrAfter revision2 p.1 ∧ p.2.stamped ∧ p.2.currentRevision ∧ p.2.successorRevision ∧
        (r.segment, r.endOffset) = (p.1.segment, p.1.offset) ∧
        (r.cutoverSegment, r.cutoverOffset) = (cutover.segment, cutover.offset) ∧
        (r.revision2Segment, r.revision2Offset) = (revision2.segment, revision2.offset) then some r
    else none
  | _ => none

def attachRevision (lines : List (Coordinate × Line)) (b : CutoverBoundary) : CutoverBoundary :=
  match lines.findSome? (revisionFor ⟨b.segment, b.endOffset⟩) with
  | none => { b with revision := none, revision3 := none }
  | some r =>
    { b with
      revision := some r
      revision3 := lines.findSome? (revision3For ⟨b.segment, b.endOffset⟩ ⟨r.segment, r.endOffset⟩) }

def findAccountBoundCutover (lines : List (Coordinate × Line)) : Option CutoverBoundary :=
  (lines.findSome? cutoverOf).map (attachRevision lines)

def admissionFingerprint (boundary : Option CutoverBoundary) : Fingerprint :=
  boundary.map fun b => (b.segment, b.endOffset, b.revision.map fun r => (r.segment, r.endOffset))

/-- `classify_admission(…).admitted` for a line that is not Codex-only, as no decision or observation is. -/
def admitted (boundary : Option CutoverBoundary) (p : Coordinate × Line) : Bool :=
  match boundary with
  | none => true
  | some b =>
    isHistorical p.1 b.frozenExtents ||
      p.2.stamped && (passes p.1 (b.revision.map (·.frozenExtents)) p.2.currentRevision &&
        passes p.1 (b.revision3.map (·.frozenExtents)) p.2.successorRevision)

def decisionRow (op : DecisionOp) (c : Coordinate) (item : ItemValues) : Decision :=
  ⟨op.accountKey, op.basis, op.reason, op.rule, op.decidedAt, item, c.segment, c.offset⟩

/-- `_insert_decision_items`: first wins; the count is of items another account already holds. -/
def insertDecisionItems (op : DecisionOp) (c : Coordinate) : List ItemValues → Dict String Decision → Dict String Decision × Nat
  | [], decisions => (decisions, 0)
  | item :: items, decisions =>
    match decisions.get? item.decisionKey with
    | none => insertDecisionItems op c items (decisions.set item.decisionKey (decisionRow op c item))
    | some prior =>
      let rest := insertDecisionItems op c items decisions
      (rest.1, rest.2 + if prior.accountKey ≠ op.accountKey then 1 else 0)

def applyObservation (timeline : List TimelineRow) (entry : Coordinate × ObservationRow) : List TimelineRow :=
  if timeline.any fun r => decide (r.row.captured = entry.2.captured ∧ r.journalSegment = entry.1.segment ∧
      r.journalOffset = entry.1.offset) then timeline
  else timeline ++ [⟨entry.2, entry.1.segment, entry.1.offset⟩]

structure Ledger where
  decisions : Dict String Decision
  conflicts : Nat
  lastAt : Option String

def insertOp (ledger : Ledger) (entry : Coordinate × DecisionOp) : Ledger :=
  let found := insertDecisionItems entry.2 entry.1 entry.2.items ledger.decisions
  ⟨found.1, ledger.conflicts + found.2, if found.2 = 0 then ledger.lastAt else some entry.2.decidedAt⟩

def replayLine (boundary : Option CutoverBoundary) (state : Ledger × List TimelineRow) (p : Coordinate × Line) :
    Ledger × List TimelineRow :=
  if admitted boundary p then
    match p.2.body with
    | .decision op => (insertOp state.1 (p.1, op), state.2)
    | .observation row => (state.1, applyObservation state.2 (p.1, row))
    | _ => state
  else state

def storedCursor (db : Db) (fingerprint : Fingerprint) : Option Coordinate :=
  match db.cursor with
  | some (c, admission) => if admission = fingerprint then some c else none
  | none => none

def bumpCounter (current : Option Conflicts) (by_ : Nat) (at_ : Option String) : Option Conflicts :=
  some ⟨(current.elim 0 (·.count)) + by_, at_⟩

def decisionConflicts (db : Db) : Int := db.conflicts.elim 0 (·.count)

/-- `rehydrate_claude_attribution` with the high water it pinned; the journal may have grown since. -/
def rehydrate (authoritative : Bool) (hw : Option Coordinate) (journal : Journal) (db : Db) : Db :=
  match hw with
  | none =>
    if authoritative || (storedCursor db (admissionFingerprint none)).isNone then ⟨.empty, [], none, none⟩ else db
  | some hw =>
    let boundary := findAccountBoundCutover (placed journal.entries)
    let fingerprint := admissionFingerprint boundary
    match if authoritative then none else storedCursor db fingerprint with
    | none =>
      let r := (iterRange none hw journal.entries).foldl (replayLine boundary) (⟨.empty, 0, none⟩, [])
      ⟨r.1.decisions, r.2, some (hw, fingerprint), some ⟨r.1.conflicts, r.1.lastAt⟩⟩
    | some cursor =>
      let r := (iterRange (some cursor) hw journal.entries).foldl (replayLine boundary) (⟨db.decisions, 0, none⟩, db.timeline)
      ⟨r.1.decisions, r.2, some (hw, fingerprint),
        if r.1.conflicts = 0 then db.conflicts else bumpCounter db.conflicts r.1.conflicts r.1.lastAt⟩

/-- One line of `_build_batches`, without the time the batch is decided at. -/
structure Batch where
  accountKey : Option String
  basis : String
  reason : Option String
  rule : String
  items : List ItemValues
  length : Nat
  length_pos : 0 < length

def Batch.op (decidedAt : String) (b : Batch) : DecisionOp := ⟨b.accountKey, b.basis, b.reason, b.rule, decidedAt, b.items⟩

/-- `prepare_record` stamps what is appended with every revision. -/
def Batch.record (decidedAt : String) (b : Batch) : Line := ⟨.decision (b.op decidedAt), true, true, true, b.length, b.length_pos⟩

def insertBatches (decidedAt seg : String) : Int → List Batch → Dict String Decision → Dict String Decision × Nat
  | _, [], decisions => (decisions, 0)
  | start, b :: batches, decisions =>
    let found := insertDecisionItems (b.op decidedAt) ⟨seg, start⟩ b.items decisions
    let rest := insertBatches decidedAt seg (start + b.length) batches found.1
    (rest.1, found.2 + rest.2)

/-- `append_decisions`; none when the append is refused, with nothing inserted. -/
def appendDecisions (decidedAt seg : String) (batches : List Batch) (journal : Journal) (db : Db) : Option (Journal × Db) :=
  (journal.append seg (batches.map (Batch.record decidedAt))).map fun appended =>
    let start := endOffset appended seg - size (batches.map (Batch.record decidedAt))
    let found := insertBatches decidedAt seg start batches db.decisions
    (appended, { db with
      decisions := found.1
      conflicts := if found.2 = 0 then db.conflicts else bumpCounter db.conflicts found.2 (some decidedAt) })

def opOf (boundary : Option CutoverBoundary) (p : Coordinate × Line) : Option (Coordinate × DecisionOp) :=
  match p.2.body with
  | .decision op => if admitted boundary p then some (p.1, op) else none
  | _ => none

def rowOf (boundary : Option CutoverBoundary) (p : Coordinate × Line) : Option (Coordinate × ObservationRow) :=
  match p.2.body with
  | .observation row => if admitted boundary p then some (p.1, row) else none
  | _ => none

theorem foldl_replayLine (boundary : Option CutoverBoundary) : ∀ (lines : List (Coordinate × Line)) (state : Ledger × List TimelineRow),
    lines.foldl (replayLine boundary) state =
      ((lines.filterMap (opOf boundary)).foldl insertOp state.1, (lines.filterMap (rowOf boundary)).foldl applyObservation state.2)
  | [], _ => rfl
  | p :: lines, state => by
    rw [List.foldl_cons, foldl_replayLine boundary lines, List.filterMap_cons, List.filterMap_cons, opOf, rowOf, replayLine]
    by_cases hadm : admitted boundary p = true
    · rw [if_pos hadm]
      cases p.2.body <;> simp only [hadm, if_true, List.foldl_cons]
    · rw [if_neg hadm]
      cases p.2.body <;> simp only [hadm, Bool.false_eq_true, if_false]

theorem get?_insertDecisionItems (op : DecisionOp) (c : Coordinate) {k : String} {row : Decision} :
    ∀ {items : List ItemValues} {decisions : Dict String Decision}, decisions.get? k = some row →
      (insertDecisionItems op c items decisions).1.get? k = some row
  | [], _, h => h
  | item :: items, decisions, h => by
    rw [insertDecisionItems]
    split
    next hnone =>
      refine get?_insertDecisionItems op c ?_
      rw [Dict.get?_set, if_neg]
      · exact h
      · intro hk
        rw [hk, h] at hnone
        cases hnone
    next => exact get?_insertDecisionItems op c h

def Agrees (accountKey : Option String) (items : List ItemValues) (decisions : Dict String Decision) : Prop :=
  ∀ item ∈ items, ∃ row, decisions.get? item.decisionKey = some row ∧ row.accountKey = accountKey

theorem insertDecisionItems_of_agrees {op : DecisionOp} {c : Coordinate} {decisions : Dict String Decision} :
    ∀ {items : List ItemValues}, Agrees op.accountKey items decisions → insertDecisionItems op c items decisions = (decisions, 0)
  | [], _ => rfl
  | item :: items, h => by
    obtain ⟨row, hrow, haccount⟩ := h item List.mem_cons_self
    rw [insertDecisionItems, hrow]
    simp only
    rw [insertDecisionItems_of_agrees fun i hi => h i (List.mem_cons_of_mem _ hi), if_neg fun hne => hne haccount]

theorem foldl_insertOp_of_agrees : ∀ {ops : List (Coordinate × DecisionOp)} {ledger : Ledger},
    (∀ entry ∈ ops, Agrees entry.2.accountKey entry.2.items ledger.decisions) → ops.foldl insertOp ledger = ledger
  | [], _, _ => rfl
  | entry :: ops, ledger, h => by
    have hone : insertOp ledger entry = ledger := by
      rw [insertOp, insertDecisionItems_of_agrees (h entry List.mem_cons_self)]
      rfl
    rw [List.foldl_cons, hone]
    exact foldl_insertOp_of_agrees fun e he => h e (List.mem_cons_of_mem _ he)

def Fits (accountKey : Option String) (items : List ItemValues) (decisions : Dict String Decision) : Prop :=
  ∀ item ∈ items, ∀ row, decisions.get? item.decisionKey = some row → row.accountKey = accountKey

theorem insertDecisionItems_of_fits {op : DecisionOp} {c : Coordinate} :
    ∀ {items : List ItemValues} {decisions : Dict String Decision}, Fits op.accountKey items decisions →
      (insertDecisionItems op c items decisions).2 = 0 ∧
      Agrees op.accountKey items (insertDecisionItems op c items decisions).1 ∧
      ∀ k row, (insertDecisionItems op c items decisions).1.get? k = some row →
        decisions.get? k = some row ∨ row.accountKey = op.accountKey ∧ ∃ item ∈ items, item.decisionKey = k
  | [], _, _ => ⟨rfl, nofun, fun _ _ h => .inl h⟩
  | item :: items, decisions, h => by
    rw [insertDecisionItems]
    split
    next hnone =>
      have hfit : Fits op.accountKey items (decisions.set item.decisionKey (decisionRow op c item)) := by
        intro i hi row hrow
        rw [Dict.get?_set] at hrow
        split at hrow
        · rw [← Option.some.inj hrow]
          rfl
        · exact h i (List.mem_cons_of_mem _ hi) row hrow
      obtain ⟨hzero, hagrees, hrows⟩ := insertDecisionItems_of_fits (c := c) hfit
      refine ⟨hzero, fun i hi => ?_, fun k row hrow => ?_⟩
      · rcases List.mem_cons.1 hi with rfl | hi
        · refine ⟨decisionRow op c i, get?_insertDecisionItems op c ?_, rfl⟩
          rw [Dict.get?_set, if_pos rfl]
        · exact hagrees i hi
      · rcases hrows k row hrow with hold | ⟨haccount, i, hi, hk⟩
        · rw [Dict.get?_set] at hold
          split at hold
          next hk => exact .inr ⟨by rw [← Option.some.inj hold]; rfl, item, List.mem_cons_self, hk⟩
          next => exact .inl hold
        · exact .inr ⟨haccount, i, List.mem_cons_of_mem _ hi, hk⟩
    next prior hprior =>
      have hsame := h item List.mem_cons_self prior hprior
      obtain ⟨hzero, hagrees, hrows⟩ := insertDecisionItems_of_fits (c := c) fun i hi => h i (List.mem_cons_of_mem _ hi)
      refine ⟨?_, fun i hi => ?_, fun k row hrow => ?_⟩
      · simp only
        rw [hzero, if_neg fun hne => hne hsame]
      · rcases List.mem_cons.1 hi with rfl | hi
        · exact ⟨prior, get?_insertDecisionItems op c hprior, hsame⟩
        · exact hagrees i hi
      · rcases hrows k row hrow with hold | ⟨haccount, i, hi, hk⟩
        · exact .inl hold
        · exact .inr ⟨haccount, i, List.mem_cons_of_mem _ hi, hk⟩

theorem Agrees.mono {accountKey : Option String} {items : List ItemValues} {decisions decisions' : Dict String Decision}
    (h : Agrees accountKey items decisions) (hkeep : ∀ k row, decisions.get? k = some row → decisions'.get? k = some row) :
    Agrees accountKey items decisions' := by
  intro item hitem
  obtain ⟨row, hrow, haccount⟩ := h item hitem
  exact ⟨row, hkeep _ _ hrow, haccount⟩

/-! ## A group of batches -/

def Consistent (decisions : Dict String Decision) (batches : List Batch) : Prop :=
  ∀ b ∈ batches, ∀ item ∈ b.items,
    (∀ row, decisions.get? item.decisionKey = some row → row.accountKey = b.accountKey) ∧
    ∀ b' ∈ batches, ∀ item' ∈ b'.items, item'.decisionKey = item.decisionKey → b'.accountKey = b.accountKey

section
variable (decidedAt seg : String)

theorem get?_insertBatches {k : String} {row : Decision} :
    ∀ (batches : List Batch) (start : Int) (decisions : Dict String Decision), decisions.get? k = some row →
      (insertBatches decidedAt seg start batches decisions).1.get? k = some row
  | [], _, _, h => h
  | b :: batches, start, _, h =>
    get?_insertBatches batches (start + b.length) _ (get?_insertDecisionItems (b.op decidedAt) ⟨seg, start⟩ h)

theorem insertBatches_of_consistent : ∀ {batches : List Batch} (start : Int) {decisions : Dict String Decision},
    Consistent decisions batches →
      (insertBatches decidedAt seg start batches decisions).2 = 0 ∧
      ∀ b ∈ batches, Agrees b.accountKey b.items (insertBatches decidedAt seg start batches decisions).1
  | [], _, _, _ => ⟨rfl, nofun⟩
  | b :: batches, start, decisions, h => by
    have hfits : Fits (b.op decidedAt).accountKey b.items decisions := fun item hitem => (h b List.mem_cons_self item hitem).1
    obtain ⟨hzero, hagrees, hrows⟩ := insertDecisionItems_of_fits (c := ⟨seg, start⟩) hfits
    have hrest : Consistent (insertDecisionItems (b.op decidedAt) ⟨seg, start⟩ b.items decisions).1 batches := by
      intro b' hb' item hitem
      obtain ⟨hstored, hbatch⟩ := h b' (List.mem_cons_of_mem _ hb') item hitem
      refine ⟨fun row hrow => ?_, fun b'' hb'' => hbatch b'' (List.mem_cons_of_mem _ hb'')⟩
      rcases hrows _ row hrow with hold | ⟨haccount, item', hitem', hkey⟩
      · exact hstored row hold
      · exact haccount.trans (hbatch b List.mem_cons_self item' hitem' hkey)
    obtain ⟨hzero', hagrees'⟩ := insertBatches_of_consistent (start + b.length) hrest
    refine ⟨?_, fun b' hb' => ?_⟩
    · rw [insertBatches]
      simp only
      rw [hzero, hzero']
    · rcases List.mem_cons.1 hb' with rfl | hb'
      · exact hagrees.mono fun k row hrow => get?_insertBatches decidedAt seg batches _ _ hrow
      · exact hagrees' b' hb'

theorem admitted_of_stamped (boundary : Option CutoverBoundary) {p : Coordinate × Line} (hs : p.2.stamped = true)
    (hr : p.2.currentRevision = true) (hr3 : p.2.successorRevision = true) : admitted boundary p = true := by
  cases boundary with
  | none => rfl
  | some b => rw [admitted, hs, hr, hr3, passes_true, passes_true, Bool.and_self, Bool.and_self, Bool.or_true]

theorem foldl_insertOp_batches (boundary : Option CutoverBoundary) : ∀ (batches : List Batch) (start : Int) (ledger : Ledger),
    (insertBatches decidedAt seg start batches ledger.decisions).2 = 0 →
    ((place seg start (batches.map (Batch.record decidedAt))).filterMap (opOf boundary)).foldl insertOp ledger =
      { ledger with decisions := (insertBatches decidedAt seg start batches ledger.decisions).1 }
  | [], _, _, _ => rfl
  | b :: batches, start, ledger, h => by
    rw [insertBatches] at h ⊢
    simp only at h ⊢
    have hone : insertOp ledger (⟨seg, start⟩, b.op decidedAt) =
        { ledger with decisions := (insertDecisionItems (b.op decidedAt) ⟨seg, start⟩ b.items ledger.decisions).1 } := by
      have hfound : (insertDecisionItems (b.op decidedAt) ⟨seg, start⟩ b.items ledger.decisions).2 = 0 := by omega
      simp only [insertOp, Batch.op] at hfound ⊢
      simp only [hfound, if_true, Nat.add_zero]
    have hop : opOf boundary (⟨seg, start⟩, b.record decidedAt) = some (⟨seg, start⟩, b.op decidedAt) :=
      if_pos (admitted_of_stamped boundary rfl rfl rfl)
    rw [List.map_cons, place, List.filterMap_cons, hop]
    simp only
    rw [List.foldl_cons, hone]
    exact foldl_insertOp_batches boundary batches (start + b.length) _ (by simp only; omega)

end

def Covers (later lines : List (Coordinate × Line)) : Prop :=
  ∀ p ∈ later, ∀ r, p.2.body = .revision3 r → ∀ q ∈ lines, isHistorical q.1 r.frozenExtents = true

theorem revision3For_body {cutover revision2 : Coordinate} {p : Coordinate × Line} {r : Revision3Boundary}
    (h : revision3For cutover revision2 p = some r) : p.2.body = .revision3 r := by
  unfold revision3For at h
  split at h
  next hbody =>
    split at h
    · rw [hbody, Option.some.inj h]
    · cases h
  next => cases h

theorem attachRevision_fst (lines : List (Coordinate × Line)) (b : CutoverBoundary) :
    (attachRevision lines b).frozenExtents = b.frozenExtents ∧
      (attachRevision lines b).revision = lines.findSome? (revisionFor ⟨b.segment, b.endOffset⟩) := by
  unfold attachRevision
  split
  next h => exact ⟨rfl, h.symm⟩
  next h => exact ⟨rfl, h.symm⟩

theorem admitted_of_fingerprint {lines later : List (Coordinate × Line)} (hcovers : Covers later lines)
    (h : admissionFingerprint (findAccountBoundCutover lines) =
      admissionFingerprint (findAccountBoundCutover (lines ++ later))) {q : Coordinate × Line} (hq : q ∈ lines) :
    admitted (findAccountBoundCutover (lines ++ later)) q = admitted (findAccountBoundCutover lines) q := by
  unfold findAccountBoundCutover at h ⊢
  cases hcut : lines.findSome? cutoverOf with
  | none =>
    rw [hcut] at h
    rw [Option.map_eq_none_iff.1 (Option.map_eq_none_iff.1 h.symm)]
    rfl
  | some b =>
    have hcut' : (lines ++ later).findSome? cutoverOf = some b := by rw [List.findSome?_append, hcut]; rfl
    rw [hcut, hcut'] at h
    rw [hcut']
    simp only [Option.map_some, admissionFingerprint, Option.some.injEq, Prod.mk.injEq] at h ⊢
    obtain ⟨_, _, hrev⟩ := h
    rw [(attachRevision_fst _ _).2, (attachRevision_fst _ _).2] at hrev
    cases hfind : lines.findSome? (revisionFor ⟨b.segment, b.endOffset⟩) with
    | none =>
      rw [hfind] at hrev
      unfold attachRevision
      rw [hfind, Option.map_eq_none_iff.1 hrev.symm]
    | some r =>
      have hfind' : (lines ++ later).findSome? (revisionFor ⟨b.segment, b.endOffset⟩) = some r := by
        rw [List.findSome?_append, hfind]
        rfl
      unfold attachRevision
      rw [hfind, hfind']
      simp only
      rw [List.findSome?_append]
      cases lines.findSome? (revision3For ⟨b.segment, b.endOffset⟩ ⟨r.segment, r.endOffset⟩) with
      | some r3 => rfl
      | none =>
        cases hlater : later.findSome? (revision3For ⟨b.segment, b.endOffset⟩ ⟨r.segment, r.endOffset⟩) with
        | none => rfl
        | some r3 =>
          obtain ⟨p, hp, hfor⟩ := List.exists_of_findSome?_eq_some hlater
          have hhist := hcovers p hp r3 (revision3For_body hfor) q hq
          simp only [admitted, Option.none_or, Option.map_some, Option.map_none, passes, hhist, Bool.true_or]

end Cctally.Attribution
