import Cctally.Attribution

/-!
# Runs of replays and appended decisions

Anybody appends lines of other kinds at any point, also between a replay's pinned end and
its reading of the fences. A decision is applied when it is appended and again when it is
read back.
-/

namespace Cctally.Attribution

open AccountProtocol

structure State where
  journal : Journal
  pinned : Option (Option Coordinate)
  db : Db

inductive Action
  | others (seg : String) (lines : List Line)
  | establishRevision3 (seg : String) (cutover revision2 : Coordinate) (length : Nat) (length_pos : 0 < length)
  | pin
  | replay
  | decide (decidedAt seg : String) (batches : List Batch)

def Line.isOther (l : Line) : Bool :=
  match l.body with
  | .decision _ => false
  | .revision3 _ => false
  | _ => true

/-- `_establish_account_bound_revision3`: the extents are those of the journal it is appended to. -/
def revision3Line (journal : Journal) (seg : String) (cutover revision2 : Coordinate) (length : Nat) (length_pos : 0 < length) : Line :=
  ⟨.revision3 ⟨seg, endOffset journal seg, extents journal, cutover.segment, cutover.offset, revision2.segment,
    revision2.offset⟩, true, true, true, length, length_pos⟩

def step (s : State) : Action → Option State
  | .others seg lines =>
    if lines.all Line.isOther then (s.journal.append seg lines).map fun journal => { s with journal := journal } else none
  | .establishRevision3 seg cutover revision2 length length_pos =>
    (s.journal.append seg [revision3Line s.journal seg cutover revision2 length length_pos]).map fun journal =>
      { s with journal := journal }
  | .pin =>
    match s.pinned with
    | none => some { s with pinned := some (highWater s.journal) }
    | some _ => none
  | .replay =>
    match s.pinned with
    | none => none
    | some hw => some { s with pinned := none, db := rehydrate false hw s.journal s.db }
  | .decide decidedAt seg batches =>
    match s.pinned with
    | none => (appendDecisions decidedAt seg batches s.journal s.db).map fun r => { s with journal := r.1, db := r.2 }
    | some _ => none

def start (journal : Journal) (db : Db) : State := ⟨journal, none, { db with cursor := none }⟩

def run : State → List Action → Option State
  | s, [] => some s
  | s, a :: actions => (step s a).bind fun t => run t actions

/-- What an appended batch must keep to, once a replay has counted the conflicts before it. -/
def Meets (s : State) : Action → Prop
  | .decide _ _ batches => s.db.cursor = none ∨ Consistent s.db.decisions batches
  | _ => True

def AllMeet : State → List Action → Prop
  | _, [] => True
  | s, a :: actions => Meets s a ∧ ∀ t, step s a = some t → AllMeet t actions

abbrev opsIn (boundary : Option CutoverBoundary) (entries : Entries) : List (Coordinate × DecisionOp) :=
  (placed entries).filterMap (opOf boundary)

abbrev rowsIn (boundary : Option CutoverBoundary) (entries : Entries) : List (Coordinate × ObservationRow) :=
  (placed entries).filterMap (rowOf boundary)

abbrev emptyLedger : Ledger := ⟨.empty, 0, none⟩

def ledgerOf (boundary : Option CutoverBoundary) (entries : Entries) : Ledger :=
  (opsIn boundary entries).foldl insertOp emptyLedger

def timelineOf (boundary : Option CutoverBoundary) (entries : Entries) : List TimelineRow :=
  (rowsIn boundary entries).foldl applyObservation []

def Prepared (l : Line) : Prop :=
  ∀ op, l.body = .decision op → l.stamped = true ∧ l.currentRevision = true ∧ l.successorRevision = true

structure Replayed (upto seen now : Journal) (db : Db) : Prop where
  upto_seen : Grows upto seen
  seen_now : Grows seen now
  cursor : ∃ c, highWater upto = some c ∧
    db.cursor = some (c, admissionFingerprint (findAccountBoundCutover (placed seen.entries)))
  fences : ∀ later, placed now.entries = placed seen.entries ++ later → Covers later (placed seen.entries)
  timeline : db.timeline = timelineOf (findAccountBoundCutover (placed seen.entries)) upto.entries
  decisions : db.decisions = (ledgerOf (findAccountBoundCutover (placed seen.entries)) now.entries).decisions
  conflicts : db.conflicts = some ⟨(ledgerOf (findAccountBoundCutover (placed seen.entries)) now.entries).conflicts,
    (ledgerOf (findAccountBoundCutover (placed seen.entries)) now.entries).lastAt⟩
  own : ∀ later, placed now.entries = placed upto.entries ++ later → ∀ p ∈ later, Prepared p.2 ∧
    ∀ op, p.2.body = .decision op → Agrees op.accountKey op.items db.decisions

def Undecided (at_ now : Journal) : Prop :=
  ∀ later, placed now.entries = placed at_.entries ++ later → ∀ p ∈ later, ∀ op, p.2.body ≠ .decision op

theorem opOf_of_undecided {boundary : Option CutoverBoundary} {later : List (Coordinate × Line)}
    (h : ∀ p ∈ later, ∀ op, p.2.body ≠ .decision op) : later.filterMap (opOf boundary) = [] := by
  rw [List.filterMap_eq_nil_iff]
  intro p hp
  unfold opOf
  split
  next op hop => exact absurd hop (h p hp op)
  next => rfl

theorem opOf_congr {b b' : Option CutoverBoundary} {p : Coordinate × Line} (h : admitted b p = admitted b' p) :
    opOf b p = opOf b' p := by rw [opOf, opOf, h]

theorem rowOf_congr {b b' : Option CutoverBoundary} {p : Coordinate × Line} (h : admitted b p = admitted b' p) :
    rowOf b p = rowOf b' p := by rw [rowOf, rowOf, h]

theorem opOf_prepared {b b' : Option CutoverBoundary} {p : Coordinate × Line} (h : Prepared p.2) : opOf b p = opOf b' p := by
  unfold opOf
  split
  next op hop =>
    obtain ⟨hs, hr, hr3⟩ := h op hop
    rw [admitted_of_stamped b hs hr hr3, admitted_of_stamped b' hs hr hr3]
  next => rfl

theorem mem_opOf {boundary : Option CutoverBoundary} {p : Coordinate × Line} {entry : Coordinate × DecisionOp}
    (h : opOf boundary p = some entry) : p.2.body = .decision entry.2 := by
  unfold opOf at h
  split at h
  next op hop =>
    split at h
    · rw [hop, ← Option.some.inj h]
    · cases h
  next => cases h

theorem ledgerOf_undecided {boundary : Option CutoverBoundary} {at_ now : Journal} (hgrow : Grows at_ now)
    (h : Undecided at_ now) : ledgerOf boundary now.entries = ledgerOf boundary at_.entries := by
  obtain ⟨later, hlater⟩ := hgrow.placed_eq
  rw [ledgerOf, ledgerOf, opsIn, hlater, List.filterMap_append, opOf_of_undecided (h later hlater), List.append_nil]

theorem rehydrate_authoritative {at_ now : Journal} {hw : Coordinate} (hhw : highWater at_ = some hw) (hgrow : Grows at_ now)
    (db : Db) :
    rehydrate true (some hw) now db =
      let boundary := findAccountBoundCutover (placed now.entries)
      ⟨(ledgerOf boundary at_.entries).decisions, timelineOf boundary at_.entries,
        some (hw, admissionFingerprint boundary),
        some ⟨(ledgerOf boundary at_.entries).conflicts, (ledgerOf boundary at_.entries).lastAt⟩⟩ := by
  rw [rehydrate]
  simp only [if_true]
  rw [iterRange_start hgrow hhw, foldl_replayLine]
  rfl

section
variable {upto seen at_ now : Journal} {db : Db}

theorem Replayed.refenced (h : Replayed upto seen now db)
    (hfp : admissionFingerprint (findAccountBoundCutover (placed seen.entries)) =
      admissionFingerprint (findAccountBoundCutover (placed now.entries))) :
    ledgerOf (findAccountBoundCutover (placed now.entries)) now.entries =
        ledgerOf (findAccountBoundCutover (placed seen.entries)) now.entries ∧
      timelineOf (findAccountBoundCutover (placed now.entries)) upto.entries =
        timelineOf (findAccountBoundCutover (placed seen.entries)) upto.entries := by
  obtain ⟨since, hsince⟩ := h.seen_now.placed_eq
  obtain ⟨between, hbetween⟩ := h.upto_seen.placed_eq
  have hcovers := h.fences since hsince
  rw [hsince] at hfp
  have hold : ∀ p ∈ placed upto.entries, admitted (findAccountBoundCutover (placed now.entries)) p =
      admitted (findAccountBoundCutover (placed seen.entries)) p := by
    intro p hp
    rw [hsince]
    refine admitted_of_fingerprint hcovers hfp ?_
    rw [hbetween]
    exact List.mem_append_left _ hp
  have hnow : placed now.entries = placed upto.entries ++ (between ++ since) := by
    rw [hsince, hbetween, List.append_assoc]
  constructor
  · have hops : opsIn (findAccountBoundCutover (placed now.entries)) now.entries =
        opsIn (findAccountBoundCutover (placed seen.entries)) now.entries := by
      refine List.filterMap_congr fun p hp => ?_
      rw [hnow] at hp
      rcases List.mem_append.1 hp with hp | hp
      · exact opOf_congr (hold p hp)
      · exact opOf_prepared (h.own _ hnow p hp).1
    rw [ledgerOf, ledgerOf, hops]
  · have hrows : rowsIn (findAccountBoundCutover (placed now.entries)) upto.entries =
        rowsIn (findAccountBoundCutover (placed seen.entries)) upto.entries :=
      List.filterMap_congr fun p hp => rowOf_congr (hold p hp)
    rw [timelineOf, timelineOf, hrows]

theorem Replayed.rehydrate_eq (h : Replayed upto seen now db) (hseen : Grows seen at_) (hgrow : Grows at_ now)
    (hundecided : Undecided at_ now) {hw : Coordinate} (hhw : highWater at_ = some hw) (db' : Db) :
    rehydrate false (some hw) now db = rehydrate true (some hw) now db' := by
  rw [rehydrate_authoritative hhw hgrow]
  obtain ⟨c, hc, hcursor⟩ := h.cursor
  by_cases hfp : admissionFingerprint (findAccountBoundCutover (placed seen.entries)) =
      admissionFingerprint (findAccountBoundCutover (placed now.entries))
  · obtain ⟨hledger, htimeline⟩ := h.refenced hfp
    have hstored : storedCursor db (admissionFingerprint (findAccountBoundCutover (placed now.entries))) = some c := by
      rw [storedCursor, hcursor]
      exact if_pos hfp
    have hread := iterRange_resume (h.upto_seen.trans hseen) hgrow hc hhw
    obtain ⟨later, hlater⟩ := hgrow.placed_eq
    have hagrees : ∀ entry ∈ (iterRange (some c) hw now.entries).filterMap
        (opOf (findAccountBoundCutover (placed now.entries))), Agrees entry.2.accountKey entry.2.items db.decisions := by
      intro entry hentry
      obtain ⟨p, hp, hop⟩ := List.mem_filterMap.1 hentry
      have hall : placed now.entries = placed upto.entries ++ (iterRange (some c) hw now.entries ++ later) := by
        rw [hlater, ← hread, List.append_assoc]
      exact (h.own _ hall p (List.mem_append_left _ hp)).2 _ (mem_opOf hop)
    have hsame : ledgerOf (findAccountBoundCutover (placed now.entries)) now.entries =
        ledgerOf (findAccountBoundCutover (placed now.entries)) at_.entries := ledgerOf_undecided hgrow hundecided
    rw [rehydrate]
    simp only [Bool.false_eq_true, if_false, hstored]
    rw [foldl_replayLine, foldl_insertOp_of_agrees hagrees, h.timeline, ← htimeline, timelineOf, timelineOf, rowsIn, rowsIn,
      ← List.foldl_append, ← List.filterMap_append, hread, ← hsame, hledger, if_pos rfl, h.conflicts, h.decisions]
  · have hstored : storedCursor db (admissionFingerprint (findAccountBoundCutover (placed now.entries))) = none := by
      rw [storedCursor, hcursor]
      exact if_neg hfp
    rw [← rehydrate_authoritative hhw hgrow db, rehydrate, rehydrate]
    simp only [Bool.false_eq_true, if_false, hstored, if_true]

theorem replayed_of_authoritative {hw : Coordinate} (hhw : highWater at_ = some hw) (hgrow : Grows at_ now)
    (hundecided : Undecided at_ now) (db : Db) : Replayed at_ now now (rehydrate true (some hw) now db) := by
  rw [rehydrate_authoritative hhw hgrow]
  refine ⟨hgrow, .refl now, ⟨hw, hhw, rfl⟩, fun later hlater p hp => ?_, rfl, ?_, ?_, fun later hlater p hp => ?_⟩
  · rw [List.self_eq_append_right.1 hlater] at hp
    cases hp
  · rw [ledgerOf_undecided hgrow hundecided]
  · rw [ledgerOf_undecided hgrow hundecided]
  · exact ⟨fun op hop => absurd hop (hundecided later hlater p hp op), fun op hop => absurd hop (hundecided later hlater p hp op)⟩

end

/-! ## One append -/

section
variable {upto seen now appended : Journal} {db : Db} {seg : String} {new : List Line}

theorem mem_place_line {segment : String} {offset : Int} {lines : List Line} {p : Coordinate × Line}
    (h : p ∈ place segment offset lines) : p.2 ∈ lines := by
  induction lines generalizing offset with
  | nil => cases h
  | cons l ls ih =>
    rcases List.mem_cons.1 h with rfl | h
    · exact List.mem_cons_self
    · exact List.mem_cons_of_mem _ (ih h)

theorem later_append {old : Journal} (hgrow : Grows old now) (happ : now.append seg new = some appended)
    {later : List (Coordinate × Line)} (hlater : placed appended.entries = placed old.entries ++ later) :
    ∃ before, placed now.entries = placed old.entries ++ before ∧
      later = before ++ place seg (endOffset appended seg - size new) new := by
  obtain ⟨before, hbefore⟩ := hgrow.placed_eq
  refine ⟨before, hbefore, ?_⟩
  have hplaced := append_placed happ
  rw [hlater, hbefore, List.append_assoc] at hplaced
  exact List.append_cancel_left hplaced

theorem undecided_append {at_ : Journal} (hgrow : Grows at_ now) (h : Undecided at_ now)
    (happ : now.append seg new = some appended) (hother : ∀ l ∈ new, ∀ op, l.body ≠ .decision op) : Undecided at_ appended := by
  intro later hlater p hp op
  obtain ⟨before, hbefore, rfl⟩ := later_append hgrow happ hlater
  rcases List.mem_append.1 hp with hp | hp
  · exact h before hbefore p hp op
  · exact hother p.2 (mem_place_line hp) op

def Freezes (now : Journal) (new : List Line) : Prop :=
  ∀ l ∈ new, ∀ r, l.body = .revision3 r → ∀ q ∈ placed now.entries, isHistorical q.1 r.frozenExtents = true

theorem Replayed.fences_append (h : Replayed upto seen now db) (happ : now.append seg new = some appended)
    (hfreezes : Freezes now new) :
    ∀ later, placed appended.entries = placed seen.entries ++ later → Covers later (placed seen.entries) := by
  intro later hlater p hp r hr q hq
  obtain ⟨before, hbefore, rfl⟩ := later_append h.seen_now happ hlater
  rcases List.mem_append.1 hp with hp | hp
  · exact h.fences before hbefore p hp r hr q hq
  · refine hfreezes p.2 (mem_place_line hp) r hr q ?_
    rw [hbefore]
    exact List.mem_append_left _ hq

theorem Replayed.others (h : Replayed upto seen now db) (happ : now.append seg new = some appended)
    (hother : ∀ l ∈ new, ∀ op, l.body ≠ .decision op) (hfreezes : Freezes now new) : Replayed upto seen appended db := by
  have hledger : ledgerOf (findAccountBoundCutover (placed seen.entries)) appended.entries =
      ledgerOf (findAccountBoundCutover (placed seen.entries)) now.entries := by
    refine ledgerOf_undecided ((Grows.refl now).append happ) (undecided_append (.refl now) ?_ happ hother)
    intro later hlater p hp
    rw [List.self_eq_append_right.1 hlater] at hp
    cases hp
  refine ⟨h.upto_seen, h.seen_now.append happ, h.cursor, h.fences_append happ hfreezes, h.timeline, ?_, ?_, ?_⟩
  · rw [hledger]
    exact h.decisions
  · rw [hledger]
    exact h.conflicts
  · intro later hlater p hp
    obtain ⟨before, hbefore, rfl⟩ := later_append (h.upto_seen.trans h.seen_now) happ hlater
    rcases List.mem_append.1 hp with hp | hp
    · exact h.own before hbefore p hp
    · exact ⟨fun op hop => absurd hop (hother p.2 (mem_place_line hp) op),
        fun op hop => absurd hop (hother p.2 (mem_place_line hp) op)⟩

theorem appendDecisions_eq {decidedAt : String} {batches : List Batch} {db' : Db}
    (h : appendDecisions decidedAt seg batches now db = some (appended, db')) :
    now.append seg (batches.map (Batch.record decidedAt)) = some appended ∧
      db' = { db with
        decisions := (insertBatches decidedAt seg
          (endOffset appended seg - size (batches.map (Batch.record decidedAt))) batches db.decisions).1
        conflicts := if (insertBatches decidedAt seg
            (endOffset appended seg - size (batches.map (Batch.record decidedAt))) batches db.decisions).2 = 0 then db.conflicts
          else bumpCounter db.conflicts (insertBatches decidedAt seg
            (endOffset appended seg - size (batches.map (Batch.record decidedAt))) batches db.decisions).2 (some decidedAt) } := by
  obtain ⟨j, hj, heq⟩ := Option.map_eq_some_iff.1 h
  obtain ⟨rfl, rfl⟩ := Prod.mk.inj heq
  exact ⟨hj, rfl⟩

theorem Replayed.decide {decidedAt : String} {batches : List Batch} {db' : Db} (h : Replayed upto seen now db)
    (hconsistent : Consistent db.decisions batches)
    (happ : appendDecisions decidedAt seg batches now db = some (appended, db')) : Replayed upto seen appended db' := by
  obtain ⟨hadd, rfl⟩ := appendDecisions_eq happ
  clear happ
  generalize hstart : endOffset appended seg - size (batches.map (Batch.record decidedAt)) = start
  obtain ⟨hzero, hagrees⟩ := insertBatches_of_consistent decidedAt seg start hconsistent
  have hplaced := append_placed hadd
  rw [hstart] at hplaced
  have hledger : ledgerOf (findAccountBoundCutover (placed seen.entries)) appended.entries =
      { ledgerOf (findAccountBoundCutover (placed seen.entries)) now.entries with
        decisions := (insertBatches decidedAt seg start batches db.decisions).1 } := by
    rw [ledgerOf, opsIn, hplaced, List.filterMap_append, List.foldl_append, ← opsIn, ← ledgerOf]
    rw [h.decisions] at hzero ⊢
    exact foldl_insertOp_batches decidedAt seg _ batches start _ hzero
  have hbody : ∀ l ∈ batches.map (Batch.record decidedAt), ∃ b ∈ batches, l = b.record decidedAt := fun l hl => by
    obtain ⟨b, hb, rfl⟩ := List.mem_map.1 hl
    exact ⟨b, hb, rfl⟩
  have hfreezes : Freezes now (batches.map (Batch.record decidedAt)) := by
    intro l hl r hr
    obtain ⟨b, _, rfl⟩ := hbody l hl
    cases hr
  refine ⟨h.upto_seen, h.seen_now.append hadd, h.cursor, h.fences_append hadd hfreezes, h.timeline, ?_, ?_, ?_⟩
  · rw [hledger]
  · rw [hledger]
    simp only [hzero, if_true]
    exact h.conflicts
  · intro later hlater p hp
    obtain ⟨before, hbefore, rfl⟩ := later_append (h.upto_seen.trans h.seen_now) hadd hlater
    rcases List.mem_append.1 hp with hp | hp
    · obtain ⟨hprepared, hold⟩ := h.own before hbefore p hp
      exact ⟨hprepared, fun op hop => (hold op hop).mono fun k row hrow =>
        get?_insertBatches decidedAt seg batches start db.decisions hrow⟩
    · obtain ⟨b, hb, hline⟩ := hbody p.2 (mem_place_line hp)
      rw [hline]
      refine ⟨fun _ _ => ⟨rfl, rfl, rfl⟩, fun op hop => ?_⟩
      obtain rfl := Body.decision.inj hop
      exact hagrees b hb

end

/-! ## Every run -/

def Inv (s : State) : Prop :=
  ∃ at_, (s.pinned = none ∧ at_ = s.journal ∨ s.pinned = some (highWater at_)) ∧ Grows at_ s.journal ∧
    Undecided at_ s.journal ∧
    (s.db.cursor = none ∨ ∃ upto seen, Replayed upto seen s.journal s.db ∧ Grows seen at_)

theorem undecided_self (journal : Journal) : Undecided journal journal := by
  intro later hlater p hp
  rw [List.self_eq_append_right.1 hlater] at hp
  cases hp

theorem inv_start (journal : Journal) (db : Db) : Inv (start journal db) :=
  ⟨journal, .inl ⟨rfl, rfl⟩, .refl journal, undecided_self journal, .inl rfl⟩

theorem inv_others {s : State} {seg : String} {new : List Line} {appended : Journal} (h : Inv s)
    (happ : s.journal.append seg new = some appended) (hother : ∀ l ∈ new, ∀ op, l.body ≠ .decision op)
    (hfreezes : Freezes s.journal new) : Inv { s with journal := appended } := by
  obtain ⟨at_, hat, hgrow, hundecided, htracked⟩ := h
  have hkept : s.db.cursor = none ∨ ∃ upto seen, Replayed upto seen appended s.db ∧ Grows seen at_ :=
    htracked.imp_right fun ⟨upto, seen, hrep, hseen⟩ => ⟨upto, seen, hrep.others happ hother hfreezes, hseen⟩
  rcases hat with ⟨hidle, rfl⟩ | hpinned
  · refine ⟨appended, .inl ⟨hidle, rfl⟩, .refl appended, undecided_self appended, hkept.imp_right ?_⟩
    rintro ⟨upto, seen, hrep, hseen⟩
    exact ⟨upto, seen, hrep, hseen.append happ⟩
  · exact ⟨at_, .inr hpinned, hgrow.append happ, undecided_append hgrow hundecided happ hother, hkept⟩

theorem Inv.rehydrate_eq {s : State} {at_ : Journal} (hgrow : Grows at_ s.journal) (hundecided : Undecided at_ s.journal)
    (htracked : s.db.cursor = none ∨ ∃ upto seen, Replayed upto seen s.journal s.db ∧ Grows seen at_) (db' : Db) :
    rehydrate false (highWater at_) s.journal s.db = rehydrate true (highWater at_) s.journal db' := by
  cases hhw : highWater at_ with
  | none =>
    rcases htracked with hnone | ⟨upto, seen, hrep, hseen⟩
    · rw [rehydrate, rehydrate, storedCursor, hnone]
      rfl
    · obtain ⟨c, hc, _⟩ := hrep.cursor
      obtain ⟨init, lines, hupto, _⟩ := highWater_eq hc
      obtain ⟨more, rest, hent⟩ := (hrep.upto_seen.trans hseen) _ _ _ hupto
      rw [highWater_eq_none hhw] at hent
      exact absurd hent.symm (List.append_ne_nil_of_right_ne_nil _ (List.cons_ne_nil _ _))
  | some hw =>
    rcases htracked with hnone | ⟨upto, seen, hrep, hseen⟩
    · rw [rehydrate, rehydrate, storedCursor, hnone]
      rfl
    · exact hrep.rehydrate_eq hseen hgrow hundecided hhw db'

theorem inv_step {s t : State} {a : Action} (h : Inv s) (hmeets : Meets s a) (hstep : step s a = some t) : Inv t := by
  cases a with
  | others seg lines =>
    rw [step] at hstep
    split at hstep
    next hall =>
      obtain ⟨appended, happ, rfl⟩ := Option.map_eq_some_iff.1 hstep
      rw [List.all_eq_true] at hall
      refine inv_others h happ (fun l hl op hop => ?_) fun l hl r hr => ?_
      · have hl := hall l hl
        rw [Line.isOther, hop] at hl
        cases hl
      · have hl := hall l hl
        rw [Line.isOther, hr] at hl
        cases hl
    next => cases hstep
  | establishRevision3 seg cutover revision2 length length_pos =>
    obtain ⟨appended, happ, rfl⟩ := Option.map_eq_some_iff.1 hstep
    refine inv_others h happ (fun l hl op hop => ?_) fun l hl r hr q hq => ?_
    · rw [List.mem_singleton.1 hl] at hop
      cases hop
    · rw [List.mem_singleton.1 hl] at hr
      rw [← Body.revision3.inj hr]
      exact isHistorical_extents hq
  | pin =>
    obtain ⟨at_, hat, hgrow, hundecided, htracked⟩ := h
    rw [step] at hstep
    split at hstep
    next hidle =>
      obtain rfl := Option.some.inj hstep
      rcases hat with ⟨_, rfl⟩ | hpinned
      · exact ⟨s.journal, .inr rfl, hgrow, hundecided, htracked⟩
      · rw [hidle] at hpinned
        cases hpinned
    next => cases hstep
  | replay =>
    obtain ⟨at_, hat, hgrow, hundecided, htracked⟩ := h
    rw [step] at hstep
    split at hstep
    next => cases hstep
    next hw hpinned =>
      obtain rfl := Option.some.inj hstep
      rcases hat with ⟨hidle, _⟩ | hat
      · rw [hidle] at hpinned
        cases hpinned
      rw [hat] at hpinned
      obtain rfl := Option.some.inj hpinned
      rw [Inv.rehydrate_eq hgrow hundecided htracked s.db]
      refine ⟨s.journal, .inl ⟨rfl, rfl⟩, .refl _, undecided_self _, ?_⟩
      cases hhw : highWater at_ with
      | none => exact .inl rfl
      | some hw => exact .inr ⟨at_, s.journal, replayed_of_authoritative hhw hgrow hundecided s.db, .refl _⟩
  | decide decidedAt seg batches =>
    obtain ⟨at_, hat, hgrow, hundecided, htracked⟩ := h
    rw [step] at hstep
    split at hstep
    next hidle =>
      obtain ⟨⟨appended, db'⟩, happ, rfl⟩ := Option.map_eq_some_iff.1 hstep
      refine ⟨appended, .inl ⟨hidle, rfl⟩, .refl _, undecided_self _, ?_⟩
      obtain ⟨hj, hdb⟩ := appendDecisions_eq happ
      rcases htracked with hnone | ⟨upto, seen, hrep, hseen⟩
      · rw [hdb]
        exact .inl hnone
      · rcases hmeets with hnone | hconsistent
        · obtain ⟨c, _, hcursor⟩ := hrep.cursor
          rw [hnone] at hcursor
          cases hcursor
        · exact .inr ⟨upto, seen, hrep.decide hconsistent happ, hrep.seen_now.append hj⟩
    next => cases hstep

theorem inv_run {s t : State} {actions : List Action} (h : Inv s) (hmeets : AllMeet s actions)
    (hrun : run s actions = some t) : Inv t := by
  induction actions generalizing s with
  | nil =>
    obtain rfl := Option.some.inj hrun
    exact h
  | cons a actions ih =>
    obtain ⟨u, hu, hrun⟩ := Option.bind_eq_some_iff.1 hrun
    exact ih (inv_step h hmeets.1 hu) (hmeets.2 u hu) hrun

/-- **Incremental replays build what an authoritative one builds**, in every run whose appended groups
repeat no key under two accounts: the same decisions, timeline and recorded conflicts. -/
theorem incremental_eq_authoritative (journal : Journal) (db db' : Db) (actions : List Action) (s : State)
    (hmeets : AllMeet (start journal db) actions) (hrun : run (start journal db) actions = some s) (hidle : s.pinned = none) :
    (rehydrate false (highWater s.journal) s.journal s.db).decisions =
        (rehydrate true (highWater s.journal) s.journal db').decisions ∧
      (rehydrate false (highWater s.journal) s.journal s.db).timeline =
        (rehydrate true (highWater s.journal) s.journal db').timeline ∧
      decisionConflicts (rehydrate false (highWater s.journal) s.journal s.db) =
        decisionConflicts (rehydrate true (highWater s.journal) s.journal db') := by
  obtain ⟨at_, hat, hgrow, hundecided, htracked⟩ := inv_run (inv_start journal db) hmeets hrun
  rcases hat with ⟨_, rfl⟩ | hpinned
  · rw [Inv.rehydrate_eq hgrow hundecided htracked db']
    exact ⟨rfl, rfl, rfl⟩
  · rw [hidle] at hpinned
    cases hpinned

def firstLine : Line := ⟨.other, true, true, true, 10, by decide⟩

def oneLine : Journal := ⟨[("observations-2025-10", [firstLine])], List.pairwise_singleton _ _, by
  intro e he
  rw [List.mem_singleton.1 he]
  exact List.cons_ne_nil _ _⟩

def emptyDb : Db := ⟨.empty, [], none, none⟩

def keyedItem (key : String) : ItemValues := ⟨key, "keyed", some "msg", some "req", none, none, none, none, none⟩

def batchFor (account key : String) : Batch := ⟨some account, "preserved_history", none, "1", [keyedItem key], 20, by decide⟩

def twiceDecided : List Action :=
  [.pin, .replay, .decide "2025-10-02T00:00:00Z" "observations-2025-10" [batchFor "a" "k", batchFor "b" "k"]]

def onceDecided : List Action :=
  [.pin, .replay, .decide "2025-10-02T00:00:00Z" "observations-2025-10" [batchFor "a" "k", batchFor "b" "l"]]

theorem incremental_eq_authoritative_once : ∃ s, run (start oneLine emptyDb) onceDecided = some s ∧
    decisionConflicts (rehydrate false (highWater s.journal) s.journal s.db) =
      decisionConflicts (rehydrate true (highWater s.journal) s.journal emptyDb) := by
  have hrun : ((run (start oneLine emptyDb) onceDecided).map fun s => s.pinned) = some none := by decide +kernel
  obtain ⟨s, hs, hidle⟩ := Option.map_eq_some_iff.1 hrun
  refine ⟨s, hs, (incremental_eq_authoritative oneLine emptyDb emptyDb onceDecided s ?_ hs hidle).2.2⟩
  refine ⟨trivial, fun t ht => ⟨trivial, fun u hu => ⟨.inr ?_, fun _ _ => trivial⟩⟩⟩
  have hnone : ((((step (start oneLine emptyDb) .pin).bind fun t => step t .replay).map fun u => u.db.decisions.entries)) =
      some [] := by decide +kernel
  rw [ht, Option.bind_some, hu] at hnone
  have hempty : u.db.decisions.entries = [] := Option.some.inj hnone
  intro b hb item hitem
  refine ⟨fun row hrow => ?_, ?_⟩
  · rw [Dict.get?, hempty] at hrow
    cases hrow
  · revert b item
    decide

theorem conflict_counted_twice : ∃ s, run (start oneLine emptyDb) twiceDecided = some s ∧ s.pinned = none ∧
    decisionConflicts (rehydrate false (highWater s.journal) s.journal s.db) = 2 ∧
    decisionConflicts (rehydrate true (highWater s.journal) s.journal emptyDb) = 1 := by
  have hrun : ((run (start oneLine emptyDb) twiceDecided).map fun s => (s.pinned,
      decisionConflicts (rehydrate false (highWater s.journal) s.journal s.db),
      decisionConflicts (rehydrate true (highWater s.journal) s.journal emptyDb))) = some (none, 2, 1) := by decide +kernel
  obtain ⟨s, hs, hread⟩ := Option.map_eq_some_iff.1 hrun
  obtain ⟨hidle, hinc, hauth⟩ : s.pinned = none ∧ _ ∧ _ := ⟨congrArg Prod.fst hread, congrArg (·.2.1) hread, congrArg (·.2.2) hread⟩
  exact ⟨s, hs, hidle, hinc, hauth⟩

end Cctally.Attribution
