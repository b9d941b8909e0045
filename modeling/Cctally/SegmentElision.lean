import Cctally.Journal
import Cctally.LastSeenResolve
import Cctally.SegmentSummariesSound

/-!
# Rebuilds that skip segments

A rebuild skips a segment whose summary may be used, and hands the summary on in the
sidecar it writes. Between rebuilds and during them segments grow, lose torn tails and
are mounted elsewhere. A rebuild ends as if it had read every segment, because every
summary in a sidecar is that of some pass over the segment.
-/

namespace Cctally.SegmentSummaries

open TornLines (lines)

/-- `SegmentElisionPlan`; `covers` is `_covers`. -/
structure ElisionPlan where
  summaries : Dict String SegmentSummary
  covers : String → SegmentSummary → Bool

/-- The state of a read pass between two segments, of which the last one read is still open. -/
structure Traversal (R : Type) where
  collector : Collector
  running : Running R
  resolutionSeen : Bool

section
variable {R : Type} {d : Decoder R} (sha256 : Bytes → String) (ino : String → Int)

def Traversal.start : Traversal R := ⟨.empty, ⟨0, 0, 0, 0, [], .empty⟩, false⟩

def Traversal.closed (t : Traversal R) : Collector × LastSeen := t.collector.close sha256 t.running.lastSeen

def Decoder.isResolution (d : Decoder R) (r : R) : Bool :=
  d.t r = "op" && (d.payloadKind r).any (PROTOCOL_RESOLUTION_KINDS.contains ·)

/-- `_complete_prefix_digest`, `none` for an `OSError`. -/
def completePrefixDigest (bytes : Bytes) (coveredOffset : Nat) : Option String :=
  if coveredOffset ≤ bytes.length then some (sha256 (bytes.take coveredOffset)) else none

/-- `decide`, and the admission check before it. -/
def ElisionPlan.decide (plan : ElisionPlan) (name : String) (s : History d) (resolutionSeen : Bool) : Option SegmentSummary :=
  (plan.summaries.get? name).filter fun summary =>
    admissionPermitsElision s.boundary s.bytes.length summary &&
      summaryIsElidable summary s.bytes.length false (plan.covers name summary) resolutionSeen
        (some (s.dev, ino name)) (some (completePrefixDigest sha256 s.bytes summary.completeLineCoveredOffset)) = none

def Traversal.read (t : Traversal R) (name : String) (s : History d) (hi : Nat) : Traversal R :=
  let (c, seen) := t.collector.begin_ sha256 name 0 ⟨s.bytes.length, s.dev, ino name⟩ t.running.lastSeen
  let ls := lines newline (s.bytes.take hi)
  let (c, running) := readFrom s.boundary c { t.running with lastSeen := seen } 0 ls
  ⟨c, running, t.resolutionSeen || (admitted s.boundary 0 ls).any d.isResolution⟩

def Traversal.elide (t : Traversal R) (summary : SegmentSummary) : Traversal R :=
  ⟨(elideSegment t.collector t.running summary).1, (elideSegment t.collector t.running summary).2, t.resolutionSeen⟩

/-- A rebuild under way: its plan, what it holds, and what it would hold had it read every segment. -/
structure Rebuild (R : Type) where
  plan : ElisionPlan
  skipping : Traversal R
  reading : Traversal R

/-- Only a segment below the high water may be skipped. -/
def Rebuild.skipped (r : Rebuild R) (name : String) (s : History d) (highWater : Option Nat) : Option SegmentSummary :=
  if highWater.isSome then none else r.plan.decide sha256 ino name s r.skipping.resolutionSeen

structure World (d : Decoder R) where
  histories : String → History d
  sidecar : Dict String SegmentSummary
  rebuild : Option (Rebuild R)

def World.start (segments : String → Bytes × Int × Option (Fence d)) : World d :=
  ⟨fun name => .start (segments name).1 (segments name).2.1 (segments name).2.2, .empty, none⟩

inductive Act (d : Decoder R)
  | journal (name : String) (e : Event d)
  | start (readable : Bool) (covers : String → SegmentSummary → Bool)
  | segment (name : String) (highWater : Option Nat)
  | finish (written : Bool)
  | abandon

def World.record (w : World d) (name : String) (e : Event d) : World d :=
  { w with histories := Function.update w.histories name ((w.histories name).step e) }

def World.within (w : World d) (r : Rebuild R) : World d := { w with rebuild := some r }

def Event.isCutover : Event d → Bool
  | .cutover _ => true
  | _ => false

def World.step (w : World d) : Act d → World d
  -- a rebuild goes by the fences it found when it started
  | .journal name e => if e.isCutover && w.rebuild.isSome then w else w.record name e
  | .start readable covers =>
    w.within ⟨⟨if readable then w.sidecar else .empty, covers⟩, .start, .start⟩
  | .segment name highWater =>
    match w.rebuild with
    | none => w
    | some r =>
      let s := w.histories name
      let hi := highWater.getD s.bytes.length
      let reading := r.reading.read sha256 ino name s hi
      match r.skipped sha256 ino name s highWater with
      | some summary => w.within ⟨r.plan, r.skipping.elide summary, reading⟩
      | none => (w.record name (.pass hi)).within ⟨r.plan, r.skipping.read sha256 ino name s hi, reading⟩
  | .finish written =>
    match w.rebuild with
    | none => w
    | some r =>
      let summaries := (r.skipping.closed sha256).1.summaries
      { w with
        sidecar := if written && !summaries.entries.isEmpty then summaries else w.sidecar
        rebuild := none }
  | .abandon => { w with rebuild := none }

def World.run (w : World d) (acts : List (Act d)) : World d := acts.foldl (World.step sha256 ino) w

/-- Alike when the open segments are closed. -/
structure Alike (t u : Traversal R) : Prop where
  counters : t.running = { u.running with lastSeen := t.running.lastSeen }
  lastSeen : (t.closed sha256).2.seen = (u.closed sha256).2.seen

section
variable {sha256 : Bytes → String} {ino : String → Int}

theorem Alike.trans {t u v : Traversal R} (h : Alike sha256 t u) (h' : Alike sha256 u v) : Alike sha256 t v := by
  refine ⟨?_, h.lastSeen.trans h'.lastSeen⟩
  rw [h.counters, h'.counters]

theorem readLine_running (boundary : Option (Fence d)) (c c' : Collector) (running : Running R) (seen : LastSeen)
    (offset : Nat) (raw : Bytes) :
    (readLine boundary c { running with lastSeen := seen } offset raw).2 =
      { (readLine boundary c' running offset raw).2 with lastSeen := seen } := by
  unfold readLine
  cases d.decodeLine raw with
  | none => rfl
  | some r => cases hexcludes : excludes boundary r offset <;> simp [hexcludes]

theorem readFrom_running (boundary : Option (Fence d)) (c c' : Collector) (running : Running R) (seen : LastSeen)
    (offset : Nat) (ls : List Bytes) :
    (readFrom boundary c { running with lastSeen := seen } offset ls).2 =
      { (readFrom boundary c' running offset ls).2 with lastSeen := seen } := by
  induction ls generalizing c c' running offset with
  | nil => rfl
  | cons l ls ih =>
    rw [readFrom_cons, readFrom_cons, readLine_running boundary c c']
    exact ih ..

theorem read_running (t : Traversal R) (name : String) (s : History d) (hi : Nat) :
    (t.read sha256 ino name s hi).running =
      { (readFrom s.boundary begun t.running 0 (lines newline (s.bytes.take hi))).2 with
        lastSeen := (t.closed sha256).2 } :=
  readFrom_running s.boundary _ begun t.running _ 0 _

theorem seen_read (t : Traversal R) (name : String) (s : History d) (hi : Nat) :
    ((t.read sha256 ino name s hi).closed sha256).2.seen =
      (t.closed sha256).2.seen ⊔
        ((collect s.boundary (lines newline (s.bytes.take hi))).close sha256 .empty).2.seen := by
  have hlast : (t.read sha256 ino name s hi).collector.lastSeen =
      (collect s.boundary (lines newline (s.bytes.take hi))).lastSeen :=
    (readFrom_lastSeen rfl).trans (collect_lastSeen ..).symm
  rw [Traversal.closed, seen_close, read_running]
  refine congrArg _ ?_
  simp only [Collector.close, hlast]

theorem Alike.read {t u : Traversal R} (h : Alike sha256 t u) (name : String) (s : History d) (hi : Nat) :
    Alike sha256 (t.read sha256 ino name s hi) (u.read sha256 ino name s hi) := by
  refine ⟨?_, ?_⟩
  · rw [read_running, read_running, h.counters, readFrom_running s.boundary begun begun u.running]
  · rw [seen_read, seen_read, h.lastSeen]

theorem Truthful.alike {name : String} {s : History d} {p : Pass d} (h : Truthful sha256 name (ino name) s p)
    (t : Traversal R) :
    Alike sha256 (t.elide (p.summary sha256 name (ino name))) (t.read sha256 ino name s s.bytes.length) := by
  obtain ⟨hlines, hbytes, hdecodes, hmalformed, hdecoded⟩ := h.counters t.collector t.running
  refine ⟨?_, (h.lastSeen t.collector t.running).1⟩
  exact Running.mk.injEq .. ▸ ⟨hlines, hbytes, hdecodes, hmalformed, hdecoded, rfl⟩

theorem Alike.resolve {t u : Traversal R} (h : Alike sha256 t u) (cutoverClaude unattributed key : String) :
    ((t.closed sha256).2.resolve cutoverClaude unattributed).get? key =
      ((u.closed sha256).2.resolve cutoverClaude unattributed).get? key := by
  rw [← Maxima.bot_inj, LastSeen.bot_resolve, LastSeen.bot_resolve, h.lastSeen]

end

def Recorded (histories : String → History d) (summaries : Dict String SegmentSummary) : Prop :=
  ∀ name summary, summaries.get? name = some summary →
    ∃ p ∈ (histories name).passes, summary = p.summary sha256 name (ino name)

section
variable {sha256 : Bytes → String} {ino : String → Int} {w : World d} {summaries : Dict String SegmentSummary}

theorem passes_step {s : History d} {p : Pass d} (hp : p ∈ s.passes) (e : Event d) : p ∈ (s.step e).passes := by
  cases e with
  | cutover fence =>
    simp only [History.step]
    split
    next => exact hp
    next => exact hp
  | pass hi => exact List.mem_append_left _ hp
  | append group written => exact hp
  | repair => exact hp
  | remount dev => exact hp

theorem histories_record (name : String) (e : Event d) :
    (w.record name e).histories = Function.update w.histories name ((w.histories name).step e) := rfl

theorem Recorded.record (h : Recorded sha256 ino w.histories summaries) (name : String) (e : Event d) :
    Recorded sha256 ino (w.record name e).histories summaries := by
  intro n summary hn
  obtain ⟨p, hp, heq⟩ := h n summary hn
  refine ⟨p, ?_, heq⟩
  rw [histories_record]
  by_cases hname : n = name
  · subst hname
    rw [Function.update_self]
    exact passes_step hp e
  · rw [Function.update_of_ne hname]
    exact hp

theorem Recorded.set (h : Recorded sha256 ino w.histories summaries) {name : String} {p : Pass d}
    (hp : p ∈ (w.histories name).passes) :
    Recorded sha256 ino w.histories (summaries.set name (p.summary sha256 name (ino name))) := by
  intro n summary hn
  rw [Dict.get?_set] at hn
  by_cases hname : name = n
  · subst hname
    rw [if_pos rfl] at hn
    exact ⟨p, hp, (Option.some.inj hn).symm⟩
  · rw [if_neg hname] at hn
    exact h n summary hn

theorem close_adopt {c : Collector} {summary v : SegmentSummary} {x y : LastSeen} {n : String}
    (h : ((c.adopt summary).close sha256 x).1.summaries.get? n = some v) :
    (c.close sha256 y).1.summaries.get? n = some v ∨ n = summary.segmentName ∧ v = summary := by
  have hset : ∀ {ss : Dict String SegmentSummary}, (ss.set summary.segmentName summary).get? n = some v →
      ss.get? n = some v ∨ n = summary.segmentName ∧ v = summary := by
    intro ss hss
    rw [Dict.get?_set] at hss
    by_cases hname : summary.segmentName = n
    · rw [if_pos hname] at hss
      exact .inr ⟨hname.symm, (Option.some.inj hss).symm⟩
    · rw [if_neg hname] at hss
      exact .inl hss
  cases hname : c.name with
  | none =>
    simp only [Collector.close, Collector.adopt, hname] at h ⊢
    exact hset h
  | some name =>
    cases hstat : c.stat with
    | none =>
      simp only [Collector.close, Collector.adopt, hname, hstat] at h ⊢
      exact hset h
    | some stat =>
      simp only [Collector.close, Collector.adopt, hname, hstat] at h ⊢
      by_cases hlo : c.lo = 0
      · rw [if_pos hlo, Dict.get?_set] at h ⊢
        by_cases hn : name = n
        · rw [if_pos hn] at h ⊢
          exact .inl h
        · rw [if_neg hn] at h ⊢
          exact hset h
      · rw [if_neg hlo] at h ⊢
        exact hset h

theorem decide_spec {plan : ElisionPlan} {name : String} {s : History d} {resolutionSeen : Bool} {summary : SegmentSummary}
    (h : plan.decide sha256 ino name s resolutionSeen = some summary) :
    plan.summaries.get? name = some summary ∧ admissionPermitsElision s.boundary s.bytes.length summary = true ∧
      ∃ covers proof, summaryIsElidable summary s.bytes.length false covers resolutionSeen (some (s.dev, ino name)) proof =
        none := by
  obtain ⟨hget, hguard⟩ := Option.filter_eq_some_iff.1 h
  obtain ⟨hpermits, helidable⟩ := Bool.and_eq_true_iff.1 hguard
  exact ⟨hget, hpermits, _, _, of_decide_eq_true helidable⟩

/-! ## The invariant -/

structure Inv (sha256 : Bytes → String) (ino : String → Int) (w : World d) : Prop where
  kept : ∀ name, ∀ p ∈ (w.histories name).passes, Kept (w.histories name) p
  sidecar : Recorded sha256 ino w.histories w.sidecar
  plan : ∀ r, w.rebuild = some r → Recorded sha256 ino w.histories r.plan.summaries
  collected : ∀ r, w.rebuild = some r →
    Recorded sha256 ino w.histories (r.skipping.closed sha256).1.summaries
  alike : ∀ r, w.rebuild = some r → Alike sha256 r.skipping r.reading

theorem Inv.record (h : Inv sha256 ino w) (name : String) (e : Event d) : Inv sha256 ino (w.record name e) := by
  refine ⟨fun n => ?_, h.sidecar.record name e, fun r hr => (h.plan r hr).record name e,
    fun r hr => (h.collected r hr).record name e, h.alike⟩
  rw [histories_record]
  by_cases hname : n = name
  · subst hname
    rw [Function.update_self]
    exact kept_step (h.kept n) e
  · rw [Function.update_of_ne hname]
    exact h.kept n

theorem recorded_empty : Recorded sha256 ino w.histories Dict.empty := fun _ _ h => absurd h (Option.some_ne_none _).symm

theorem Inv.within (h : Inv sha256 ino w) {r : Rebuild R} (hplan : Recorded sha256 ino w.histories r.plan.summaries)
    (hcollected : Recorded sha256 ino w.histories
      (r.skipping.closed sha256).1.summaries)
    (halike : Alike sha256 r.skipping r.reading) : Inv sha256 ino (w.within r) :=
  ⟨h.kept, h.sidecar, fun _ hr => Option.some.inj hr ▸ hplan, fun _ hr => Option.some.inj hr ▸ hcollected,
    fun _ hr => Option.some.inj hr ▸ halike⟩

theorem Inv.idle (hkept : ∀ name, ∀ p ∈ (w.histories name).passes, Kept (w.histories name) p)
    (hsidecar : Recorded sha256 ino w.histories w.sidecar) (hnone : w.rebuild = none) : Inv sha256 ino w := by
  have hno : ∀ {r}, w.rebuild ≠ some r := fun hr => Option.some_ne_none _ (hr.symm.trans hnone)
  exact ⟨hkept, hsidecar, fun _ hr => absurd hr hno, fun _ hr => absurd hr hno, fun _ hr => absurd hr hno⟩

/-- A skipped segment: its summary is that of a pass, which tells the truth. -/
theorem Inv.skip (h : Inv sha256 ino w) {r : Rebuild R} (hr : w.rebuild = some r) {name : String} {summary : SegmentSummary}
    (hskip : r.plan.decide sha256 ino name (w.histories name) r.skipping.resolutionSeen = some summary) :
    Recorded sha256 ino w.histories ((r.skipping.elide summary).closed sha256).1.summaries ∧
      Alike sha256 (r.skipping.elide summary)
        (r.reading.read sha256 ino name (w.histories name) (w.histories name).bytes.length) := by
  obtain ⟨hget, hpermits, covers, proof, helidable⟩ := decide_spec hskip
  obtain ⟨p, hp, rfl⟩ := h.plan r hr name summary hget
  obtain ⟨hcovered, hpinned, hquota⟩ := of_elidable helidable
  have hwhole := whole_of_covered hcovered
  have hkept := h.kept name p hp
  have htruthful := truthful hkept hwhole (bytes_eq hkept hwhole hpinned) hquota hpermits
  refine ⟨fun n v hv => ?_, (htruthful.alike r.skipping).trans ((h.alike r hr).read ..)⟩
  rcases close_adopt hv with hold | ⟨rfl, rfl⟩
  · exact h.collected r hr n v hold
  · exact ⟨p, hp, rfl⟩

theorem Inv.step (h : Inv sha256 ino w) (act : Act d) : Inv sha256 ino (w.step sha256 ino act) := by
  cases act with
  | journal name e =>
    rw [World.step]
    split
    next => exact h
    next => exact h.record name e
  | start readable covers =>
    refine h.within ?_ recorded_empty ⟨rfl, rfl⟩
    cases readable with
    | true => exact h.sidecar
    | false => exact recorded_empty
  | segment name highWater =>
    rw [World.step]
    cases hrebuild : w.rebuild with
    | none => exact h
    | some r =>
      dsimp only
      cases hskipped : r.skipped sha256 ino name (w.histories name) highWater with
      | some summary =>
        cases highWater with
        | some hi => cases hskipped
        | none =>
          obtain ⟨hrecorded, halike⟩ := h.skip hrebuild hskipped
          exact h.within (h.plan r hrebuild) hrecorded halike
      | none =>
        have hrecord := h.record name (.pass (highWater.getD (w.histories name).bytes.length))
        have hsummary := (readSegment_eq sha256 (w.histories name).boundary name r.skipping.collector r.skipping.running
          ⟨(w.histories name).bytes.length, (w.histories name).dev, ino name⟩ (w.histories name).bytes
          (highWater.getD (w.histories name).bytes.length)).1
        refine hrecord.within (hrecord.plan r hrebuild) ?_ ((h.alike r hrebuild).read ..)
        -- the pass that was recorded is the one that the summary is of
        refine (congrArg (Recorded sha256 ino _) hsummary).mpr ((hrecord.collected r hrebuild).set
          (p := ⟨(w.histories name).bytes, highWater.getD (w.histories name).bytes.length, (w.histories name).dev,
            (w.histories name).boundary⟩) ?_)
        rw [histories_record, Function.update_self]
        exact List.mem_append_right _ (List.mem_singleton.2 rfl)
  | finish written =>
    rw [World.step]
    cases hrebuild : w.rebuild with
    | none => exact h
    | some r =>
      refine .idle h.kept ?_ rfl
      dsimp only
      split
      next => exact h.collected r hrebuild
      next => exact h.sidecar
  | abandon => exact .idle h.kept h.sidecar rfl

theorem Inv.run (h : Inv sha256 ino w) (acts : List (Act d)) : Inv sha256 ino (w.run sha256 ino acts) := by
  induction acts generalizing w with
  | nil => exact h
  | cons act acts ih => exact ih (h.step act)

end

/-- **A rebuild that skips segments sees what a full one sees**, through any number of rebuilds that hand on their
sidecars: the counters and the retained records are those of reading every segment, last seen resolves alike, and
every summary in the sidecar is that of a pass over its segment. -/
theorem rebuilds_agree (segments : String → Bytes × Int × Option (Fence d)) (acts : List (Act d)) :
    let w := (World.start segments).run sha256 ino acts
    (∀ r, w.rebuild = some r → r.skipping.running = { r.reading.running with lastSeen := r.skipping.running.lastSeen } ∧
      ∀ cutoverClaude unattributed key,
        ((r.skipping.closed sha256).2.resolve cutoverClaude unattributed).get? key =
          ((r.reading.closed sha256).2.resolve cutoverClaude unattributed).get? key) ∧
      Recorded sha256 ino w.histories w.sidecar := by
  intro w
  have hstart : Inv sha256 ino (World.start segments) :=
    .idle (fun _ _ hp => (List.not_mem_nil hp).elim) recorded_empty rfl
  have h := hstart.run acts
  exact ⟨fun r hr => ⟨(h.alike r hr).counters, fun _ _ _ => (h.alike r hr).resolve ..⟩, h.sidecar⟩

end

end Cctally.SegmentSummaries
