import Cctally.LastSeenJoin
import Cctally.SegmentsRepair

/-!
# What reading a segment leaves

The collector counts what the pass counts. So the summary it makes of a segment is what
reading the segment added to the pass, and a summary without a retained record stands for
as many placeholders as it decoded.
-/

namespace Cctally.SegmentSummaries

open TornLines (IsLine lines eq_flatten_append)

section
variable {R : Type} {d : Decoder R} {boundary : Option (Fence d)} {sha256 : Bytes → String}

def numbered (offset : Nat) : List Bytes → List (Nat × Bytes)
  | [] => []
  | line :: rest => (offset, line.dropLast) :: numbered (offset + line.length) rest

theorem offset_lt {ls : List Bytes} (h : ∀ l ∈ ls, IsLine newline l) {offset : Nat} {q : Nat × Bytes}
    (hq : q ∈ numbered offset ls) : q.1 < offset + ls.flatten.length := by
  induction ls generalizing offset with
  | nil => cases hq
  | cons l ls ih =>
    obtain ⟨body, _, rfl⟩ := h _ List.mem_cons_self
    rw [List.flatten_cons, List.length_append]
    rcases List.mem_cons.1 hq with rfl | hq
    · simp only [List.length_append, List.length_singleton]
      omega
    · have hrest := ih (fun l' hl' => h l' (List.mem_cons_of_mem _ hl')) hq
      omega

theorem readLine_elim {motive : Collector × Running R → Prop} (boundary : Option (Fence d)) (c : Collector)
    (running : Running R) (offset : Nat) (raw : Bytes)
    (malformed : d.decodeLine raw = none →
      motive ((c.line raw (offset + raw.length + 1)).malformedLine,
        { running with
          lines := running.lines + 1
          bytes := running.bytes + raw.length + 1
          malformed := running.malformed + 1 }))
    (excluded : ∀ r, d.decodeLine raw = some r → excludes boundary r offset = true →
      motive ((c.line raw (offset + raw.length + 1)).decoded false false,
        { running with
          lines := running.lines + 1
          bytes := running.bytes + raw.length + 1
          decodes := running.decodes + 1
          decoded := running.decoded ++ [none] }))
    (admitted : ∀ r, d.decodeLine raw = some r → excludes boundary r offset = false →
      motive (((c.line raw (offset + raw.length + 1)).observe d r).decoded (d.retained r) (d.isCodexQuotaObs r),
        { running with
          lines := running.lines + 1
          bytes := running.bytes + raw.length + 1
          decodes := running.decodes + 1
          decoded := running.decoded ++ [if d.retained r then some r else none] })) :
    motive (readLine boundary c running offset raw) := by
  unfold readLine
  cases hdecode : d.decodeLine raw with
  | none => exact malformed hdecode
  | some r =>
    by_cases hexcluded : excludes boundary r offset = true
    · simp only [if_pos hexcluded]
      exact excluded r hdecode hexcluded
    · simp only [if_neg hexcluded]
      exact admitted r hdecode (Bool.not_eq_true _ ▸ hexcluded)

theorem readFrom_cons (boundary : Option (Fence d)) (c : Collector) (running : Running R) (offset : Nat) (line : Bytes)
    (rest : List Bytes) :
    readFrom boundary c running offset (line :: rest) =
      readFrom boundary (readLine boundary c running offset line.dropLast).1
        (readLine boundary c running offset line.dropLast).2 (offset + line.length) rest := rfl

/-! ## The collector alone -/

def placed (c : Collector) (summaries : Dict String SegmentSummary) (name : Option String) (lo : Nat)
    (stat : Option Stat) : Collector :=
  { c with
    summaries := summaries
    name := name
    lo := lo
    stat := stat }

theorem readFrom_placed (boundary : Option (Fence d)) (c : Collector) (summaries : Dict String SegmentSummary) (name : Option String) (lo : Nat)
    (stat : Option Stat) (running running' : Running R) (offset : Nat) (ls : List Bytes) :
    (readFrom boundary (placed c summaries name lo stat) running offset ls).1 =
      placed (readFrom boundary c running' offset ls).1 summaries name lo stat := by
  induction ls generalizing c running running' offset with
  | nil => rfl
  | cons l ls ih =>
    have hstep : (readLine boundary (placed c summaries name lo stat) running offset l.dropLast).1 =
        placed (readLine boundary c running' offset l.dropLast).1 summaries name lo stat := by
      unfold readLine
      cases d.decodeLine l.dropLast with
      | none => rfl
      | some r =>
        by_cases hexcluded : excludes boundary r offset = true
        · simp only [if_pos hexcluded]
          rfl
        · simp only [if_neg hexcluded]
          rfl
    rw [readFrom_cons, readFrom_cons, hstep]
    exact ih _ _ _ _

theorem readFrom_congr {boundary' : Option (Fence d)} {c : Collector} {running : Running R} {offset : Nat}
    {ls : List Bytes}
    (h : ∀ q ∈ numbered offset ls, ∀ r, d.decodeLine q.2 = some r →
      excludes boundary r q.1 = excludes boundary' r q.1) :
    readFrom boundary c running offset ls = readFrom boundary' c running offset ls := by
  induction ls generalizing c running offset with
  | nil => rfl
  | cons l ls ih =>
    have hstep : readLine boundary c running offset l.dropLast = readLine boundary' c running offset l.dropLast := by
      unfold readLine
      cases hdecode : d.decodeLine l.dropLast with
      | none => rfl
      | some r => simp only [h _ List.mem_cons_self r hdecode]
    rw [readFrom_cons, readFrom_cons, hstep]
    exact ih fun q hq => h q (List.mem_cons_of_mem _ hq)

theorem readLine_lineEnd (boundary : Option (Fence d)) (c : Collector) (running : Running R) (offset : Nat) (raw : Bytes) :
    (readLine boundary c running offset raw).1.lineEnd = offset + raw.length + 1 := by
  apply readLine_elim (motive := fun s => s.1.lineEnd = offset + raw.length + 1)
  · exact fun _ => rfl
  · exact fun _ _ _ => rfl
  · exact fun _ _ _ => rfl

theorem readFrom_lineEnd {c : Collector} {running : Running R} {offset : Nat} {ls : List Bytes}
    (h : ∀ l ∈ ls, IsLine newline l) (hc : c.lineEnd = offset) :
    (readFrom boundary c running offset ls).1.lineEnd = offset + ls.flatten.length := by
  induction ls generalizing c running offset with
  | nil => exact hc
  | cons l ls ih =>
    obtain ⟨body, _, rfl⟩ := h _ List.mem_cons_self
    have hend := readLine_lineEnd boundary c running offset body
    rw [readFrom_cons, ih fun l' hl' => h l' (List.mem_cons_of_mem _ hl')]
    · rw [List.flatten_cons, @List.length_append _ (body ++ [newline]), Nat.add_assoc]
    · rw [List.dropLast_concat, hend, List.length_append, List.length_singleton, Nat.add_assoc]

theorem readLine_retained {c : Collector} {running : Running R} {offset : Nat} {raw : Bytes}
    (h : (readLine boundary c running offset raw).1.retained = 0) :
    c.retained = 0 ∧ ∀ r, d.decodeLine raw = some r → excludes boundary r offset = false → d.retained r = false := by
  revert h
  apply readLine_elim (motive := fun s => s.1.retained = 0 → c.retained = 0 ∧
    ∀ r, d.decodeLine raw = some r → excludes boundary r offset = false → d.retained r = false)
  · intro hnone hzero
    exact ⟨hzero, fun r hr => absurd (hnone.symm.trans hr) nofun⟩
  · intro r hr hexcluded hzero
    refine ⟨hzero, fun r' hr' hadmitted => ?_⟩
    obtain rfl := Option.some.inj (hr.symm.trans hr')
    exact absurd (hexcluded.symm.trans hadmitted) nofun
  · intro r hr _ hzero
    by_cases hretained : d.retained r = true
    · simp only [Collector.decoded, if_pos hretained] at hzero
      exact absurd hzero (Nat.succ_ne_zero _)
    · simp only [Collector.decoded, if_neg hretained] at hzero
      refine ⟨hzero, fun r' hr' _ => ?_⟩
      obtain rfl := Option.some.inj (hr.symm.trans hr')
      rwa [Bool.not_eq_true] at hretained

theorem readFrom_retained {c : Collector} {running : Running R} {offset : Nat} {ls : List Bytes}
    (h : (readFrom boundary c running offset ls).1.retained = 0) :
    c.retained = 0 ∧ ∀ q ∈ numbered offset ls, ∀ r, d.decodeLine q.2 = some r → excludes boundary r q.1 = false →
      d.retained r = false := by
  induction ls generalizing c running offset with
  | nil => exact ⟨h, nofun⟩
  | cons l ls ih =>
    rw [readFrom_cons] at h
    obtain ⟨hzero, hrest⟩ := ih h
    obtain ⟨hfirst, hline⟩ := readLine_retained hzero
    refine ⟨hfirst, fun q hq => ?_⟩
    rcases List.mem_cons.1 hq with rfl | hq
    · exact hline
    · exact hrest q hq

theorem readLine_nonCodexQuota {c : Collector} {running : Running R} {offset : Nat} {raw : Bytes}
    (h : (readLine boundary c running offset raw).1.nonCodexQuota = 0) :
    c.nonCodexQuota = 0 ∧ ∀ r, d.decodeLine raw = some r →
      excludes boundary r offset = false ∧ d.isCodexQuotaObs r = true := by
  revert h
  apply readLine_elim (motive := fun s => s.1.nonCodexQuota = 0 → c.nonCodexQuota = 0 ∧
    ∀ r, d.decodeLine raw = some r → excludes boundary r offset = false ∧ d.isCodexQuotaObs r = true)
  · intro hnone hzero
    exact ⟨hzero, fun r hr => absurd (hnone.symm.trans hr) nofun⟩
  · intro _ _ _ hzero
    exact absurd hzero (Nat.succ_ne_zero _)
  · intro r hr hadmitted hzero
    by_cases hquota : d.isCodexQuotaObs r = true
    · simp only [Collector.decoded, if_pos hquota] at hzero
      refine ⟨hzero, fun r' hr' => ?_⟩
      obtain rfl := Option.some.inj (hr.symm.trans hr')
      exact ⟨hadmitted, hquota⟩
    · simp only [Collector.decoded, if_neg hquota] at hzero
      exact absurd hzero (Nat.succ_ne_zero _)

theorem readFrom_nonCodexQuota {c : Collector} {running : Running R} {offset : Nat} {ls : List Bytes}
    (h : (readFrom boundary c running offset ls).1.nonCodexQuota = 0) :
    c.nonCodexQuota = 0 ∧ ∀ q ∈ numbered offset ls, ∀ r, d.decodeLine q.2 = some r →
      excludes boundary r q.1 = false ∧ d.isCodexQuotaObs r = true := by
  induction ls generalizing c running offset with
  | nil => exact ⟨h, nofun⟩
  | cons l ls ih =>
    rw [readFrom_cons] at h
    obtain ⟨hzero, hrest⟩ := ih h
    obtain ⟨hfirst, hline⟩ := readLine_nonCodexQuota hzero
    refine ⟨hfirst, fun q hq => ?_⟩
    rcases List.mem_cons.1 hq with rfl | hq
    · exact hline
    · exact hrest q hq

def admitted (boundary : Option (Fence d)) (offset : Nat) (ls : List Bytes) : List R :=
  (numbered offset ls).filterMap fun q => (d.decodeLine q.2).filter fun r => !excludes boundary r q.1

theorem readFrom_lastSeen {c : Collector} {running : Running R} {offset : Nat} {ls : List Bytes} {seen : LastSeen}
    (hc : c.lastSeen = some seen) :
    (readFrom boundary c running offset ls).1.lastSeen =
      some ((admitted boundary offset ls).foldl (fun s r => s.observe d r) seen) := by
  induction ls generalizing c running offset seen with
  | nil => exact hc
  | cons l ls ih =>
    rw [readFrom_cons, admitted, numbered, List.filterMap_cons]
    unfold readLine
    cases hdecode : d.decodeLine l.dropLast with
    | none => exact ih hc
    | some r =>
      by_cases hexcluded : excludes boundary r offset = true
      · simp only [Option.filter, hexcluded, Bool.not_true, Bool.false_eq_true, if_false]
        exact ih hc
      · simp only [Option.filter, hexcluded, Bool.not_false, if_true, List.foldl_cons]
        apply ih
        show Option.map _ c.lastSeen = _
        rw [hc]
        rfl

structure Tracks (start : Running R) (c : Collector) (running : Running R) : Prop where
  lines : running.lines = start.lines + c.lines
  bytes : running.bytes = start.bytes + c.bytes
  decodes : running.decodes = start.decodes + c.decodes
  malformed : running.malformed = start.malformed + c.malformed
  decoded : ∃ more, running.decoded = start.decoded ++ more ∧ more.length = c.decodes ∧
    (c.retained = 0 → more = List.replicate c.decodes none)
  lastSeen : running.lastSeen = start.lastSeen

theorem Tracks.readLine {start : Running R} {c : Collector} {running : Running R} (h : Tracks start c running)
    (boundary : Option (Fence d)) (offset : Nat) (raw : Bytes) :
    Tracks start (readLine boundary c running offset raw).1 (readLine boundary c running offset raw).2 := by
  obtain ⟨hlines, hbytes, hdecodes, hmalformed, ⟨more, hmore, hlength, hnone⟩, hseen⟩ := h
  have hlines' : running.lines + 1 = start.lines + (c.lines + 1) := by rw [hlines, Nat.add_assoc]
  have hbytes' : running.bytes + raw.length + 1 = start.bytes + (c.bytes + raw.length + 1) := by omega
  have hdecodes' : running.decodes + 1 = start.decodes + (c.decodes + 1) := by rw [hdecodes, Nat.add_assoc]
  have hplaced : ∀ x : Option R, running.decoded ++ [x] = start.decoded ++ (more ++ [x]) ∧
      (more ++ [x]).length = c.decodes + 1 := fun x => by
    rw [hmore, List.append_assoc, List.length_append, hlength, List.length_singleton]
    exact ⟨rfl, rfl⟩
  apply readLine_elim (motive := fun s => Tracks start s.1 s.2)
  · intro _
    exact ⟨hlines', hbytes', hdecodes, by rw [hmalformed, Nat.add_assoc]; rfl, ⟨more, hmore, hlength, hnone⟩, hseen⟩
  · intro r _ _
    refine ⟨hlines', hbytes', hdecodes', hmalformed, ⟨more ++ [none], (hplaced none).1, (hplaced none).2, ?_⟩, hseen⟩
    intro hzero
    rw [hnone hzero]
    exact (List.replicate_succ' (n := c.decodes)).symm
  · intro r _ _
    refine ⟨hlines', hbytes', hdecodes', hmalformed, ⟨_, (hplaced _).1, (hplaced _).2, ?_⟩, hseen⟩
    intro hzero
    by_cases hretained : d.retained r = true
    · simp only [Collector.decoded, if_pos hretained] at hzero
      exact absurd hzero (Nat.succ_ne_zero _)
    · simp only [Collector.decoded, if_neg hretained] at hzero
      rw [if_neg hretained, hnone hzero]
      exact (List.replicate_succ' (n := c.decodes)).symm

theorem Tracks.readFrom {start : Running R} {c : Collector} {running : Running R} (h : Tracks start c running)
    (boundary : Option (Fence d)) (offset : Nat) (ls : List Bytes) :
    Tracks start (readFrom boundary c running offset ls).1 (readFrom boundary c running offset ls).2 := by
  induction ls generalizing c running offset with
  | nil => exact h
  | cons l ls ih => exact ih (h.readLine boundary offset l.dropLast) (offset + l.length)

def begun : Collector := { Collector.empty with lastSeen := some .empty }

theorem begin_eq (c : Collector) (name : String) (stat : Stat) (running : LastSeen) :
    c.begin_ sha256 name 0 stat running =
      (placed begun (c.close sha256 running).1.summaries (some name) 0 (some stat), (c.close sha256 running).2) := rfl

def collect (boundary : Option (Fence d)) (ls : List Bytes) : Collector :=
  (readFrom boundary begun ⟨0, 0, 0, 0, [], .empty⟩ 0 ls).1

theorem collect_lineEnd {ls : List Bytes} (h : ∀ l ∈ ls, IsLine newline l) :
    (collect boundary ls).lineEnd = ls.flatten.length := by
  have hend : (collect boundary ls).lineEnd = 0 + ls.flatten.length := readFrom_lineEnd h rfl
  rw [hend, Nat.zero_add]

theorem collect_lastSeen (boundary : Option (Fence d)) (ls : List Bytes) :
    (collect boundary ls).lastSeen = some ((admitted boundary 0 ls).foldl (fun s r => s.observe d r) .empty) :=
  readFrom_lastSeen rfl

theorem summarize_eq (name : String) (stat : Stat) (bytes : Bytes) (hi : Nat) :
    summarize sha256 boundary name stat bytes hi =
      (collect boundary (lines newline (bytes.take hi))).summaryOf sha256 name stat := by
  rw [summarize, begin_eq]
  simp only
  rw [readFrom_placed boundary begun _ _ _ _ _ ⟨0, 0, 0, 0, [], .empty⟩]
  rfl

theorem readSegment_eq (sha256 : Bytes → String) (boundary : Option (Fence d)) (name : String) (c : Collector)
    (running : Running R) (stat : Stat) (bytes : Bytes) (hi : Nat) :
    let summary := summarize sha256 boundary name stat bytes hi
    let closed := c.close sha256 running.lastSeen
    (readSegment sha256 boundary name c running stat bytes hi).1.summaries = closed.1.summaries.set name summary ∧
      (summary.quotaOnly = true → (readSegment sha256 boundary name c running stat bytes hi).2 =
        (elideSegment c { running with lastSeen := closed.2 } summary).2) := by
  intro summary closed
  have hsummary : summary = (collect boundary (lines newline (bytes.take hi))).summaryOf sha256 name stat :=
    summarize_eq name stat bytes hi
  have hlast := collect_lastSeen boundary (lines newline (bytes.take hi))
  have hplaced : (readFrom boundary (placed begun closed.1.summaries (some name) 0 (some stat))
      { running with lastSeen := closed.2 } 0 (lines newline (bytes.take hi))).1 =
      placed (collect boundary (lines newline (bytes.take hi))) closed.1.summaries (some name) 0 (some stat) :=
    readFrom_placed boundary begun _ _ _ _ _ _ _ _
  have hbegun : Tracks { running with lastSeen := closed.2 } (placed begun closed.1.summaries (some name) 0 (some stat))
      { running with lastSeen := closed.2 } :=
    ⟨rfl, rfl, rfl, rfl, ⟨[], (List.append_nil _).symm, rfl, fun _ => rfl⟩, rfl⟩
  obtain ⟨hlines, hbytes, hdecodes, hmalformed, ⟨more, hmore, hlength, hnone⟩, hseen⟩ :=
    hbegun.readFrom boundary 0 (lines newline (bytes.take hi))
  have hsegment : readSegment sha256 boundary name c running stat bytes hi =
      let out := readFrom boundary (placed begun closed.1.summaries (some name) 0 (some stat))
        { running with lastSeen := closed.2 } 0 (lines newline (bytes.take hi))
      ((out.1.close sha256 out.2.lastSeen).1, { out.2 with lastSeen := (out.1.close sha256 out.2.lastSeen).2 }) := rfl
  rw [hplaced] at hlines hbytes hdecodes hmalformed hlength hnone
  rw [hsegment, hsummary]
  simp only
  rw [hplaced]
  refine ⟨rfl, fun hquota => ?_⟩
  have hplaceholders := hnone (of_decide_eq_true hquota)
  generalize (readFrom boundary (placed begun closed.1.summaries (some name) 0 (some stat))
    { running with lastSeen := closed.2 } 0 (lines newline (bytes.take hi))).2 = after at *
  obtain ⟨l, b, dec, mal, out, seen⟩ := after
  simp only at hlines hbytes hdecodes hmalformed hmore hseen
  subst hlines hbytes hdecodes hmalformed hmore hseen hplaceholders
  congr 1
  rw [Collector.close, placed]
  simp only [Collector.summaryOf, hlast]
  rfl

end

end Cctally.SegmentSummaries
