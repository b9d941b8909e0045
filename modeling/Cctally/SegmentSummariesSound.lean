import Cctally.SegmentFence
import Cctally.SegmentReading

/-!
# A summary that may be used tells the truth

A repair keeps the complete lines and an append writes after them, so what a pass has
read to the end of the file stays at its start. A summary that is used has the length of
the file now, and nothing else has come to that length.
-/

namespace Cctally.SegmentSummaries

open Segments (Encoded repairTornTail repair_eq)
open TornLines (IsLine lines eq_flatten_append isLine_of_mem lines_flatten)

section
variable {R : Type} {d : Decoder R}

structure Pass (d : Decoder R) where
  bytes : Bytes
  hi : Nat
  dev : Int
  boundary : Option (Fence d)

def Pass.read (p : Pass d) : Bytes := p.bytes.take p.hi

def Pass.summary (sha256 : Bytes → String) (name : String) (ino : Int) (p : Pass d) : SegmentSummary :=
  summarize sha256 p.boundary name ⟨p.bytes.length, p.dev, ino⟩ p.bytes p.hi

structure History (d : Decoder R) where
  bytes : Bytes
  dev : Int
  boundary : Option (Fence d)
  passes : List (Pass d)

inductive Event (d : Decoder R)
  /-- Of a crashed append, how many bytes were written. -/
  | append (group : List Encoded) (written : Option Nat)
  | repair
  | remount (dev : Int)
  | cutover (fence : Fence d)
  | pass (hi : Nat)

def appendTo (bytes : Bytes) (group : List Encoded) (written : Option Nat) : Bytes :=
  match repairTornTail bytes with
  | none => bytes
  | some valid =>
    let all := (group.map Encoded.bytes).flatten
    valid ++ (match written with
      | none => all
      | some n => all.take n)

def History.step (s : History d) : Event d → History d
  | .append group written => { s with bytes := appendTo s.bytes group written }
  | .repair => { s with bytes := (repairTornTail s.bytes).getD s.bytes }
  | .remount dev => { s with dev := dev }
  -- a revision of the fence leaves the extents of its cutover
  | .cutover fence =>
    if s.boundary.all fun f => f.frozenExtent = fence.frozenExtent then { s with boundary := some fence } else s
  | .pass hi => { s with passes := s.passes ++ [⟨s.bytes, hi, s.dev, s.boundary⟩] }

def History.run (s : History d) (events : List (Event d)) : History d := events.foldl History.step s

def History.start (bytes : Bytes) (dev : Int) (boundary : Option (Fence d)) : History d := ⟨bytes, dev, boundary, []⟩

/-! ## What stays -/

theorem lines_stay (s : History d) (e : Event d) :
    (s.step e).bytes = s.bytes ∨ ∃ more, (s.step e).bytes = (lines newline s.bytes).flatten ++ more := by
  cases e with
  | append group written =>
    simp only [History.step, appendTo]
    cases hrepair : repairTornTail s.bytes with
    | none => exact .inl rfl
    | some valid => exact .inr ⟨_, congrArg (· ++ _) (repair_eq hrepair)⟩
  | repair =>
    simp only [History.step]
    cases hrepair : repairTornTail s.bytes with
    | none => exact .inl rfl
    | some valid => exact .inr ⟨[], by rw [Option.getD_some, repair_eq hrepair, List.append_nil]⟩
  | remount dev => exact .inl rfl
  | cutover fence =>
    simp only [History.step]
    split
    next => exact .inl rfl
    next => exact .inl rfl
  | pass hi => exact .inl rfl

theorem leading_stay {s : History d} {ls : List Bytes} (hls : ∀ l ∈ ls, IsLine newline l) (h : ls.flatten <+: s.bytes)
    (e : Event d) : ls.flatten <+: (s.step e).bytes := by
  rcases lines_stay s e with heq | ⟨more, heq⟩
  · rwa [heq]
  · obtain ⟨rest, hrest⟩ := h
    rw [heq, ← hrest, lines_flatten hls, List.flatten_append, List.append_assoc]
    exact List.prefix_append _ _

def Follows (earlier now : Option (Fence d)) : Prop :=
  ∀ f, earlier = some f → ∃ g, now = some g ∧ f.frozenExtent = g.frozenExtent

theorem follows_step {s : History d} {boundary : Option (Fence d)} (h : Follows boundary s.boundary) (e : Event d) :
    Follows boundary (s.step e).boundary := by
  cases e with
  | cutover fence =>
    simp only [History.step]
    split
    next hsame =>
      intro f hf
      obtain ⟨g, hg, hextent⟩ := h f hf
      rw [hg] at hsame
      exact ⟨fence, rfl, hextent.trans (of_decide_eq_true hsame)⟩
    next => exact h
  | append group written => exact h
  | repair => exact h
  | remount dev => exact h
  | pass hi => exact h

def Pass.Whole (p : Pass d) : Prop := (lines newline p.read).flatten.length = p.bytes.length

theorem Pass.Whole.eq {p : Pass d} (h : p.Whole) : p.read = p.bytes ∧ (lines newline p.bytes).flatten = p.bytes := by
  obtain ⟨t, _, _, heq⟩ := eq_flatten_append newline p.read
  have hle : p.read.length ≤ p.bytes.length := List.length_take_le' _ _
  have hlen := congrArg List.length heq
  rw [List.length_append, h] at hlen
  have ht : t = [] := List.length_eq_zero_iff.1 (by omega)
  have hread : p.read = p.bytes := by
    refine (List.take_prefix p.hi p.bytes).eq_of_length ?_
    show p.read.length = p.bytes.length
    omega
  rw [ht, List.append_nil, hread] at heq
  exact ⟨hread, heq.symm⟩

structure Kept (s : History d) (p : Pass d) : Prop where
  bytes : p.Whole → p.bytes <+: s.bytes
  boundary : Follows p.boundary s.boundary

theorem kept_step {s : History d} (h : ∀ p ∈ s.passes, Kept s p) (e : Event d) :
    ∀ p ∈ (s.step e).passes, Kept (s.step e) p := by
  have hold : ∀ p, Kept s p → Kept (s.step e) p := fun p hp => by
    refine ⟨fun hwhole => ?_, follows_step hp.boundary e⟩
    have hbytes := hp.bytes hwhole
    rw [← hwhole.eq.2] at hbytes ⊢
    exact leading_stay (fun _ hl => isLine_of_mem hl) hbytes e
  intro p hp
  cases e with
  | pass hi =>
    rcases List.mem_append.1 hp with hp | hp
    · exact hold p (h p hp)
    · obtain rfl := List.mem_singleton.1 hp
      exact ⟨fun _ => List.prefix_rfl, fun f hf => ⟨f, hf, rfl⟩⟩
  | cutover fence =>
    have hpasses : (s.step (.cutover fence)).passes = s.passes := by
      simp only [History.step]
      split
      next => rfl
      next => rfl
    exact hold p (h p (hpasses ▸ hp))
  | append group written => exact hold p (h p hp)
  | repair => exact hold p (h p hp)
  | remount dev => exact hold p (h p hp)

theorem kept_run {s : History d} (h : ∀ p ∈ s.passes, Kept s p) (events : List (Event d)) :
    ∀ p ∈ (s.run events).passes, Kept (s.run events) p := by
  induction events generalizing s with
  | nil => exact h
  | cons e events ih => exact ih (kept_step h e)

theorem kept_start (bytes : Bytes) (dev : Int) (boundary : Option (Fence d)) (events : List (Event d)) :
    ∀ p ∈ ((History.start bytes dev boundary).run events).passes,
      Kept ((History.start bytes dev boundary).run events) p :=
  kept_run (fun _ h => absurd h List.not_mem_nil) events

/-! ## What acceptance means -/

section
variable {sha256 : Bytes → String} {name : String} {ino : Int} {summary : SegmentSummary} {pinned : Nat}
  {isLast certificateCovers resolutionSeen : Bool} {statIdentity : Option (Int × Int)}
  {prefixProof : Option (Option String)}

theorem of_guard {refusal : Refusal} {rest : Option Refusal} {c : Prop} [Decidable c]
    (h : (if c then some refusal else rest) = none) : ¬ c ∧ rest = none := by
  by_cases hc : c
  · rw [if_pos hc] at h
    cases h
  · rw [if_neg hc] at h
    exact ⟨hc, h⟩

theorem of_elidable
    (h : summaryIsElidable summary pinned isLast certificateCovers resolutionSeen statIdentity prefixProof = none) :
    summary.completeLineCoveredOffset = summary.summarizedSize ∧ summary.summarizedSize = pinned ∧
      summary.quotaOnly = true := by
  rw [summaryIsElidable] at h
  obtain ⟨_, h⟩ := of_guard h
  obtain ⟨_, h⟩ := of_guard h
  obtain ⟨_, h⟩ := of_guard h
  obtain ⟨hextent, h⟩ := of_guard h
  obtain ⟨hquota, _⟩ := of_guard h
  rw [not_not] at hextent
  rw [Bool.not_eq_true', Bool.not_eq_false] at hquota
  exact ⟨hextent.1, hextent.2, hquota⟩

end

section
variable {sha256 : Bytes → String} {name : String} {ino : Int} {s : History d} {p : Pass d}

theorem summary_eq (p : Pass d) :
    p.summary sha256 name ino =
      (collect p.boundary (lines newline p.read)).summaryOf sha256 name ⟨p.bytes.length, p.dev, ino⟩ :=
  summarize_eq name ⟨p.bytes.length, p.dev, ino⟩ p.bytes p.hi

theorem whole_of_covered
    (h : (p.summary sha256 name ino).completeLineCoveredOffset = (p.summary sha256 name ino).summarizedSize) : p.Whole := by
  rw [summary_eq] at h
  exact (collect_lineEnd fun _ hl => isLine_of_mem hl).symm.trans h

theorem bytes_eq (hkept : Kept s p) (hwhole : p.Whole) (hsize : p.bytes.length = s.bytes.length) : p.bytes = s.bytes :=
  (hkept.bytes hwhole).eq_of_length hsize

theorem excludes_none (hkept : Kept s p) (hwhole : p.Whole) (hbytes : p.bytes = s.bytes)
    (hpermits : admissionPermitsElision s.boundary s.bytes.length (p.summary sha256 name ino) = true) :
    ∀ q ∈ numbered 0 (lines newline s.bytes), ∀ r, d.decodeLine q.2 = some r →
      excludes p.boundary r q.1 = false ∧ excludes s.boundary r q.1 = false := by
  intro q hq r hr
  have hend : q.1 < s.bytes.length := by
    have hlt := offset_lt (fun _ hl => isLine_of_mem hl) hq
    rwa [Nat.zero_add, ← hbytes, hwhole.eq.2, hbytes] at hlt
  cases hnow : s.boundary with
  | none =>
    have hthen : p.boundary = none := by
      cases hp : p.boundary with
      | none => rfl
      | some f =>
        obtain ⟨g, hg, _⟩ := hkept.boundary f hp
        rw [hnow] at hg
        cases hg
    rw [hthen]
    exact ⟨rfl, rfl⟩
  | some g =>
    rw [hnow, admissionPermitsElision, Bool.or_eq_true] at hpermits
    rcases hpermits with hhistorical | hquota
    · -- inside the frozen extent, which both fences have
      obtain ⟨extent, hextent, hle⟩ := (Option.any_eq_true _ _).1 hhistorical
      have hlt : (q.1 : Int) < extent := lt_of_lt_of_le (Int.ofNat_lt.2 hend) (of_decide_eq_true hle)
      refine ⟨?_, g.historical extent hextent r q.1 hlt⟩
      cases hp : p.boundary with
      | none => rfl
      | some f =>
        obtain ⟨g', hg', hsame⟩ := hkept.boundary f hp
        obtain rfl := Option.some.inj (hnow.symm.trans hg')
        exact f.historical extent (hsame.trans hextent) r q.1 hlt
    · -- nothing but quota observations, which no fence excludes
      rw [summary_eq, hwhole.eq.1, hbytes] at hquota
      obtain ⟨_, hall⟩ := readFrom_nonCodexQuota (of_decide_eq_true hquota)
      obtain ⟨hthen, hobs⟩ := hall q hq r hr
      exact ⟨hthen, g.quota r q.1 hobs⟩

theorem seen_close (c : Collector) (running : LastSeen) :
    (c.close sha256 running).2.seen = running.seen ⊔ (c.close sha256 .empty).2.seen := by
  simp only [Collector.close]
  cases c.lastSeen with
  | none => rw [LastSeen.seen_empty, sup_bot_eq]
  | some seen => exact LastSeen.seen_merge running _ _ _

def records (d : Decoder R) (bytes : Bytes) : List R :=
  (numbered 0 (lines newline bytes)).filterMap fun q => d.decodeLine q.2

theorem admitted_eq {boundary : Option (Fence d)} {bytes : Bytes}
    (h : ∀ q ∈ numbered 0 (lines newline bytes), ∀ r, d.decodeLine q.2 = some r → excludes boundary r q.1 = false) :
    admitted boundary 0 (lines newline bytes) = records d bytes := by
  refine List.filterMap_congr fun q hq => ?_
  cases hdecode : d.decodeLine q.2 with
  | none => rfl
  | some r =>
    rw [Option.filter, h q hq r hdecode]
    rfl

structure Truthful (sha256 : Bytes → String) (name : String) (ino : Int) (s : History d) (p : Pass d) : Prop where
  bytes : p.read = s.bytes
  summary : ∀ c running,
    (readSegment sha256 s.boundary name c running ⟨s.bytes.length, s.dev, ino⟩ s.bytes s.bytes.length).1.summaries.get?
      name = some { p.summary sha256 name ino with stDev := s.dev }
  retained : ∀ r ∈ records d s.bytes, d.retained r = false
  counters : ∀ c running,
    let skipped := (elideSegment c running (p.summary sha256 name ino)).2
    let read := (readSegment sha256 s.boundary name c running ⟨s.bytes.length, s.dev, ino⟩ s.bytes s.bytes.length).2
    skipped.lines = read.lines ∧ skipped.bytes = read.bytes ∧ skipped.decodes = read.decodes ∧
      skipped.malformed = read.malformed ∧ skipped.decoded = read.decoded
  /-- Once the segment before is closed, whichever of the two is merged first. -/
  lastSeen : ∀ c running,
    let skipped := elideSegment c running (p.summary sha256 name ino)
    let read := (readSegment sha256 s.boundary name c running ⟨s.bytes.length, s.dev, ino⟩ s.bytes s.bytes.length).2
    (skipped.1.close sha256 skipped.2.lastSeen).2.seen = read.lastSeen.seen ∧
      read.lastSeen.seen =
        ((records d s.bytes).foldl (fun seen r => seen.observe d r) (c.close sha256 running.lastSeen).2).seen

theorem truthful (hkept : Kept s p) (hwhole : p.Whole) (hbytes : p.bytes = s.bytes)
    (hquota : (p.summary sha256 name ino).quotaOnly = true)
    (hpermits : admissionPermitsElision s.boundary s.bytes.length (p.summary sha256 name ino) = true) :
    Truthful sha256 name ino s p := by
  have hexcludes := excludes_none hkept hwhole hbytes hpermits
  have hread : p.read = s.bytes := hwhole.eq.1.trans hbytes
  have hcollect : collect p.boundary (lines newline p.read) = collect s.boundary (lines newline s.bytes) := by
    rw [hread, collect, collect]
    refine congrArg Prod.fst (readFrom_congr fun q hq r hr => ?_)
    rw [(hexcludes q hq r hr).1, (hexcludes q hq r hr).2]
  have hsummary : summarize sha256 s.boundary name ⟨s.bytes.length, s.dev, ino⟩ s.bytes s.bytes.length =
      { p.summary sha256 name ino with stDev := s.dev } := by
    rw [summarize_eq, summary_eq, hcollect, List.take_length, hbytes]
    rfl
  have hadmitted : admitted s.boundary 0 (lines newline s.bytes) = records d s.bytes :=
    admitted_eq fun q hq r hr => (hexcludes q hq r hr).2
  have hread_eq : ∀ c running,
      (readSegment sha256 s.boundary name c running ⟨s.bytes.length, s.dev, ino⟩ s.bytes s.bytes.length).2 =
        (elideSegment c { running with lastSeen := (c.close sha256 running.lastSeen).2 } (p.summary sha256 name ino)).2 := by
    intro c running
    have heq := (readSegment_eq sha256 s.boundary name c running ⟨s.bytes.length, s.dev, ino⟩ s.bytes s.bytes.length).2
    rw [hsummary] at heq
    exact heq hquota
  refine ⟨hread, fun c running => ?_, fun r hr => ?_, fun c running => ?_, fun c running => ?_⟩
  · rw [(readSegment_eq sha256 s.boundary name c running ⟨s.bytes.length, s.dev, ino⟩ s.bytes s.bytes.length).1,
      hsummary, Dict.get?_set_self]
  · obtain ⟨q, hq, hr⟩ := List.mem_filterMap.1 hr
    rw [summary_eq, hcollect] at hquota
    exact (readFrom_retained (of_decide_eq_true hquota)).2 q hq r hr (hexcludes q hq r hr).2
  · rw [hread_eq]
    exact ⟨rfl, rfl, rfl, rfl, rfl⟩
  · rw [hread_eq]
    refine ⟨?_, ?_⟩
    · have hadopt : ((elideSegment c running (p.summary sha256 name ino)).1.close sha256
          (elideSegment c running (p.summary sha256 name ino)).2.lastSeen).2 =
          (c.close sha256 (elideSegment c running (p.summary sha256 name ino)).2.lastSeen).2 := rfl
      rw [hadopt, seen_close]
      simp only [elideSegment]
      rw [LastSeen.seen_merge running.lastSeen, LastSeen.seen_merge (c.close sha256 running.lastSeen).2,
        seen_close c running.lastSeen, sup_right_comm]
    · have hpartial : (collect s.boundary (lines newline s.bytes)).lastSeen =
          some ((records d s.bytes).foldl (fun seen r => seen.observe d r) .empty) := by
        rw [collect_lastSeen, hadmitted]
      rw [summary_eq, hcollect]
      simp only [Collector.summaryOf, hpartial]
      exact LastSeen.merge_foldl d (records d s.bytes) _

/-- **A summary that may be used tells the truth**: after any appends, crashes, repairs,
remounts, cutovers and passes, a summary that is accepted at the segment's size is of the
bytes it has, and skipping the segment adds what reading it adds. -/
theorem accepted_truthful (sha256 : Bytes → String) (name : String) (ino : Int) (bytes : Bytes) (dev : Int)
    (boundary : Option (Fence d)) (events : List (Event d)) (p : Pass d)
    (isLast certificateCovers resolutionSeen : Bool) (statIdentity : Option (Int × Int))
    (prefixProof : Option (Option String))
    (hpass : p ∈ ((History.start bytes dev boundary).run events).passes)
    (haccept : summaryIsElidable (p.summary sha256 name ino) ((History.start bytes dev boundary).run events).bytes.length
      isLast certificateCovers resolutionSeen statIdentity prefixProof = none)
    (hpermits : admissionPermitsElision ((History.start bytes dev boundary).run events).boundary
      ((History.start bytes dev boundary).run events).bytes.length (p.summary sha256 name ino) = true) :
    Truthful sha256 name ino ((History.start bytes dev boundary).run events) p := by
  obtain ⟨hcovered, hpinned, hquota⟩ := of_elidable haccept
  have hkept := kept_start bytes dev boundary events p hpass
  have hwhole := whole_of_covered hcovered
  exact truthful hkept hwhole (bytes_eq hkept hwhole hpinned) hquota hpermits

end

end

def quotaLine : Encoded :=
  ⟨"\x7b\"at\":\"2026-05-01T00:00:00Z\",\"payload\":\x7b\"kind\":\"quota_window_snapshot\"\x7d,\"provider\":\"codex\",\"t\":\"obs\"\x7d".toList.map
    fun c => UInt8.ofNat c.toNat, by decide⟩

def quotaRecord : Json.Fields :=
  [("at", .str "2026-05-01T00:00:00Z"), ("payload", .obj [("kind", .str QUOTA_OBS_KIND)]), ("provider", .str "codex"),
    ("t", .str "obs")]

def decodeQuotaLine (raw : Bytes) : Option Json.Fields := if raw = quotaLine.body then some quotaRecord else none

def quotaEvents : List (Event (recordDecoder decodeQuotaLine fun _ => some .codex)) :=
  [.append [quotaLine] none, .pass 102, .append [quotaLine] (some 5), .repair, .remount 2,
    .cutover (.ofBoundary _ _ "observations-2026-05.jsonl" ⟨"observations-2026-06.jsonl", 0, Dict.empty, none, none⟩)]

theorem accepted_truthful_remount :
    Truthful (fun _ => "26781d89ab348371ae50c6cf8919eb451d5bdb1d67535f23b154c293f64e4a28") "observations-2026-05.jsonl" 7
      ((History.start [] 1 none).run quotaEvents) ⟨quotaLine.bytes, 102, 1, none⟩ :=
  accepted_truthful (fun _ => "26781d89ab348371ae50c6cf8919eb451d5bdb1d67535f23b154c293f64e4a28") "observations-2026-05.jsonl" 7
    [] 1 none quotaEvents ⟨quotaLine.bytes, 102, 1, none⟩ false true false (some (2, 7))
    (some (some "26781d89ab348371ae50c6cf8919eb451d5bdb1d67535f23b154c293f64e4a28"))
    (List.mem_singleton.2 rfl) (by decide +kernel) (by decide +kernel)

end Cctally.SegmentSummaries
