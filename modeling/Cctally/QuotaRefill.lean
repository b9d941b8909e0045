import Cctally.SegmentSummariesSound
import Mathlib

/-!
# Elided quota observations, put back

A pass that skips a segment records where in the stream its observations belong. When they
are needed after all, the segments are read again and the stream is rebuilt in one sweep.
-/

namespace Cctally.QuotaRefill

export Segments (Bytes newline)
open SegmentSummaries (Decoder Event Fence History excludes leading_stay numbered)
open TornLines (lines IsLine)

/-! ## Observations as coordinates -/

/-- A run of one segment: the start and the length of each line. -/
structure Run where
  segment : String
  places : List (Nat × Nat)

abbrev Place := String × Nat × Nat

def observations (runs : List Run) : List Place := runs.flatMap fun r => r.places.map (r.segment, ·)

def extendRuns (runs : List Run) (segment : String) (places : List (Nat × Nat)) : List Run :=
  match runs.getLast? with
  | none => [⟨segment, places⟩]
  | some last =>
    if last.segment = segment then runs.dropLast ++ [⟨segment, last.places ++ places⟩] else runs ++ [⟨segment, places⟩]

theorem observations_extendRuns (runs : List Run) (segment : String) (places : List (Nat × Nat)) :
    observations (extendRuns runs segment places) = observations runs ++ places.map (segment, ·) := by
  rcases runs.eq_nil_or_concat with rfl | ⟨init, last, rfl⟩
  · simp [extendRuns, observations]
  · rw [List.concat_eq_append, extendRuns, List.getLast?_append]
    by_cases hsame : last.segment = segment
    · subst hsame
      simp [observations]
    · simp [observations, hsame]

structure QuotaLineSource where
  runs : List Run
  count : Nat
  counted : count = (observations runs).length

namespace QuotaLineSource

def empty : QuotaLineSource := ⟨[], 0, rfl⟩

def view (s : QuotaLineSource) : List Place := observations s.runs

theorem counted_extendRuns (s : QuotaLineSource) (segment : String) (places : List (Nat × Nat)) :
    s.count + places.length = (observations (extendRuns s.runs segment places)).length := by
  rw [observations_extendRuns, List.length_append, List.length_map, s.counted]

def append (s : QuotaLineSource) (segment : String) (offset length : Nat) : QuotaLineSource :=
  ⟨extendRuns s.runs segment [(offset, length)], s.count + 1, s.counted_extendRuns segment [(offset, length)]⟩

def extendRun (s : QuotaLineSource) (segment : String) (places : List (Nat × Nat)) : QuotaLineSource :=
  if places = [] then s
  else ⟨extendRuns s.runs segment places, s.count + places.length, s.counted_extendRuns segment places⟩

end QuotaLineSource

/-- What `[start, stop)` cuts of each run, up to the run that holds the end. -/
def cuts (start stop : Int) : Int → List Run → List Run
  | _, [] => []
  | base, r :: runs =>
    let size : Int := r.places.length
    let lo := max (start - base) 0
    let hi := min (stop - base) size
    let rest := if stop ≤ base + size then [] else cuts start stop (base + size) runs
    if lo < hi then ⟨r.segment, (r.places.take hi.toNat).drop lo.toNat⟩ :: rest else rest

inductive QuotaLineSourceError
  | unreadable (segment exc : String)
  | gone (segment : String) (offset : Nat)

abbrev Disk := String → Except String Bytes

def readFramedLine (fh : Bytes) (segment : String) (offset length : Nat) : Except QuotaLineSourceError Bytes :=
  let lead := if 0 < offset then 1 else 0
  let data := (fh.drop (offset - lead)).take (length + lead + 1)
  if data.length ≠ length + lead + 1 ∨ (lead ≠ 0 ∧ data.head? ≠ some newline) ∨ data.getLast? ≠ some newline ∨
      newline ∈ (data.drop lead).take length then .error (.gone segment offset)
  else .ok ((data.drop lead).take length)

def readRun (disk : Disk) (r : Run) : Except QuotaLineSourceError (List Bytes) :=
  match disk r.segment with
  | .error exc => .error (.unreadable r.segment exc)
  | .ok fh => r.places.mapM fun p => readFramedLine fh r.segment p.1 p.2

namespace QuotaLineSource

/-- `_copy_range`: the observations `[start, stop)` of `source` after those of `s`. -/
def copyRange (s source : QuotaLineSource) (start stop : Int) : QuotaLineSource :=
  (cuts start stop 0 source.runs).foldl (fun s r => s.extendRun r.segment r.places) s

def lines (disk : Disk) (s : QuotaLineSource) (start stop : Int) : Except QuotaLineSourceError (List Bytes) := do
  let runs ← (cuts start stop 0 s.runs).mapM (readRun disk)
  pure runs.flatten

end QuotaLineSource

def slice {α : Type} (start stop : Int) (l : List α) : List α := (l.take stop.toNat).drop start.toNat

theorem slice_append {α : Type} (start stop : Int) (a b : List α) :
    slice start stop (a ++ b) = slice start stop a ++ slice (start - a.length) (stop - a.length) b := by
  have hstop : (stop - a.length).toNat = stop.toNat - a.length := by omega
  rw [slice, slice, slice, List.take_append, List.drop_append, List.length_take, hstop]
  congr 1
  by_cases hle : stop.toNat ≤ a.length
  · rw [Nat.sub_eq_zero_of_le hle, List.take_zero, List.drop_nil, List.drop_nil]
  · rw [min_eq_right (by omega)]
    congr 1
    omega

theorem observations_cuts (start stop : Int) : ∀ (base : Int) (runs : List Run),
    observations (cuts start stop base runs) = slice (start - base) (stop - base) (observations runs)
  | base, [] => by simp [cuts, observations, slice]
  | base, r :: runs => by
    have hhead : observations (r :: runs) = r.places.map (r.segment, ·) ++ observations runs := rfl
    have ih := observations_cuts start stop (base + r.places.length) runs
    have hrest : observations (if stop ≤ base + r.places.length then []
          else cuts start stop (base + r.places.length) runs) =
        slice (start - base - r.places.length) (stop - base - r.places.length) (observations runs) := by
      split
      · have hzero : (stop - base - r.places.length).toNat = 0 := by omega
        rw [slice, hzero]
        simp [observations]
      · rw [ih, sub_sub, sub_sub]
    rw [hhead, slice_append, List.length_map, ← hrest, cuts]
    by_cases hcut : max (start - base) 0 < min (stop - base) r.places.length
    · have htake : (min (stop - base) r.places.length).toNat = min (stop - base).toNat r.places.length := by omega
      have hdrop : (max (start - base) 0).toNat = (start - base).toNat := by omega
      simp only [if_pos hcut, htake, hdrop]
      rw [slice, ← List.map_take, ← List.map_drop, ← List.take_eq_take_min]
      rfl
    · have hnil : slice (start - base) (stop - base) (r.places.map (r.segment, ·)) = [] := by
        rw [slice, List.drop_eq_nil_iff, List.length_take, List.length_map]
        omega
      simp only [if_neg hcut]
      rw [hnil, List.nil_append]

theorem ne_nil_of_mem_cuts {start stop : Int} {r : Run} : ∀ {base : Int} {runs : List Run},
    r ∈ cuts start stop base runs → r.places ≠ []
  | base, r' :: runs, h => by
    have hrest : ∀ {l : List Run}, l = (if stop ≤ base + r'.places.length then []
        else cuts start stop (base + r'.places.length) runs) → r ∈ l → r.places ≠ [] := by
      rintro l rfl hl
      split at hl
      · cases hl
      · exact ne_nil_of_mem_cuts hl
    rw [cuts] at h
    by_cases hcut : max (start - base) 0 < min (stop - base) r'.places.length
    · simp only [if_pos hcut] at h
      rcases List.mem_cons.mp h with rfl | h
      · rw [ne_eq, List.drop_eq_nil_iff, List.length_take]
        omega
      · exact hrest rfl h
    · simp only [if_neg hcut] at h
      exact hrest rfl h

/-! ## Lines read back -/

/-- A line of `fh`: a newline stands before it, unless it starts the file, one after it, and none inside. -/
def Framed (fh : Bytes) (offset length : Nat) (raw : Bytes) : Prop :=
  ∃ a b, fh = a ++ (raw ++ newline :: b) ∧ a.length = offset ∧ raw.length = length ∧ newline ∉ raw ∧
    (a = [] ∨ ∃ c, a = c ++ [newline])

theorem readFramedLine_eq_ok {fh : Bytes} {segment : String} {offset length : Nat} {raw : Bytes} :
    readFramedLine fh segment offset length = .ok raw ↔ Framed fh offset length raw := by
  constructor
  · intro h
    rw [readFramedLine] at h
    by_cases hpos : 0 < offset
    · obtain ⟨k, rfl⟩ : ∃ k, offset = k + 1 := ⟨offset - 1, by omega⟩
      simp only [if_pos hpos, Nat.add_sub_cancel] at h
      split at h
      · cases h
      · rename_i hframed
        simp only [not_or, not_and, not_not, ne_eq] at hframed
        obtain ⟨hlen, hhead, hlast, hclean⟩ := hframed
        obtain rfl := Except.ok.inj h
        generalize hdata : (fh.drop k).take (length + 1 + 1) = data at *
        obtain ⟨body, rfl⟩ := List.getLast?_eq_some_iff.mp hlast
        cases body with
        | nil => simp at hlen
        | cons x body =>
          obtain rfl : x = newline := Option.some.inj (hhead one_ne_zero)
          obtain rfl : body.length = length := by simpa using hlen
          rw [List.cons_append, List.drop_one, List.tail_cons, List.take_left] at hclean ⊢
          have hbound : k < fh.length := by
            have := congrArg List.length hdata
            simp only [List.length_take, List.length_drop, List.length_append, List.length_cons] at this
            omega
          refine ⟨fh.take k ++ [newline], (fh.drop k).drop (body.length + 1 + 1), ?_, ?_, rfl, hclean, .inr ⟨_, rfl⟩⟩
          · have hfh := congrArg (· ++ (fh.drop k).drop (body.length + 1 + 1)) hdata
            simp only [List.take_append_drop] at hfh
            rw [List.append_assoc]
            nth_rewrite 1 [← List.take_append_drop k fh]
            rw [hfh]
            simp
          · rw [List.length_append, List.length_take, List.length_singleton, min_eq_left hbound.le]
    · obtain rfl : offset = 0 := by omega
      simp only [if_neg hpos, Nat.sub_zero, add_zero, List.drop_zero] at h
      split at h
      · cases h
      · rename_i hframed
        simp only [not_or, not_and, not_not, ne_eq] at hframed
        obtain ⟨hlen, -, hlast, hclean⟩ := hframed
        obtain rfl := Except.ok.inj h
        generalize hdata : fh.take (length + 1) = data at *
        obtain ⟨body, rfl⟩ := List.getLast?_eq_some_iff.mp hlast
        obtain rfl : body.length = length := by simpa using hlen
        rw [List.take_left] at hclean ⊢
        refine ⟨[], fh.drop (body.length + 1), ?_, rfl, rfl, hclean, .inl rfl⟩
        have hfh := congrArg (· ++ fh.drop (body.length + 1)) hdata
        simp only [List.take_append_drop] at hfh
        rw [List.nil_append, List.append_cons]
        exact hfh
  · rintro ⟨a, b, rfl, rfl, rfl, hclean, rfl | ⟨c, rfl⟩⟩
    · have hdata : (([] ++ (raw ++ newline :: b)).drop 0).take (raw.length + 0 + 1) = raw ++ [newline] := by
        rw [List.nil_append, List.drop_zero, add_zero, List.take_length_add_append]
        rfl
      rw [readFramedLine, List.length_nil, if_neg (lt_irrefl 0), Nat.sub_zero, hdata, List.drop_zero, List.take_left]
      simp [hclean]
    · have hdata : ((c ++ [newline] ++ (raw ++ newline :: b)).drop c.length).take (raw.length + 1 + 1) =
          newline :: (raw ++ [newline]) := by
        rw [List.append_assoc, List.drop_left, List.singleton_append, List.take_succ_cons, List.take_length_add_append]
        rfl
      have hbody : (newline :: (raw ++ [newline])).getLast? = some newline := by
        rw [← List.cons_append, List.getLast?_concat]
      rw [readFramedLine, List.length_append, List.length_singleton, if_pos (Nat.succ_pos _), Nat.add_sub_cancel, hdata,
        List.drop_one, List.tail_cons, List.take_left, hbody]
      simp [hclean]

def readOne (disk : Disk) (p : Place) : Except QuotaLineSourceError Bytes :=
  match disk p.1 with
  | .error exc => .error (.unreadable p.1 exc)
  | .ok fh => readFramedLine fh p.1 p.2.1 p.2.2

def Reads (disk : Disk) (p : Place) (raw : Bytes) : Prop := ∃ fh, disk p.1 = .ok fh ∧ Framed fh p.2.1 p.2.2 raw

theorem readOne_eq_ok {disk : Disk} {p : Place} {raw : Bytes} : readOne disk p = .ok raw ↔ Reads disk p raw := by
  rw [readOne, Reads]
  cases disk p.1 with
  | error exc => simp
  | ok fh => simp [readFramedLine_eq_ok]

theorem readRun_eq (disk : Disk) {r : Run} (hne : r.places ≠ []) :
    readRun disk r = (r.places.map (r.segment, ·)).mapM (readOne disk) := by
  obtain ⟨p, rest, hplaces⟩ := List.exists_cons_of_ne_nil hne
  rw [readRun, List.mapM_map]
  cases hdisk : disk r.segment with
  | error exc =>
    have hone : readOne disk (r.segment, p) = .error (.unreadable r.segment exc) := by simp only [readOne, hdisk]
    rw [hplaces, List.mapM_cons, Function.comp_apply, hone]
    rfl
  | ok fh =>
    refine congrArg (fun f => r.places.mapM f) (funext fun p => ?_)
    rw [Function.comp_apply, readOne, hdisk]

namespace QuotaLineSource

theorem view_extendRun (s : QuotaLineSource) (segment : String) (places : List (Nat × Nat)) :
    (s.extendRun segment places).view = s.view ++ places.map (segment, ·) := by
  unfold extendRun
  split
  next hnil => rw [hnil, List.map_nil, List.append_nil]
  next => exact observations_extendRuns s.runs segment places

theorem view_copyRange (s source : QuotaLineSource) (start stop : Int) :
    (s.copyRange source start stop).view = s.view ++ slice start stop source.view := by
  have hfold : ∀ (runs : List Run) (s : QuotaLineSource),
      (runs.foldl (fun s r => s.extendRun r.segment r.places) s).view = s.view ++ observations runs := by
    intro runs
    induction runs with
    | nil => exact fun s => (List.append_nil _).symm
    | cons r runs ih =>
      intro s
      rw [List.foldl_cons, ih, view_extendRun, List.append_assoc]
      rfl
  rw [copyRange, hfold, observations_cuts, sub_zero, sub_zero]
  rfl

theorem lines_eq (disk : Disk) (s : QuotaLineSource) (start stop : Int) :
    s.lines disk start stop = (slice start stop s.view).mapM (readOne disk) := by
  have hruns : ∀ runs : List Run, (∀ r ∈ runs, r.places ≠ []) →
      (do pure (← runs.mapM (readRun disk)).flatten) = (observations runs).mapM (readOne disk) := by
    intro runs
    induction runs with
    | nil => exact fun _ => rfl
    | cons r runs ih =>
      intro hne
      have hview : observations (r :: runs) = r.places.map (r.segment, ·) ++ observations runs := rfl
      rw [hview, List.mapM_append, ← ih fun r' hr' => hne r' (List.mem_cons_of_mem _ hr'),
        ← readRun_eq disk (hne r List.mem_cons_self)]
      simp
  have hcuts := observations_cuts start stop 0 s.runs
  rw [sub_zero, sub_zero] at hcuts
  rw [lines, hruns _ fun _ => ne_nil_of_mem_cuts, hcuts]
  rfl

theorem lines_eq_ok {disk : Disk} {s : QuotaLineSource} {start stop : Int} {out : List Bytes} :
    s.lines disk start stop = .ok out ↔ List.Forall₂ (Reads disk) (slice start stop s.view) out := by
  rw [lines_eq, Except.mapM_eq_ok]
  simp only [readOne_eq_ok]

end QuotaLineSource

/-! ## The pass -/

/-- The two forms of the stream. The view lists what is in it, and each operation says what it adds. -/
structure Form (S α : Type) where
  empty : S
  append : S → String → Nat → Bytes → S
  copyRange : S → S → Int → Int → S
  len : S → Nat
  view : S → List α
  item : String → Nat × Bytes → α
  view_empty : view empty = []
  view_append : ∀ s segment offset raw, view (append s segment offset raw) = view s ++ [item segment (offset, raw)]
  view_copyRange : ∀ s source start stop, view (copyRange s source start stop) = view s ++ slice start stop (view source)
  len_eq : ∀ s, len s = (view s).length

/-- `out.extend(source[start:stop])` of raw lines. -/
def rawForm : Form (List Bytes) Bytes where
  empty := []
  append s _ _ raw := s ++ [raw]
  copyRange s source start stop := s ++ slice start stop source
  len := List.length
  view := id
  item _ q := q.2
  view_empty := rfl
  view_append _ _ _ _ := rfl
  view_copyRange _ _ _ _ := rfl
  len_eq _ := rfl

def sourceForm : Form QuotaLineSource Place where
  empty := .empty
  append s segment offset raw := s.append segment offset raw.length
  copyRange := QuotaLineSource.copyRange
  len s := s.count
  view := QuotaLineSource.view
  item segment q := (segment, q.1, q.2.length)
  view_empty := rfl
  view_append s segment _ _ := observations_extendRuns s.runs segment _
  view_copyRange := QuotaLineSource.view_copyRange
  len_eq s := s.counted

def iterSegmentLines (bytes : Bytes) (hi : Nat) : List (Nat × Bytes) := numbered 0 (lines newline (bytes.take hi))

structure Gap where
  name : String
  index : Nat
  extent : Nat
  lines : Nat

section
variable {R : Type} (d : Decoder R)

structure Segment where
  name : String
  bytes : Bytes
  hi : Nat
  boundary : Option (Fence d)

def isQuotaLine (raw : Bytes) : Bool :=
  match d.decodeLine raw with
  | none => false
  | some record => d.isCodexQuotaObs record

variable {d}

/-- Whether the read pass appends the line: admitted, not retained, and an observation. -/
def Segment.takes (seg : Segment d) (q : Nat × Bytes) : Bool :=
  match d.decodeLine q.2 with
  | none => false
  | some record => !excludes seg.boundary record q.1 && !d.retained record && d.isCodexQuotaObs record

structure Pass (S : Type) where
  stream : S
  gaps : List Gap

variable {S α : Type} (F : Form S α) (elided : Segment d → Bool)

def Pass.step (p : Pass S) (seg : Segment d) : Pass S :=
  let read := iterSegmentLines seg.bytes seg.hi
  if elided seg then { p with gaps := p.gaps ++ [⟨seg.name, F.len p.stream, seg.hi, read.length⟩] }
  else { p with stream := read.foldl (fun s q => if seg.takes q then F.append s seg.name q.1 q.2 else s) p.stream }

def readPass (segments : List (Segment d)) : Pass S := segments.foldl (Pass.step F elided) ⟨F.empty, []⟩

variable (d)

def recover (disk : Disk) (g : Gap) : Except String (Nat × S) :=
  match disk g.name with
  | .error exc => .error exc
  | .ok bytes =>
    let read := iterSegmentLines bytes g.extent
    .ok (read.length, read.foldl (fun s q => if isQuotaLine d q.2 then F.append s g.name q.1 q.2 else s) F.empty)

variable {d}

def sweep (stream : S) (recovered : Nat → List S) : List Nat → S → Nat → S
  | [], out, cursor => F.copyRange out stream cursor (F.len stream)
  | index :: rest, out, cursor =>
    let bounded := min index (F.len stream)
    let out := F.copyRange out stream cursor bounded
    let out := (recovered index).foldl (fun out r => F.copyRange out r 0 (F.len r)) out
    sweep stream recovered rest out (max cursor bounded)

structure Refilled (S : Type) where
  stream : S
  complete : Bool
  failures : List (String × String)

variable (d)

def refill (disk : Disk) (stream : S) (gaps : List Gap) : Refilled S :=
  let recovered := gaps.filterMap fun g => (recover d F disk g).toOption.map fun r => (g.index, r.2)
  let byIndex := Dict.collect Prod.fst Prod.snd recovered
  { stream := sweep F stream (fun i => (byIndex.get? i).getD []) (byIndex.keys.mergeSort (· ≤ ·)) F.empty 0
    complete := gaps.all fun g => (recover d F disk g).toOption.any fun r => r.1 = g.lines
    failures := gaps.filterMap fun g =>
      match recover d F disk g with
      | .error exc => some (g.name, exc)
      | .ok _ => none }

end

/-! ## What the pass and the refill add -/

section
variable {R S α : Type} {d : Decoder R} (F : Form S α)

theorem view_foldl (name : String) (p : Nat × Bytes → Bool) (l : List (Nat × Bytes)) (s : S) :
    F.view (l.foldl (fun s q => if p q then F.append s name q.1 q.2 else s) s) =
      F.view s ++ (l.filter p).map (F.item name) := by
  induction l generalizing s with
  | nil => exact (List.append_nil _).symm
  | cons q l ih =>
    rw [List.foldl_cons, ih]
    by_cases hq : p q = true
    · rw [if_pos hq, F.view_append, List.filter_cons_of_pos hq, List.map_cons, List.append_assoc, List.singleton_append]
    · rw [if_neg hq, List.filter_cons_of_neg hq]

/-- An observation is admitted and not retained, so the pass appends exactly what the refill does. -/
theorem Segment.takes_eq (seg : Segment d) (q : Nat × Bytes) : seg.takes q = isQuotaLine d q.2 := by
  unfold Segment.takes isQuotaLine
  cases d.decodeLine q.2 with
  | none => rfl
  | some record =>
    by_cases hobs : d.isCodexQuotaObs record = true
    · have hretained : d.retained record = false := by
        have ht : d.t record = "obs" := by
          simp only [Decoder.isCodexQuotaObs, Bool.and_eq_true, decide_eq_true_eq] at hobs
          exact hobs.1.1
        rw [Decoder.retained, ht]
        rfl
      have hexcludes : excludes seg.boundary record q.1 = false := by
        cases hb : seg.boundary with
        | none => rfl
        | some fence => exact fence.quota record q.1 hobs
      simp only [hretained, hexcludes, hobs]
      rfl
    · simp only [Bool.not_eq_true] at hobs
      simp only [hobs, Bool.and_false]

variable (d) in
def found (name : String) (read : List (Nat × Bytes)) : List α :=
  (read.filter fun q => isQuotaLine d q.2).map (F.item name)

def Segment.found (seg : Segment d) : List α := QuotaRefill.found d F seg.name (iterSegmentLines seg.bytes seg.hi)

def Segment.reread (disk : Disk) (seg : Segment d) : List α :=
  match disk seg.name with
  | .error _ => []
  | .ok bytes => QuotaRefill.found d F seg.name (iterSegmentLines bytes seg.hi)

variable (elided : Segment d → Bool)

def kept (segments : List (Segment d)) : List α :=
  segments.flatMap fun seg => if elided seg then [] else seg.found F

def gapsFrom : Nat → List (Segment d) → List Gap
  | _, [] => []
  | n, seg :: rest =>
    if elided seg then ⟨seg.name, n, seg.hi, (iterSegmentLines seg.bytes seg.hi).length⟩ :: gapsFrom n rest
    else gapsFrom (n + (seg.found F).length) rest

theorem kept_cons (seg : Segment d) (rest : List (Segment d)) :
    kept F elided (seg :: rest) = (if elided seg then [] else seg.found F) ++ kept F elided rest := rfl

theorem foldl_pass (segments : List (Segment d)) (p : Pass S) :
    F.view (segments.foldl (Pass.step F elided) p).stream = F.view p.stream ++ kept F elided segments ∧
      (segments.foldl (Pass.step F elided) p).gaps = p.gaps ++ gapsFrom F elided (F.view p.stream).length segments := by
  induction segments generalizing p with
  | nil => exact ⟨(List.append_nil _).symm, (List.append_nil _).symm⟩
  | cons seg rest ih =>
    obtain ⟨hview, hgaps⟩ := ih (Pass.step F elided p seg)
    rw [List.foldl_cons, hview, hgaps, kept_cons, gapsFrom]
    by_cases he : elided seg = true
    · simp only [Pass.step, if_pos he, F.len_eq, List.append_assoc, List.nil_append, List.cons_append, and_self]
    · have hstream : F.view (Pass.step F elided p seg).stream = F.view p.stream ++ seg.found F := by
        simp only [Pass.step, if_neg he, view_foldl, Segment.takes_eq]
        rfl
      have hsame : (Pass.step F elided p seg).gaps = p.gaps := by simp only [Pass.step, if_neg he]
      rw [hstream, hsame, if_neg he, if_neg he, List.append_assoc, List.length_append]
      exact ⟨rfl, rfl⟩

theorem gapsFrom_index {g : Gap} : ∀ {n : Nat} {segments : List (Segment d)}, g ∈ gapsFrom F elided n segments →
    n ≤ g.index ∧ g.index ≤ n + (kept F elided segments).length
  | n, seg :: rest, h => by
    rw [gapsFrom] at h
    rw [kept_cons, List.length_append]
    by_cases he : elided seg = true
    · rw [if_pos he] at h
      rcases List.mem_cons.mp h with rfl | h
      · exact ⟨le_refl _, Nat.le_add_right _ _⟩
      · have ih := gapsFrom_index h
        omega
    · rw [if_neg he] at h ⊢
      have ih := gapsFrom_index h
      omega

theorem gapsFrom_sorted : ∀ (n : Nat) (segments : List (Segment d)),
    (gapsFrom F elided n segments).Pairwise fun a b => a.index ≤ b.index
  | _, [] => List.Pairwise.nil
  | n, seg :: rest => by
    rw [gapsFrom]
    by_cases he : elided seg = true
    · rw [if_pos he]
      exact List.pairwise_cons.mpr ⟨fun g hg => (gapsFrom_index F elided hg).1, gapsFrom_sorted n rest⟩
    · rw [if_neg he]
      exact gapsFrom_sorted _ rest

end

/-! ## The sweep -/

section
variable {α : Type}

def spliced (xs : List α) : Nat → List (Nat × List α) → List α
  | cursor, [] => xs.drop cursor
  | cursor, (index, r) :: rest => (xs.take index).drop cursor ++ (r ++ spliced xs index rest)

def sweepList (xs : List α) (groups : Nat → List α) : List Nat → Nat → List α
  | [], cursor => xs.drop cursor
  | index :: rest, cursor =>
    (xs.take (min index xs.length)).drop cursor ++
      (groups index ++ sweepList xs groups rest (max cursor (min index xs.length)))

theorem sweepList_congr {xs : List α} {groups groups' : Nat → List α} : ∀ {ks : List Nat} {cursor : Nat},
    (∀ k ∈ ks, groups k = groups' k) → sweepList xs groups ks cursor = sweepList xs groups' ks cursor
  | [], _, _ => rfl
  | k :: ks, cursor, h => by
    rw [sweepList, sweepList, h k List.mem_cons_self, sweepList_congr fun k' hk' => h k' (List.mem_cons_of_mem _ hk')]

abbrev groupsOf (l : List (Nat × List α)) (k : Nat) : List α := (l.filter (·.1 = k)).flatMap Prod.snd

theorem sweepList_groups {xs : List α} : ∀ (l : List (Nat × List α)) (ks : List Nat) (cursor : Nat),
    ks.Pairwise (· < ·) → l.Pairwise (fun a b => a.1 ≤ b.1) → (∀ k, k ∈ ks ↔ k ∈ l.map Prod.fst) →
    (∀ p ∈ l, cursor ≤ p.1 ∧ p.1 ≤ xs.length) → sweepList xs (groupsOf l) ks cursor = spliced xs cursor l
  | [], ks, cursor, _, _, hkeys, _ => by
    rw [List.eq_nil_iff_forall_not_mem.mpr fun k hk => List.not_mem_nil ((hkeys k).mp hk)]
    rfl
  | (index, r) :: rest, ks, cursor, hks, hl, hkeys, hbound => by
    obtain ⟨hhead, htail⟩ := List.pairwise_cons.mp hl
    obtain ⟨hcursor, hlen⟩ := hbound _ List.mem_cons_self
    have hrest : ∀ k ∈ rest.map Prod.fst, index ≤ k := by
      intro k hk
      obtain ⟨p, hp, rfl⟩ := List.mem_map.mp hk
      exact hhead p hp
    have hmem : index ∈ ks := (hkeys index).mpr List.mem_cons_self
    obtain ⟨ks', rfl⟩ : ∃ ks', ks = index :: ks' := by
      cases ks with
      | nil => cases hmem
      | cons k ks' =>
        have hk : index ≤ k := by
          rcases List.mem_cons.mp ((hkeys k).mp List.mem_cons_self) with hk | hk
          · exact le_of_eq hk.symm
          · exact hrest k hk
        rcases List.mem_cons.mp hmem with rfl | hlater
        · exact ⟨ks', rfl⟩
        · exact absurd ((List.pairwise_cons.mp hks).1 index hlater) (not_lt.mpr hk)
    obtain ⟨hfirst, hks'⟩ := List.pairwise_cons.mp hks
    have hothers : sweepList xs (groupsOf ((index, r) :: rest)) ks' index = sweepList xs (groupsOf rest) ks' index := by
      refine sweepList_congr fun k hk => ?_
      rw [groupsOf, List.filter_cons_of_neg (by simpa using (hfirst k hk).ne)]
    have hgroup : groupsOf ((index, r) :: rest) index = r ++ groupsOf rest index := by
      rw [groupsOf, List.filter_cons_of_pos (by simp), List.flatMap_cons]
    have hbound' : ∀ p ∈ rest, index ≤ p.1 ∧ p.1 ≤ xs.length := fun p hp =>
      ⟨hhead p hp, (hbound p (List.mem_cons_of_mem _ hp)).2⟩
    rw [sweepList, spliced, min_eq_left hlen, max_eq_right hcursor, hgroup, hothers, List.append_assoc]
    congr 2
    by_cases hagain : index ∈ rest.map Prod.fst
    · -- the next segment of a run of elided ones is recorded under the same index
      have ih := sweepList_groups rest (index :: ks') index hks htail ?_ hbound'
      · rw [sweepList, min_eq_left hlen, max_self, List.drop_take_self, List.nil_append] at ih
        exact ih
      · intro k
        rw [hkeys, List.map_cons, List.mem_cons]
        exact ⟨fun h => h.elim (fun h => h ▸ hagain) id, .inr⟩
    · have hnone : groupsOf rest index = [] := by
        rw [groupsOf, List.filter_eq_nil_iff.mpr, List.flatMap_nil]
        intro p hp heq
        exact hagain (List.mem_map.mpr ⟨p, hp, of_decide_eq_true heq⟩)
      rw [hnone, List.nil_append]
      refine sweepList_groups rest ks' index hks' htail (fun k => ?_) hbound'
      have hk := hkeys k
      rw [List.map_cons, List.mem_cons, List.mem_cons] at hk
      constructor
      · intro h
        exact (hk.mp (.inr h)).resolve_left (hfirst k h).ne'
      · intro h
        exact (hk.mpr (.inr h)).resolve_left fun heq => hagain (heq ▸ h)

variable {R S : Type} {d : Decoder R} (F : Form S α)

theorem view_sweep (stream : S) (recovered : Nat → List S) : ∀ (ks : List Nat) (out : S) (cursor : Nat),
    F.view (sweep F stream recovered ks out cursor) =
      F.view out ++ sweepList (F.view stream) (fun k => (recovered k).flatMap F.view) ks cursor
  | [], out, cursor => by
    rw [sweep, F.view_copyRange, sweepList, slice, F.len_eq, Int.toNat_natCast, Int.toNat_natCast, List.take_length]
  | index :: rest, out, cursor => by
    have hfold : ∀ (rs : List S) (out : S),
        F.view (rs.foldl (fun out r => F.copyRange out r 0 (F.len r)) out) = F.view out ++ rs.flatMap F.view := by
      intro rs
      induction rs with
      | nil => exact fun out => (List.append_nil _).symm
      | cons r rs ih =>
        intro out
        rw [List.foldl_cons, ih, F.view_copyRange, slice, F.len_eq, Int.toNat_natCast, Int.toNat_zero, List.take_length,
          List.drop_zero, List.append_assoc, List.flatMap_cons]
    rw [sweep, view_sweep stream recovered rest, hfold, F.view_copyRange, slice, F.len_eq, Int.toNat_natCast,
      sweepList, List.append_assoc, List.append_assoc]
    rfl

end

/-! ## The stream as it was -/

section
variable {R S α : Type} {d : Decoder R} (F : Form S α) (elided : Segment d → Bool) (disk : Disk)

variable (d) in
def recovery (g : Gap) : Option (Nat × List α) :=
  (recover d F disk g).toOption.map fun r => (g.index, F.view r.2)

theorem recovery_eq (seg : Segment d) (n lines : Nat) :
    recovery d F disk ⟨seg.name, n, seg.hi, lines⟩ = (disk seg.name).toOption.map fun _ => (n, seg.reread F disk) := by
  rw [recovery, recover, Segment.reread]
  cases disk seg.name with
  | error exc => rfl
  | ok bytes =>
    simp only [Except.toOption, Option.map_some, view_foldl F seg.name fun q => isQuotaLine d q.2, F.view_empty,
      List.nil_append]
    rfl

theorem spliced_gaps (segments : List (Segment d)) (pre : List α) (cursor : Nat) (h : cursor ≤ pre.length) :
    spliced (pre ++ kept F elided segments) cursor ((gapsFrom F elided pre.length segments).filterMap (recovery d F disk)) =
      pre.drop cursor ++ segments.flatMap fun seg => if elided seg then seg.reread F disk else seg.found F := by
  induction segments generalizing pre cursor with
  | nil => simp [kept, gapsFrom, spliced]
  | cons seg rest ih =>
    rw [kept_cons, gapsFrom, List.flatMap_cons]
    by_cases he : elided seg = true
    · simp only [if_pos he, List.nil_append]
      rw [List.filterMap_cons, recovery_eq]
      cases hdisk : disk seg.name with
      | error exc =>
        have hreread : seg.reread F disk = [] := by rw [Segment.reread, hdisk]
        rw [hreread, List.nil_append]
        exact ih pre cursor h
      | ok bytes =>
        simp only [Except.toOption, Option.map_some]
        rw [spliced, ih pre pre.length (le_refl _), List.drop_length, List.nil_append, List.take_left]
    · simp only [if_neg he]
      have hlen : pre.length + (seg.found F).length = (pre ++ seg.found F).length := List.length_append.symm
      rw [← List.append_assoc, hlen, ih _ cursor (by rw [← hlen]; omega), List.drop_append_of_le_length h,
        List.append_assoc]

theorem view_refill (segments : List (Segment d)) :
    F.view (refill d F disk (readPass F elided segments).stream (readPass F elided segments).gaps).stream =
      segments.flatMap fun seg => if elided seg then seg.reread F disk else seg.found F := by
  obtain ⟨hview, hgaps⟩ := foldl_pass F elided segments ⟨F.empty, []⟩
  rw [F.view_empty, List.nil_append] at hview
  rw [F.view_empty, List.nil_append, List.length_nil] at hgaps
  have hspliced := spliced_gaps F elided disk segments [] 0 (le_refl _)
  rw [List.nil_append, List.drop_nil, List.nil_append, List.length_nil] at hspliced
  rw [← hspliced, readPass, refill, view_sweep, F.view_empty, List.nil_append, hview, hgaps]
  generalize hrecovered : (gapsFrom F elided 0 segments).filterMap
    (fun g => (recover d F disk g).toOption.map fun r => (g.index, r.2)) = recovered
  have hl : (gapsFrom F elided 0 segments).filterMap (recovery d F disk) =
      recovered.map fun p => (p.1, F.view p.2) := by
    rw [← hrecovered, List.map_filterMap]
    refine List.filterMap_congr fun g _ => ?_
    rw [recovery, Option.map_map]
    rfl
  have hfst : ((gapsFrom F elided 0 segments).filterMap (recovery d F disk)).map Prod.fst = recovered.map Prod.fst := by
    rw [hl, List.map_map]
    rfl
  have hof : ∀ g p, recovery d F disk g = some p → p.1 = g.index := by
    intro g p hp
    obtain ⟨r, _, rfl⟩ := Option.map_eq_some_iff.mp hp
    rfl
  have hgroups : (fun k => (((Dict.collect Prod.fst Prod.snd recovered).get? k).getD []).flatMap F.view) =
      groupsOf ((gapsFrom F elided 0 segments).filterMap (recovery d F disk)) := by
    funext k
    rw [Dict.getD_collect, groupsOf, hl, List.filter_map, List.flatMap_map, List.flatMap_map]
    rfl
  rw [hgroups]
  refine sweepList_groups _ _ 0 ?_ ?_ ?_ ?_
  · have hsorted : ((Dict.collect Prod.fst Prod.snd recovered).keys.mergeSort (· ≤ ·)).Pairwise (· ≤ ·) := by
      simpa using @List.pairwise_mergeSort Nat (fun a b => decide (a ≤ b))
        (fun a b c hab hbc => by simp only [decide_eq_true_eq] at *; omega)
        (fun a b => by simp only [Bool.or_eq_true, decide_eq_true_eq]; omega)
        (Dict.collect Prod.fst Prod.snd recovered).keys
    have hnodup := (List.mergeSort_perm (Dict.collect Prod.fst Prod.snd recovered).keys (· ≤ ·)).nodup_iff.mpr
      (Dict.collect Prod.fst Prod.snd recovered).nodup
    exact (List.pairwise_and_iff.mpr ⟨hsorted, hnodup⟩).imp fun h => lt_of_le_of_ne h.1 h.2
  · refine List.pairwise_filterMap.mpr ((gapsFrom_sorted F elided 0 segments).imp fun hab a ha b hb => ?_)
    rw [hof _ _ ha, hof _ _ hb]
    exact hab
  · intro k
    rw [List.mem_mergeSort, Dict.keys_collect, List.mem_eraseDups, hfst]
  · intro p hp
    obtain ⟨g, hg, hp⟩ := List.mem_filterMap.mp hp
    rw [hof _ _ hp]
    have hindex := gapsFrom_index F elided hg
    omega

def Segment.isReread (seg : Segment d) : Bool :=
  (disk seg.name).toOption.any fun bytes =>
    (iterSegmentLines bytes seg.hi).length = (iterSegmentLines seg.bytes seg.hi).length

theorem complete_refill (segments : List (Segment d)) (stream : S) :
    (refill d F disk stream (readPass F elided segments).gaps).complete = true ↔
      ∀ seg ∈ segments, elided seg = true → seg.isReread disk = true := by
  have hall : ∀ n, ((gapsFrom F elided n segments).all fun g =>
      (recover d F disk g).toOption.any fun r => r.1 = g.lines) = true ↔
        ∀ seg ∈ segments, elided seg = true → seg.isReread disk = true := by
    induction segments with
    | nil => exact fun n => by simp [gapsFrom]
    | cons seg rest ih =>
      intro n
      rw [gapsFrom, List.forall_mem_cons]
      by_cases he : elided seg = true
      · have hseg : ((recover d F disk ⟨seg.name, n, seg.hi, (iterSegmentLines seg.bytes seg.hi).length⟩).toOption.any
            fun r => r.1 = (iterSegmentLines seg.bytes seg.hi).length) = seg.isReread disk := by
          rw [recover, Segment.isReread]
          cases disk seg.name with
          | error exc => rfl
          | ok bytes => rfl
        rw [if_pos he, List.all_cons, Bool.and_eq_true, ih, hseg]
        exact and_congr_left fun _ => ⟨fun h _ => h, fun h => h he⟩
      · rw [if_neg he, ih]
        exact ⟨fun h => ⟨fun h' => absurd h' he, h⟩, And.right⟩
  have hgaps := (foldl_pass F elided segments ⟨F.empty, []⟩).2
  rw [List.nil_append] at hgaps
  rw [refill, readPass, hgaps]
  exact hall _

end

section
variable {R : Type} {d : Decoder R} {disk : Disk}

theorem split_of_mem_numbered {q : Nat × Bytes} : ∀ {offset : Nat} {ls : List Bytes}, (∀ l ∈ ls, IsLine newline l) →
    q ∈ numbered offset ls →
      ∃ a b, ls = a ++ (q.2 ++ [newline]) :: b ∧ q.1 = offset + a.flatten.length ∧ newline ∉ q.2
  | offset, l :: ls, h, hq => by
    obtain ⟨body, hclean, rfl⟩ := h l List.mem_cons_self
    rw [numbered, List.dropLast_concat] at hq
    rcases List.mem_cons.mp hq with rfl | hq
    · exact ⟨[], ls, rfl, rfl, hclean⟩
    · obtain ⟨a, b, rfl, hoffset, hq⟩ := split_of_mem_numbered (fun l' hl' => h l' (List.mem_cons_of_mem _ hl')) hq
      refine ⟨(body ++ [newline]) :: a, b, rfl, ?_, hq⟩
      simp only [hoffset, List.flatten_cons, List.length_append, add_assoc]

/-- A line of the pass is framed in every file that begins with the pass's lines. -/
theorem framed_of_mem {fh bytes : Bytes} {hi : Nat} (h : (lines newline (bytes.take hi)).flatten <+: fh)
    {q : Nat × Bytes} (hq : q ∈ iterSegmentLines bytes hi) : Framed fh q.1 q.2.length q.2 := by
  obtain ⟨t, _, hlines, -⟩ := TornLines.eq_flatten_append newline (bytes.take hi)
  obtain ⟨a, b, hls, hoffset, hclean⟩ := split_of_mem_numbered hlines hq
  obtain ⟨rest, rfl⟩ := h
  refine ⟨a.flatten, b.flatten ++ rest, ?_, by rw [hoffset, zero_add], rfl, hclean,
    TornLines.flatten_eq_nil_or_snoc fun l hl => hlines l (hls ▸ List.mem_append_left _ hl)⟩
  rw [hls]
  simp

def Segment.Kept (disk : Disk) (seg : Segment d) : Prop :=
  ∃ bytes, disk seg.name = .ok bytes ∧ bytes.take seg.hi = seg.bytes.take seg.hi

theorem Segment.Kept.reread {seg : Segment d} (h : seg.Kept disk) {S α : Type} (F : Form S α) :
    seg.reread F disk = seg.found F := by
  obtain ⟨bytes, hdisk, hbytes⟩ := h
  simp only [Segment.reread, hdisk, Segment.found, iterSegmentLines, hbytes]

theorem view_whole {S α : Type} (F : Form S α) (segments : List (Segment d)) :
    F.view (readPass F (fun _ => false) segments).stream = segments.flatMap fun seg => seg.found F := by
  rw [readPass, (foldl_pass F _ segments ⟨F.empty, []⟩).1, F.view_empty, List.nil_append]
  rfl

theorem view_refill_kept {S α : Type} (F : Form S α) {elided : Segment d → Bool} {segments : List (Segment d)}
    (h : ∀ seg ∈ segments, elided seg = true → seg.Kept disk) :
    F.view (refill d F disk (readPass F elided segments).stream (readPass F elided segments).gaps).stream =
      F.view (readPass F (fun _ => false) segments).stream := by
  rw [view_refill, view_whole]
  refine List.flatMap_congr fun seg hseg => ?_
  split
  next he => exact (h seg hseg he).reread F
  next => rfl

def Segment.Lasting (disk : Disk) (seg : Segment d) : Prop :=
  ∃ fh, disk seg.name = .ok fh ∧ (lines newline (seg.bytes.take seg.hi)).flatten <+: fh

theorem Segment.Kept.lasting {seg : Segment d} (h : seg.Kept disk) : seg.Lasting disk := by
  obtain ⟨fh, hdisk, htake⟩ := h
  obtain ⟨t, -, -, heq⟩ := TornLines.eq_flatten_append newline (seg.bytes.take seg.hi)
  exact ⟨fh, hdisk, (heq ▸ List.prefix_append _ t).trans (htake ▸ List.take_prefix _ _)⟩

theorem reads_whole {segments : List (Segment d)} (h : ∀ seg ∈ segments, seg.Lasting disk) :
    List.Forall₂ (Reads disk) (segments.flatMap fun seg => seg.found sourceForm)
      (segments.flatMap fun seg => seg.found rawForm) := by
  induction segments with
  | nil => exact .nil
  | cons seg rest ih =>
    obtain ⟨hseg, hrest⟩ := List.forall_mem_cons.mp h
    obtain ⟨fh, hdisk, hlines⟩ := hseg
    rw [List.flatMap_cons, List.flatMap_cons]
    refine List.rel_append ?_ (ih hrest)
    rw [Segment.found, Segment.found, found, found, List.forall₂_map_left_iff, List.forall₂_map_right_iff,
      List.forall₂_same]
    exact fun q hq => ⟨fh, hdisk, framed_of_mem hlines (List.mem_of_mem_filter hq)⟩

theorem lines_whole {segments : List (Segment d)} (h : ∀ seg ∈ segments, seg.Lasting disk) {s : QuotaLineSource}
    (hs : s.view = (readPass sourceForm (fun _ => false) segments).stream.view) (start stop : Int) :
    s.lines disk start stop = .ok (slice start stop (readPass rawForm (fun _ => false) segments).stream) := by
  have hview : s.view = segments.flatMap fun seg => seg.found sourceForm := hs.trans (view_whole sourceForm segments)
  have hwhole : (readPass rawForm (fun _ => false) segments).stream = segments.flatMap fun seg => seg.found rawForm :=
    view_whole rawForm segments
  rw [QuotaLineSource.lines_eq_ok, hview, hwhole]
  exact List.forall₂_drop _ (List.forall₂_take _ (reads_whole h))

end

section
variable {R : Type} (d : Decoder R) (disk : Disk) (segments : List (Segment d)) (elided : Segment d → Bool)

abbrev rawPass : Pass (List Bytes) := readPass rawForm elided segments

abbrev sourcePass : Pass QuotaLineSource := readPass sourceForm elided segments

/-- **A refilled stream is the stream of a pass that skipped nothing**, in both forms, and is called complete exactly
when every skipped segment was read again with its lines; and the coordinates read back, slice by slice, what the raw
form holds. -/
theorem refill_restores :
    ((refill d rawForm disk (rawPass d segments elided).stream (rawPass d segments elided).gaps).complete = true ↔
      ∀ seg ∈ segments, elided seg = true → seg.isReread disk = true) ∧
    ((refill d sourceForm disk (sourcePass d segments elided).stream (sourcePass d segments elided).gaps).complete = true ↔
      ∀ seg ∈ segments, elided seg = true → seg.isReread disk = true) ∧
    ((∀ seg ∈ segments, elided seg = true → seg.Kept disk) →
      (refill d rawForm disk (rawPass d segments elided).stream (rawPass d segments elided).gaps).stream =
        (rawPass d segments fun _ => false).stream ∧
      (refill d sourceForm disk (sourcePass d segments elided).stream (sourcePass d segments elided).gaps).stream.view =
        (sourcePass d segments fun _ => false).stream.view) ∧
    ((∀ seg ∈ segments, seg.Kept disk) → ∀ s : QuotaLineSource,
      s.view = (sourcePass d segments fun _ => false).stream.view → ∀ start stop : Int, start ≤ stop →
        s.lines disk start stop = .ok (slice start stop (rawPass d segments fun _ => false).stream)) :=
  ⟨complete_refill rawForm elided disk segments _, complete_refill sourceForm elided disk segments _,
    fun h => ⟨view_refill_kept rawForm h, view_refill_kept sourceForm h⟩,
    fun h _ hs start stop _ => lines_whole (fun seg hseg => (h seg hseg).lasting) hs start stop⟩

end

section
variable {R : Type} {d : Decoder R}

/-- **A slice returns exactly when each of its observations is still a framed line**, and then these lines. -/
theorem lines_framed (disk : Disk) (s : QuotaLineSource) (start stop : Int) :
    (∀ out, s.lines disk start stop = .ok out ↔ List.Forall₂ (Reads disk) (slice start stop s.view) out) ∧
    ((∃ p ∈ slice start stop s.view, ∀ raw, ¬ Reads disk p raw) → ∃ e, s.lines disk start stop = .error e) := by
  refine ⟨fun out => QuotaLineSource.lines_eq_ok, fun hgone => ?_⟩
  obtain ⟨p, hp, hgone⟩ := hgone
  cases hlines : s.lines disk start stop with
  | error e => exact ⟨e, rfl⟩
  | ok out =>
    have hmem : ∀ {ps : List Place} {out : List Bytes}, List.Forall₂ (Reads disk) ps out → p ∈ ps →
        ∃ raw, Reads disk p raw := by
      intro ps out hreads
      induction hreads with
      | nil => exact fun hp => absurd hp List.not_mem_nil
      | cons hraw _ ih => exact fun hp => (List.mem_cons.mp hp).elim (fun heq => ⟨_, heq ▸ hraw⟩) ih
    obtain ⟨raw, hraw⟩ := hmem (QuotaLineSource.lines_eq_ok.mp hlines) hp
    exact absurd hraw (hgone raw)

theorem leading_run {s : History d} {ls : List Bytes} (hls : ∀ l ∈ ls, IsLine newline l) (events : List (Event d))
    (h : ls.flatten <+: s.bytes) : ls.flatten <+: (s.run events).bytes := by
  induction events generalizing s with
  | nil => exact h
  | cons e events ih => exact ih (leading_stay hls h e)

/-- **A recorded coordinate outlasts what happens to its segment**: after any appends, crashes and repairs of every
segment the coordinates of a pass read back its lines. -/
theorem lines_outlast {segments : List (Segment d)} {disk : Disk}
    (h : ∀ seg ∈ segments, ∃ dev events,
      disk seg.name = .ok ((History.start seg.bytes dev seg.boundary).run events).bytes)
    {s : QuotaLineSource} (hs : s.view = (sourcePass d segments fun _ => false).stream.view) (start stop : Int) :
    s.lines disk start stop = .ok (slice start stop (rawPass d segments fun _ => false).stream) := by
  refine lines_whole (fun seg hseg => ?_) hs start stop
  obtain ⟨dev, events, hdisk⟩ := h seg hseg
  obtain ⟨t, -, hlines, heq⟩ := TornLines.eq_flatten_append newline (seg.bytes.take seg.hi)
  refine ⟨_, hdisk, leading_run hlines events ?_⟩
  have hpre : (lines newline (seg.bytes.take seg.hi)).flatten <+: seg.bytes.take seg.hi := ⟨t, heq.symm⟩
  exact hpre.trans (List.take_prefix _ _)

/-- The pass pinned complete lines only, as it must to skip the segment. -/
def Segment.Whole (seg : Segment d) : Prop :=
  seg.hi ≤ seg.bytes.length ∧ (lines newline (seg.bytes.take seg.hi)).flatten = seg.bytes.take seg.hi

/-- **A refill may come late**: whatever has happened to the skipped segments since, it restores the stream. -/
theorem refill_outlasts {S α : Type} (F : Form S α) {elided : Segment d → Bool} {segments : List (Segment d)} {disk : Disk}
    (hwhole : ∀ seg ∈ segments, elided seg = true → seg.Whole)
    (h : ∀ seg ∈ segments, elided seg = true → ∃ dev events,
      disk seg.name = .ok ((History.start seg.bytes dev seg.boundary).run events).bytes) :
    F.view (refill d F disk (readPass F elided segments).stream (readPass F elided segments).gaps).stream =
      F.view (readPass F (fun _ => false) segments).stream := by
  refine view_refill_kept F fun seg hseg he => ?_
  obtain ⟨hle, hlines⟩ := hwhole seg hseg he
  obtain ⟨dev, events, hdisk⟩ := h seg hseg he
  have hstart : (lines newline (seg.bytes.take seg.hi)).flatten <+: (History.start seg.bytes dev seg.boundary).bytes := by
    rw [hlines]
    exact List.take_prefix _ _
  have hpre := leading_run (fun _ hl => TornLines.isLine_of_mem hl) events hstart
  rw [hlines, List.prefix_iff_eq_take, List.length_take_of_le hle] at hpre
  exact ⟨_, hdisk, hpre.symm⟩

end

def markedDecoder : Decoder Unit where
  decodeLine raw := if raw.head? = some 111 then some () else none
  t _ := "obs"
  at_ _ := none
  account _ := none
  provider _ := some "codex"
  payloadKind _ := some SegmentSummaries.QUOTA_OBS_KIND
  payloadAccountKey _ := none
  providerOfLegacy _ := none

def skippedPair : List (Segment markedDecoder) :=
  [⟨"a", [111, 49, 10, 120, 10], 5, none⟩, ⟨"b", [111, 50, 10], 3, none⟩, ⟨"c", [111, 51, 10], 3, none⟩]

def pairDisk : Disk := fun name =>
  match skippedPair.find? (·.name = name) with
  | some seg => .ok seg.bytes
  | none => .error "FileNotFoundError"

theorem refill_restores_pair :
    (refill markedDecoder rawForm pairDisk (rawPass markedDecoder skippedPair (·.name ≠ "c")).stream
      (rawPass markedDecoder skippedPair (·.name ≠ "c")).gaps).stream = [[111, 49], [111, 50], [111, 51]] := by
  refine ((refill_restores markedDecoder pairDisk skippedPair (·.name ≠ "c")).2.2.1 fun seg hseg _ => ?_).1
  rcases List.mem_cons.mp hseg with rfl | hseg
  · exact ⟨_, rfl, rfl⟩
  rcases List.mem_cons.mp hseg with rfl | hseg
  · exact ⟨_, rfl, rfl⟩
  obtain rfl := List.mem_singleton.mp hseg
  exact ⟨_, rfl, rfl⟩

/-- Each segment takes a line, then half of another that a crash cut, and is repaired. -/
def tornEvents : List (Event markedDecoder) :=
  [.append [⟨[112], by decide⟩] none, .append [⟨[113], by decide⟩] (some 1), .repair]

def grownDisk : Disk := fun name =>
  match skippedPair.find? (·.name = name) with
  | some seg => .ok ((History.start seg.bytes 0 seg.boundary).run tornEvents).bytes
  | none => .error "FileNotFoundError"

theorem grownDisk_pair : ∀ seg ∈ skippedPair, seg.Whole ∧
    grownDisk seg.name = .ok ((History.start seg.bytes 0 seg.boundary).run tornEvents).bytes := by
  intro seg hseg
  rcases List.mem_cons.mp hseg with rfl | hseg
  · exact ⟨⟨by decide, by decide⟩, rfl⟩
  rcases List.mem_cons.mp hseg with rfl | hseg
  · exact ⟨⟨by decide, by decide⟩, rfl⟩
  obtain rfl := List.mem_singleton.mp hseg
  exact ⟨⟨by decide, by decide⟩, rfl⟩

theorem lines_outlast_pair : (sourcePass markedDecoder skippedPair fun _ => false).stream.lines grownDisk 1 3 =
    .ok [[111, 50], [111, 51]] :=
  (lines_outlast (fun seg hseg => ⟨0, tornEvents, (grownDisk_pair seg hseg).2⟩) rfl 1 3).trans rfl

theorem refill_outlasts_pair :
    (refill markedDecoder rawForm grownDisk (rawPass markedDecoder skippedPair (·.name ≠ "c")).stream
      (rawPass markedDecoder skippedPair (·.name ≠ "c")).gaps).stream = [[111, 49], [111, 50], [111, 51]] :=
  refill_outlasts rawForm (fun seg hseg _ => (grownDisk_pair seg hseg).1) fun seg hseg _ =>
    ⟨0, tornEvents, (grownDisk_pair seg hseg).2⟩

end Cctally.QuotaRefill
