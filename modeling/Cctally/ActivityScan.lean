import Cctally.Activity
import Cctally.Json
import Cctally.TornLines
import Mathlib

/-!
# The backward scan of a transcript

A file is read in chunks from its end. The first piece of a chunk is carried into the
chunk before it and the last piece is dropped, as what stands behind the last newline.
Behind the first chunk that is so, and before it the last piece is the carried one: no
line that a chunk begins in is looked at.
-/

namespace Cctally.Activity

open Json (field)

abbrev Bytes := List UInt8

def MAX_FILE_BYTES : Nat := 1048576

def newline : UInt8 := 10

inductive Kind
  | qualifying (instant : Instant)
  | skip
  | malformed
  deriving DecidableEq

/-- `json.loads`, `none` for a `ValueError`, and `canonical_instant`. -/
structure Env where
  loads : Bytes → Option Json
  canonicalInstant : Json → Option Instant

def isSpace (b : UInt8) : Bool := b = 32 || (9 ≤ b && b ≤ 13)

def strip (line : Bytes) : Bytes := (line.dropWhile isSpace).rdropWhile isSpace

def blank (line : Bytes) : Bool := line.all isSpace

def ascii (text : String) : Bytes := text.toList.map fun c => UInt8.ofNat c.toNat

def isText (v : Json) (text : String) : Bool :=
  match v with
  | .str s => s = text
  | _ => false

def isSynthetic : Json → Bool
  | .obj message => isText (field message "model") "<synthetic>"
  | _ => false

section
variable (env : Env)

def classifyLine (line : Bytes) : Kind :=
  let text := strip line
  if text = [] then .skip
  else if ¬ ascii "assistant" <:+: text ∧ ¬ ascii "\\u" <:+: text then .skip
  else
    match env.loads text with
    | some (.obj record) =>
      if isText (field record "type") "assistant" = false then .skip
      else
        match field record "requestId" with
        | .null => .skip
        | .str requestId =>
          if requestId = "" then .skip
          else if isSynthetic (field record "message") then .skip
          else
            match env.canonicalInstant (field record "timestamp") with
            | some instant => .qualifying instant
            | none => .malformed
        | _ => .malformed
    | _ => .malformed

def lastKind (lines : List Bytes) : Option Kind :=
  lines.reverse.findSome? fun line => some (classifyLine env line) |>.filter (· ≠ .skip)

def statusOf : Option Kind → ScanStatus
  | some (.qualifying instant) => .known instant
  | some .malformed => .unknown .malformed
  | _ => .none

inductive Ended
  | carried (data : Bytes)
  | result (scan : Scan)
  | lines (linesEnd : Nat) (data : Bytes)

def endOf (start pos : Nat) (data : Bytes) : Ended :=
  match TornLines.rfind newline data with
  | none =>
    if start < pos then .carried data
    else if blank data then .result ⟨.none, some start⟩ else .result ⟨.unknown .malformed, some start⟩
  | some at_ =>
    if blank (data.drop (at_ + 1)) then .lines (pos + at_ + 1) (data.take (at_ + 1))
    else .result ⟨.unknown .malformed, some (pos + at_ + 1)⟩

def piecesOf (data : Bytes) : List Bytes := (data.splitOn newline).dropLast

variable (chunkBytes : ℕ+) (pread : Nat → Nat → Option Bytes) (start : Nat)

/-- The loop of `_scan_region`; `pread` is given the size and the offset, and returns nothing for an `OSError`. -/
def scanFrom (pos budget : Nat) (carry : Bytes) (linesEnd : Option Nat) : Scan :=
  if start < pos then
    if budget = 0 then ⟨.unknown .scanExhausted, linesEnd⟩
    else
      let size := min (chunkBytes : Nat) (min (pos - start) budget)
      match pread size (pos - size) with
      | none => .refused .unreadable
      | some chunk =>
        if chunk.length ≠ size then .refused .unreadable
        else
          match (match linesEnd with
            | none => endOf start (pos - size) (chunk ++ carry)
            | some linesEnd => .lines linesEnd (chunk ++ carry)) with
          | .carried data => scanFrom (pos - size) (budget - size) data none
          | .result scan => scan
          | .lines linesEnd data =>
            let pieces := if start < pos - size then (piecesOf data).tail else piecesOf data
            match lastKind env pieces with
            | some kind => ⟨statusOf (some kind), some linesEnd⟩
            | none =>
              scanFrom (pos - size) (budget - size) (if start < pos - size then (piecesOf data).headD [] else [])
                (some linesEnd)
  else ⟨.none, some (linesEnd.getD start)⟩
termination_by pos
decreasing_by
  all_goals
    have := chunkBytes.pos
    omega

def scanRegion (end_ : Nat) : Scan :=
  if end_ ≤ start then ⟨.none, some start⟩ else scanFrom env chunkBytes pread start end_ MAX_FILE_BYTES [] none

end

/-! ## The lines of a region -/

def region (file : Bytes) (start end_ : Nat) : Bytes := (file.take end_).drop start

def locate : Nat → List Bytes → List (Nat × Bytes)
  | _, [] => []
  | offset, line :: lines => (offset, line) :: locate (offset + line.length) lines

def regionScan (env : Env) (file : Bytes) (start end_ : Nat) (lines : List Bytes) : Scan :=
  let whole := (TornLines.lines newline (region file start end_)).flatten.length
  if blank ((region file start end_).drop whole) then ⟨statusOf (lastKind env lines), some (start + whole)⟩
  else ⟨.unknown .malformed, some (start + whole)⟩

def completeLines (file : Bytes) (start end_ : Nat) : List Bytes :=
  (TornLines.lines newline (region file start end_)).map List.dropLast

def lastRecord (env : Env) (file : Bytes) (start end_ : Nat) : Scan :=
  regionScan env file start end_ (completeLines file start end_)

def Boundary (chunkBytes : ℕ+) (start end_ offset : Nat) : Prop :=
  start < offset ∧ offset < end_ ∧ (chunkBytes : Nat) ∣ end_ - offset

instance (chunkBytes : ℕ+) (start end_ offset : Nat) : Decidable (Boundary chunkBytes start end_ offset) :=
  inferInstanceAs (Decidable (_ ∧ _ ∧ _))

def Untouched (chunkBytes : ℕ+) (start end_ : Nat) (line : Nat × Bytes) : Prop :=
  ∀ i < line.2.length, ¬ Boundary chunkBytes start end_ (line.1 + i)

instance (chunkBytes : ℕ+) (start end_ : Nat) (line : Nat × Bytes) : Decidable (Untouched chunkBytes start end_ line) :=
  inferInstanceAs (Decidable (∀ i < _, _))

def untouched (chunkBytes : ℕ+) (file : Bytes) (start end_ stop : Nat) : List Bytes :=
  ((locate start (TornLines.lines newline (region file start stop))).filter
    (Untouched chunkBytes start end_ ·)).map fun line => line.2.dropLast

section
variable {env : Env} {chunkBytes : ℕ+} {file : Bytes} {start end_ pos : Nat}

theorem lastKind_append (a b : List Bytes) : lastKind env (a ++ b) = (lastKind env b).or (lastKind env a) := by
  rw [lastKind, List.reverse_append, List.findSome?_append]
  rfl

theorem locate_append (ls rest : List Bytes) : ∀ offset : Nat,
    locate offset (ls ++ rest) = locate offset ls ++ locate (offset + ls.flatten.length) rest := by
  induction ls with
  | nil => exact fun _ => rfl
  | cons l ls ih =>
    intro offset
    rw [List.cons_append, locate, ih, locate, List.flatten_cons, List.length_append, Nat.add_assoc, List.cons_append]

theorem map_locate (ls : List Bytes) : ∀ offset : Nat,
    (locate offset ls).map (fun line => line.2.dropLast) = ls.map List.dropLast := by
  induction ls with
  | nil => exact fun _ => rfl
  | cons l ls ih => exact fun offset => congrArg (l.dropLast :: ·) (ih _)

theorem mem_locate {line : Nat × Bytes} : ∀ {ls : List Bytes} {offset : Nat}, line ∈ locate offset ls →
    offset ≤ line.1 ∧ line.1 + line.2.length ≤ offset + ls.flatten.length := by
  intro ls
  induction ls with
  | nil =>
    intro offset h
    cases h
  | cons l ls ih =>
    intro offset h
    rw [List.flatten_cons, List.length_append]
    obtain rfl | h := List.mem_cons.1 h
    · dsimp only
      omega
    · have := ih h
      omega

theorem piecesOf_eq (data : Bytes) : piecesOf data = (TornLines.lines newline data).map List.dropLast := by
  obtain ⟨t, -, hsplit⟩ := @TornLines.splitOn_eq _ _ newline data
  rw [piecesOf, hsplit, List.dropLast_concat]

theorem filter_between {ls : List Bytes} {offset : Nat}
    (h : ∀ p, offset ≤ p → p < offset + ls.flatten.length → ¬ Boundary chunkBytes start end_ p) :
    (locate offset ls).filter (Untouched chunkBytes start end_ ·) = locate offset ls := by
  rw [List.filter_eq_self]
  intro line hline
  rw [decide_eq_true_eq]
  obtain ⟨hle, hstop⟩ := mem_locate hline
  exact fun i hi => h _ (by omega) (by omega)

theorem region_eq (file : Bytes) (start end_ : Nat) : region file start end_ = (file.drop start).take (end_ - start) :=
  List.drop_take

theorem length_region (hlen : end_ ≤ file.length) : (region file start end_).length = end_ - start := by
  rw [region_eq, List.length_take, List.length_drop]
  omega

theorem region_append {p : Nat} (hstart : start ≤ p) (hend : p ≤ end_) :
    region file start end_ = region file start p ++ region file p end_ := by
  have hsum : end_ - start = (p - start) + (end_ - p) := by omega
  have hdrop : start + (p - start) = p := by omega
  rw [region_eq, region_eq, region_eq, hsum, List.take_add, List.drop_drop, hdrop]

theorem take_region {n : Nat} (h : n ≤ end_ - start) : (region file start end_).take n = region file start (start + n) := by
  rw [region_eq, region_eq, List.take_take, Nat.add_sub_cancel_left, Nat.min_eq_left h]

theorem untouched_append {p stop : Nat} (hstart : start ≤ p) (hstop : p ≤ stop) (hlen : stop ≤ file.length)
    (hbegin : start < p → Boundary chunkBytes start end_ p)
    (hnone : ∀ q, p < q → q < stop → ¬ Boundary chunkBytes start end_ q) :
    untouched chunkBytes file start end_ stop =
      untouched chunkBytes file start end_ p ++
        if start < p then (piecesOf (region file p stop)).tail else piecesOf (region file p stop) := by
  obtain ⟨t, ht, -, hu⟩ := TornLines.eq_flatten_append newline (region file start p)
  have hulen := congrArg List.length hu
  rw [length_region (hstop.trans hlen), List.length_append] at hulen
  have hvlen : (TornLines.lines newline (region file p stop)).flatten.length ≤ stop - p := by
    obtain ⟨t', -, -, hv⟩ := TornLines.eq_flatten_append newline (region file p stop)
    have := congrArg List.length hv
    rw [length_region hlen, List.length_append] at this
    omega
  rw [untouched, region_append hstart hstop, TornLines.lines_append hu ht, locate_append, List.filter_append, List.map_append,
    piecesOf_eq]
  refine congrArg (_ ++ ·) ?_
  cases hv : TornLines.lines newline (region file p stop) with
  | nil => simp [TornLines.glue, locate]
  | cons l ls =>
    rw [hv, List.flatten_cons, List.length_append] at hvlen
    obtain ⟨body, -, hl⟩ := TornLines.isLine_of_mem (x := l) (by rw [hv]; exact List.mem_cons_self)
    have hpos : 0 < l.length := by
      rw [hl, List.length_append, List.length_singleton]
      omega
    rw [TornLines.glue]
    by_cases hp : start < p
    · have htouched : ¬ Untouched chunkBytes start end_
          (start + (TornLines.lines newline (region file start p)).flatten.length, t ++ l) := by
        intro h
        refine h t.length ?_ ?_
        · rw [List.length_append]
          omega
        · dsimp only
          rw [show start + (TornLines.lines newline (region file start p)).flatten.length + t.length = p by omega]
          exact hbegin hp
      rw [locate, List.filter_cons_of_neg (by simpa using htouched), if_pos hp, List.map_cons, List.tail_cons,
        filter_between, map_locate]
      intro q hq hqlt
      rw [List.length_append] at hq hqlt
      exact hnone q (by omega) (by omega)
    · have htnil : t = [] := List.length_eq_zero_iff.1 (by omega)
      rw [if_neg hp, htnil, List.nil_append, filter_between, map_locate]
      intro q hq hqlt hboundary
      rw [List.flatten_cons, List.length_append] at hqlt
      have hstart' := hboundary.1
      exact hnone q (by omega) (by omega) hboundary

theorem region_lines {stop : Nat} (hstop : stop = start + (TornLines.lines newline (region file start end_)).flatten.length)
    (hle : stop ≤ end_) (hlen : end_ ≤ file.length) :
    region file start stop = (TornLines.lines newline (region file start end_)).flatten := by
  obtain ⟨t, -, -, heq⟩ := TornLines.eq_flatten_append newline (region file start end_)
  have hsplit := (region_append (by omega) hle).symm.trans heq
  refine (List.append_inj hsplit ?_).1
  rw [length_region (hle.trans hlen)]
  omega

/-! ## The scan of a region -/

def preadOf (file : Bytes) (size offset : Nat) : Option Bytes := some ((file.drop offset).take size)

structure Reached (chunkBytes : ℕ+) (start end_ pos : Nat) : Prop where
  le : start ≤ pos
  le_end : pos ≤ end_
  dvd : start < pos → (chunkBytes : Nat) ∣ end_ - pos

def chunkStart (chunkBytes : ℕ+) (start pos : Nat) : Nat := pos - min (chunkBytes : Nat) (pos - start)

theorem Reached.step (h : Reached chunkBytes start end_ pos) (hlt : start < pos) :
    Reached chunkBytes start end_ (chunkStart chunkBytes start pos) ∧ chunkStart chunkBytes start pos < pos ∧
      (start < chunkStart chunkBytes start pos → Boundary chunkBytes start end_ (chunkStart chunkBytes start pos)) ∧
      ∀ q, chunkStart chunkBytes start pos < q → q < pos → ¬ Boundary chunkBytes start end_ q := by
  have hpos := chunkBytes.pos
  obtain ⟨k, hk⟩ := h.dvd hlt
  have hle := h.le_end
  unfold chunkStart
  have hdvd : start < pos - min (chunkBytes : Nat) (pos - start) →
      (chunkBytes : Nat) ∣ end_ - (pos - min (chunkBytes : Nat) (pos - start)) := fun hs => by
    refine ⟨k + 1, ?_⟩
    rw [Nat.mul_succ, ← hk]
    omega
  refine ⟨⟨by omega, by omega, hdvd⟩, by omega, fun hs => ⟨hs, by omega, hdvd hs⟩, fun q hq hqlt hb => ?_⟩
  -- two multiples of the chunk's size are at least that far apart
  obtain ⟨j, hj⟩ := hb.2.2
  have hend := hb.2.1
  have hkj : chunkBytes * k < chunkBytes * j := by omega
  have hjk : (chunkBytes : Nat) * j < chunkBytes * (k + 1) := by
    rw [Nat.mul_succ]
    omega
  have h₁ := Nat.lt_of_mul_lt_mul_left hkj
  have h₂ := Nat.lt_of_mul_lt_mul_left hjk
  omega

theorem clean_piecesOf (data : Bytes) : newline ∉ (piecesOf data).headD [] := by
  rw [piecesOf_eq]
  cases hl : TornLines.lines newline data with
  | nil => exact List.not_mem_nil
  | cons l ls =>
    obtain ⟨body, hbody, rfl⟩ := TornLines.isLine_of_mem (x := l) (by rw [hl]; exact List.mem_cons_self)
    rw [List.map_cons, List.headD_cons, List.dropLast_concat]
    exact hbody

theorem piecesOf_append {carry : Bytes} (h : newline ∉ carry) (data : Bytes) : piecesOf (data ++ carry) = piecesOf data := by
  rw [piecesOf_eq, piecesOf_eq, TornLines.lines_append_torn h]

theorem scanFrom_turn {budget : Nat} (hlt : start < pos) (hlen : pos ≤ file.length) (hb : pos - start ≤ budget)
    (carry : Bytes) (linesEnd : Option Nat) :
    let p := chunkStart chunkBytes start pos
    scanFrom env chunkBytes (preadOf file) start pos budget carry linesEnd =
      match (match linesEnd with
        | none => endOf start p (region file p pos ++ carry)
        | some linesEnd => .lines linesEnd (region file p pos ++ carry)) with
      | .carried data => scanFrom env chunkBytes (preadOf file) start p (budget - (pos - p)) data none
      | .result scan => scan
      | .lines linesEnd data =>
        let pieces := if start < p then (piecesOf data).tail else piecesOf data
        match lastKind env pieces with
        | some kind => ⟨statusOf (some kind), some linesEnd⟩
        | none =>
          scanFrom env chunkBytes (preadOf file) start p (budget - (pos - p))
            (if start < p then (piecesOf data).headD [] else []) (some linesEnd) := by
  intro p
  have hsize : min (chunkBytes : Nat) (min (pos - start) budget) = pos - p := by
    simp only [p, chunkStart]
    omega
  have hp : pos - (pos - p) = p := by
    simp only [p, chunkStart]
    omega
  have hread : (file.drop p).take (pos - p) = region file p pos := (region_eq file p pos).symm
  rw [scanFrom, if_pos hlt, if_neg (by omega)]
  simp only [hsize, hp, preadOf, hread, length_region hlen, ne_eq, not_true_eq_false, if_false]

theorem scanFrom_lines (hlen : end_ ≤ file.length) (linesEnd : Nat) :
    ∀ (pos budget : Nat) (carry : Bytes), Reached chunkBytes start end_ pos → pos - start ≤ budget → newline ∉ carry →
      scanFrom env chunkBytes (preadOf file) start pos budget carry (some linesEnd) =
        ⟨statusOf (lastKind env (untouched chunkBytes file start end_ pos)), some linesEnd⟩ := by
  intro pos
  induction pos using Nat.strong_induction_on with
  | _ pos ih =>
    intro budget carry h hb hcarry
    by_cases hlt : start < pos
    · obtain ⟨hnext, hbefore, hbegin, hnone⟩ := h.step hlt
      have hpos := h.le_end.trans hlen
      rw [scanFrom_turn hlt hpos hb, untouched_append hnext.le hbefore.le hpos hbegin hnone, lastKind_append]
      dsimp only
      rw [piecesOf_append hcarry]
      cases hkind : lastKind env (if start < chunkStart chunkBytes start pos then
          (piecesOf (region file (chunkStart chunkBytes start pos) pos)).tail
        else piecesOf (region file (chunkStart chunkBytes start pos) pos)) with
      | some kind => rfl
      | none =>
        refine ih _ hbefore _ _ hnext (by omega) ?_
        split
        · exact clean_piecesOf _
        · exact List.not_mem_nil
    · obtain rfl : pos = start := by
        have := h.le
        omega
      rw [scanFrom, if_neg hlt, untouched, region, List.drop_eq_nil_of_le (List.length_take_le _ _)]
      rfl

theorem untouched_stop {stop : Nat} (hlen : end_ ≤ file.length) (hle : stop ≤ end_)
    (hstop : stop = start + (TornLines.lines newline (region file start end_)).flatten.length) :
    untouched chunkBytes file start end_ stop = untouched chunkBytes file start end_ end_ := by
  rw [untouched, untouched, region_lines hstop hle hlen, TornLines.lines_flatten_lines]

theorem scanFrom_tail (hlen : end_ ≤ file.length) :
    ∀ (pos budget : Nat), Reached chunkBytes start end_ pos → start < pos → pos - start ≤ budget →
      newline ∉ region file pos end_ →
      scanFrom env chunkBytes (preadOf file) start pos budget (region file pos end_) none =
        regionScan env file start end_ (untouched chunkBytes file start end_ end_) := by
  intro pos
  induction pos using Nat.strong_induction_on with
  | _ pos ih =>
    intro budget h hlt hb hclean
    obtain ⟨hnext, hbefore, hbegin, hnone⟩ := h.step hlt
    have hpos := h.le_end.trans hlen
    rw [scanFrom_turn hlt hpos hb]
    generalize chunkStart chunkBytes start pos = p at *
    have hsplit : region file start end_ = region file start p ++ region file p end_ := region_append hnext.le hnext.le_end
    dsimp only
    rw [← region_append hbefore.le h.le_end, endOf, TornLines.rfind_eq]
    by_cases hnil : TornLines.lines newline (region file p end_) = []
    · rw [if_pos hnil]
      by_cases hp : start < p
      · rw [if_pos hp]
        refine ih p hbefore _ hnext hp (by omega) ?_
        obtain ⟨t, ht, -, heq⟩ := TornLines.eq_flatten_append newline (region file p end_)
        rw [hnil] at heq
        rwa [heq]
      · obtain rfl : p = start := by
          have := hnext.le
          omega
        rw [if_neg hp, regionScan, untouched, hnil]
        dsimp only
        rw [List.flatten_nil, List.length_nil, List.drop_zero]
        by_cases hblank : blank (region file p end_) = true
        · rw [if_pos hblank, if_pos hblank]
          rfl
        · rw [if_neg hblank, if_neg hblank]
          rfl
    · have hn := TornLines.flatten_lines_append (u := region file start p) hnil
      rw [← hsplit] at hn
      have hpn := congrArg List.length hn
      rw [List.length_append, length_region (hnext.le_end.trans hlen)] at hpn
      have hle : (TornLines.lines newline (region file p end_)).flatten.length ≤ pos - p := by
        rw [region_append hbefore.le h.le_end, TornLines.lines_append_torn hclean]
        obtain ⟨t, -, -, heq⟩ := TornLines.eq_flatten_append newline (region file p pos)
        have := congrArg List.length heq
        rw [length_region hpos, List.length_append] at this
        omega
      have hone := TornLines.length_flatten_pos hnil
      have hstart := hnext.le
      have hend := h.le_end
      have hstop : start + (TornLines.lines newline (region file start end_)).flatten.length =
          p + (TornLines.lines newline (region file p end_)).flatten.length := by omega
      have hdrop : (region file start end_).drop (TornLines.lines newline (region file start end_)).flatten.length =
          (region file p end_).drop (TornLines.lines newline (region file p end_)).flatten.length := by
        have hu : (region file start p).length = p - start := length_region (hnext.le_end.trans hlen)
        rw [hpn, ← hu, hsplit, List.drop_length_add_append]
      rw [if_neg hnil]
      dsimp only
      rw [Nat.add_assoc, Nat.sub_add_cancel hone, regionScan, hstop, hdrop]
      by_cases hblank : blank ((region file p end_).drop (TornLines.lines newline (region file p end_)).flatten.length) = true
      · rw [if_pos hblank, if_pos hblank]
        dsimp only
        rw [take_region (by omega), ← untouched_stop hlen (by omega) hstop.symm,
          untouched_append hstart (by omega) (by omega) hbegin fun q hq hqlt => hnone q hq (by omega), lastKind_append]
        generalize p + (TornLines.lines newline (region file p end_)).flatten.length = stop
        cases hkind : lastKind env (if start < p then (piecesOf (region file p stop)).tail
          else piecesOf (region file p stop)) with
        | some kind => rfl
        | none =>
          refine scanFrom_lines hlen _ _ _ _ hnext (by omega) ?_
          split
          · exact clean_piecesOf _
          · exact List.not_mem_nil
      · rw [if_neg hblank, if_neg hblank]

/-- **What the scan returns**: the result of the lines that no chunk begins in. -/
theorem scanRegion_eq (hlen : end_ ≤ file.length) (hmax : end_ - start ≤ MAX_FILE_BYTES) :
    scanRegion env chunkBytes (preadOf file) start end_ =
      regionScan env file start end_ (untouched chunkBytes file start end_ end_) := by
  have hnil : region file end_ end_ = [] := List.drop_eq_nil_of_le (List.length_take_le _ _)
  unfold scanRegion
  by_cases h : end_ ≤ start
  · have hregion : region file start end_ = [] :=
      List.drop_eq_nil_of_le ((List.length_take_le _ _).trans h)
    rw [if_pos h, regionScan, untouched, hregion]
    rfl
  · have hreached : Reached chunkBytes start end_ end_ := ⟨by omega, le_rfl, fun _ => by rw [Nat.sub_self]; exact dvd_zero _⟩
    have hscan := @scanFrom_tail env _ _ _ _ hlen end_ MAX_FILE_BYTES hreached (by omega) hmax (hnil ▸ List.not_mem_nil)
    rw [hnil] at hscan
    rw [if_neg h, hscan]

theorem statusOf_lastKind {a b : List Bytes} :
    statusOf (lastKind env a) = statusOf (lastKind env b) ↔ lastKind env a = lastKind env b := by
  have hskip : ∀ l, lastKind env l ≠ some .skip := by
    intro l h
    obtain ⟨line, -, hline⟩ := List.exists_of_findSome?_eq_some h
    rw [Option.filter_eq_some_iff] at hline
    simp at hline
  refine ⟨fun h => ?_, congrArg statusOf⟩
  have ha := hskip a
  have hb := hskip b
  generalize lastKind env a = x at *
  generalize lastKind env b = y at *
  rcases x with _ | ⟨_⟩ | _ | _ <;> rcases y with _ | ⟨_⟩ | _ | _ <;> simp_all [statusOf]

end

def workedText : String := "\x7b\"requestId\":\"r\",\"timestamp\":\"2026-01-01T00:00:00Z\",\"type\":\"assistant\"\x7d"

def workedInstant : Instant := ⟨1767225600, [], by decide⟩

def workedEnv : Env where
  loads text :=
    if text = ascii workedText then
      some (.obj [("requestId", .str "r"), ("timestamp", .str "2026-01-01T00:00:00Z"), ("type", .str "assistant")])
    else none
  canonicalInstant v := if isText v "2026-01-01T00:00:00Z" then some workedInstant else none

def workedFile : Bytes := ascii workedText ++ [newline]

end Cctally.Activity
