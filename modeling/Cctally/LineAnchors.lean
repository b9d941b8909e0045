import Cctally.DecodedStreamPlain

/-!
# Line anchors

An anchor chains the digests of the complete lines of a rollout. The fold reads a
range anew; the recorder watches the calls of an ingest and folds each complete
line that starts where the last folded one ended.
-/

namespace Cctally

abbrev Digest := Bytes → Bytes

def anchorStep (sha256 : Digest) (prev line : Bytes) : Bytes := sha256 (prev ++ sha256 line)

def endsWithNewline (line : Bytes) : Bool := line.getLast? = some newline

section
variable (sha256 : Digest)

/-- The loop of `anchor_over` on a plain file over `b`, with the file's position. -/
def anchorLoop (b : Bytes) (endOffset pos : Nat) (anchor : Bytes) (offset : Nat) : Bytes × Nat :=
  if offset < endOffset then
    match plainCall b pos (.readline none) with
    | (pos, .bytes line) =>
      if _h : line = [] ∨ endsWithNewline line = false ∨ endOffset < offset + line.length then (anchor, offset)
      else anchorLoop b endOffset pos (anchorStep sha256 anchor line) (offset + line.length)
    | _ => (anchor, offset)
  else (anchor, offset)
termination_by endOffset - offset
decreasing_by
  have hpos : 0 < line.length := List.length_pos_iff.2 fun hnil => _h (.inl hnil)
  omega

def anchorOver (b : Bytes) (startOffset : Nat) (startAnchor : Bytes) (endOffset : Nat) : Bytes × Nat :=
  anchorLoop sha256 b endOffset (plainCall b 0 (.seek startOffset .set)).1 startAnchor startOffset

structure BinaryStream (σ : Type) where
  tell : σ → Nat
  call : σ → FileOp → σ × Reply

structure LineAnchorRecorder (σ : Type) where
  stream : σ
  anchor : Option Bytes
  foldedTo : Nat

namespace LineAnchorRecorder

variable {σ : Type} (st : BinaryStream σ)

def fold (r : LineAnchorRecorder σ) (start : Nat) (line : Bytes) : LineAnchorRecorder σ :=
  match r.anchor with
  | none => r
  | some anchor =>
    if endsWithNewline line = true ∧ start = r.foldedTo then
      { r with anchor := some (anchorStep sha256 anchor line), foldedTo := start + line.length }
    else r

def readline (r : LineAnchorRecorder σ) (limit : Option Int) : LineAnchorRecorder σ × Reply :=
  match st.call r.stream (.readline limit) with
  | (stream, .bytes line) => (fold sha256 { r with stream := stream } (st.tell r.stream) line, .bytes line)
  | (stream, reply) => ({ r with stream := stream }, reply)

def call (r : LineAnchorRecorder σ) : FileOp → LineAnchorRecorder σ × Reply
  | .readline limit => r.readline sha256 st limit
  | op =>
    let (stream, reply) := st.call r.stream op
    ({ r with stream := stream }, reply)

def run (r : LineAnchorRecorder σ) : List FileOp → LineAnchorRecorder σ × List Reply
  | [] => (r, [])
  | op :: ops =>
    let (r, reply) := r.call sha256 st op
    let (r, replies) := run r ops
    (r, reply :: replies)

def result (r : LineAnchorRecorder σ) (finalOffset : Nat) : Option Bytes :=
  if finalOffset = r.foldedTo then r.anchor else none

end LineAnchorRecorder

variable {sha256} {b : Bytes} {o e m : Nat} {a : Bytes}

theorem ne_nil_of_endsWithNewline {line : Bytes} (h : endsWithNewline line = true) : line ≠ [] := by
  intro hnil
  rw [hnil] at h
  cases h

theorem endsWithNewline_tail {x : UInt8} {line : Bytes} (hx : x ≠ newline) (h : endsWithNewline (x :: line) = true) :
    endsWithNewline line = true := by
  cases line with
  | nil => exact absurd (Option.some.inj (of_decide_eq_true h)) hx
  | cons y line => exact h

theorem endsWithNewline_cons {x : UInt8} {line : Bytes} (h : endsWithNewline line = true) :
    endsWithNewline (x :: line) = true := by
  cases line with
  | nil => cases h
  | cons y line => exact h

theorem take_firstLine : ∀ {l : Bytes} {n : Nat}, endsWithNewline ((firstLine l).take n) = true →
    (firstLine l).take n = firstLine l
  | [], n, _ => List.take_nil
  | x :: l, 0, h => by cases h
  | x :: l, n + 1, h => by
    by_cases hx : x = newline
    · rw [firstLine, if_pos hx]
      exact List.take_of_length_le (by simp)
    · rw [firstLine, if_neg hx, List.take_succ_cons] at h ⊢
      rw [take_firstLine (endsWithNewline_tail hx h)]

theorem takeUpTo_firstLine {limit : Option Nat} {l : Bytes}
    (h : endsWithNewline (takeUpTo limit (firstLine l)) = true) : takeUpTo limit (firstLine l) = firstLine l := by
  cases limit with
  | none => rfl
  | some n => exact take_firstLine h

theorem firstLine_within : ∀ {l : Bytes} {k : Nat}, l[k]? = some newline →
    endsWithNewline (firstLine l) = true ∧ (firstLine l).length ≤ k + 1
  | [], k, h => by cases h
  | x :: l, k, h => by
    by_cases hx : x = newline
    · rw [firstLine, if_pos hx, hx]
      exact ⟨rfl, Nat.le_add_left 1 k⟩
    · rw [firstLine, if_neg hx]
      cases k with
      | zero => exact absurd (Option.some.inj h) hx
      | succ k =>
        obtain ⟨hend, hlen⟩ := firstLine_within (l := l) (k := k) h
        exact ⟨endsWithNewline_cons hend, Nat.succ_le_succ hlen⟩

theorem anchorOver_eq (b : Bytes) (o : Nat) (a : Bytes) (e : Nat) :
    anchorOver sha256 b o a e = anchorLoop sha256 b e o a o := by
  rw [anchorOver, plainCall, plainCall.goTo, if_neg (by omega)]
  rfl

theorem anchorLoop_stop (h : e ≤ o) : anchorLoop sha256 b e o a o = (a, o) := by
  rw [anchorLoop, if_neg (by omega)]

theorem anchorLoop_line (h : endsWithNewline (firstLine (b.drop o)) = true)
    (he : o + (firstLine (b.drop o)).length ≤ e) :
    anchorLoop sha256 b e o a o = anchorLoop sha256 b e (o + (firstLine (b.drop o)).length)
      (anchorStep sha256 a (firstLine (b.drop o))) (o + (firstLine (b.drop o)).length) := by
  have hne := ne_nil_of_endsWithNewline h
  have hpos := List.length_pos_iff.2 hne
  have hread : plainCall b o (.readline none) =
      (o + (firstLine (b.drop o)).length, .bytes (firstLine (b.drop o))) := rfl
  rw [anchorLoop, if_pos (by omega)]
  simp only [hread]
  rw [dif_neg]
  intro hor
  rcases hor with hnil | hend | hlong
  · exact hne hnil
  · rw [h] at hend
    cases hend
  · omega

/-- `m` stands behind a newline, or where the range starts. -/
def LineBoundary (b : Bytes) (start m : Nat) : Prop := m = start ∨ start < m ∧ b[m - 1]? = some newline

theorem anchorLoop_boundary (b : Bytes) (m : Nat) : ∀ (n : Nat) {o : Nat} (a : Bytes), m - o ≤ n → LineBoundary b o m →
    ∃ a', anchorLoop sha256 b m o a o = (a', m) ∧
      ∀ e, m ≤ e → anchorLoop sha256 b e o a o = anchorLoop sha256 b e m a' m
  | n, o, a, hn, .inl heq => by
    subst heq
    exact ⟨a, anchorLoop_stop (Nat.le_refl _), fun e _ => rfl⟩
  | 0, o, a, hn, .inr ⟨hlt, _⟩ => by omega
  | n + 1, o, a, hn, .inr ⟨hlt, hnl⟩ => by
    have hat : (b.drop o)[m - 1 - o]? = some newline := by
      rw [List.getElem?_drop, ← hnl]
      congr 1
      omega
    obtain ⟨hend, hlen⟩ := firstLine_within hat
    have hpos := List.length_pos_iff.2 (ne_nil_of_endsWithNewline hend)
    have hbound : LineBoundary b (o + (firstLine (b.drop o)).length) m := by
      by_cases heq : m = o + (firstLine (b.drop o)).length
      · exact .inl heq
      · exact .inr ⟨by omega, hnl⟩
    obtain ⟨a', hreach, hthrough⟩ := anchorLoop_boundary b m n
      (anchorStep sha256 a (firstLine (b.drop o))) (by omega) hbound
    refine ⟨a', ?_, fun e he => ?_⟩
    · rw [anchorLoop_line hend (by omega), hreach]
    · rw [anchorLoop_line hend (by omega), hthrough e he]

theorem anchorOver_compose {start stop : Nat} (anchor : Bytes) (hm : LineBoundary b start m) (he : m ≤ stop) :
    (anchorOver sha256 b start anchor m).2 = m ∧
    anchorOver sha256 b m (anchorOver sha256 b start anchor m).1 stop = anchorOver sha256 b start anchor stop := by
  simp only [anchorOver_eq]
  obtain ⟨a', hreach, hthrough⟩ := @anchorLoop_boundary sha256 b m (m - start) start anchor (Nat.le_refl _) hm
  rw [hreach]
  exact ⟨rfl, (hthrough stop he).symm⟩

/-! ## The frontier -/

/-- A stream gives a call up, or moves and answers as a plain file over `b` does. -/
def BinaryStream.Over {σ : Type} (st : BinaryStream σ) (b : Bytes) (valid : σ → Prop) : Prop :=
  ∀ s op, valid s → valid (st.call s op).1 ∧
    ((st.call s op).2.answered = false ∧ st.tell (st.call s op).1 = st.tell s ∨
      plainCall b (st.tell s) op = (st.tell (st.call s op).1, (st.call s op).2))

def BinaryStream.plain (b : Bytes) : BinaryStream Nat :=
  { tell := id
    call := plainCall b }

theorem BinaryStream.plain_over (b : Bytes) : (BinaryStream.plain b).Over b fun _ => True :=
  fun _ _ _ => ⟨trivial, .inr rfl⟩

def BinaryStream.decoded (c : Container) : BinaryStream DecodedZstdStream :=
  { tell := DecodedZstdStream.pos
    call := fun s => s.call c }

theorem BinaryStream.decoded_over (c : Container) : (BinaryStream.decoded c).Over c.bytes (DecodedZstdStream.Ready c) := by
  intro s op hs
  have hcall : s.call c op = ((s.call c op).1, (s.call c op).2) := rfl
  obtain ⟨hready, hans⟩ := hs.call hcall
  refine ⟨hready, ?_⟩
  rcases hans with ⟨hgiven, hpos, -⟩ | ⟨-, hplain⟩
  · exact .inl ⟨hgiven, hpos⟩
  · exact .inr hplain

namespace LineAnchorRecorder

variable {σ : Type} {st : BinaryStream σ} {valid : σ → Prop} {r : LineAnchorRecorder σ} {start : Nat} {startAnchor : Option Bytes}

/-- The recorder's anchor is that of the lines up to its frontier: every fold from
the start that goes further goes on from there. -/
structure Folded (sha256 : Digest) (b : Bytes) (start : Nat) (startAnchor : Option Bytes) (r : LineAnchorRecorder σ) :
    Prop where
  unanchored : startAnchor = none → r.anchor = none
  anchored : ∀ a, startAnchor = some a → ∃ a', r.anchor = some a' ∧
    ∀ e, r.foldedTo ≤ e → anchorLoop sha256 b e start a start = anchorLoop sha256 b e r.foldedTo a' r.foldedTo

theorem Folded.fold (h : Folded sha256 b start startAnchor r) (limit : Option Nat) (pos : Nat) :
    Folded sha256 b start startAnchor (r.fold sha256 pos (takeUpTo limit (firstLine (b.drop pos)))) := by
  cases hanchor : startAnchor with
  | none =>
    have hnone := h.unanchored hanchor
    have hsame : r.fold sha256 pos (takeUpTo limit (firstLine (b.drop pos))) = r := by
      rw [LineAnchorRecorder.fold, hnone]
    rw [hsame, ← hanchor]
    exact h
  | some a =>
    obtain ⟨a', ha', hgoes⟩ := h.anchored a hanchor
    rw [LineAnchorRecorder.fold, ha']
    by_cases hline : endsWithNewline (takeUpTo limit (firstLine (b.drop pos))) = true ∧ pos = r.foldedTo
    · obtain ⟨hend, rfl⟩ := hline
      have hwhole := takeUpTo_firstLine hend
      rw [hwhole] at hend ⊢
      simp only [hend, true_and, if_true]
      refine ⟨nofun, fun a₁ ha₁ => ⟨_, rfl, fun e he => ?_⟩⟩
      cases ha₁
      have hle : r.foldedTo ≤ e := Nat.le_trans (Nat.le_add_right _ _) he
      rw [hgoes e hle, anchorLoop_line hend he]
    · simp only [if_neg hline]
      rw [← hanchor]
      exact h

theorem Folded.withStream (h : Folded sha256 b start startAnchor r) (s : σ) :
    Folded sha256 b start startAnchor { r with stream := s } :=
  ⟨h.unanchored, h.anchored⟩

theorem stream_fold (r : LineAnchorRecorder σ) (pos : Nat) (line : Bytes) :
    (r.fold sha256 pos line).stream = r.stream := by
  unfold LineAnchorRecorder.fold
  cases r.anchor with
  | none => rfl
  | some a =>
    by_cases hline : endsWithNewline line = true ∧ pos = r.foldedTo
    · simp only [if_pos hline]
    · simp only [if_neg hline]

theorem Folded.call (hst : st.Over b valid) (hr : valid r.stream) (h : Folded sha256 b start startAnchor r) (op : FileOp) :
    valid (r.call sha256 st op).1.stream ∧ Folded sha256 b start startAnchor (r.call sha256 st op).1 := by
  obtain ⟨hvalid, hans⟩ := hst r.stream op hr
  cases op with
  | readline limit =>
    rw [LineAnchorRecorder.call, LineAnchorRecorder.readline]
    generalize st.call r.stream (.readline limit) = out at hvalid hans ⊢
    obtain ⟨stream, reply⟩ := out
    cases reply with
    | bytes line =>
      rcases hans with ⟨hgiven, -⟩ | hplain
      · cases hgiven
      · -- the line is the one the plain file reads
        have hline : takeUpTo (bound limit) (firstLine (b.drop (st.tell r.stream))) = line :=
          Reply.bytes.inj (congrArg Prod.snd hplain)
        have hfold := (h.withStream stream).fold (bound limit) (st.tell r.stream)
        rw [hline] at hfold
        refine ⟨?_, hfold⟩
        rw [stream_fold]
        exact hvalid
    | _ => exact ⟨hvalid, h.withStream stream⟩
  | _ => exact ⟨hvalid, h.withStream _⟩

theorem Folded.run (hst : st.Over b valid) : ∀ (ops : List FileOp) {r : LineAnchorRecorder σ}, valid r.stream →
    Folded sha256 b start startAnchor r → Folded sha256 b start startAnchor (r.run sha256 st ops).1
  | [], _, _, h => h
  | op :: ops, r, hr, h => by
    obtain ⟨hr, h⟩ := h.call hst hr op
    exact Folded.run hst ops hr h

theorem folded_start (s : σ) (start : Nat) (startAnchor : Option Bytes) :
    Folded sha256 b start startAnchor { stream := s, anchor := startAnchor, foldedTo := start } :=
  ⟨id, fun a ha => ⟨a, ha, fun _ _ => rfl⟩⟩

theorem Folded.result (h : Folded sha256 b start startAnchor r) (finalOffset : Nat) :
    r.result finalOffset = none ∨ ∃ a, startAnchor = some a ∧
      r.result finalOffset = some (anchorOver sha256 b start a finalOffset).1 ∧
      (anchorOver sha256 b start a finalOffset).2 = finalOffset := by
  by_cases hfinal : finalOffset = r.foldedTo
  · cases hanchor : startAnchor with
    | none =>
      left
      rw [LineAnchorRecorder.result, if_pos hfinal]
      exact h.unanchored hanchor
    | some a =>
      right
      obtain ⟨a', ha', hgoes⟩ := h.anchored a hanchor
      have hreach : anchorOver sha256 b start a finalOffset = (a', finalOffset) := by
        rw [anchorOver_eq, hfinal, hgoes _ (Nat.le_refl _), anchorLoop_stop (Nat.le_refl _)]
      refine ⟨a, rfl, ?_, congrArg Prod.snd hreach⟩
      rw [hreach, LineAnchorRecorder.result, if_pos hfinal, ha']
  · left
    rw [LineAnchorRecorder.result, if_neg hfinal]

theorem result_sound (hst : st.Over b valid) (s : σ) (hs : valid s) (start : Nat) (startAnchor : Option Bytes)
    (ops : List FileOp) (finalOffset : Nat) :
    let r := (run sha256 st { stream := s, anchor := startAnchor, foldedTo := start } ops).1
    r.result finalOffset = none ∨ ∃ a, startAnchor = some a ∧
      r.result finalOffset = some (anchorOver sha256 b start a finalOffset).1 ∧
      (anchorOver sha256 b start a finalOffset).2 = finalOffset :=
  ((folded_start s start startAnchor).run hst ops hs).result finalOffset

theorem result_sound_decoded (sha256 : Digest) (c : Container) (start : Nat) (startAnchor : Option Bytes)
    (ops : List FileOp) (finalOffset : Nat) :
    let r := (run sha256 (.decoded c) { stream := .init, anchor := startAnchor, foldedTo := start } ops).1
    r.result finalOffset = none ∨ ∃ a, startAnchor = some a ∧
      r.result finalOffset = some (anchorOver sha256 c.bytes start a finalOffset).1 ∧
      (anchorOver sha256 c.bytes start a finalOffset).2 = finalOffset :=
  result_sound (BinaryStream.decoded_over c) DecodedZstdStream.init (ready_init c) start startAnchor ops finalOffset

end LineAnchorRecorder

/-- **Recorded anchors are sound, and folds compose at line boundaries**, whatever the calls were. -/
theorem lineAnchors_sound (sha256 : Digest) (b : Bytes) (start : Nat) :
    (∀ (pos : Nat) (startAnchor : Option Bytes) (ops : List FileOp) (finalOffset : Nat),
      let r := (LineAnchorRecorder.run sha256 (.plain b) { stream := pos, anchor := startAnchor, foldedTo := start } ops).1
      r.result finalOffset = none ∨ ∃ a, startAnchor = some a ∧
        r.result finalOffset = some (anchorOver sha256 b start a finalOffset).1 ∧
        (anchorOver sha256 b start a finalOffset).2 = finalOffset) ∧
    ∀ (anchor : Bytes) (m stop : Nat), LineBoundary b start m → m ≤ stop →
      (anchorOver sha256 b start anchor m).2 = m ∧
      anchorOver sha256 b m (anchorOver sha256 b start anchor m).1 stop = anchorOver sha256 b start anchor stop := by
  refine ⟨fun pos startAnchor ops finalOffset => ?_, fun anchor m stop hm hstop => anchorOver_compose anchor hm hstop⟩
  exact LineAnchorRecorder.result_sound (BinaryStream.plain_over b) pos trivial start startAnchor ops finalOffset

theorem lineAnchors_sound_cut :
    anchorOver id [97, 10, 98, 10, 99] 2 (anchorOver id [97, 10, 98, 10, 99] 0 [0] 2).1 5 =
      anchorOver id [97, 10, 98, 10, 99] 0 [0] 5 :=
  ((lineAnchors_sound id [97, 10, 98, 10, 99] 0).2 [0] 2 5 (.inr ⟨by decide, rfl⟩) (by decide)).2

end

end Cctally
