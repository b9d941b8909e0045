import Cctally.DecodedStream

/-!
# The decoded stream is a plain file

Every state of a stream holds in its buffer the slice of the decoded bytes that
its window names. Each call keeps that, and answers as a plain binary file over
the decoded bytes does or is interrupted and leaves the position where it was.
-/

namespace Cctally

section
variable {b : Bytes} {i j k : Nat}

def Bytes.slice (b : Bytes) (i j : Nat) : Bytes := (b.take j).drop i

theorem length_slice (hj : j ≤ b.length) : (Bytes.slice b i j).length = j - i := by
  rw [Bytes.slice, List.length_drop, List.length_take, Nat.min_eq_left hj]

theorem slice_self : Bytes.slice b i i = [] := by
  rw [Bytes.slice, List.drop_eq_nil_iff]
  exact List.length_take_le i b

theorem slice_append_take (hij : i ≤ j) (hj : j ≤ b.length) :
    Bytes.slice b i j ++ (b.drop j).take k = Bytes.slice b i (j + ((b.drop j).take k).length) := by
  have hlen : ((b.drop j).take k).length = min k (b.length - j) := by simp
  have hmin : (b.drop j).take k = (b.drop j).take (min k (b.length - j)) := by
    rw [← List.length_drop]
    exact List.take_eq_take_min
  rw [hlen, hmin, Bytes.slice, Bytes.slice, List.take_add, List.drop_append_of_le_length]
  rw [List.length_take, Nat.min_eq_left hj]
  exact hij

theorem drop_slice : (Bytes.slice b i j).drop k = Bytes.slice b (i + k) j := by
  rw [Bytes.slice, Bytes.slice, List.drop_drop]

theorem slice_eq_take : Bytes.slice b i j = (b.drop i).take (j - i) := by rw [Bytes.slice, List.drop_take]

end

def firstLine : Bytes → Bytes
  | [] => []
  | x :: l => if x = newline then [x] else x :: firstLine l

theorem firstLine_append {p : Bytes} (hp : newline ∉ p) (q : Bytes) : firstLine (p ++ q) = p ++ firstLine q := by
  induction p with
  | nil => rfl
  | cons x p ih =>
    have hx : x ≠ newline := fun h => hp (by simp [h])
    rw [List.cons_append, firstLine, if_neg hx, ih fun h => hp (List.mem_cons_of_mem x h), List.cons_append]

theorem firstLine_of_not_mem {p : Bytes} (hp : newline ∉ p) : firstLine p = p := by
  have h := firstLine_append hp []
  simpa [firstLine] using h

theorem findNewline_eq_none {buf : Bytes} {start : Nat} (h : findNewline buf start = none) :
    newline ∉ buf.drop start := by
  intro hmem
  rw [findNewline, Option.map_eq_none_iff, List.findIdx?_eq_none_iff] at h
  simpa using h newline hmem

theorem findNewline_eq_some {buf : Bytes} {start idx : Nat} (h : findNewline buf start = some idx) :
    ∃ p q, buf.drop start = p ++ newline :: q ∧ newline ∉ p ∧ idx = start + p.length := by
  rw [findNewline, Option.map_eq_some_iff] at h
  obtain ⟨n, hn, rfl⟩ := h
  obtain ⟨hlt, hnl, hbefore⟩ := List.findIdx?_eq_some_iff_getElem.1 hn
  have hx : (buf.drop start)[n] = newline := by simpa using hnl
  refine ⟨(buf.drop start).take n, (buf.drop start).drop (n + 1), ?_, ?_, ?_⟩
  · rw [← hx, List.getElem_cons_drop, List.take_append_drop]
  · intro hmem
    obtain ⟨i, hi, hget⟩ := List.getElem_of_mem hmem
    rw [List.length_take] at hi
    rw [List.getElem_take] at hget
    have := hbefore i (by omega)
    simp [hget] at this
  · rw [List.length_take]
    omega

def takeUpTo : Option Nat → Bytes → Bytes
  | none, l => l
  | some n, l => l.take n

/-- A plain binary file over `b` at `pos`: the position after a call, and its reply. -/
def plainCall (b : Bytes) (pos : Nat) : FileOp → Nat × Reply
  | .read size => advance (takeUpTo (bound (some size)) (b.drop pos))
  | .readline limit => advance (takeUpTo (bound limit) (firstLine (b.drop pos)))
  | .seek offset .set => goTo offset
  | .seek offset .cur => goTo (pos + offset)
  | .seek offset .fromEnd => goTo (b.length + offset)
  | .tell => (pos, .position pos)
where
  advance (data : Bytes) : Nat × Reply := (pos + data.length, .bytes data)
  goTo (offset : Int) : Nat × Reply :=
    if offset < 0 then (pos, .negativeSeek) else (offset.toNat, .position offset.toNat)

def plainRun (b : Bytes) (pos : Nat) : List FileOp → Nat × List Reply
  | [] => (pos, [])
  | op :: ops =>
    let (pos, reply) := plainCall b pos op
    let (pos, replies) := plainRun b pos ops
    (pos, reply :: replies)

/-! ## The window -/

def Container.Stops (c : Container) : Prop := ∃ n, c.stops n = true

def Reply.answered : Reply → Bool
  | .interrupted => false
  | .unsupported => false
  | _ => true

namespace DecodedZstdStream

structure Window (c : Container) (s : DecodedZstdStream) : Prop where
  buf_eq : s.buf = Bytes.slice c.bytes s.bufStart s.rawPos
  start_le : s.bufStart ≤ s.rawPos
  raw_le : s.rawPos ≤ c.bytes.length
  at_end : s.eof = true → s.rawPos = c.bytes.length

/-- The states between two calls: the position has not left the window to the left. -/
structure Ready (c : Container) (s : DecodedZstdStream) : Prop extends Window c s where
  start_le_pos : s.bufStart ≤ s.pos

structure Grows (s s' : DecodedZstdStream) : Prop where
  pos_eq : s'.pos = s.pos
  start_eq : s'.bufStart = s.bufStart
  raw_le : s.rawPos ≤ s'.rawPos

theorem Grows.refl (s : DecodedZstdStream) : Grows s s := ⟨rfl, rfl, Nat.le_refl _⟩

theorem Grows.trans {s t u : DecodedZstdStream} (h : Grows s t) (h' : Grows t u) : Grows s u :=
  ⟨h'.pos_eq.trans h.pos_eq, h'.start_eq.trans h.start_eq, Nat.le_trans h.raw_le h'.raw_le⟩

section
variable {c : Container} {s s' : DecodedZstdStream}

theorem Window.length_buf (w : Window c s) : s.buf.length = s.rawPos - s.bufStart := by
  rw [w.buf_eq, length_slice w.raw_le]

theorem Window.openRaw (c : Container) (s : DecodedZstdStream) : Window c s.openRaw :=
  ⟨rfl, Nat.le_refl _, Nat.zero_le _, nofun⟩

theorem Window.dropAll (w : Window c s) : Window c s.dropAll :=
  ⟨slice_self.symm, Nat.le_refl _, w.raw_le, w.at_end⟩

theorem Window.withPos (w : Window c s) (pos : Nat) : Window c { s with pos := pos } :=
  ⟨w.buf_eq, w.start_le, w.raw_le, w.at_end⟩

theorem Window.dropBefore (w : Window c s) (keepFrom : Nat) : Window c (s.dropBefore keepFrom) := by
  unfold DecodedZstdStream.dropBefore
  simp only
  split
  · rename_i hlt
    refine ⟨?_, Nat.min_le_right _ _, w.raw_le, w.at_end⟩
    simp only
    rw [w.buf_eq, drop_slice, Nat.add_sub_cancel' (by omega)]
  · exact w

theorem dropBefore_pos (s : DecodedZstdStream) (keepFrom : Nat) : (s.dropBefore keepFrom).pos = s.pos := by
  simp only [dropBefore]
  split <;> rfl

theorem dropBefore_start_le {keepFrom : Nat} (h : s.bufStart ≤ keepFrom) :
    (s.dropBefore keepFrom).bufStart ≤ keepFrom := by
  simp only [dropBefore]
  split
  · exact Nat.min_le_left _ _
  · exact h

theorem nextChunk_eq_nil {size : Nat} (hsize : 0 < size) (h : s.nextChunk c size = []) :
    c.bytes.length ≤ s.rawPos := by
  have hd : 0 < DECODE_CHUNK := by decide
  rw [nextChunk, List.take_eq_nil_iff, List.drop_eq_nil_iff] at h
  omega

theorem Window.fill {size : Nat} {r : Option Nat} (w : Window c s) (hsize : 0 < size)
    (h : s.fill c size = (s', r)) :
    Window c s' ∧ Grows s s' ∧ (r = some 0 → s'.eof = true ∧ s'.buf = s.buf) := by
  obtain ⟨he, rfl, -⟩ | ⟨rfl, hr⟩ | ⟨hc, rfl, -⟩ | ⟨he, hc, hr, rfl⟩ := fill_cases c h
  · exact ⟨w, Grows.refl _, fun _ => ⟨he, rfl⟩⟩
  · refine ⟨⟨w.buf_eq, w.start_le, w.raw_le, w.at_end⟩, ⟨rfl, rfl, Nat.le_refl _⟩, ?_⟩
    intro h0
    rw [hr] at h0
    cases h0
  · have hend : s.rawPos = c.bytes.length := Nat.le_antisymm w.raw_le (nextChunk_eq_nil hsize hc)
    exact ⟨⟨w.buf_eq, w.start_le, w.raw_le, fun _ => hend⟩, ⟨rfl, rfl, Nat.le_refl _⟩, fun _ => ⟨rfl, rfl⟩⟩
  · have hlen := length_nextChunk_le c s size
    refine ⟨⟨?_, ?_, ?_, ?_⟩, ⟨rfl, rfl, Nat.le_add_right _ _⟩, ?_⟩
    · simp only [nextChunk]
      rw [w.buf_eq, slice_append_take w.start_le w.raw_le]
    · exact Nat.le_trans w.start_le (Nat.le_add_right _ _)
    · have := w.raw_le
      simp only
      omega
    · intro h'
      exact absurd h' (by simp [he])
    · intro h0
      rw [hr] at h0
      exact absurd (List.eq_nil_of_length_eq_zero (Option.some.inj h0)) hc

theorem fill_stops {size : Nat} (h : s.fill c size = (s', none)) : c.Stops := by
  unfold DecodedZstdStream.fill at h
  by_cases he : s.eof = true
  · rw [if_pos he] at h
    cases h
  · rw [if_neg he] at h
    by_cases hs : c.stops s.checks = true
    · exact ⟨s.checks, hs⟩
    · rw [if_neg hs] at h
      simp only at h
      split at h <;> cases h

theorem fill_raw_le {size : Nat} {r : Option Nat} (h : s.fill c size = (s', r)) : s'.rawPos ≤ s.rawPos + size := by
  obtain ⟨-, rfl, -⟩ | ⟨rfl, -⟩ | ⟨-, rfl, -⟩ | ⟨-, -, -, rfl⟩ := fill_cases c h
  · exact Nat.le_add_right _ _
  · exact Nat.le_add_right _ _
  · exact Nat.le_add_right _ _
  · simp only [nextChunk, List.length_take]
    omega

theorem Window.discard {offset : Nat} {ok : Bool} (w : Window c s) (hs : s.bufStart = s.rawPos)
    (hle : s.rawPos ≤ offset) (h : s.discard c offset = (s', ok)) :
    Window c s' ∧ s'.pos = s.pos ∧ s'.bufStart ≤ offset ∧ (ok = true → offset ≤ s'.rawPos ∨ s'.eof = true) ∧
      (ok = false → c.Stops) := by
  fun_induction DecodedZstdStream.discard c s offset with
  | case1 s hlt t hf =>
    cases h
    obtain ⟨wt, ht, -⟩ := w.fill (by have : 0 < DECODE_CHUNK := by decide
                                     omega) hf
    refine ⟨wt, ht.pos_eq, ?_, nofun, fun _ => fill_stops hf⟩
    rw [ht.start_eq, hs]
    exact hle
  | case2 s hlt t hf =>
    cases h
    obtain ⟨wt, ht, heof⟩ := w.fill (by have : 0 < DECODE_CHUNK := by decide
                                        omega) hf
    refine ⟨wt, ht.pos_eq, ?_, fun _ => .inr (heof rfl).1, nofun⟩
    rw [ht.start_eq, hs]
    exact hle
  | case3 s hlt t got hf hgot ih =>
    obtain ⟨wt, ht, -⟩ := w.fill (by have : 0 < DECODE_CHUNK := by decide
                                     omega) hf
    have hto : t.rawPos ≤ offset := by
      have := fill_raw_le hf
      omega
    obtain ⟨w', hpos, hrest⟩ := ih wt.dropAll rfl hto h
    exact ⟨w', hpos.trans ht.pos_eq, hrest⟩
  | case4 s hge =>
    cases h
    refine ⟨w, rfl, ?_, fun _ => .inl (Nat.le_of_not_lt hge), nofun⟩
    rw [hs]
    exact hle

theorem Window.seekTo {offset : Nat} {ok : Bool} (w : Window c s) (h : s.seekTo c offset = (s', ok)) :
    Ready c s' ∧ (ok = true → s'.pos = offset ∧ (offset ≤ s'.rawPos ∨ s'.eof = true)) ∧
      (ok = false → s'.pos = s.pos ∧ c.Stops) := by
  unfold DecodedZstdStream.seekTo at h
  obtain ⟨t, ht⟩ : ∃ t, t = if offset < s.bufStart then s.openRaw else s := ⟨_, rfl⟩
  have htw : Window c t ∧ t.bufStart ≤ offset := by
    rw [ht]
    by_cases hlt : offset < s.bufStart
    · rw [if_pos hlt]
      exact ⟨Window.openRaw c s, Nat.zero_le _⟩
    · rw [if_neg hlt]
      exact ⟨w, Nat.le_of_not_lt hlt⟩
  obtain ⟨wt, hstart⟩ := htw
  simp only [← ht] at h
  by_cases hlt : t.rawPos < offset
  · rw [if_pos hlt] at h
    obtain ⟨d, ok', hd⟩ : ∃ d ok', t.dropAll.discard c offset = (d, ok') := ⟨_, _, rfl⟩
    obtain ⟨wd, -, hdle, hok, hstop⟩ := wt.dropAll.discard rfl (Nat.le_of_lt hlt) hd
    rw [hd] at h
    cases ok' with
    | true =>
      cases h
      exact ⟨⟨wd.withPos _, hdle⟩, fun _ => ⟨rfl, hok rfl⟩, nofun⟩
    | false =>
      cases h
      refine ⟨?_, nofun, fun _ => ⟨rfl, hstop rfl⟩⟩
      by_cases hback : s.pos < d.bufStart
      · simp only [if_pos hback]
        exact ⟨(Window.openRaw c d).withPos _, Nat.zero_le _⟩
      · simp only [if_neg hback]
        exact ⟨wd.withPos _, Nat.le_of_not_lt hback⟩
  · rw [if_neg hlt] at h
    cases h
    exact ⟨⟨wt.withPos _, hstart⟩, fun _ => ⟨rfl, .inl (Nat.le_of_not_lt hlt)⟩, nofun⟩

theorem Ready.prepareRead {ok : Bool} (w : Ready c s) (h : s.prepareRead c = (s', ok)) :
    Ready c s' ∧ s'.pos = s.pos ∧ (ok = true → s'.pos ≤ s'.rawPos ∨ s'.eof = true) ∧
      (ok = false → c.Stops) := by
  unfold DecodedZstdStream.prepareRead at h
  by_cases hcond : s.rawPos < s.pos ∧ s.eof = false
  · rw [if_pos hcond] at h
    obtain ⟨w', htrue, hfalse⟩ := w.toWindow.seekTo h
    cases ok with
    | true =>
      obtain ⟨hpos, hto⟩ := htrue rfl
      refine ⟨w', hpos, fun _ => ?_, nofun⟩
      rw [hpos]
      exact hto
    | false => exact ⟨w', (hfalse rfl).1, nofun, fun _ => (hfalse rfl).2⟩
  · rw [if_neg hcond] at h
    cases h
    refine ⟨w, rfl, fun _ => ?_, nofun⟩
    by_cases hlt : s.rawPos < s.pos
    · exact .inr (by simpa using fun h => hcond ⟨hlt, h⟩)
    · exact .inl (Nat.le_of_not_lt hlt)

/-! ## Reading -/

theorem Window.fillTo {start : Nat} {size : Option Nat} {ok : Bool} (w : Window c s)
    (h : s.fillTo c start size = (s', ok)) :
    Window c s' ∧ Grows s s' ∧
      (ok = true → s'.eof = true ∨ ∃ n, size = some n ∧ n ≤ s'.buf.length - start) ∧
      (ok = false → c.Stops) := by
  have hwant : ∀ {u : DecodedZstdStream} {n : Nat}, u.want start size = some n → 0 < n := by
    intro u n hn
    have hd : 0 < DECODE_CHUNK := by decide
    have hr : 0 < READ_CHUNK := by decide
    cases size with
    | none =>
      cases hn
      exact hd
    | some size =>
      simp only [want] at hn
      split at hn
      · cases hn
        omega
      · cases hn
  fun_induction DecodedZstdStream.fillTo c s start size with
  | case1 s hn =>
    cases h
    refine ⟨w, Grows.refl _, fun _ => .inr ?_, fun h => Bool.noConfusion h⟩
    cases size with
    | none => cases hn
    | some size =>
      simp only [want] at hn
      split at hn
      · cases hn
      · exact ⟨size, rfl, by omega⟩
  | case2 s n hn t hf =>
    cases h
    obtain ⟨wt, ht, -⟩ := w.fill (hwant hn) hf
    exact ⟨wt, ht, fun h => Bool.noConfusion h, fun _ => fill_stops hf⟩
  | case3 s n hn t hf =>
    cases h
    obtain ⟨wt, ht, heof⟩ := w.fill (hwant hn) hf
    exact ⟨wt, ht, fun _ => .inl (heof rfl).1, fun h => Bool.noConfusion h⟩
  | case4 s n hn t got hf hgot ih =>
    obtain ⟨wt, ht, -⟩ := w.fill (hwant hn) hf
    obtain ⟨w', hgrow, hrest⟩ := ih wt h
    exact ⟨w', ht.trans hgrow, hrest⟩

theorem Window.rest {start : Nat} (w : Window c s) (hstart : start ≤ s.buf.length) :
    c.bytes.drop (s.bufStart + start) = s.buf.drop start ++ c.bytes.drop s.rawPos := by
  have hlen := w.length_buf
  have hle := w.start_le
  have hto : s.bufStart + start + (s.rawPos - (s.bufStart + start)) = s.rawPos := by omega
  have hsplit := List.take_append_drop (s.rawPos - (s.bufStart + start)) (c.bytes.drop (s.bufStart + start))
  rw [List.drop_drop, hto] at hsplit
  rw [w.buf_eq, drop_slice, slice_eq_take, hsplit]

theorem Window.rest_of_eof {start : Nat} (w : Window c s) (hstart : start ≤ s.buf.length) (he : s.eof = true) :
    c.bytes.drop (s.bufStart + start) = s.buf.drop start := by
  rw [w.rest hstart, w.at_end he, List.drop_length, List.append_nil]

theorem Grows.take_buf (h : Grows s s') (w : Window c s) (w' : Window c s') :
    s'.buf.take s.buf.length = s.buf := by
  have hle := h.raw_le
  rw [w.length_buf, w'.buf_eq, w.buf_eq, h.start_eq, slice_eq_take, slice_eq_take, List.take_take,
    Nat.min_eq_left (by omega)]

theorem Grows.length_buf_le (h : Grows s s') (w : Window c s) (w' : Window c s') :
    s.buf.length ≤ s'.buf.length := by
  have hle := h.raw_le
  rw [w.length_buf, w'.length_buf, h.start_eq]
  omega

theorem takeUpTo_append {size : Option Nat} {p q : Bytes} (h : ∃ n, size = some n ∧ n ≤ p.length) :
    takeUpTo size (p ++ q) = takeUpTo size p := by
  obtain ⟨n, rfl, hn⟩ := h
  exact List.take_append_of_le_length hn

theorem Window.data {start : Nat} {size : Option Nat} (w : Window c s) (hstart : start ≤ s.buf.length)
    (h : s.eof = true ∨ ∃ n, size = some n ∧ n ≤ s.buf.length - start) :
    (s.buf.take (readStop s.buf.length start size)).drop start =
      takeUpTo size (c.bytes.drop (s.bufStart + start)) := by
  have hleft : (s.buf.take (readStop s.buf.length start size)).drop start = takeUpTo size (s.buf.drop start) := by
    cases size with
    | none => rw [readStop, takeUpTo, List.take_length]
    | some n => rw [readStop, takeUpTo, Nat.min_comm, ← List.take_eq_take_min, List.drop_take, Nat.add_sub_cancel_left]
  rw [hleft]
  obtain he | hn := h
  · rw [w.rest_of_eof hstart he]
  · rw [w.rest hstart, takeUpTo_append]
    obtain ⟨n, hsize, hle⟩ := hn
    exact ⟨n, hsize, by rw [List.length_drop]; exact hle⟩

theorem firstLine_found {p q : Bytes} (hp : newline ∉ p) : firstLine (p ++ newline :: q) = p ++ [newline] := by
  rw [firstLine_append hp, firstLine, if_pos rfl]

theorem take_found {l q : Bytes} {start idx : Nat} (limit : Option Nat) (h : idx = start + l.length) :
    (l ++ newline :: q).take (lineStop (idx + 1) start limit - start) = takeUpTo limit (l ++ [newline]) := by
  have hlen : (l ++ [newline]).length = idx + 1 - start := by
    rw [List.length_append, List.length_singleton]
    omega
  rw [List.append_cons]
  cases limit with
  | none => exact List.take_left' hlen
  | some limit =>
    simp only [takeUpTo, lineStop]
    by_cases hlim : limit < idx + 1 - start
    · rw [if_pos hlim, Nat.add_sub_cancel_left, List.take_append_of_le_length (by omega)]
    · rw [if_neg hlim, List.take_left' hlen, List.take_of_length_le (by omega)]

theorem drop_split {buf : Bytes} {start n : Nat} (hn : start ≤ n) (hlen : n ≤ buf.length) :
    buf.drop start = (buf.take n).drop start ++ buf.drop n := by
  rw [← List.drop_append_of_le_length (by rw [List.length_take]; omega), List.take_append_drop]

theorem Window.line_found {start searchFrom idx : Nat} (limit : Option Nat) (w : Window c s)
    (hstart : start ≤ searchFrom) (hfrom : searchFrom ≤ s.buf.length)
    (hno : newline ∉ (s.buf.take searchFrom).drop start) (hfind : findNewline s.buf searchFrom = some idx) :
    (s.buf.take (lineStop (idx + 1) start limit)).drop start =
      takeUpTo limit (firstLine (c.bytes.drop (s.bufStart + start))) := by
  obtain ⟨p, q, hpq, hp, rfl⟩ := findNewline_eq_some hfind
  obtain ⟨l, hl⟩ : ∃ l, l = (s.buf.take searchFrom).drop start ++ p := ⟨_, rfl⟩
  have hnl : newline ∉ l := by
    rw [hl, List.mem_append]
    exact fun h => h.elim hno hp
  have hlen : searchFrom + p.length = start + l.length := by
    rw [hl, List.length_append, List.length_drop, List.length_take, Nat.min_eq_left hfrom]
    omega
  have hbuf : s.buf.drop start = l ++ newline :: q := by rw [drop_split hstart hfrom, hpq, hl, List.append_assoc]
  have hline : firstLine (c.bytes.drop (s.bufStart + start)) = l ++ [newline] := by
    rw [w.rest (Nat.le_trans hstart hfrom), hbuf, List.append_assoc, List.cons_append, firstLine_found hnl]
  rw [hline, List.drop_take, hbuf, take_found limit hlen]

theorem Window.line_limited {start : Nat} {limit : Option Nat} (w : Window c s) (hstart : start ≤ s.buf.length)
    (hno : newline ∉ s.buf.drop start) (hlim : limit.any (· ≤ s.buf.length - start) = true) :
    (s.buf.take (start + limit.getD 0)).drop start =
      takeUpTo limit (firstLine (c.bytes.drop (s.bufStart + start))) := by
  cases limit with
  | none => cases hlim
  | some limit =>
    have hle : limit ≤ (s.buf.drop start).length := by
      rw [List.length_drop]
      simpa using hlim
    rw [w.rest hstart, firstLine_append hno, takeUpTo_append ⟨limit, rfl, hle⟩, List.drop_take,
      Nat.add_sub_cancel_left, Option.getD_some, takeUpTo]

theorem Window.line_unended {start : Nat} {limit : Option Nat} (w : Window c s) (hstart : start ≤ s.buf.length)
    (he : s.eof = true) (hno : newline ∉ s.buf.drop start)
    (hlim : ¬ limit.any (· ≤ s.buf.length - start) = true) :
    (s.buf.take s.buf.length).drop start = takeUpTo limit (firstLine (c.bytes.drop (s.bufStart + start))) := by
  rw [w.rest_of_eof hstart he, firstLine_of_not_mem hno, List.take_length]
  cases limit with
  | none => rfl
  | some limit =>
    have hgt : ¬ limit ≤ s.buf.length - start := by simpa using hlim
    rw [takeUpTo, List.take_of_length_le]
    rw [List.length_drop]
    omega

theorem Window.lineEnd {start searchFrom : Nat} {limit r : Option Nat} (w : Window c s)
    (hstart : start ≤ searchFrom) (hfrom : searchFrom ≤ s.buf.length)
    (hno : newline ∉ (s.buf.take searchFrom).drop start) (h : s.lineEnd c start searchFrom limit = (s', r)) :
    Window c s' ∧ Grows s s' ∧ (r = none → c.Stops) ∧
      ∀ stop, r = some stop → (s'.buf.take stop).drop start =
        takeUpTo limit (firstLine (c.bytes.drop (s.bufStart + start))) := by
  have hnone : ∀ {u : DecodedZstdStream} {n : Nat}, start ≤ n → n ≤ u.buf.length →
      newline ∉ (u.buf.take n).drop start → findNewline u.buf n = none → newline ∉ u.buf.drop start := by
    intro u n hn hlen hbefore hfind
    rw [drop_split hn hlen, List.mem_append]
    exact fun h => h.elim hbefore (findNewline_eq_none hfind)
  fun_induction DecodedZstdStream.lineEnd c s start searchFrom limit with
  | case1 u n idx hfind =>
    cases h
    refine ⟨w, Grows.refl _, nofun, ?_⟩
    intro stop hstop
    cases hstop
    exact w.line_found limit hstart hfrom hno hfind
  | case2 u n hfind hlim =>
    cases h
    refine ⟨w, Grows.refl _, nofun, ?_⟩
    intro stop hstop
    cases hstop
    exact w.line_limited (Nat.le_trans hstart hfrom) (hnone hstart hfrom hno hfind) hlim
  | case3 u n hfind hlim t hf =>
    cases h
    obtain ⟨wt, ht, -⟩ := w.fill (by decide) hf
    exact ⟨wt, ht, fun _ => fill_stops hf, nofun⟩
  | case4 u n hfind hlim t hf =>
    cases h
    obtain ⟨wt, ht, heof⟩ := w.fill (by decide) hf
    obtain ⟨he, hbuf⟩ := heof rfl
    refine ⟨wt, ht, nofun, ?_⟩
    intro stop hstop
    cases hstop
    rw [← ht.start_eq]
    refine wt.line_unended ?_ he ?_ ?_
    · rw [hbuf]
      exact Nat.le_trans hstart hfrom
    · rw [hbuf]
      exact hnone hstart hfrom hno hfind
    · rw [hbuf]
      exact hlim
  | case5 u n hfind hlim t got hf hgot ih =>
    obtain ⟨wt, ht, -⟩ := w.fill (by decide) hf
    have hnl : newline ∉ (t.buf.take u.buf.length).drop start := by
      rw [ht.take_buf w wt]
      exact hnone hstart hfrom hno hfind
    obtain ⟨w', hgrow, hstop, hline⟩ := ih wt (Nat.le_trans hstart hfrom) (ht.length_buf_le w wt) hnl h
    refine ⟨w', ht.trans hgrow, hstop, ?_⟩
    rw [← ht.start_eq]
    exact hline

/-! ## Calls and runs -/

def Answers (c : Container) (s s' : DecodedZstdStream) (plain : Nat × Reply) (reply : Reply) : Prop :=
  (reply.answered = false ∧ s'.pos = s.pos ∧ (reply = .interrupted → c.Stops)) ∨
    (reply.answered = true ∧ plain = (s'.pos, reply))

theorem Ready.past_end (w : Ready c s) (h : s.rawPos ≤ s.pos ∧ s.eof = true) : c.bytes.drop s.pos = [] := by
  rw [List.drop_eq_nil_iff, ← w.at_end h.2]
  exact h.1

theorem Ready.start_le_buf (w : Ready c s) (hto : s.pos ≤ s.rawPos ∨ s.eof = true)
    (hend : ¬ (s.rawPos ≤ s.pos ∧ s.eof = true)) : s.pos - s.bufStart ≤ s.buf.length := by
  rw [w.length_buf]
  by_cases he : s.eof = true
  · have : ¬ s.rawPos ≤ s.pos := fun h => hend ⟨h, he⟩
    omega
  · have := hto.resolve_right he
    omega

theorem takeUpTo_nil (size : Option Nat) : takeUpTo size [] = [] := by
  cases size with
  | none => rfl
  | some n => exact List.take_nil

theorem Ready.read {size : Int} {reply : Reply} (w : Ready c s) (h : s.read c size = (s', reply)) :
    Ready c s' ∧ Answers c s s' (plainCall c.bytes s.pos (.read size)) reply := by
  unfold DecodedZstdStream.read at h
  by_cases h0 : size = 0
  · rw [if_pos h0] at h
    cases h
    refine ⟨w, .inr ⟨rfl, ?_⟩⟩
    rw [h0]
    rfl
  · rw [if_neg h0] at h
    obtain ⟨p, ok, hp⟩ : ∃ p ok, s.prepareRead c = (p, ok) := ⟨_, _, rfl⟩
    obtain ⟨wp, hpos, hto, hstop⟩ := w.prepareRead hp
    rw [hp] at h
    cases ok with
    | false =>
      cases h
      exact ⟨wp, .inl ⟨rfl, hpos, fun _ => hstop rfl⟩⟩
    | true =>
      simp only at h
      by_cases hend : p.rawPos ≤ p.pos ∧ p.eof = true
      · rw [if_pos hend] at h
        cases h
        refine ⟨wp, .inr ⟨rfl, ?_⟩⟩
        rw [plainCall, ← hpos, wp.past_end hend, takeUpTo_nil]
        rfl
      · rw [if_neg hend] at h
        have hstart := wp.start_le_buf (hto rfl) hend
        have hle := wp.start_le_pos
        obtain ⟨t, ok, ht⟩ : ∃ t ok, p.fillTo c (p.pos - p.bufStart) (bound (some size)) = (t, ok) := ⟨_, _, rfl⟩
        obtain ⟨wt, hgrow, hdone, hstop⟩ := wp.toWindow.fillTo ht
        rw [ht] at h
        cases ok with
        | false =>
          cases h
          refine ⟨⟨wt, ?_⟩, .inl ⟨rfl, hgrow.pos_eq.trans hpos, fun _ => hstop rfl⟩⟩
          rw [hgrow.start_eq, hgrow.pos_eq]
          exact hle
        | true =>
          have hdata := wt.data (Nat.le_trans hstart (hgrow.length_buf_le wp.toWindow wt)) (hdone rfl)
          rw [hgrow.start_eq, Nat.add_sub_cancel' hle, hpos] at hdata
          cases h
          have hbefore : t.bufStart ≤ t.pos := by
            rw [hgrow.start_eq, hgrow.pos_eq]
            exact hle
          refine ⟨⟨(wt.withPos _).dropBefore _, ?_⟩, .inr ⟨rfl, ?_⟩⟩
          · rw [dropBefore_pos]
            exact dropBefore_start_le (Nat.le_trans hbefore (Nat.le_add_right _ _))
          · rw [dropBefore_pos, hpos, hdata, hgrow.pos_eq, hpos]
            rfl

theorem Ready.readline {limit : Option Int} {reply : Reply} (w : Ready c s) (h : s.readline c limit = (s', reply)) :
    Ready c s' ∧ Answers c s s' (plainCall c.bytes s.pos (.readline limit)) reply := by
  unfold DecodedZstdStream.readline at h
  obtain ⟨p, ok, hp⟩ : ∃ p ok, s.prepareRead c = (p, ok) := ⟨_, _, rfl⟩
  obtain ⟨wp, hpos, hto, hstop⟩ := w.prepareRead hp
  rw [hp] at h
  cases ok with
  | false =>
    cases h
    exact ⟨wp, .inl ⟨rfl, hpos, fun _ => hstop rfl⟩⟩
  | true =>
    simp only at h
    by_cases hend : p.rawPos ≤ p.pos ∧ p.eof = true
    · rw [if_pos hend] at h
      cases h
      refine ⟨wp, .inr ⟨rfl, ?_⟩⟩
      rw [plainCall, ← hpos, wp.past_end hend, firstLine, takeUpTo_nil]
      rfl
    · rw [if_neg hend] at h
      have hstart := wp.start_le_buf (hto rfl) hend
      have hle := wp.start_le_pos
      obtain ⟨t, r, ht⟩ : ∃ t r, p.lineEnd c (p.pos - p.bufStart) (p.pos - p.bufStart) (bound limit) = (t, r) :=
        ⟨_, _, rfl⟩
      have hno : newline ∉ (p.buf.take (p.pos - p.bufStart)).drop (p.pos - p.bufStart) := by
        rw [List.drop_take, Nat.sub_self, List.take_zero]
        exact List.not_mem_nil
      obtain ⟨wt, hgrow, hstop, hline⟩ := wp.toWindow.lineEnd (Nat.le_refl _) hstart hno ht
      have hbefore : t.bufStart ≤ t.pos := by
        rw [hgrow.start_eq, hgrow.pos_eq]
        exact hle
      rw [ht] at h
      cases r with
      | none =>
        cases h
        exact ⟨⟨wt, hbefore⟩, .inl ⟨rfl, hgrow.pos_eq.trans hpos, fun _ => hstop rfl⟩⟩
      | some stop =>
        have hdata := hline stop rfl
        rw [Nat.add_sub_cancel' hle, hpos] at hdata
        cases h
        refine ⟨⟨(wt.dropBefore _).withPos _, ?_⟩, .inr ⟨rfl, ?_⟩⟩
        · exact Nat.le_trans (dropBefore_start_le hbefore)
            (Nat.le_trans (Nat.le_of_eq (dropBefore_pos t t.pos).symm) (Nat.le_add_right _ _))
        · simp only
          rw [dropBefore_pos, hpos, hdata, hgrow.pos_eq, hpos]
          rfl

theorem Ready.seek {offset : Int} {whence : Whence} {reply : Reply} (w : Ready c s)
    (h : s.seek c offset whence = (s', reply)) :
    Ready c s' ∧ Answers c s s' (plainCall c.bytes s.pos (.seek offset whence)) reply := by
  have hgo : ∀ {n : Int}, seek.go c s n = (s', reply) →
      Ready c s' ∧ Answers c s s' (plainCall.goTo s.pos n) reply := by
    intro n hn
    unfold seek.go at hn
    unfold plainCall.goTo
    by_cases hneg : n < 0
    · rw [if_pos hneg] at hn
      cases hn
      rw [if_pos hneg]
      exact ⟨w, .inr ⟨rfl, rfl⟩⟩
    · rw [if_neg hneg] at hn
      rw [if_neg hneg]
      obtain ⟨t, ok, ht⟩ : ∃ t ok, s.seekTo c n.toNat = (t, ok) := ⟨_, _, rfl⟩
      obtain ⟨wt, htrue, hfalse⟩ := w.toWindow.seekTo ht
      rw [ht] at hn
      cases ok with
      | true =>
        cases hn
        refine ⟨wt, .inr ⟨rfl, ?_⟩⟩
        rw [(htrue rfl).1]
      | false =>
        cases hn
        exact ⟨wt, .inl ⟨rfl, (hfalse rfl).1, fun _ => (hfalse rfl).2⟩⟩
  cases whence with
  | set => exact hgo h
  | cur => exact hgo h
  | fromEnd =>
    cases h
    exact ⟨w, .inl ⟨rfl, rfl, nofun⟩⟩

theorem Ready.call {op : FileOp} {reply : Reply} (w : Ready c s) (h : s.call c op = (s', reply)) :
    Ready c s' ∧ Answers c s s' (plainCall c.bytes s.pos op) reply := by
  cases op with
  | read size => exact w.read h
  | readline limit => exact w.readline h
  | seek offset whence => exact w.seek h
  | tell =>
    cases h
    exact ⟨w, .inr ⟨rfl, rfl⟩⟩

end

end DecodedZstdStream

def answeredCalls (ops : List FileOp) (replies : List Reply) : List (FileOp × Reply) :=
  (ops.zip replies).filter (·.2.answered)

theorem ready_run {c : Container} : ∀ {ops : List FileOp} {s s' : DecodedZstdStream} {replies : List Reply},
    s.Ready c → s.run c ops = (s', replies) →
      replies.length = ops.length ∧
      plainRun c.bytes s.pos ((answeredCalls ops replies).map Prod.fst) =
        (s'.pos, (answeredCalls ops replies).map Prod.snd) ∧
      (Reply.interrupted ∈ replies → c.Stops)
  | [], s, s', replies, w, h => by
    cases h
    exact ⟨rfl, rfl, nofun⟩
  | op :: ops, s, s', replies, w, h => by
    obtain ⟨t, reply, ht⟩ : ∃ t reply, s.call c op = (t, reply) := ⟨_, _, rfl⟩
    obtain ⟨u, rest, hu⟩ : ∃ u rest, t.run c ops = (u, rest) := ⟨_, _, rfl⟩
    obtain ⟨wt, hans⟩ := w.call ht
    obtain ⟨hlen, hplain, hstop⟩ := ready_run wt hu
    simp only [DecodedZstdStream.run, ht, hu] at h
    cases h
    refine ⟨congrArg (· + 1) hlen, ?_, ?_⟩
    · obtain ⟨hgiven, hpos, -⟩ | ⟨hans, hcall⟩ := hans
      · have hskip : answeredCalls (op :: ops) (reply :: rest) = answeredCalls ops rest := by
          simp [answeredCalls, hgiven]
        rw [hskip, ← hpos, hplain]
      · have hkeep : answeredCalls (op :: ops) (reply :: rest) = (op, reply) :: answeredCalls ops rest := by
          simp [answeredCalls, hans]
        rw [hkeep, List.map_cons, List.map_cons, plainRun]
        simp only [hcall, hplain]
    · intro hmem
      obtain rfl | hmem := List.mem_cons.1 hmem
      · obtain ⟨-, -, hstopped⟩ | ⟨hans, -⟩ := hans
        · exact hstopped rfl
        · cases hans
      · exact hstop hmem

theorem ready_init (c : Container) : DecodedZstdStream.init.Ready c :=
  ⟨⟨slice_self.symm, Nat.le_refl _, Nat.zero_le _, fun h => by cases h⟩, Nat.le_refl _⟩

end Cctally
