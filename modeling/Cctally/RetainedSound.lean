import Cctally.RetainedPlain

/-!
# What a read pass keeps

The records a read pass builds hold, at every position, the list the pass
would have kept: a retained object as it is, a streamed line as the record it
decoded to, or what a line that has changed since raises.
-/

namespace Cctally.Retained

open PySeq

section
variable {Obj Bytes E : Type} [DecidableEq Bytes]

namespace Call
variable (source : Source Obj Bytes E) (read : Reader Bytes E)

def place : Call Obj Bytes → Place
  | .retained _ segment start length => (segment, start, length)
  | .streamed _ _ segment start length => (segment, start, length)

def slot : Call Obj Bytes → Slot Obj
  | .retained obj _ _ _ => .retained obj
  | .streamed .. => .streamed

def digest : Call Obj Bytes → Nat
  | .retained .. => 0
  | .streamed line .. => source.lineDigest line

def kept : Call Obj Bytes → Obj
  | .retained obj _ _ _ => obj
  | .streamed _ record _ _ _ => source.normalize record

def Unchanged : Call Obj Bytes → Prop
  | .retained .. => True
  | .streamed line _ segment start length => read segment start length = .ok line

def record : Call Obj Bytes → Except E Obj
  | .retained obj _ _ _ => .ok obj
  | .streamed line record segment start length =>
    match read segment start length with
    | .error e => .error e
    | .ok now =>
      if now = line then .ok (source.normalize record)
      else .error (source.error s!"{segment}@{start}: the line the read pass saw has changed")

def entry (call : Call Obj Bytes) : Entry Obj E := ⟨call.slot, call.record source read, false⟩

end Call

def Decoded (source : Source Obj Bytes E) (calls : List (Call Obj Bytes)) : Prop :=
  ∀ line record segment start length, Call.streamed line record segment start length ∈ calls →
    source.decode line = some record

def CollisionFree (source : Source Obj Bytes E) (read : Reader Bytes E) (calls : List (Call Obj Bytes)) : Prop :=
  ∀ line record segment start length now, Call.streamed line record segment start length ∈ calls →
    read segment start length = .ok now → source.lineDigest now = source.lineDigest line → now = line

def listOf (source : Source Obj Bytes E) (read : Reader Bytes E) (calls : List (Call Obj Bytes)) : Plain Obj E :=
  ⟨.records, calls.map (Call.entry source read)⟩

structure Built (source : Source Obj Bytes E) (r : RetainedRecords Obj) (calls : List (Call Obj Bytes)) : Prop where
  tracks : Tracks r.coords (calls.map Call.place)
  slots : r.slots = calls.map Call.slot
  digests : r.digests = calls.map (Call.digest source)

section
variable {source : Source Obj Bytes E} {read : Reader Bytes E} {r : RetainedRecords Obj} {calls : List (Call Obj Bytes)}

omit [DecidableEq Bytes] in
theorem Built.apply (h : Built source r calls) {call : Call Obj Bytes} {r' : RetainedRecords Obj}
    (ha : call.apply source r = .ok r') : Built source r' (calls ++ [call]) := by
  cases call with
  | retained obj segment start length =>
    obtain ⟨coords, hcoords, hr⟩ := Except.bind_eq_ok.1 ha
    cases hr
    refine ⟨?_, ?_, ?_⟩
    · rw [List.map_append]
      exact h.tracks.append (p := (segment, start, length)) hcoords
    · rw [List.map_append, ← h.slots]
      rfl
    · rw [List.map_append, ← h.digests]
      rfl
  | streamed line record segment start length =>
    obtain ⟨coords, hcoords, hr⟩ := Except.bind_eq_ok.1 ha
    cases hr
    refine ⟨?_, ?_, ?_⟩
    · rw [List.map_append]
      exact h.tracks.append (p := (segment, start, length)) hcoords
    · rw [List.map_append, ← h.slots]
      rfl
    · rw [List.map_append, ← h.digests]
      rfl

omit [DecidableEq Bytes] in
theorem Built.run {r' : RetainedRecords Obj} : ∀ (more : List (Call Obj Bytes)) {r : RetainedRecords Obj}
    {calls : List (Call Obj Bytes)}, Built source r calls → more.foldlM (Call.apply source) r = .ok r' → Built source r' (calls ++ more)
  | [], r, calls, h, hr => by
    cases hr
    rw [List.append_nil]
    exact h
  | call :: more, r, calls, h, hr => by
    rw [List.foldlM_cons] at hr
    obtain ⟨r₁, h₁, hrest⟩ := Except.bind_eq_ok.1 hr
    have hrun := Built.run more (h.apply h₁) hrest
    rw [List.append_assoc] at hrun
    exact hrun

omit [DecidableEq Bytes] in
theorem build_built (h : build source calls = .ok r) : Built source r calls := by
  have hinit : Built source (RetainedRecords.init : RetainedRecords Obj) [] := ⟨tracks_init, rfl, rfl⟩
  exact hinit.run calls h

/-- **A streamed position** gives the record its line decoded to, or raises when the line has changed. -/
theorem Built.decodeAt (h : Built source r calls) (hd : Decoded source calls) (hc : CollisionFree source read calls)
    {n : Nat} {line : Bytes} {record : Obj} {segment : String} {start length : Nat}
    (hn : calls[n]? = some (.streamed line record segment start length)) :
    r.decodeAt source read n =
      ((Call.streamed line record segment start length).record source read).mapError .caller := by
  have hmem := List.mem_of_getElem? hn
  have hplace : (calls.map Call.place)[n]? = some (segment, start, length) := by rw [List.getElem?_map, hn]; rfl
  have hdigest : r.digests[n]? = some (source.lineDigest line) := by rw [h.digests, List.getElem?_map, hn]; rfl
  unfold RetainedRecords.decodeAt
  rw [h.tracks.line hplace, Except.ok_bind]
  simp only [Call.record]
  cases hread : read segment start length with
  | error e => rfl
  | ok now =>
    simp only [Except.mapError, Except.ok_bind, subscript_nat hdigest]
    by_cases hnow : now = line
    · rw [hnow, if_neg (not_not.2 rfl), if_pos rfl]
      simp only [hd _ _ _ _ _ hmem]
      rfl
    · rw [if_pos fun heq => hnow (hc _ _ _ _ _ _ hmem hread heq), if_neg hnow]
      rfl

theorem Built.keeps (h : Built source r calls) (hd : Decoded source calls) (hc : CollisionFree source read calls) :
    Keeps source read r (calls.map (Call.entry source read)) where
  slots := by
    rw [h.slots, List.map_map]
    rfl
  fetch := fun n e he => by
    obtain ⟨call, hcall, rfl⟩ := Option.map_eq_some_iff.1 ((List.getElem?_map ..).symm.trans he)
    have hslot : r.slots[n]? = some call.slot := by rw [h.slots, List.getElem?_map, hcall]; rfl
    unfold RetainedRecords.fetch
    rw [subscript_nat hslot, Except.ok_bind]
    cases call with
    | retained obj segment start length => rfl
    | streamed line record segment start length =>
      simp only [Call.slot, h.decodeAt hd hc hcall, Entry.access, Call.entry, Slot.isStreamed]
      cases (Call.streamed line record segment start length).record source read with
      | ok obj => rfl
      | error e => rfl
  base := fun e he => by
    obtain ⟨call, -, rfl⟩ := List.mem_map.1 he
    rfl

theorem record_unchanged {call : Call Obj Bytes} (h : call.Unchanged read) :
    call.record source read = .ok (call.kept source) := by
  cases call with
  | retained obj segment start length => rfl
  | streamed line record segment start length =>
    simp only [Call.record, show read segment start length = .ok line from h, if_true]
    rfl

theorem record_changed {call : Call Obj Bytes} (h : ¬ call.Unchanged read) : ∃ e, call.record source read = .error e := by
  cases call with
  | retained obj segment start length => exact absurd trivial h
  | streamed line record segment start length =>
    simp only [Call.record]
    cases hread : read segment start length with
    | error e => exact ⟨e, rfl⟩
    | ok now =>
      have hnow : now ≠ line := fun heq => h (heq ▸ hread)
      exact ⟨_, if_neg hnow⟩

end

/-! ## Coordinate views of the whole -/

def LineCoordinates.view (c : LineCoordinates) (isEnd : Bool) : CoordinateView :=
  if isEnd then c.endsView else c.startsView

structure Lists (E : Type) (w : CoordinateView) (xs : List (String × Nat)) : Prop where
  len : w.len = xs.length
  iter : (w.iter : Except (Raised E) (List (String × Nat))) = .ok xs
  getItem : ∀ i, (w.getItem i : Except (Raised E) (String × Nat)).mapError Raised.kind =
    match PySeq.getItem xs i with
    | some p => .ok p
    | none => .error .index
  index : ∀ cursor start stop, (w.index cursor start stop : Except (Raised E) Int).mapError Raised.kind =
    match PySeq.index (xs.map Cursor.of) cursor start stop with
    | some n => .ok (n : Int)
    | none => .error .value

variable {places : List Place}

theorem Over.lists {w : CoordinateView} (h : Over w places) (ho : JournalOrder places) :
    Lists E w (w.listed places) where
  len := h.len
  iter := h.iter
  getItem := fun i => by
    rw [h.getItem]
    cases PySeq.getItem (w.listed places) i with
    | none => rfl
    | some p => rfl
  index := fun cursor start stop => by
    rw [h.index fun _ => ho]
    cases PySeq.index ((w.listed places).map Cursor.of) cursor start stop with
    | none => rfl
    | some n => rfl

theorem Over.slices (ho : JournalOrder places) : ∀ (ss : List Slice) {v : CoordinateView}, Over v places →
    match ss.foldlM PySeq.slice (v.listed places) with
    | some xs => ∃ w, (ss.foldlM CoordinateView.slice v : Except (Raised E) CoordinateView) = .ok w ∧ Lists E w xs
    | none => ∃ e, (ss.foldlM CoordinateView.slice v : Except (Raised E) CoordinateView) = .error e ∧ e.kind = .value
  | [], v, h => ⟨v, rfl, h.lists ho⟩
  | s :: ss, v, h => by
    have hslice := h.slice (E := E) s
    rw [List.foldlM_cons, List.foldlM_cons]
    cases hs : PySeq.slice (v.listed places) s with
    | none =>
      rw [hs] at hslice
      simp only [] at hslice
      rw [hslice]
      exact ⟨_, rfl, rfl⟩
    | some xs =>
      rw [hs] at hslice
      obtain ⟨w, hw, hover, -, rfl⟩ := hslice
      rw [hw]
      exact Over.slices ho ss hover

/-- **Retained records are the list** a reader would have kept. Any composition of slices, selections
and extras answers every question as the same composition of the list; the coordinate views and
their slices list the tuples; and a position reads as the record its line decoded to exactly
while the line is unchanged. -/
theorem retained_like_list {source : Source Obj Bytes E} {read : Reader Bytes E} {calls : List (Call Obj Bytes)}
    {r : RetainedRecords Obj} (hbuild : build source calls = .ok r) (ho : JournalOrder (calls.map Call.place))
    (hd : Decoded source calls) (hc : CollisionFree source read calls) :
    (∀ ops, (listOf source read calls).Fits ops →
      match (listOf source read calls).run ops with
      | .ok p => ∃ q, (Records.records r).run source read ops = .ok q ∧ Like source read q p
      | .error k => ∃ e, (Records.records r).run source read ops = .error e ∧ e.kind = k) ∧
    (∀ (isEnd : Bool) (ss : List Slice),
      match ss.foldlM PySeq.slice ((calls.map Call.place).map (coordinate isEnd)) with
      | some xs => ∃ w, (ss.foldlM CoordinateView.slice (r.coords.view isEnd) : Except (Raised E) CoordinateView) =
          .ok w ∧ Lists E w xs
      | none => ∃ e, (ss.foldlM CoordinateView.slice (r.coords.view isEnd) : Except (Raised E) CoordinateView) =
          .error e ∧ e.kind = .value) ∧
    ∀ call ∈ calls, (call.Unchanged read → call.record source read = .ok (call.kept source)) ∧
      (¬ call.Unchanged read → ∃ e, call.record source read = .error e) := by
  have hbuilt := build_built hbuild
  have hkeeps := hbuilt.keeps hd hc
  refine ⟨fun ops hf => ?_, fun isEnd ss => ?_, fun call _ => ⟨record_unchanged, record_changed⟩⟩
  · have hrun := run_answers hkeeps ops (q := .records r) rfl hf
    cases hp : (listOf source read calls).run ops with
    | error k =>
      have h : Answers r (calls.map (Call.entry source read)) _ (.error k) := hp ▸ hrun
      exact h
    | ok p =>
      have h : Answers r (calls.map (Call.entry source read)) _ (.ok p) := hp ▸ hrun
      obtain ⟨q, hq, hvalid, hplain⟩ := h
      exact ⟨q, hq, hplain ▸ like_of_valid hkeeps hvalid⟩
  · have hview : r.coords.view isEnd = ⟨r.coords, none, isEnd⟩ := by cases isEnd <;> rfl
    rw [hview, ← listed_whole hbuilt.tracks isEnd]
    exact Over.slices ho ss (over_whole hbuilt.tracks isEnd)

end

def twoLines : Source String String String := ⟨some, String.length, id, none⟩

def journal : Reader String String := fun _ start _ => .ok (if start = 0 then "ab" else "c")

def rewritten : Reader String String := fun _ start _ => .ok (if start = 0 then "xyz" else "c")

def passed : List (Call String String) := [.streamed "ab" "ab" "s" 0 2, .streamed "c" "c" "s" 3 1]

def whole : RetainedRecords String := ⟨⟨[0, 3], [2, 1], ["s"], [0]⟩, [.streamed, .streamed], [2, 1]⟩

theorem retained_like_list_two :
    (∃ q, (Records.records whole).run twoLines journal [.withExtra "e", .slice ⟨some 1, none, none⟩] = .ok q ∧
      Like twoLines journal q ⟨.view, [⟨.streamed, .ok "c", false⟩, ⟨.retained "e", .ok "e", true⟩]⟩) ∧
    ∃ w, ([⟨some (-1), none, none⟩].foldlM CoordinateView.slice (whole.coords.view true) :
      Except (Raised String) CoordinateView) = .ok w ∧ Lists String w [("s", 5)] := by
  have hbuild : build twoLines passed = .ok whole := rfl
  have horder : JournalOrder (passed.map Call.place) := by
    unfold JournalOrder
    decide +kernel
  have h := @retained_like_list String String String _ twoLines journal passed whole hbuild horder
    (by
      intro line record segment start length hmem
      simp only [passed, List.mem_cons, List.not_mem_nil, or_false] at hmem
      obtain hmem | hmem := hmem <;> cases hmem <;> rfl)
    (by
      intro line record segment start length now hmem hread _
      simp only [passed, List.mem_cons, List.not_mem_nil, or_false] at hmem
      obtain hmem | hmem := hmem <;> cases hmem <;> cases hread <;> rfl)
  refine ⟨h.1 [.withExtra "e", .slice ⟨some 1, none, none⟩] ⟨trivial, fun _ _ => ⟨trivial, fun _ _ => trivial⟩⟩, ?_⟩
  exact h.2.1 true [⟨some (-1), none, none⟩]

/-- A falling slice of a view has no `with_extra`, and none of its items can be read when one of its
lines has changed; a selection cannot count from the end. On the list each of the three works. -/
theorem retained_unlike_list :
    (∃ e, (Records.records whole).run twoLines journal
        [.slice ⟨none, none, none⟩, .slice ⟨none, none, some (-1)⟩, .withExtra "e"] = .error e ∧ e.kind = .attribute) ∧
    (∃ e, (Records.records whole).run twoLines rewritten
        [.slice ⟨none, none, none⟩, .slice ⟨none, none, some (-1)⟩] = .error e ∧
      (Records.records whole).getItem twoLines rewritten 1 = .ok "c") ∧
    (∃ e, (Records.records whole).run twoLines journal [.subset [-1]] = .error e ∧ e.kind = .overflow) ∧
    PySeq.slice ["ab", "c"] ⟨none, none, some (-1)⟩ = some ["c", "ab"] ∧
    PySeq.getItem ["ab", "c"] (-1) = some "c" := by
  refine ⟨⟨_, rfl, rfl⟩, ⟨_, rfl, rfl⟩, ⟨_, rfl, rfl⟩, ?_, ?_⟩
  · decide +kernel
  · decide +kernel

end Cctally.Retained
