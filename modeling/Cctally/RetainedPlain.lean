import Cctally.RetainedCoordinates

/-!
# Retained records are a plain list

The list the records stand for has one entry a position: the slot, and what an
access gives, the record or what a changed line raises. Views take the entries a
list would. Two of them give the view up: a falling slice of a view and a
selection with a base position after an extra are plain lists of the records
themselves.
-/

namespace Cctally.Retained

open PySeq

inductive Kind (E : Type) where
  | index
  | value
  | attribute
  | overflow
  | caller (error : E)
  deriving DecidableEq

section
variable {Obj Bytes E α β γ : Type}

def Raised.kind : Raised E → Kind E
  | .indexError _ => .index
  | .valueError _ => .value
  | .notInList _ => .value
  | .attributeError _ => .attribute
  | .overflowError _ => .overflow
  | .caller e => .caller e

structure Entry (Obj E : Type) where
  slot : Slot Obj
  record : Except E Obj
  extra : Bool

def kept (extra : Bool) (obj : Obj) : Entry Obj E := ⟨.retained obj, .ok obj, extra⟩

inductive Form where
  | records
  | view
  | list
  deriving DecidableEq

structure Plain (Obj E : Type) where
  form : Form
  entries : List (Entry Obj E)

def Entry.access (e : Entry Obj E) : Except (Kind E) Obj := e.record.mapError .caller

namespace Plain

def settle (entries : List (Entry Obj E)) : Except (Kind E) (Plain Obj E) := do
  return ⟨.list, (← entries.mapM Entry.access).map (kept false)⟩

def baseAfterExtra : List (Entry Obj E) → Bool
  | [] => false
  | e :: rest => (e.extra && rest.any (!·.extra)) || baseAfterExtra rest

def taken (entries : List (Entry Obj E)) (giveUp : Bool) : Form → Except (Kind E) (Plain Obj E)
  | .records => .ok ⟨.view, entries⟩
  | .view => if giveUp then settle entries else .ok ⟨.view, entries⟩
  | .list => .ok ⟨.list, entries⟩

def step (p : Plain Obj E) : Op Obj → Except (Kind E) (Plain Obj E)
  | .slice s =>
    match PySeq.slice p.entries s with
    | none => .error .value
    | some part => taken part (decide (s.step.getD 1 < 0)) p.form
  | .subset positions =>
    if p.form = .list then .error .attribute
    else taken (pick p.entries positions) (baseAfterExtra (pick p.entries positions)) p.form
  | .withExtra obj => if p.form = .list then .error .attribute else .ok ⟨.view, p.entries ++ [kept true obj]⟩

def run (p : Plain Obj E) (ops : List (Op Obj)) : Except (Kind E) (Plain Obj E) := ops.foldlM step p

def getItem (p : Plain Obj E) (i : Int) : Except (Kind E) Obj :=
  match PySeq.getItem p.entries i with
  | some e => e.access
  | none => .error .index

def iter (p : Plain Obj E) : Pass Obj (Kind E) := Pass.ofList (p.entries.map Entry.access)

def iterMarked (p : Plain Obj E) : Except (Kind E) (Pass (Bool × Obj) (Kind E)) :=
  if p.form = .list then .error .attribute
  else .ok (Pass.ofList (p.entries.map fun e => (e.slot.isStreamed, ·) <$> e.access))

def isStreamed (p : Plain Obj E) (i : Int) : Except (Kind E) Bool :=
  if p.form = .list then .error .attribute
  else match PySeq.getItem p.entries i with
    | some e => .ok e.slot.isStreamed
    | none => .error .index

def slot (p : Plain Obj E) (i : Int) : Except (Kind E) (Slot Obj) :=
  if p.form = .list then .error .attribute
  else match PySeq.getItem p.entries i with
    | some e => .ok e.slot
    | none => .error .index

end Plain

def Op.Fits (len : Nat) : Op Obj → Prop
  | .subset positions => ∀ i ∈ positions, 0 ≤ i ∧ i < len ∧ i < 2 ^ 64
  | _ => True

def Plain.Fits : Plain Obj E → List (Op Obj) → Prop
  | _, [] => True
  | p, op :: ops => op.Fits p.entries.length ∧ ∀ p', p.step op = .ok p' → p'.Fits ops

def Pass.mapRaised (f : α → γ) (p : Pass β α) : Pass β γ := ⟨p.yielded, p.raised.map f⟩

structure Like (source : Source Obj Bytes E) (read : Reader Bytes E) (q : Records Obj) (p : Plain Obj E) : Prop where
  len : q.len = p.entries.length
  getItem : ∀ i, (q.getItem source read i).mapError Raised.kind = p.getItem i
  iter : (q.iter source read).mapRaised Raised.kind = p.iter
  iterMarked : ((q.iterMarked source read).mapError Raised.kind).map (Pass.mapRaised Raised.kind) = p.iterMarked
  isStreamed : ∀ i, (q.isStreamed i).mapError Raised.kind = p.isStreamed i
  slot : ∀ i, (q.slot i).mapError Raised.kind = p.slot i

/-! ## Passes and errors -/

theorem mapRaised_ofList (f : α → γ) : ∀ xs : List (Except α β),
    (Pass.ofList xs).mapRaised f = Pass.ofList (xs.map (·.mapError f))
  | [] => rfl
  | .error _ :: _ => rfl
  | .ok b :: xs => by
    have hcons : ((Except.ok b :: xs).map (·.mapError f)) = .ok b :: xs.map (·.mapError f) := rfl
    rw [hcons, Pass.ofList, Pass.ofList, ← mapRaised_ofList f xs]
    rfl

theorem ofList_append_ok (ys : List β) : ∀ xs : List (Except α β),
    Pass.ofList (xs ++ ys.map .ok) = match (Pass.ofList xs).raised with
      | none => ⟨(Pass.ofList xs).yielded ++ ys, none⟩
      | some _ => Pass.ofList xs
  | [] => by
    induction ys with
    | nil => rfl
    | cons y ys ih =>
      simp only [List.nil_append, List.map_cons, Pass.ofList] at ih ⊢
      rw [ih]
  | .error _ :: _ => rfl
  | .ok b :: xs => by
    have ih := ofList_append_ok ys xs
    rw [List.cons_append, Pass.ofList, Pass.ofList, ih]
    cases h : (Pass.ofList xs).raised with
    | none => rfl
    | some e => exact congrArg (Pass.mk _) h

theorem mapError_map (f : α → γ) (g : β → Obj) (x : Except α β) : (g <$> x).mapError f = g <$> x.mapError f := by
  cases x with
  | ok b => rfl
  | error e => rfl

theorem mapM_access {f : Int → Except (Raised E) Obj} {entries : List (Entry Obj E)}
    (hf : ∀ (n : Nat) e, entries[n]? = some e → (f n).mapError Raised.kind = e.access) {places : List Int}
    (h : Within entries.length places) :
    (places.mapM f).mapError Raised.kind = (pick entries places).mapM Entry.access := by
  have hmap : places.map (fun i => (f i).mapError Raised.kind) = (pick entries places).map Entry.access :=
    map_pick hf h
  generalize pick entries places = part at hmap
  induction places generalizing part with
  | nil =>
    cases part with
    | nil => rfl
    | cons e part => cases hmap
  | cons i places ih =>
    cases part with
    | nil => cases hmap
    | cons e part =>
      rw [List.map_cons, List.map_cons] at hmap
      injection hmap with hi hrest
      have ih := ih (fun j hj => h j (List.mem_cons_of_mem _ hj)) part hrest
      rw [List.mapM_cons, List.mapM_cons, ← hi, ← ih]
      cases f i with
      | error e => rfl
      | ok b =>
        cases places.mapM f with
        | error e => rfl
        | ok bs => rfl

structure Keeps (source : Source Obj Bytes E) (read : Reader Bytes E) (r : RetainedRecords Obj)
    (entries : List (Entry Obj E)) : Prop where
  slots : r.slots = entries.map (·.slot)
  fetch : ∀ (n : Nat) e, entries[n]? = some e →
    (r.fetch source read n).mapError Raised.kind = (e.slot.isStreamed, ·) <$> e.access
  base : ∀ e ∈ entries, e.extra = false

def Records.plain (entries : List (Entry Obj E)) : Records Obj → Plain Obj E
  | .records _ => ⟨.records, entries⟩
  | .view v => ⟨.view, pick entries v.positions.toList ++ v.extras.map (kept true)⟩
  | .list l => ⟨.list, l.map (kept false)⟩

def Records.Valid (r : RetainedRecords Obj) : Records Obj → Prop
  | .records r' => r' = r
  | .view v => v.base = r ∧ Within r.len v.positions.toList
  | .list _ => True

section
variable {source : Source Obj Bytes E} {read : Reader Bytes E} {r : RetainedRecords Obj}
  {entries : List (Entry Obj E)} (hk : Keeps source read r entries)
include hk

theorem Keeps.len : r.len = entries.length := by
  unfold RetainedRecords.len
  rw [hk.slots, List.length_map]

theorem Keeps.item {n : Nat} {e : Entry Obj E} (he : entries[n]? = some e) :
    (r.item source read n).mapError Raised.kind = e.access := by
  unfold RetainedRecords.item
  rw [mapError_map, hk.fetch n e he]
  cases e.access with
  | ok b => rfl
  | error x => rfl

theorem Keeps.slot {n : Nat} {e : Entry Obj E} (he : entries[n]? = some e) :
    (r.slot n : Except (Raised E) (Slot Obj)) = .ok e.slot := by
  refine subscript_nat ?_
  rw [hk.slots, List.getElem?_map, he]
  rfl

theorem Keeps.iterPositions (emit : Bool × Obj → β) {places : List Int} (h : Within entries.length places) :
    (r.iterPositions source read emit places).mapRaised Raised.kind =
      Pass.ofList ((pick entries places).map fun e => emit <$> ((e.slot.isStreamed, ·) <$> e.access)) := by
  unfold RetainedRecords.iterPositions
  rw [mapRaised_ofList, List.map_map]
  refine congrArg Pass.ofList (map_pick (fun n e he => ?_) h)
  rw [Function.comp_apply, mapError_map, hk.fetch n e he]

end

/-! ## Reading a view -/

theorem len_toList : ∀ ps : Positions, ps.toList.length = ps.len
  | .range r => Range.length_toList r
  | .array _ => List.length_map ..

theorem getItem_positions {ps : Positions} {n : Nat} {i : Int} (h : ps.toList[n]? = some i) :
    (ps.getItem n : Except (Raised E) Int) = .ok i := by
  cases ps with
  | range r =>
    have hat : r.getItem n = some i := by
      rw [← Range.getItem_toList, getItem_of_nonneg (Int.natCast_nonneg n)]
      exact h
    simp only [Positions.getItem, hat]
  | array places =>
    obtain ⟨m, hm, rfl⟩ := Option.map_eq_some_iff.1 ((List.getElem?_map ..).symm.trans h)
    simp only [Positions.getItem, subscript_nat hm]
    rfl

theorem slice_positions (ps : Positions) (s : Slice) :
    match PySeq.slice ps.toList s with
    | some qs => ∃ ps', (ps.slice s : Except (Raised E) Positions) = .ok ps' ∧ ps'.toList = qs
    | none => (ps.slice s : Except (Raised E) Positions) = .error (.valueError "slice step cannot be zero") := by
  cases ps with
  | range r =>
    simp only [Positions.toList, Range.toList_slice, Positions.slice]
    cases r.slice s with
    | none => rfl
    | some r' => exact ⟨.range r', rfl, rfl⟩
  | array places =>
    simp only [Positions.toList, slice_map, Positions.slice]
    cases PySeq.slice places s with
    | none => rfl
    | some places' => exact ⟨.array places', rfl, rfl⟩

def RecordsView.listed (v : RecordsView Obj) (entries : List (Entry Obj E)) : List (Entry Obj E) :=
  pick entries v.positions.toList ++ v.extras.map (kept true)

section
variable {source : Source Obj Bytes E} {read : Reader Bytes E} {v : RecordsView Obj} {entries : List (Entry Obj E)}
  (hw : Within entries.length v.positions.toList)
include hw

theorem length_base : (pick entries v.positions.toList).length = v.positions.len := by
  rw [length_pick hw, len_toList]

theorem length_listed : (v.listed entries).length = v.len := by
  unfold RecordsView.listed RecordsView.len
  rw [List.length_append, List.length_map, length_base hw]

theorem locate_cases (i : Int) :
    match PySeq.getItem (v.listed entries) i with
    | none => (v.locate i : Except (Raised E) (Bool × Int)) = .error (.indexError "retained record index out of range")
    | some e => (∃ n : Nat, (v.locate i : Except (Raised E) (Bool × Int)) = .ok (true, (n : Int)) ∧
          entries[n]? = some e) ∨
        ∃ (k : Nat) (obj : Obj), (v.locate i : Except (Raised E) (Bool × Int)) = .ok (false, (k : Int)) ∧
          v.extras[k]? = some obj ∧ e = kept true obj := by
  have hbase := length_base hw
  have hlen := length_listed hw
  unfold PySeq.getItem RecordsView.locate
  rw [hlen]
  simp only []
  generalize place v.len i = j
  by_cases h0 : 0 ≤ j
  · by_cases hlt : j < (v.len : Int)
    · rw [if_pos h0, if_pos ⟨h0, hlt⟩]
      by_cases hcount : j < v.positions.len
      · have hn : j.toNat < (pick entries v.positions.toList).length := by omega
        obtain ⟨p, hp⟩ : ∃ p, v.positions.toList[j.toNat]? = some p :=
          ⟨_, List.getElem?_eq_getElem (by rw [len_toList]; omega)⟩
        have hin := hw p (List.mem_of_getElem? hp)
        have hpn : (p.toNat : Int) = p := Int.toNat_of_nonneg hin.1
        have he : (v.listed entries)[j.toNat]? = entries[p.toNat]? := by
          unfold RecordsView.listed
          rw [List.getElem?_append_left hn, getElem?_pick (hw), hp]
          rfl
        have hlocate := getItem_positions (E := E) hp
        rw [Int.toNat_of_nonneg h0] at hlocate
        obtain ⟨e, hat⟩ : ∃ e, entries[p.toNat]? = some e := ⟨_, List.getElem?_eq_getElem (by omega)⟩
        rw [if_pos hcount, hlocate, he, hat]
        exact .inl ⟨p.toNat, by rw [hpn]; rfl, hat⟩
      · obtain ⟨obj, hobj⟩ : ∃ obj, v.extras[(j - v.positions.len).toNat]? = some obj := by
          refine ⟨_, List.getElem?_eq_getElem ?_⟩
          unfold RecordsView.len at hlt
          omega
        have he : (v.listed entries)[j.toNat]? = some (kept true obj) := by
          unfold RecordsView.listed
          have hsub : j.toNat - (pick entries v.positions.toList).length = (j - v.positions.len).toNat := by omega
          rw [List.getElem?_append_right (by omega), hsub, List.getElem?_map, hobj]
          rfl
        rw [if_neg hcount, he]
        exact .inr ⟨(j - v.positions.len).toNat, obj, by rw [Int.toNat_of_nonneg (by omega)], hobj, rfl⟩
    · rw [if_pos h0, if_neg fun h => hlt h.2, List.getElem?_eq_none (by omega)]
  · rw [if_neg h0, if_neg fun h => h0 h.1]

variable (hk : Keeps source read v.base entries)
include hk

theorem getItem_view (i : Int) : (v.getItem source read i).mapError Raised.kind =
    Plain.getItem ⟨.view, v.listed entries⟩ i := by
  have hat := locate_cases (E := E) hw i
  unfold Plain.getItem RecordsView.getItem
  cases he : PySeq.getItem (v.listed entries) i with
  | none =>
    simp only [he] at hat
    rw [hat]
    rfl
  | some e =>
    simp only [he] at hat
    obtain ⟨n, hn, hen⟩ | ⟨k, obj, hn, hobj, rfl⟩ := hat
    · rw [hn]
      exact hk.item hen
    · rw [hn, Except.ok_bind]
      simp only [Bool.false_eq_true, if_false, subscript_nat hobj]
      rfl

theorem isStreamed_view (i : Int) : (v.isStreamed i).mapError Raised.kind =
    Plain.isStreamed ⟨.view, v.listed entries⟩ i := by
  have hat := locate_cases (E := E) hw i
  unfold Plain.isStreamed RecordsView.isStreamed
  rw [if_neg nofun]
  cases he : PySeq.getItem (v.listed entries) i with
  | none =>
    simp only [he] at hat
    rw [hat]
    rfl
  | some e =>
    simp only [he] at hat
    obtain ⟨n, hn, hen⟩ | ⟨k, obj, hn, hobj, rfl⟩ := hat
    · rw [hn, Except.ok_bind]
      simp only [if_true, RetainedRecords.isStreamed, hk.slot hen]
      rfl
    · rw [hn]
      rfl

theorem slot_view (i : Int) : (v.slot i).mapError Raised.kind = Plain.slot ⟨.view, v.listed entries⟩ i := by
  have hat := locate_cases (E := E) hw i
  unfold Plain.slot RecordsView.slot
  rw [if_neg nofun]
  cases he : PySeq.getItem (v.listed entries) i with
  | none =>
    simp only [he] at hat
    rw [hat]
    rfl
  | some e =>
    simp only [he] at hat
    obtain ⟨n, hn, hen⟩ | ⟨k, obj, hn, hobj, rfl⟩ := hat
    · rw [hn, Except.ok_bind]
      simp only [if_true, hk.slot hen]
      rfl
    · rw [hn, Except.ok_bind]
      simp only [Bool.false_eq_true, if_false, subscript_nat hobj]
      rfl

theorem pass_view (emit : Bool × Obj → β) :
    (match (v.base.iterPositions source read emit v.positions.toList).raised with
      | none => (⟨(v.base.iterPositions source read emit v.positions.toList).yielded ++
          v.extras.map fun obj => emit (false, obj), none⟩ : Pass β (Raised E))
      | some _ => v.base.iterPositions source read emit v.positions.toList).mapRaised Raised.kind =
    Pass.ofList ((v.listed entries).map fun e => emit <$> ((e.slot.isStreamed, ·) <$> e.access)) := by
  have hbase := hk.iterPositions emit hw
  unfold RecordsView.listed
  rw [List.map_append, List.map_map]
  have hextras : (v.extras.map ((fun e : Entry Obj E => emit <$> ((e.slot.isStreamed, ·) <$> e.access)) ∘ kept true)) =
      (v.extras.map fun obj => emit (false, obj)).map .ok := by
    rw [List.map_map]
    rfl
  rw [hextras, ofList_append_ok, ← hbase]
  cases h : (v.base.iterPositions source read emit v.positions.toList).raised with
  | none =>
    simp only [Pass.mapRaised, h]
    rfl
  | some e =>
    simp only [Pass.mapRaised, h]
    rfl

theorem like_view : Like source read (.view v) ⟨.view, v.listed entries⟩ where
  len := (length_listed hw).symm
  getItem := getItem_view hw hk
  iter := by
    refine Eq.trans ?_ ((pass_view hw hk (·.2)).trans ?_)
    · unfold Records.iter RecordsView.iter
      rw [List.map_id'] <;> rfl
    · refine congrArg Pass.ofList (List.map_congr_left fun e _ => ?_)
      cases e.access with
      | ok b => rfl
      | error x => rfl
  iterMarked := by
    refine congrArg Except.ok ((pass_view hw hk id).trans ?_)
    refine congrArg Pass.ofList (List.map_congr_left fun e _ => ?_)
    rw [id_map]
  isStreamed := isStreamed_view hw hk
  slot := slot_view hw hk

end

section
variable {source : Source Obj Bytes E} {read : Reader Bytes E} {r : RetainedRecords Obj} {entries : List (Entry Obj E)}
  (hk : Keeps source read r entries)
include hk

theorem slot_records (i : Int) : (r.slot i).mapError Raised.kind = Plain.slot ⟨.records, entries⟩ i := by
  unfold RetainedRecords.slot Plain.slot subscript
  rw [hk.slots, getItem_map, if_neg nofun]
  cases PySeq.getItem entries i with
  | none => rfl
  | some e => rfl

theorem getItem_records (i : Int) : (r.getItem source read i).mapError Raised.kind =
    Plain.getItem ⟨.records, entries⟩ i := by
  unfold RetainedRecords.getItem Plain.getItem PySeq.getItem
  rw [hk.len]
  generalize place entries.length i = j
  by_cases h0 : 0 ≤ j
  · by_cases hlt : j < (entries.length : Int)
    · have he : entries[j.toNat]? = some entries[j.toNat] := List.getElem?_eq_getElem (by omega)
      have hat := hk.item he
      rw [Int.toNat_of_nonneg h0] at hat
      rw [if_pos h0, he]
      simp only [if_pos (And.intro h0 hlt)]
      exact hat
    · have hge : entries.length ≤ j.toNat := by omega
      rw [if_pos h0, List.getElem?_eq_none hge]
      simp only [if_neg fun h : 0 ≤ j ∧ j < (entries.length : Int) => hlt h.2]
      rfl
  · rw [if_neg h0]
    simp only [if_neg fun h : 0 ≤ j ∧ j < (entries.length : Int) => h0 h.1]
    rfl

theorem within_records : Within entries.length r.positions.toList := by
  rw [← hk.len]
  exact within_upTo _

theorem pick_records : pick entries r.positions.toList = entries := by
  have hpositions : r.positions = Range.upTo entries.length := congrArg Range.upTo hk.len
  rw [hpositions, pick_upTo]

theorem like_records : Like source read (.records r) ⟨.records, entries⟩ where
  len := hk.len
  getItem := getItem_records hk
  iter := by
    refine (hk.iterPositions (·.2) (within_records hk)).trans ?_
    rw [pick_records hk]
    refine congrArg Pass.ofList (List.map_congr_left fun e _ => ?_)
    cases e.access with
    | ok b => rfl
    | error x => rfl
  iterMarked := by
    refine congrArg Except.ok ((hk.iterPositions id (within_records hk)).trans ?_)
    rw [pick_records hk]
    refine congrArg Pass.ofList (List.map_congr_left fun e _ => ?_)
    rw [id_map]
  isStreamed := fun i => by
    have hslot := slot_records hk i
    simp only [Records.isStreamed, RetainedRecords.isStreamed, mapError_map, hslot, Plain.isStreamed, Plain.slot]
    rw [if_neg nofun, if_neg nofun]
    cases PySeq.getItem entries i with
    | none => rfl
    | some e => rfl
  slot := slot_records hk

end

theorem ofList_ok (l : List β) : Pass.ofList (l.map (.ok : β → Except α β)) = ⟨l, none⟩ :=
  ofList_append_ok l []

theorem like_list (source : Source Obj Bytes E) (read : Reader Bytes E) (l : List Obj) :
    Like source read (.list l) ⟨.list, l.map (kept false)⟩ where
  len := (List.length_map ..).symm
  getItem := fun i => by
    simp only [Records.getItem, subscript, Plain.getItem, getItem_map]
    cases PySeq.getItem l i with
    | none => rfl
    | some obj => rfl
  iter := by
    refine (ofList_ok l).symm.trans ?_
    simp only [Plain.iter, List.map_map]
    rfl
  iterMarked := rfl
  isStreamed := fun _ => rfl
  slot := fun _ => rfl

/-! ## Slicing and selecting -/

section
variable {source : Source Obj Bytes E} {read : Reader Bytes E} {v : RecordsView Obj} {entries : List (Entry Obj E)}
  (hw : Within entries.length v.positions.toList)
include hw

/-- **A rising slice of a view** is a view of the slice. -/
theorem sliceRising_listed {a b k : Int} (ha : 0 ≤ a) (hb : 0 ≤ b) (hk : 0 < k) :
    ∃ w : RecordsView Obj, (v.sliceRising a b k : Except (Raised E) (RecordsView Obj)) = .ok w ∧ w.base = v.base ∧
      Within entries.length w.positions.toList ∧
      w.listed entries = pick (v.listed entries) (Range.toList ⟨a, b, k, hk.ne'⟩) := by
  have hcount := length_base hw
  have hsplit := @pick_append_rising _ (pick entries v.positions.toList) (v.extras.map (kept true)) a b k ha hk
  rw [hcount] at hsplit
  unfold RecordsView.sliceRising
  simp only []
  by_cases hlt : a < v.positions.len
  · have hbase := slice_positions (E := E) v.positions ⟨some a, some (min b v.positions.len), some k⟩
    rw [slice_rising ha (by omega) hk] at hbase
    obtain ⟨ps, hps, hlist⟩ := hbase
    have hfirst := le_first (a := a) (c := v.positions.len) hk
    rw [if_pos hlt, if_pos hlt, hps, Except.ok_bind, slice_rising (by omega) (le_max_right _ _) hk]
    refine ⟨_, rfl, rfl, ?_, ?_⟩
    · rw [hlist]
      exact hw.pick _
    · unfold RecordsView.listed
      rw [hsplit, if_pos hlt, hlist, pick_map, pick_pick hw]
  · have hbase := slice_positions (E := E) v.positions ⟨some 0, some 0, none⟩
    have hnil : PySeq.slice v.positions.toList ⟨some 0, some 0, none⟩ = some [] := by
      have h := @slice_rising _ v.positions.toList 0 0 1 le_rfl le_rfl Int.one_pos
      exact h
    rw [hnil] at hbase
    obtain ⟨ps, hps, hlist⟩ := hbase
    rw [if_neg hlt, if_neg hlt, hps, Except.ok_bind, slice_rising (by omega) (le_max_right _ _) hk]
    refine ⟨_, rfl, rfl, ?_, ?_⟩
    · rw [hlist]
      intro j hj
      cases hj
    · unfold RecordsView.listed
      rw [hsplit, if_neg hlt, hlist, pick_map]
      rfl

theorem slice_listed (s : Slice) : PySeq.slice (v.listed entries) s =
    ((Range.upTo v.len).slice s).map fun t => pick (v.listed entries) t.toList := by
  unfold PySeq.slice
  rw [Range.slice_upTo, length_listed hw]

theorem pick_toList_within {s : Slice} {t : Range} (ht : (Range.upTo v.len).slice s = some t) :
    Within (v.listed entries).length t.toList := by
  rw [Range.slice_upTo] at ht
  rw [length_listed hw]
  exact fun i hi => Slice.mem_indices ht hi

end

structure Shows (r : RetainedRecords Obj) (entries : List (Entry Obj E)) (w : RecordsView Obj)
    (part : List (Entry Obj E)) : Prop where
  base : w.base = r
  within : Within entries.length w.positions.toList
  listed : w.listed entries = part

section
variable {source : Source Obj Bytes E} {read : Reader Bytes E} {v : RecordsView Obj} {entries : List (Entry Obj E)}
  (hw : Within entries.length v.positions.toList) (hk : Keeps source read v.base entries)
include hw hk

theorem mapM_view {places : List Int} (h : Within (v.listed entries).length places) :
    (places.mapM (v.getItem source read)).mapError Raised.kind = (pick (v.listed entries) places).mapM Entry.access := by
  refine mapM_access (fun n e he => ?_) h
  rw [getItem_view hw hk, Plain.getItem, getItem_of_nonneg (Int.natCast_nonneg n), Int.toNat_natCast, he]

theorem base_listed {n : Nat} {e : Entry Obj E} (he : (v.listed entries)[n]? = some e) (hn : n < v.positions.len) :
    e.extra = false ∧ ∃ m : Nat, (v.positions.getItem n : Except (Raised E) Int) = .ok (m : Int) ∧
      entries[m]? = some e := by
  have hcount := length_base hw
  unfold RecordsView.listed at he
  rw [List.getElem?_append_left (by omega)] at he
  have hbase := hk.base e (mem_pick (List.mem_of_getElem? he))
  rw [getElem?_pick hw] at he
  obtain ⟨i, hi, hat⟩ := Option.bind_eq_some_iff.1 he
  have hnat : (i.toNat : Int) = i := Int.toNat_of_nonneg (hw i (List.mem_of_getElem? hi)).1
  exact ⟨hbase, i.toNat, by rw [hnat]; exact getItem_positions hi, hat⟩

omit hk in
theorem extra_listed {n : Nat} {e : Entry Obj E} (he : (v.listed entries)[n]? = some e) (hn : v.positions.len ≤ n) :
    ∃ obj, e = kept true obj ∧ v.extras[n - v.positions.len]? = some obj := by
  have hcount := length_base hw
  unfold RecordsView.listed at he
  rw [List.getElem?_append_right (by omega), hcount, List.getElem?_map] at he
  obtain ⟨obj, hobj, rfl⟩ := Option.map_eq_some_iff.1 he
  exact ⟨obj, rfl, hobj⟩

theorem select_spec (positions : List Int) : ∀ (rest : List Int) (bp : List Nat) (ex : List Obj),
    Within entries.length (bp.map Int.ofNat) → Within (v.listed entries).length rest →
    (if (!ex.isEmpty && (pick (v.listed entries) rest).any (!·.extra)) ||
        Plain.baseAfterExtra (pick (v.listed entries) rest) then
      v.select source read positions bp ex rest = Records.list <$> positions.mapM (v.getItem source read)
    else
      ∃ w, v.select source read positions bp ex rest = .ok (.view w) ∧ Shows v.base entries w
        (pick entries (bp.map Int.ofNat) ++ ex.map (kept true) ++ pick (v.listed entries) rest))
  | [], bp, ex, hbp, _ => by
    have hnone : ((!ex.isEmpty && (pick (v.listed entries) []).any (!·.extra)) ||
        Plain.baseAfterExtra (pick (v.listed entries) [])) = false := by
      simp [pick, Plain.baseAfterExtra]
    rw [hnone, if_neg Bool.false_ne_true]
    refine ⟨_, rfl, rfl, hbp, ?_⟩
    unfold RecordsView.listed
    simp [pick, Positions.toList]
  | i :: rest, bp, ex, hbp, hrest => by
    obtain ⟨h0, hlt⟩ := hrest i (List.mem_cons_self ..)
    have hrest' : Within (v.listed entries).length rest := fun j hj => hrest j (List.mem_cons_of_mem _ hj)
    obtain ⟨e, he⟩ : ∃ e, (v.listed entries)[i.toNat]? = some e := ⟨_, List.getElem?_eq_getElem (by omega)⟩
    have hcons : pick (v.listed entries) (i :: rest) = e :: pick (v.listed entries) rest := by
      simp [pick, he]
    have hlen : (v.listed entries).length = v.len := length_listed hw
    have hin : ¬ (i < 0 ∨ (v.len : Int) ≤ i) := by omega
    rw [hcons]
    unfold RecordsView.select
    rw [if_neg hin]
    by_cases hcount : i < v.positions.len
    · obtain ⟨hextra, m, hm, hat⟩ := base_listed hw hk he (by omega)
      rw [Int.toNat_of_nonneg h0] at hm
      rw [if_pos hcount]
      cases ex with
      | cons obj ex =>
        have hgive : ((!(obj :: ex).isEmpty && (e :: pick (v.listed entries) rest).any (!·.extra)) ||
            Plain.baseAfterExtra (e :: pick (v.listed entries) rest)) = true := by
          simp [hextra]
        rw [hgive, if_pos rfl]
        rfl
      | nil =>
        have hskip : ((!([] : List Obj).isEmpty && (e :: pick (v.listed entries) rest).any (!·.extra)) ||
            Plain.baseAfterExtra (e :: pick (v.listed entries) rest)) =
            ((!([] : List Obj).isEmpty && (pick (v.listed entries) rest).any (!·.extra)) ||
              Plain.baseAfterExtra (pick (v.listed entries) rest)) := by
          simp [Plain.baseAfterExtra, hextra]
        have hbp' : Within entries.length ((bp ++ [m]).map Int.ofNat) := by
          intro j hj
          rw [List.map_append, List.mem_append] at hj
          obtain hj | hj := hj
          · exact hbp j hj
          · have := (List.getElem?_eq_some_iff.1 hat).1
            rw [List.mem_singleton.1 hj]
            simp only [Int.ofNat_eq_natCast]
            omega
        have ih := select_spec positions rest (bp ++ [m]) [] hbp' hrest'
        have hpart : pick entries ((bp ++ [m]).map Int.ofNat) ++ ([] : List Obj).map (kept true) ++
            pick (v.listed entries) rest =
            pick entries (bp.map Int.ofNat) ++ ([] : List Obj).map (kept true) ++ e :: pick (v.listed entries) rest := by
          have hone : pick entries ([m].map Int.ofNat) = [e] := by simp [pick, hat]
          rw [List.map_append, pick_append_places, hone]
          simp
        rw [hpart] at ih
        rw [hskip]
        simp only [List.isEmpty_nil, if_true, hm, Except.ok_bind, Int.toNat_natCast]
        exact ih
    · obtain ⟨obj, rfl, hobj⟩ := extra_listed hw he (by omega)
      have hsubscript : (subscript "tuple" v.extras (i - v.positions.len) : Except (Raised E) Obj) = .ok obj := by
        have hnat : i - v.positions.len = ((i.toNat - v.positions.len : Nat) : Int) := by omega
        rw [hnat]
        exact subscript_nat hobj
      have hgive : ((!ex.isEmpty && (kept true obj :: pick (v.listed entries) rest).any (!·.extra)) ||
          Plain.baseAfterExtra (kept true obj :: pick (v.listed entries) rest)) =
          ((!(ex ++ [obj]).isEmpty && (pick (v.listed entries) rest).any (!·.extra)) ||
            Plain.baseAfterExtra (pick (v.listed entries) rest)) := by
        simp only [Plain.baseAfterExtra, kept, List.any_cons, Bool.not_true, Bool.false_or, Bool.true_and]
        cases ex <;> simp
      have ih := select_spec positions rest bp (ex ++ [obj]) hbp hrest'
      have hpart : pick entries (bp.map Int.ofNat) ++ (ex ++ [obj]).map (kept true) ++ pick (v.listed entries) rest =
          pick entries (bp.map Int.ofNat) ++ ex.map (kept true) ++ kept true obj :: pick (v.listed entries) rest := by
        simp
      rw [hpart] at ih
      rw [hgive, if_neg hcount, hsubscript]
      exact ih

end

/-! ## Whole compositions -/

def Answers (r : RetainedRecords Obj) (entries : List (Entry Obj E)) (x : Except (Raised E) (Records Obj)) :
    Except (Kind E) (Plain Obj E) → Prop
  | .ok p => ∃ q, x = .ok q ∧ q.Valid r ∧ q.plain entries = p
  | .error k => ∃ e, x = .error e ∧ e.kind = k

section
variable {source : Source Obj Bytes E} {read : Reader Bytes E} {r : RetainedRecords Obj} {entries : List (Entry Obj E)}
  (hk : Keeps source read r entries)
include hk

theorem Shows.answers {w : RecordsView Obj} {part : List (Entry Obj E)} (h : Shows r entries w part) :
    Answers r entries (.ok (.view w)) (.ok ⟨.view, part⟩) := by
  refine ⟨_, rfl, ⟨h.base, ?_⟩, congrArg (Plain.mk _) h.listed⟩
  rw [hk.len]
  exact h.within

omit hk in
theorem answers_settle {m : Except (Raised E) (List Obj)} {part : List (Entry Obj E)}
    (h : m.mapError Raised.kind = part.mapM Entry.access) :
    Answers r entries (Records.list <$> m) (Plain.settle part) := by
  unfold Plain.settle
  rw [← h]
  cases m with
  | ok l => exact ⟨.list l, rfl, trivial, rfl⟩
  | error e => exact ⟨e, rfl, rfl⟩

omit hk in
theorem placesOf_ok : ∀ {positions : List Int}, (∀ i ∈ positions, 0 ≤ i ∧ i < 2 ^ 64) →
    (placesOf positions : Except (Raised E) (List Nat)) = .ok (positions.map Int.toNat)
  | [], _ => rfl
  | i :: rest, h => by
    have hi := h i (List.mem_cons_self ..)
    have hneg : ¬ i < 0 := by omega
    have hbig : ¬ 2 ^ 64 ≤ i := by omega
    have ih : (placesOf rest : Except (Raised E) (List Nat)) = .ok (rest.map Int.toNat) :=
      placesOf_ok fun j hj => h j (List.mem_cons_of_mem _ hj)
    unfold placesOf
    rw [if_neg hneg, if_neg hbig, ih]
    rfl

theorem slice_answers (s : Slice) :
    Answers r entries ((Records.records r).step source read (.slice s)) (Plain.step ⟨.records, entries⟩ (.slice s)) := by
  have hbase := slice_positions (E := E) (.range r.positions) s
  have hlist : PySeq.slice entries s = (PySeq.slice (Positions.range r.positions).toList s).map (pick entries) := by
    have h := slice_pick (within_records hk) s
    rw [pick_records hk] at h
    exact h
  simp only [Records.step, RetainedRecords.slice, Plain.step, hlist]
  cases hqs : PySeq.slice (Positions.range r.positions).toList s with
  | none =>
    rw [hqs] at hbase
    rw [hbase]
    exact ⟨_, rfl, rfl⟩
  | some qs =>
    rw [hqs] at hbase
    obtain ⟨ps, hps, rfl⟩ := hbase
    rw [hps]
    have hwithin : Within entries.length ps.toList := Within.slice (within_records hk) hqs
    exact Shows.answers hk ⟨rfl, hwithin, List.append_nil _⟩

theorem subset_answers {positions : List Int} (h : ∀ i ∈ positions, 0 ≤ i ∧ i < entries.length ∧ i < 2 ^ 64) :
    Answers r entries ((Records.records r).step source read (.subset positions))
      (Plain.step ⟨.records, entries⟩ (.subset positions)) := by
  have hplaces := placesOf_ok (E := E) fun i hi => ⟨(h i hi).1, (h i hi).2.2⟩
  have hsame : (positions.map Int.toNat).map Int.ofNat = positions := by
    rw [List.map_map]
    refine (List.map_congr_left fun i hi => ?_).trans (List.map_id positions)
    exact Int.toNat_of_nonneg (h i hi).1
  simp only [Records.step, RetainedRecords.subset, hplaces, Plain.step]
  refine Shows.answers hk ⟨rfl, ?_, ?_⟩
  · simp only [Positions.toList, hsame]
    exact fun i hi => ⟨(h i hi).1, (h i hi).2.1⟩
  · simp only [RecordsView.listed, Positions.toList, hsame, List.map_nil, List.append_nil]

omit hk in
theorem view_slice_answers {v : RecordsView Obj} (hw : Within entries.length v.positions.toList)
    (hk : Keeps source read v.base entries) (s : Slice) :
    Answers v.base entries ((Records.view v).step source read (.slice s))
      (Plain.step ⟨.view, v.listed entries⟩ (.slice s)) := by
  simp only [Records.step, RecordsView.slice, Plain.step, slice_listed hw]
  cases ht : (Range.upTo v.len).slice s with
  | none => exact ⟨_, rfl, rfl⟩
  | some t =>
    have hstep : t.step = s.step.getD 1 := by
      rw [Range.slice_upTo] at ht
      exact Slice.indices_step ht
    simp only [Option.map_some, Plain.taken, ← hstep]
    by_cases hneg : t.step < 0
    · rw [if_pos hneg, if_pos (decide_eq_true hneg)]
      exact answers_settle (mapM_view hw hk (pick_toList_within hw ht))
    · have hpos : 0 < t.step := by
        have := t.step_ne
        omega
      rw [if_neg hneg, if_neg (by rw [decide_eq_true_eq]; exact hneg)]
      rw [Range.slice_upTo] at ht
      obtain ⟨ha, hb⟩ := Slice.indices_rising ht hpos
      obtain ⟨w, hrising, hbase, hwithin, hlisted⟩ := sliceRising_listed (E := E) hw ha hb hpos
      rw [hrising]
      exact Shows.answers hk ⟨hbase, hwithin, hlisted⟩

omit hk in
theorem view_subset_answers {v : RecordsView Obj} (hw : Within entries.length v.positions.toList)
    (hk : Keeps source read v.base entries) {positions : List Int} (h : Within (v.listed entries).length positions) :
    Answers v.base entries ((Records.view v).step source read (.subset positions))
      (Plain.step ⟨.view, v.listed entries⟩ (.subset positions)) := by
  have hspec := select_spec hw hk positions positions [] [] nofun h
  simp only [List.isEmpty_nil, Bool.not_true, Bool.false_and, Bool.false_or] at hspec
  simp only [Records.step, RecordsView.subset, Plain.step]
  rw [if_neg nofun]
  simp only [Plain.taken]
  by_cases hgive : Plain.baseAfterExtra (pick (v.listed entries) positions)
  · rw [if_pos hgive] at hspec ⊢
    rw [hspec]
    exact answers_settle (mapM_view hw hk h)
  · rw [if_neg hgive] at hspec ⊢
    obtain ⟨w, hselect, hshows⟩ := hspec
    rw [hselect]
    exact hshows.answers hk

theorem step_answers {q : Records Obj} (hq : q.Valid r) {op : Op Obj} (hf : op.Fits (q.plain entries).entries.length) :
    Answers r entries (q.step source read op) ((q.plain entries).step op) := by
  cases q with
  | records r' =>
    obtain rfl : r' = r := hq
    cases op with
    | slice s => exact slice_answers hk s
    | subset positions => exact subset_answers hk hf
    | withExtra obj =>
      refine Shows.answers hk ⟨rfl, within_records hk, ?_⟩
      simp only [RecordsView.listed, Positions.toList, RetainedRecords.withExtra, pick_records hk, List.map_singleton]
      rfl
  | view v =>
    obtain ⟨rfl, hin⟩ := hq
    rw [hk.len] at hin
    cases op with
    | slice s => exact view_slice_answers hin hk s
    | subset positions => exact view_subset_answers hin hk fun i hi => ⟨(hf i hi).1, (hf i hi).2.1⟩
    | withExtra obj =>
      refine Shows.answers hk ⟨rfl, hin, ?_⟩
      simp only [RecordsView.listed, RecordsView.withExtra, List.map_append, List.map_singleton, ← List.append_assoc]
      rfl
  | list l =>
    cases op with
    | slice s =>
      simp only [Records.step, Records.plain, Plain.step, slice_map]
      cases PySeq.slice l s with
      | none => exact ⟨_, rfl, rfl⟩
      | some part => exact ⟨.list part, rfl, trivial, rfl⟩
    | subset positions => exact ⟨_, rfl, rfl⟩
    | withExtra obj => exact ⟨_, rfl, rfl⟩

/-- **A composition** of slices, selections and extras answers as the same on the list. -/
theorem run_answers : ∀ (ops : List (Op Obj)) {q : Records Obj}, q.Valid r → (q.plain entries).Fits ops →
    Answers r entries (q.run source read ops) ((q.plain entries).run ops)
  | [], q, hq, _ => ⟨q, rfl, hq, rfl⟩
  | op :: ops, q, hq, hf => by
    have hstep := step_answers hk hq hf.1
    unfold Records.run Plain.run
    rw [List.foldlM_cons, List.foldlM_cons]
    cases hp : (q.plain entries).step op with
    | error k =>
      rw [hp] at hstep
      obtain ⟨e, he, hkind⟩ := hstep
      rw [he]
      exact ⟨e, rfl, hkind⟩
    | ok p =>
      rw [hp] at hstep
      obtain ⟨q', hq', hvalid, rfl⟩ := hstep
      rw [hq']
      exact run_answers ops hvalid (hf.2 _ hp)

theorem like_of_valid {q : Records Obj} (hq : q.Valid r) : Like source read q (q.plain entries) := by
  cases q with
  | records r' =>
    obtain rfl : r' = r := hq
    exact like_records hk
  | view v =>
    obtain ⟨rfl, hin⟩ := hq
    rw [hk.len] at hin
    exact like_view hin hk
  | list l => exact like_list source read l

end

end

end Cctally.Retained
