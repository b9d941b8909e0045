import Cctally.AccountProtocol

/-!
# Writer stamps on a record

A record about to be appended carries the writer generation, the protocol
revision and the successor revision. A content id that verifies over the fields
of its record is computed again over the stamped fields, so a capture has one id
whichever path stamped it.
-/

namespace Cctally.RecordStamps

open AccountProtocol (textIs intIs isStamped hasCurrentRevision hasSuccessorRevision PROTOCOL_GENERATION
  PROTOCOL_REVISION SUCCESSOR_REVISION)
open Json (field hasField setField sortFields without InOrder)

inductive Arg (α : Type) where
  | default
  | given (value : Option α)

def Arg.or {α : Type} (fallback : Option α) : Arg α → Option α
  | .default => fallback
  | .given value => value

/-- `core[key] = value`, when there is one. -/
def put (key : String) (value : Option Json) (core : Json.Fields) : Json.Fields :=
  match value with
  | none => core
  | some value => setField key value core

def writerCore (core : Json.Fields) (writerGeneration : Option String) (writerRevision writerSuccessor : Arg Int) :
    Json.Fields :=
  let revision := writerRevision.or (writerGeneration.map fun _ => PROTOCOL_REVISION)
  let successor := writerSuccessor.or (revision.map fun _ => SUCCESSOR_REVISION)
  put "wpx" (successor.map .num) (put "wpr" (revision.map .num) (put "wpg" (writerGeneration.map .str) core))

section
variable (rt : Runtime)

/-- `{"v": LINE_VERSION, **core, "id": content_id(core)}` -/
def lineOf (core : Json.Fields) : Json.Fields :=
  setField "id" (.str (contentId rt (.obj core))) (setField "v" (.num LINE_VERSION) core)

def makeObs (at_ src provider : String) (payload : Json.Fields) (account : Option String)
    (writerGeneration : Option String) (writerRevision writerSuccessor : Arg Int) : Json.Fields :=
  lineOf rt (writerCore (put "account" (account.map .str)
    (sortFields [("t", .str "obs"), ("at", .str at_), ("src", .str src), ("provider", .str provider),
      ("payload", .obj payload)])) writerGeneration writerRevision writerSuccessor)

def makeOp (at_ src : String) (payload : Json.Fields) (writerGeneration : Option String)
    (writerRevision writerSuccessor : Arg Int) : Json.Fields :=
  lineOf rt (writerCore (sortFields [("t", .str "op"), ("at", .str at_), ("src", .str src), ("payload", .obj payload)])
    writerGeneration writerRevision writerSuccessor)

/-! ## Stamping -/

variable (repr : Json → String)

def stampFields (record : Json.Fields) : Json.Fields :=
  setField "wpx" (.num SUCCESSOR_REVISION) (setField "wpr" (.num PROTOCOL_REVISION)
    (setField "wpg" (.str PROTOCOL_GENERATION) record))

def stamp : Json → Py Json.Fields
  | .obj record => do
    let existing := field record "wpg"
    let revision := field record "wpr"
    let successor := field record "wpx"
    if existing ≠ .null ∧ textIs PROTOCOL_GENERATION existing = false then
      throw (.value s!"record already carries writer generation {repr existing}")
    if hasField record "wpr" ∧ hasCurrentRevision (.obj record) = false then
      throw (.value s!"record already carries protocol revision {repr revision}")
    if hasField record "wpx" ∧ hasSuccessorRevision (.obj record) = false then
      throw (.value s!"record already carries successor revision {repr successor}")
    return stampFields record
  | _ => throw (.value "journal record must be a dict")

/-- All fields but `v` and `id`. -/
def coreOf (record : Json.Fields) : Json.Fields := without record ["v", "id"]

/-- An `obs` or `op` whose id starts `o:`. -/
def hasContentId (record : Json.Fields) : Bool :=
  (textIs "obs" (field record "t") || textIs "op" (field record "t")) &&
    match field record "id" with
    | .str rid => rid.toList.take 2 == "o:".toList
    | _ => false

def verifies (record : Json.Fields) : Bool :=
  hasContentId record && field record "id" == .str (contentId rt (.obj (coreOf record)))

def prepareRecord (record : Json) : Py Json := do
  if isStamped record && hasCurrentRevision record && hasSuccessorRevision record then return record
  let stamped ← stamp repr record
  match record with
  | .obj fields =>
    if verifies rt fields then
      return .obj (setField "id" (.str (contentId rt (.obj (coreOf stamped)))) stamped)
    else return .obj stamped
  | _ => return .obj stamped

def unstampedRecord : Json → Json
  | .obj record =>
    if !hasField record "wpg" && !hasField record "wpr" && !hasField record "wpx" then .obj record
    else
      let out := without record ["wpg", "wpr", "wpx"]
      if verifies rt record then .obj (setField "id" (.str (contentId rt (.obj (coreOf out)))) out) else .obj out
  | record => record

end

end Cctally.RecordStamps

/-!
## Preparing a record

Preparing twice is preparing once. A content id that verified verifies after the
stamps are set, no other id moves, and the previous release's shape is found again.
-/

namespace Cctally.RecordStamps

open AccountProtocol (textIs textIs_iff intIs intIs_iff isStamped hasCurrentRevision hasSuccessorRevision PROTOCOL_GENERATION
  PROTOCOL_REVISION SUCCESSOR_REVISION)
open Json (field hasField setField sortFields without InOrder find_setField inOrder_setField find_without
  find_without_mem inOrder_without eq_of_find)

def STAMPS : List String := ["wpg", "wpr", "wpx"]

/-- No stamp, or the current value of it; a generation may also be `null`. -/
structure NoForeign (record : Json.Fields) : Prop where
  generation : field record "wpg" = .null ∨ field record "wpg" = .str PROTOCOL_GENERATION
  revision : hasField record "wpr" = true → field record "wpr" = .num PROTOCOL_REVISION
  successor : hasField record "wpx" = true → field record "wpx" = .num SUCCESSOR_REVISION

def Unstamped (record : Json.Fields) : Prop := ∀ key ∈ STAMPS, hasField record key = false

theorem inOrder_stampFields {r : Json.Fields} (hr : InOrder r) : InOrder (stampFields r) :=
  inOrder_setField _ _ (inOrder_setField _ _ (inOrder_setField _ _ hr))

theorem find_stampFields {key : String} (h : key ∉ STAMPS) (r : Json.Fields) :
    Dict.find key (stampFields r) = Dict.find key r := by
  simp only [STAMPS, List.mem_cons, List.not_mem_nil, or_false, not_or] at h
  rw [stampFields, find_setField, if_neg (Ne.symm h.2.2), find_setField, if_neg (Ne.symm h.2.1), find_setField,
    if_neg (Ne.symm h.1)]

theorem find_stampFields_congr (r r' : Json.Fields) {key : String} (h : key ∈ STAMPS) :
    Dict.find key (stampFields r) = Dict.find key (stampFields r') := by
  simp only [STAMPS, List.mem_cons, List.not_mem_nil, or_false] at h
  rcases h with rfl | rfl | rfl <;> simp [stampFields, find_setField]

theorem field_stampFields {key : String} (h : key ∉ STAMPS) (r : Json.Fields) :
    field (stampFields r) key = field r key := by
  rw [field, find_stampFields h, field]

theorem stampFields_congr {r r' : Json.Fields} (hr : InOrder r) (hr' : InOrder r')
    (h : ∀ key, key ∉ STAMPS → Dict.find key r = Dict.find key r') : stampFields r = stampFields r' := by
  refine eq_of_find (inOrder_stampFields hr) (inOrder_stampFields hr') fun key => ?_
  by_cases hkey : key ∈ STAMPS
  · exact find_stampFields_congr r r' hkey
  · rw [find_stampFields hkey, find_stampFields hkey, h key hkey]

def Stamped (r : Json.Fields) : Prop :=
  isStamped (.obj r) = true ∧ hasCurrentRevision (.obj r) = true ∧ hasSuccessorRevision (.obj r) = true

theorem stamped_stampFields (r : Json.Fields) : Stamped (stampFields r) := by
  refine ⟨?_, ?_, ?_⟩
  · simp [isStamped, stampFields, field, find_setField, textIs]
  · simp [hasCurrentRevision, stampFields, field, find_setField, intIs]
  · simp [hasSuccessorRevision, stampFields, field, find_setField, intIs]

theorem find_of_field {r : Json.Fields} {key : String} {v : Json} (hv : v ≠ .null) (h : field r key = v) :
    Dict.find key r = some v := by
  rw [field] at h
  cases hf : Dict.find key r with
  | none => rw [hf] at h; exact absurd h.symm hv
  | some w => rw [hf] at h; exact congrArg some h

theorem stampFields_of_stamped {r : Json.Fields} (hr : InOrder r) (h : Stamped r) : stampFields r = r := by
  obtain ⟨hg, hrev, hsucc⟩ := h
  have hg := find_of_field (by simp) (textIs_iff.mp hg)
  have hrev := find_of_field (by simp) (intIs_iff.mp hrev)
  have hsucc := find_of_field (by simp) (intIs_iff.mp hsucc)
  rw [stampFields, Json.setField_of_find hr hg, Json.setField_of_find hr hrev, Json.setField_of_find hr hsucc]

section
variable (rt : Runtime)

theorem inOrder_coreOf {r : Json.Fields} (hr : InOrder r) : InOrder (coreOf r) := inOrder_without hr _

theorem find_coreOf {key : String} (h : key ∉ ["v", "id"]) (r : Json.Fields) :
    Dict.find key (coreOf r) = Dict.find key r := find_without h r

theorem coreOf_setId {r : Json.Fields} (hr : InOrder r) (id : Json) : coreOf (setField "id" id r) = coreOf r := by
  refine eq_of_find (inOrder_coreOf (inOrder_setField _ _ hr)) (inOrder_coreOf hr) fun key => ?_
  by_cases hkey : key ∈ ["v", "id"]
  · rw [coreOf, find_without_mem hkey, coreOf, find_without_mem hkey]
  · rw [find_coreOf hkey, find_coreOf hkey, find_setField, if_neg]
    rintro rfl
    exact hkey (by simp)

variable {rt}

theorem hasContentId_congr {r r' : Json.Fields} (ht : field r' "t" = field r "t") (hid : field r' "id" = field r "id") :
    hasContentId r' = hasContentId r := by rw [hasContentId, ht, hid, hasContentId]

theorem hasContentId_contentId {r r' : Json.Fields} {core : Json} (ht : field r' "t" = field r "t")
    (hid : field r' "id" = .str (contentId rt core)) (h : hasContentId r = true) : hasContentId r' = true := by
  rw [hasContentId, Bool.and_eq_true] at h
  rw [hasContentId, ht, hid, h.1]
  simp [contentId]

theorem verifies_iff {r : Json.Fields} : verifies rt r = true ↔
    hasContentId r = true ∧ field r "id" = .str (contentId rt (.obj (coreOf r))) := by
  rw [verifies, Bool.and_eq_true, beq_iff_eq]

/-! ## Preparing -/

variable (rt) in
def prepared (r : Json.Fields) : Json.Fields :=
  if verifies rt r then setField "id" (.str (contentId rt (.obj (coreOf (stampFields r))))) (stampFields r)
  else stampFields r

theorem inOrder_prepared {r : Json.Fields} (hr : InOrder r) : InOrder (prepared rt r) := by
  rw [prepared]
  split
  · exact inOrder_setField _ _ (inOrder_stampFields hr)
  · exact inOrder_stampFields hr

theorem find_prepared {key : String} (h : key ≠ "id") (r : Json.Fields) :
    Dict.find key (prepared rt r) = Dict.find key (stampFields r) := by
  rw [prepared]
  split
  · rw [find_setField, if_neg (Ne.symm h)]
  · rfl

theorem field_prepared {key : String} (h : key ≠ "id") (r : Json.Fields) :
    field (prepared rt r) key = field (stampFields r) key := by rw [field, find_prepared h, field]

theorem stamped_prepared (r : Json.Fields) : Stamped (prepared rt r) := by
  obtain ⟨hg, hrev, hsucc⟩ := stamped_stampFields r
  simp only [Stamped, isStamped, hasCurrentRevision, hasSuccessorRevision] at hg hrev hsucc ⊢
  rw [field_prepared (by decide), field_prepared (by decide), field_prepared (by decide)]
  exact ⟨hg, hrev, hsucc⟩

theorem coreOf_prepared {r : Json.Fields} (hr : InOrder r) : coreOf (prepared rt r) = coreOf (stampFields r) := by
  rw [prepared]
  split
  · exact coreOf_setId (inOrder_stampFields hr) _
  · rfl

theorem id_prepared {r : Json.Fields} (hr : InOrder r) (h : verifies rt r = true) :
    field (prepared rt r) "id" = .str (contentId rt (.obj (coreOf (prepared rt r)))) := by
  rw [coreOf_prepared hr, prepared, if_pos h, Json.field_setField_self]

theorem id_prepared_of_not {r : Json.Fields} (h : verifies rt r = false) :
    field (prepared rt r) "id" = field r "id" := by
  rw [prepared, if_neg (by rw [h]; exact Bool.false_ne_true), field_stampFields (by decide)]

variable {repr : Json → String}

theorem stamp_ok {r : Json.Fields} (h : NoForeign r) : stamp repr (.obj r) = .ok (stampFields r) := by
  have hg : ¬ (field r "wpg" ≠ .null ∧ textIs PROTOCOL_GENERATION (field r "wpg") = false) := by
    rintro ⟨hne, ht⟩
    rcases h.generation with hn | hs
    · exact hne hn
    · rw [textIs_iff.mpr hs] at ht; cases ht
  have hrev : ¬ (hasField r "wpr" = true ∧ hasCurrentRevision (.obj r) = false) := by
    rintro ⟨hf, hn⟩
    rw [hasCurrentRevision, intIs_iff.mpr (h.revision hf)] at hn
    cases hn
  have hsucc : ¬ (hasField r "wpx" = true ∧ hasSuccessorRevision (.obj r) = false) := by
    rintro ⟨hf, hn⟩
    rw [hasSuccessorRevision, intIs_iff.mpr (h.successor hf)] at hn
    cases hn
  simp only [stamp, if_neg hg, if_neg hrev, if_neg hsucc]
  rfl

theorem prepareRecord_stamped {r : Json.Fields} (h : Stamped r) :
    prepareRecord rt repr (.obj r) = .ok (.obj r) := by
  obtain ⟨hg, hrev, hsucc⟩ := h
  rw [prepareRecord, hg, hrev, hsucc]
  rfl

theorem prepareRecord_eq {r : Json.Fields} (hr : InOrder r) (h : NoForeign r) :
    prepareRecord rt repr (.obj r) = .ok (.obj (prepared rt r)) := by
  by_cases hs : Stamped r
  · -- a stamped record is returned as it is, and its id is what it would become
    have hself : prepared rt r = r := by
      rw [prepared, stampFields_of_stamped hr hs]
      split
      · rename_i hv
        exact Json.setField_of_find hr (find_of_field (by simp) (verifies_iff.mp hv).2)
      · rfl
    rw [prepareRecord_stamped hs, hself]
  · have hguard : (isStamped (.obj r) && hasCurrentRevision (.obj r) && hasSuccessorRevision (.obj r)) = false := by
      rw [← Bool.not_eq_true, Bool.and_eq_true, Bool.and_eq_true, and_assoc]
      exact hs
    rw [prepareRecord, hguard, stamp_ok h, prepared]
    cases hv : verifies rt r <;> simp [hv]

theorem Unstamped.find_eq_none {r : Json.Fields} (h : Unstamped r) {key : String} (hkey : key ∈ STAMPS) :
    Dict.find key r = none := by
  have := h key hkey
  rwa [hasField, Option.isSome_eq_false_iff, Option.isNone_iff_eq_none] at this

theorem without_stampFields {r : Json.Fields} (hr : InOrder r) (h : Unstamped r) :
    without (stampFields r) STAMPS = r := by
  refine eq_of_find (inOrder_without (inOrder_stampFields hr) _) hr fun key => ?_
  by_cases hkey : key ∈ STAMPS
  · rw [find_without_mem hkey, h.find_eq_none hkey]
  · rw [find_without hkey, find_stampFields hkey]

theorem find_without_prepared {r : Json.Fields} (hr : InOrder r) (h : Unstamped r) {key : String} (hid : key ≠ "id") :
    Dict.find key (without (prepared rt r) STAMPS) = Dict.find key r := by
  conv_rhs => rw [← without_stampFields hr h]
  by_cases hkey : key ∈ STAMPS
  · rw [find_without_mem hkey, find_without_mem hkey]
  · rw [find_without hkey, find_without hkey, find_prepared hid]

theorem unstampedRecord_prepared {r : Json.Fields} (hr : InOrder r) (h : Unstamped r)
    (hid : hasContentId r = false ∨ verifies rt r = true) : unstampedRecord rt (.obj (prepared rt r)) = .obj r := by
  have hguard : (!hasField (prepared rt r) "wpg" && !hasField (prepared rt r) "wpr" &&
      !hasField (prepared rt r) "wpx") = false := by
    rw [hasField, find_prepared (by decide)]
    simp [stampFields, find_setField]
  have ht : field (prepared rt r) "t" = field r "t" := by
    rw [field_prepared (by decide), field_stampFields (by decide)]
  rw [unstampedRecord, hguard]
  rcases hid with hid | hid
  · have hnot : verifies rt r = false := by rw [verifies, hid, Bool.false_and]
    have hnot' : verifies rt (prepared rt r) = false := by
      rw [verifies, hasContentId_congr ht (id_prepared_of_not hnot), hid, Bool.false_and]
    have hprep : prepared rt r = stampFields r := by
      rw [prepared, if_neg (by rw [hnot]; exact Bool.false_ne_true)]
    rw [hnot', hprep]
    exact congrArg Json.obj (without_stampFields hr h)
  · have hid' := id_prepared hr hid
    have hyes : verifies rt (prepared rt r) = true :=
      verifies_iff.mpr ⟨hasContentId_contentId ht hid' (verifies_iff.mp hid).1, hid'⟩
    rw [hyes]
    -- the core of what is left is the core the id was computed over
    have hin : InOrder (without (prepared rt r) STAMPS) := inOrder_without (inOrder_prepared hr) _
    have hcore : coreOf (without (prepared rt r) STAMPS) = coreOf r := by
      refine eq_of_find (inOrder_coreOf hin) (inOrder_coreOf hr) fun key => ?_
      by_cases hkey : key ∈ ["v", "id"]
      · rw [coreOf, find_without_mem hkey, coreOf, find_without_mem hkey]
      · rw [find_coreOf hkey, find_coreOf hkey, find_without_prepared hr h]
        rintro rfl
        exact hkey (by simp)
    refine congrArg Json.obj (eq_of_find (inOrder_setField _ _ hin) hr fun key => ?_)
    rw [find_setField]
    split
    · rename_i hkey
      subst hkey
      rw [find_of_field (by simp) (verifies_iff.mp hid).2]
      exact congrArg (fun core => some (Json.str (contentId rt (.obj core)))) hcore
    · rename_i hkey
      exact find_without_prepared hr h (Ne.symm hkey)

/-! ## Captures -/

inductive Shape where
  | unstamped
  | generation
  | revision
  | successor

def Shape.writerGeneration : Shape → Option String
  | unstamped => none
  | _ => some PROTOCOL_GENERATION

def Shape.writerRevision : Shape → Arg Int
  | generation => .given none
  | _ => .default

def Shape.writerSuccessor : Shape → Arg Int
  | revision => .given none
  | _ => .default

def Shape.stamps (shape : Shape) (core : Json.Fields) : Json.Fields :=
  writerCore core shape.writerGeneration shape.writerRevision shape.writerSuccessor

/-- The core of an `obs` or an `op` before its stamps. -/
structure Capture (core : Json.Fields) : Prop where
  ordered : InOrder core
  kind : field core "t" = .str "obs" ∨ field core "t" = .str "op"
  absent : ∀ key ∈ ["v", "id"] ++ STAMPS, Dict.find key core = none

theorem inOrder_stamps (shape : Shape) {core : Json.Fields} (h : InOrder core) : InOrder (shape.stamps core) := by
  cases shape
  · exact h
  · exact inOrder_setField _ _ h
  · exact inOrder_setField _ _ (inOrder_setField _ _ h)
  · exact inOrder_stampFields h

theorem find_stamps (shape : Shape) {key : String} (h : key ∉ STAMPS) (core : Json.Fields) :
    Dict.find key (shape.stamps core) = Dict.find key core := by
  have hne := h
  simp only [STAMPS, List.mem_cons, List.not_mem_nil, or_false, not_or] at hne
  cases shape
  · rfl
  · exact (find_setField ..).trans (if_neg (Ne.symm hne.1))
  · refine (find_setField ..).trans ((if_neg (Ne.symm hne.2.1)).trans ?_)
    exact (find_setField ..).trans (if_neg (Ne.symm hne.1))
  · exact find_stampFields h core

theorem noForeign_stamps (shape : Shape) {core : Json.Fields} (h : Capture core) : NoForeign (shape.stamps core) := by
  have hg := h.absent "wpg" (by simp [STAMPS])
  have hrev := h.absent "wpr" (by simp [STAMPS])
  have hsucc := h.absent "wpx" (by simp [STAMPS])
  cases shape <;> constructor <;>
    simp [Shape.stamps, writerCore, Shape.writerGeneration, Shape.writerRevision, Shape.writerSuccessor, put, Arg.or,
      field, hasField, find_setField, hg, hrev, hsucc]

variable {core : Json.Fields}

theorem find_lineOf (key : String) : Dict.find key (lineOf rt core) =
    if "id" = key then some (.str (contentId rt (.obj core)))
    else if "v" = key then some (.num LINE_VERSION) else Dict.find key core := by
  rw [lineOf, find_setField, find_setField]

theorem inOrder_lineOf (h : InOrder core) : InOrder (lineOf rt core) :=
  inOrder_setField _ _ (inOrder_setField _ _ h)

theorem coreOf_lineOf (hin : InOrder core) (hv : Dict.find "v" core = none) (hid : Dict.find "id" core = none) :
    coreOf (lineOf rt core) = core := by
  refine eq_of_find (inOrder_coreOf (inOrder_lineOf hin)) hin fun key => ?_
  by_cases hkey : key ∈ ["v", "id"]
  · rw [coreOf, find_without_mem hkey]
    simp only [List.mem_cons, List.not_mem_nil, or_false] at hkey
    rcases hkey with rfl | rfl
    · exact hv.symm
    · exact hid.symm
  · simp only [List.mem_cons, List.not_mem_nil, or_false, not_or] at hkey
    rw [find_coreOf (by simp [hkey]), find_lineOf, if_neg (Ne.symm hkey.2), if_neg (Ne.symm hkey.1)]

theorem prepared_lineOf (hin : InOrder core) (hkind : field core "t" = .str "obs" ∨ field core "t" = .str "op")
    (hv : Dict.find "v" core = none) (hid : Dict.find "id" core = none) :
    prepared rt (lineOf rt core) = lineOf rt (stampFields core) := by
  have hline : InOrder (lineOf rt core) := inOrder_lineOf hin
  have hyes : verifies rt (lineOf rt core) = true := by
    have ht : field (lineOf rt core) "t" = field core "t" := by
      rw [field, find_lineOf, if_neg (by decide), if_neg (by decide), field]
    have hfield : field (lineOf rt core) "id" = .str (contentId rt (.obj core)) := by
      rw [field, find_lineOf, if_pos rfl, Option.getD_some]
    refine verifies_iff.mpr ⟨?_, by rw [hfield, coreOf_lineOf hin hv hid]⟩
    rw [hasContentId, ht, hfield]
    rcases hkind with h | h <;> simp [h, textIs, contentId]
  have hcore : coreOf (stampFields (lineOf rt core)) = stampFields core := by
    refine eq_of_find (inOrder_coreOf (inOrder_stampFields hline)) (inOrder_stampFields hin) fun key => ?_
    by_cases hkey : key ∈ ["v", "id"]
    · rw [coreOf, find_without_mem hkey]
      simp only [List.mem_cons, List.not_mem_nil, or_false] at hkey
      rcases hkey with rfl | rfl
      · rw [find_stampFields (by decide), hv]
      · rw [find_stampFields (by decide), hid]
    · rw [find_coreOf hkey]
      by_cases hstamp : key ∈ STAMPS
      · exact find_stampFields_congr _ _ hstamp
      · simp only [List.mem_cons, List.not_mem_nil, or_false, not_or] at hkey
        rw [find_stampFields hstamp, find_stampFields hstamp, find_lineOf, if_neg (Ne.symm hkey.2),
          if_neg (Ne.symm hkey.1)]
  rw [prepared, if_pos hyes, hcore]
  refine eq_of_find (inOrder_setField _ _ (inOrder_stampFields hline)) (inOrder_lineOf (inOrder_stampFields hin))
    fun key => ?_
  rw [find_setField, find_lineOf]
  by_cases hkid : "id" = key
  · rw [if_pos hkid, if_pos hkid]
  · rw [if_neg hkid, if_neg hkid]
    by_cases hstamp : key ∈ STAMPS
    · have hkv : "v" ≠ key := by rintro rfl; exact absurd hstamp (by decide)
      rw [if_neg hkv]
      exact find_stampFields_congr _ _ hstamp
    · rw [find_stampFields hstamp, find_lineOf, if_neg hkid, find_stampFields hstamp]

theorem prepareRecord_capture (h : Capture core) (shape : Shape) :
    prepareRecord rt repr (.obj (lineOf rt (shape.stamps core))) =
      .ok (.obj (lineOf rt (Shape.successor.stamps core))) := by
  have hin := inOrder_stamps shape h.ordered
  have hv : Dict.find "v" (shape.stamps core) = none := by
    rw [find_stamps shape (by decide), h.absent _ (by simp)]
  have hid : Dict.find "id" (shape.stamps core) = none := by
    rw [find_stamps shape (by decide), h.absent _ (by simp)]
  have ht : field (shape.stamps core) "t" = field core "t" := by rw [field, find_stamps shape (by decide), field]
  have hforeign : NoForeign (lineOf rt (shape.stamps core)) := by
    have hcore := noForeign_stamps shape h
    have hfind : ∀ key ∈ STAMPS, Dict.find key (lineOf rt (shape.stamps core)) = Dict.find key (shape.stamps core) := by
      intro key hkey
      rw [find_lineOf, if_neg (by rintro rfl; exact absurd hkey (by decide)),
        if_neg (by rintro rfl; exact absurd hkey (by decide))]
    obtain ⟨hg, hrev, hsucc⟩ := hcore
    simp only [field, hasField] at hg hrev hsucc
    refine ⟨?_, ?_, ?_⟩ <;> simp only [field, hasField] <;> rw [hfind _ (by simp [STAMPS])]
    · exact hg
    · exact hrev
    · exact hsucc
  have hstamps : stampFields (shape.stamps core) = stampFields core :=
    stampFields_congr hin h.ordered fun key hkey => find_stamps shape hkey core
  rw [prepareRecord_eq (inOrder_lineOf hin) hforeign, prepared_lineOf hin (ht ▸ h.kind) hv hid, hstamps]
  rfl

theorem nodup_display {l : Json.Fields} (h : (l.map Prod.fst).Nodup) {key : String} (hkey : key ∉ l.map Prod.fst) :
    Dict.find key (sortFields l) = none := by
  rw [Json.find_sortFields h, Dict.find_eq_none]
  exact hkey

theorem capture_op (at_ src : String) (payload : Json.Fields) :
    Capture (sortFields [("t", .str "op"), ("at", .str at_), ("src", .str src), ("payload", .obj payload)]) := by
  have hnodup : (([("t", .str "op"), ("at", .str at_), ("src", .str src), ("payload", .obj payload)] :
    Json.Fields).map Prod.fst).Nodup := by simp
  refine ⟨Json.inOrder_sortFields hnodup, Or.inr ?_, fun key hkey => nodup_display hnodup ?_⟩
  · rw [Json.field_sortFields hnodup]; rfl
  · simp only [STAMPS, List.cons_append, List.nil_append, List.mem_cons, List.not_mem_nil, or_false] at hkey
    rcases hkey with rfl | rfl | rfl | rfl | rfl <;> simp

theorem capture_obs (at_ src provider : String) (payload : Json.Fields) (account : Option String) :
    Capture (put "account" (account.map .str) (sortFields [("t", .str "obs"), ("at", .str at_), ("src", .str src),
      ("provider", .str provider), ("payload", .obj payload)])) := by
  have hnodup : (([("t", .str "obs"), ("at", .str at_), ("src", .str src), ("provider", .str provider),
    ("payload", .obj payload)] : Json.Fields).map Prod.fst).Nodup := by simp
  have hput : ∀ {key : String} (d : Json.Fields), key ≠ "account" →
      Dict.find key (put "account" (account.map .str) d) = Dict.find key d := by
    intro key d hne
    cases account with
    | none => rfl
    | some account => exact (find_setField ..).trans (if_neg (Ne.symm hne))
  refine ⟨?_, Or.inl ?_, fun key hkey => ?_⟩
  · cases account with
    | none => exact Json.inOrder_sortFields hnodup
    | some account => exact inOrder_setField _ _ (Json.inOrder_sortFields hnodup)
  · rw [field, hput _ (by decide), Json.find_sortFields hnodup]; rfl
  · simp only [STAMPS, List.cons_append, List.nil_append, List.mem_cons, List.not_mem_nil, or_false] at hkey
    have hne : key ≠ "account" := by rcases hkey with rfl | rfl | rfl | rfl | rfl <;> decide
    rw [hput _ hne]
    refine nodup_display hnodup ?_
    rcases hkey with rfl | rfl | rfl | rfl | rfl <;> simp

end

/-- **Preparing a record is idempotent, moves a content id only to the content id of the stamped
core, and is undone by taking the stamps off; a capture prepared from any earlier shape is the
capture the builders make with the current stamps.** -/
theorem prepareRecord_reidentifies (rt : Runtime) (repr : Json → String) :
    (∀ r : Json.Fields, InOrder r → NoForeign r → ∃ p,
      prepareRecord rt repr (.obj r) = .ok (.obj p) ∧ prepareRecord rt repr (.obj p) = .ok (.obj p) ∧
      (verifies rt r = true → field p "id" = .str (contentId rt (.obj (coreOf p)))) ∧
      (verifies rt r = false → field p "id" = field r "id") ∧
      (Unstamped r → hasContentId r = false ∨ verifies rt r = true → unstampedRecord rt (.obj p) = .obj r)) ∧
    (∀ (at_ src provider : String) (payload : Json.Fields) (account : Option String) (shape : Shape),
      prepareRecord rt repr (.obj (makeObs rt at_ src provider payload account shape.writerGeneration
        shape.writerRevision shape.writerSuccessor)) =
        .ok (.obj (makeObs rt at_ src provider payload account (some PROTOCOL_GENERATION) .default .default))) ∧
    (∀ (at_ src : String) (payload : Json.Fields) (shape : Shape),
      prepareRecord rt repr (.obj (makeOp rt at_ src payload shape.writerGeneration shape.writerRevision
        shape.writerSuccessor)) =
        .ok (.obj (makeOp rt at_ src payload (some PROTOCOL_GENERATION) .default .default))) := by
  refine ⟨fun r hr hf => ?_, fun at_ src provider payload account shape => ?_, fun at_ src payload shape => ?_⟩
  · exact ⟨prepared rt r, prepareRecord_eq hr hf, prepareRecord_stamped (stamped_prepared r), id_prepared hr,
      id_prepared_of_not, unstampedRecord_prepared hr⟩
  · exact prepareRecord_capture (capture_obs at_ src provider payload account) shape
  · exact prepareRecord_capture (capture_op at_ src payload) shape

end Cctally.RecordStamps
