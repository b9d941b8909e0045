import Cctally.CostBatches
import Cctally.Packing
import Mathlib

/-!
# The lines of a group are the greedy ones

The length of a line is a constant of its group and a sum over its items and its
fresh evidence, which is what the arithmetic adds. A batch is built exactly when
its parts are valid, so a member that cannot be built stops both loops.
-/

namespace Cctally.CostBatches

open AccountProtocol (PROTOCOL_GENERATION)
open RecordStamps (put lineOf prepareRecord)
open Json (field hasField setField sortFields InOrder jsonLen fieldLen fieldsLen itemsLen)

/-! ## The length of a line -/

theorem find_put (key k : String) (value : Option Json) (d : Json.Fields) :
    Dict.find k (put key value d) = if key = k then value.or (Dict.find k d) else Dict.find k d := by
  cases value with
  | none => simp [put]
  | some v =>
    rw [put, Json.find_setField]
    split <;> simp

theorem inOrder_put (key : String) (value : Option Json) {d : Json.Fields} (h : InOrder d) :
    InOrder (put key value d) := by
  cases value with
  | none => exact h
  | some v => exact Json.inOrder_setField _ _ h

theorem put_ne_nil (key : String) (value : Option Json) {d : Json.Fields} (h : d ≠ []) : put key value d ≠ [] := by
  cases value with
  | none => exact h
  | some v => exact Json.setField_ne_nil _ _ _

theorem fieldsLen_put {key : String} (value : Option Json) {d : Json.Fields} (h : Dict.find key d = none) :
    fieldsLen (put key value d) = fieldsLen d + (value.map fun v => fieldLen (key, v)).getD 0 := by
  cases value with
  | none => rfl
  | some v => exact Json.fieldsLen_setField v h

def basePayload (h : Header) : Json.Fields :=
  put "closing_capture" (h.closingCapture.map .obj) (put "account_key" (h.accountKey.map .str)
    (put "reason" (h.reason.map .str) (sortFields [("kind", .str CLAUDE_COST_ACCOUNT_KIND),
      ("v", .num CLAUDE_COST_ACCOUNT_VERSION), ("rule", .num RULE_VERSION), ("basis", .str h.basis),
      ("decided_at", .str h.decidedAt), ("journal_hw", .arr [.str h.journalHw.1, .num h.journalHw.2])])))

def itemsJson (items : List (List Json)) : Json := .arr (items.map .arr)

def evidenceJson (evidence : List (List Json)) : Option Json :=
  if evidence = [] then none else some (.arr (evidence.map .arr))

theorem inOrder_basePayload (h : Header) : InOrder (basePayload h) :=
  inOrder_put _ _ (inOrder_put _ _ (inOrder_put _ _ (Json.inOrder_sortFields (by simp))))

theorem find_basePayload_items (h : Header) : Dict.find "items" (basePayload h) = none := by
  simp [basePayload, find_put, Json.find_sortFields, Dict.find]

theorem find_basePayload_evidence (h : Header) : Dict.find "evidence" (basePayload h) = none := by
  simp [basePayload, find_put, Json.find_sortFields, Dict.find]

theorem payload_items (h : Header) (items : List (List Json)) :
    put "closing_capture" (h.closingCapture.map .obj) (put "account_key" (h.accountKey.map .str)
      (put "reason" (h.reason.map .str) (sortFields [("kind", .str CLAUDE_COST_ACCOUNT_KIND),
        ("v", .num CLAUDE_COST_ACCOUNT_VERSION), ("rule", .num RULE_VERSION), ("basis", .str h.basis),
        ("decided_at", .str h.decidedAt), ("journal_hw", .arr [.str h.journalHw.1, .num h.journalHw.2]),
        ("items", itemsJson items)]))) = setField "items" (itemsJson items) (basePayload h) := by
  refine Json.eq_of_find (inOrder_put _ _ (inOrder_put _ _ (inOrder_put _ _ (Json.inOrder_sortFields (by simp)))))
    (Json.inOrder_setField _ _ (inOrder_basePayload h)) fun key => ?_
  by_cases hkey : "items" = key
  · subst hkey
    simp [basePayload, find_put, Json.find_setField, Json.find_sortFields, Dict.find]
  · rw [Json.find_setField, if_neg hkey]
    simp [basePayload, find_put, Json.find_sortFields, Dict.find, hkey]

theorem payloadOf_eq (h : Header) (evidence items : List (List Json)) : payloadOf h evidence items =
    put "evidence" (evidenceJson evidence) (setField "items" (itemsJson items) (basePayload h)) :=
  congrArg (put "evidence" (evidenceJson evidence)) (payload_items h items)

theorem size_quoted_items : (Json.quoted "items").utf8ByteSize = 7 := by decide

theorem size_quoted_evidence : (Json.quoted "evidence").utf8ByteSize = 10 := by decide

def evidenceLen (evidence : List (List Json)) : Nat :=
  if evidence = [] then 0 else EVIDENCE_KEY_LEN + itemsLen (evidence.map .arr)

theorem evidenceLen_eq (evidence : List (List Json)) :
    ((evidenceJson evidence).map fun v => fieldLen ("evidence", v)).getD 0 = evidenceLen evidence := by
  rw [evidenceJson, evidenceLen]
  split
  · rfl
  · rename_i hne
    have harr := @Json.jsonLen_arr (evidence.map .arr) (by simpa using hne)
    have hkey : EVIDENCE_KEY_LEN = 13 := by decide
    simp only [Option.map_some, Option.getD_some, fieldLen, size_quoted_evidence, harr, hkey]
    omega

theorem jsonLen_payloadOf (h : Header) (evidence : List (List Json)) {items : List (List Json)} (hne : items ≠ []) :
    jsonLen (.obj (payloadOf h evidence items)) =
      fieldsLen (basePayload h) + 11 + itemsLen (items.map .arr) + evidenceLen evidence := by
  have harr := @Json.jsonLen_arr (items.map .arr) (by simpa using hne)
  have hfind : Dict.find "evidence" (setField "items" (itemsJson items) (basePayload h)) = none := by
    rw [Json.find_setField, if_neg (by decide), find_basePayload_evidence]
  have hitem : fieldLen ("items", itemsJson items) = 10 + itemsLen (items.map .arr) := by
    rw [fieldLen, size_quoted_items, itemsJson, harr]
    omega
  rw [payloadOf_eq, Json.jsonLen_obj (put_ne_nil _ _ (Json.setField_ne_nil _ _ _)), fieldsLen_put _ hfind,
    Json.fieldsLen_setField _ (find_basePayload_items h), evidenceLen_eq, hitem]
  omega

section
variable (rt : Runtime) (tx : Texts)

theorem inOrder_writerCore {core : Json.Fields} (h : InOrder core) (generation : Option String)
    (revision successor : RecordStamps.Arg Int) : InOrder (RecordStamps.writerCore core generation revision successor) :=
  inOrder_put _ _ (inOrder_put _ _ (inOrder_put _ _ h))

def opBase (decidedAt : String) : Json.Fields :=
  RecordStamps.writerCore (sortFields [("t", .str "op"), ("at", .str decidedAt), ("src", .str CLAUDE_COST_ACCOUNT_SRC)])
    (some PROTOCOL_GENERATION) .default .default

def recordOf (h : Header) (evidence items : List (List Json)) : Json.Fields :=
  RecordStamps.makeOp rt h.decidedAt CLAUDE_COST_ACCOUNT_SRC (payloadOf h evidence items) (some PROTOCOL_GENERATION)
    .default .default

theorem core_eq (decidedAt : String) (payload : Json.Fields) :
    RecordStamps.writerCore (sortFields [("t", .str "op"), ("at", .str decidedAt),
      ("src", .str CLAUDE_COST_ACCOUNT_SRC), ("payload", .obj payload)]) (some PROTOCOL_GENERATION) .default .default =
      setField "payload" (.obj payload) (opBase decidedAt) := by
  have hin : InOrder (opBase decidedAt) := inOrder_writerCore (Json.inOrder_sortFields (by simp)) _ _ _
  refine Json.eq_of_find (inOrder_writerCore (Json.inOrder_sortFields (by simp)) _ _ _)
    (Json.inOrder_setField _ _ hin) fun key => ?_
  by_cases hkey : "payload" = key
  · subst hkey
    simp [RecordStamps.writerCore, find_put, Json.find_setField, Json.find_sortFields, Dict.find]
  · rw [Json.find_setField, if_neg hkey]
    simp [opBase, RecordStamps.writerCore, find_put, Json.find_sortFields, Dict.find, hkey]

theorem find_opBase {key : String} (hkey : key ∈ ["payload", "v", "id"]) (decidedAt : String) :
    Dict.find key (opBase decidedAt) = none := by
  simp only [List.mem_cons, List.not_mem_nil, or_false] at hkey
  rcases hkey with rfl | rfl | rfl <;>
    simp [opBase, RecordStamps.writerCore, find_put, Json.find_sortFields, Dict.find]

theorem encodedLen_recordOf (h : Header) (evidence items : List (List Json)) :
    encodedLen rt tx (recordOf rt h evidence items) = .ok (jsonLen (.obj (recordOf rt h evidence items)) + 1) := by
  have hprep : prepareRecord rt tx.repr (.obj (recordOf rt h evidence items)) = .ok (.obj (recordOf rt h evidence items)) :=
    RecordStamps.prepareRecord_capture
      (RecordStamps.capture_op h.decidedAt CLAUDE_COST_ACCOUNT_SRC (payloadOf h evidence items)) .successor
  rw [encodedLen, hprep]
  exact congrArg Except.ok (Json.length_encodeLine _)

/-- What a line takes beside its items and its evidence, the id being `idLen` long. -/
def overhead (idLen : Nat) (h : Header) : Nat :=
  fieldsLen (opBase h.decidedAt) + (Json.quoted "payload").utf8ByteSize + fieldsLen (basePayload h) +
    fieldLen ("v", .num LINE_VERSION) + (Json.quoted "id").utf8ByteSize + idLen + 17

variable {idLen : Nat}

theorem jsonLen_recordOf (hid : ∀ core, jsonLen (.str (contentId rt core)) = idLen) (h : Header)
    (evidence : List (List Json)) {items : List (List Json)} (hne : items ≠ []) :
    jsonLen (.obj (recordOf rt h evidence items)) + 1 =
      overhead idLen h + itemsLen (items.map .arr) + evidenceLen evidence := by
  have hcore := @find_opBase "payload" (by simp) h.decidedAt
  have hv : Dict.find "v" (setField "payload" (.obj (payloadOf h evidence items)) (opBase h.decidedAt)) = none := by
    rw [Json.find_setField, if_neg (by decide), find_opBase (by simp)]
  have hidfind : Dict.find "id" (setField "v" (.num LINE_VERSION)
      (setField "payload" (.obj (payloadOf h evidence items)) (opBase h.decidedAt))) = none := by
    rw [Json.find_setField, if_neg (by decide), Json.find_setField, if_neg (by decide), find_opBase (by simp)]
  rw [recordOf, RecordStamps.makeOp, core_eq, lineOf, Json.jsonLen_obj (Json.setField_ne_nil _ _ _),
    Json.fieldsLen_setField _ hidfind, Json.fieldsLen_setField _ hv, Json.fieldsLen_setField _ hcore]
  simp only [fieldLen, hid, jsonLen_payloadOf h evidence hne, overhead]
  omega

end

/-! ## Fresh evidence -/

section
variable (fl : Json.Floats)

def Hashable (entry : List Json) : Prop := ∀ v ∈ entry, (Json.key fl v).isSome = true

def marks (entry : List Json) : Marker := entry.filterMap (Json.key fl)

local instance lawfulMarker : LawfulBEq Marker := inferInstance

def dedupe (seen : List Marker) : List (List Json) → List (List Json)
  | [] => []
  | e :: rest => if marks fl e ∈ seen then dedupe seen rest else e :: dedupe (marks fl e :: seen) rest

variable {fl}

theorem markerOf_eq_ok : ∀ {entry : List Json} {marker : Marker},
    markerOf fl entry = .ok marker ↔ Hashable fl entry ∧ marker = marks fl entry
  | [], marker => by
    rw [markerOf, List.mapM_nil, Except.pure_eq_ok]
    simp [Hashable, marks]
  | v :: rest, marker => by
    have ih := @markerOf_eq_ok rest
    rw [markerOf] at ih ⊢
    rw [Except.mapM_cons]
    simp only [ih]
    cases hkey : Json.key fl v with
    | none => simp [Hashable, hkey]
    | some k =>
      constructor
      · rintro ⟨k', ks, hk, ⟨hrest, rfl⟩, rfl⟩
        rw [Except.pure_eq_ok] at hk
        subst hk
        refine ⟨fun w hw => ?_, by simp only [marks, List.filterMap_cons_some hkey]⟩
        rcases List.mem_cons.mp hw with rfl | hw
        · rw [hkey]
          rfl
        · exact hrest w hw
      · rintro ⟨hall, rfl⟩
        refine ⟨k, marks fl rest, rfl, ⟨fun w hw => hall w (List.mem_cons_of_mem _ hw), rfl⟩, ?_⟩
        simp only [marks, List.filterMap_cons_some hkey]

theorem dedupe_congr : ∀ {entries : List (List Json)} {seen seen' : List Marker}, (∀ k, k ∈ seen ↔ k ∈ seen') →
    dedupe fl seen entries = dedupe fl seen' entries
  | [], _, _, _ => rfl
  | e :: rest, seen, seen', h => by
    have hcons : ∀ k, k ∈ marks fl e :: seen ↔ k ∈ marks fl e :: seen' := fun k => by
      rw [List.mem_cons, List.mem_cons, h k]
    rw [dedupe, dedupe, dedupe_congr h, dedupe_congr hcons]
    simp only [h]

theorem dedupe_append : ∀ (xs ys : List (List Json)) (seen : List Marker),
    dedupe fl seen (xs ++ ys) = dedupe fl seen xs ++ dedupe fl (xs.map (marks fl) ++ seen) ys
  | [], ys, seen => rfl
  | x :: xs, ys, seen => by
    rw [List.cons_append, dedupe, dedupe]
    split
    · rename_i hseen
      rw [dedupe_append xs ys seen]
      refine congrArg _ (dedupe_congr fun k => ?_)
      simp only [List.mem_append, List.map_cons, List.mem_cons]
      constructor
      · exact fun h => h.imp .inr id
      · rintro ((rfl | h) | h)
        · exact .inr hseen
        · exact .inl h
        · exact .inr h
    · rw [dedupe_append xs ys, List.cons_append]
      refine congrArg _ (congrArg _ (dedupe_congr fun k => ?_))
      simp only [List.mem_append, List.map_cons, List.mem_cons]
      tauto

theorem mem_dedupe : ∀ {entries : List (List Json)} {seen : List Marker} {e : List Json},
    e ∈ dedupe fl seen entries → e ∈ entries
  | [], _, _, h => absurd h List.not_mem_nil
  | x :: rest, seen, e, h => by
    rw [dedupe] at h
    split at h
    · exact List.mem_cons_of_mem _ (mem_dedupe h)
    · rcases List.mem_cons.mp h with rfl | h
      · exact List.mem_cons_self ..
      · exact List.mem_cons_of_mem _ (mem_dedupe h)

theorem mem_map_dedupe : ∀ {entries : List (List Json)} {seen : List Marker} {e : List Json}, e ∈ entries →
    marks fl e ∉ seen → marks fl e ∈ (dedupe fl seen entries).map (marks fl)
  | x :: rest, seen, e, he, hnot => by
    rw [dedupe]
    by_cases hsame : marks fl e = marks fl x
    · rw [if_neg (hsame ▸ hnot), List.map_cons, hsame]
      exact List.mem_cons_self ..
    · have he : e ∈ rest := (List.mem_cons.mp he).resolve_left fun heq => hsame (congrArg (marks fl) heq)
      split
      · exact mem_map_dedupe he hnot
      · refine List.mem_cons_of_mem _ (mem_map_dedupe he fun hmem => ?_)
        exact (List.mem_cons.mp hmem).elim hsame hnot

theorem dedupe_anti : ∀ {entries : List (List Json)} {seen seen' : List Marker}, (∀ k ∈ seen, k ∈ seen') →
    ∀ e ∈ dedupe fl seen' entries, e ∈ dedupe fl seen entries
  | [], _, _, _, _, h => absurd h List.not_mem_nil
  | x :: rest, seen, seen', hsub, e, h => by
    rw [dedupe] at h ⊢
    by_cases hx : marks fl x ∈ seen
    · rw [if_pos hx]
      rw [if_pos (hsub _ hx)] at h
      exact dedupe_anti hsub e h
    · rw [if_neg hx]
      by_cases hx' : marks fl x ∈ seen'
      · rw [if_pos hx'] at h
        have hsub' : ∀ k ∈ marks fl x :: seen, k ∈ seen' := fun k hk => by
          rcases List.mem_cons.mp hk with rfl | hk
          · exact hx'
          · exact hsub k hk
        exact List.mem_cons_of_mem _ (dedupe_anti hsub' e h)
      · rw [if_neg hx'] at h
        have hsub' : ∀ k ∈ marks fl x :: seen, k ∈ marks fl x :: seen' := fun k hk => by
          rcases List.mem_cons.mp hk with rfl | hk
          · exact List.mem_cons_self ..
          · exact List.mem_cons_of_mem _ (hsub k hk)
        rcases List.mem_cons.mp h with rfl | h
        · exact List.mem_cons_self ..
        · exact List.mem_cons_of_mem _ (dedupe_anti hsub' e h)

theorem dedupe_eq_nil : ∀ {entries : List (List Json)}, dedupe fl [] entries = [] ↔ entries = []
  | [] => by simp [dedupe]
  | e :: rest => by simp [dedupe]

theorem foldlM_addFresh {seen : List Marker} : ∀ {entries : List (List Json)} {acc acc' : List Marker × List (List Json)},
    entries.foldlM (addFresh fl seen) acc = .ok acc' ↔ (∀ e ∈ entries, Hashable fl e) ∧
      acc' = (((dedupe fl (acc.1 ++ seen) entries).map (marks fl)).reverse ++ acc.1,
        acc.2 ++ dedupe fl (acc.1 ++ seen) entries)
  | [], acc, acc' => by
    rw [List.foldlM_nil, Except.pure_eq_ok]
    simp [dedupe]
  | e :: rest, acc, acc' => by
    simp only [Except.foldlM_cons, addFresh, Except.bind_eq_ok, markerOf_eq_ok, Except.pure_eq_ok]
    have hstep : ∀ {b : List Marker × List (List Json)}, b = (if marks fl e ∉ seen ∧ marks fl e ∉ acc.1 then
        (marks fl e :: acc.1, acc.2 ++ [e]) else acc) →
        (rest.foldlM (addFresh fl seen) b = .ok acc' ↔ (∀ x ∈ rest, Hashable fl x) ∧
          acc' = (((dedupe fl (acc.1 ++ seen) (e :: rest)).map (marks fl)).reverse ++ acc.1,
            acc.2 ++ dedupe fl (acc.1 ++ seen) (e :: rest))) := by
      intro b hb
      rw [@foldlM_addFresh seen rest, dedupe, hb]
      by_cases hin : marks fl e ∈ acc.1 ++ seen
      · have hnot : ¬ (marks fl e ∉ seen ∧ marks fl e ∉ acc.1) := by
          rw [List.mem_append] at hin
          tauto
        rw [if_neg hnot, if_pos hin]
      · have hyes : marks fl e ∉ seen ∧ marks fl e ∉ acc.1 := by
          rw [List.mem_append] at hin
          tauto
        rw [if_pos hyes, if_neg hin]
        simp [List.append_assoc]
    constructor
    · rintro ⟨b, ⟨_, ⟨he, rfl⟩, hb⟩, hrest⟩
      obtain ⟨hall, hacc⟩ := (hstep hb).mp hrest
      exact ⟨List.forall_mem_cons.mpr ⟨he, hall⟩, hacc⟩
    · rintro ⟨hall, hacc⟩
      obtain ⟨he, hall⟩ := List.forall_mem_cons.mp hall
      exact ⟨_, ⟨_, ⟨he, rfl⟩, rfl⟩, (hstep rfl).mpr ⟨hall, hacc⟩⟩

end

/-! ## Valid batches -/

theorem keys_put {key k : String} {value : Option Json} {d : Json.Fields} (h : k ∈ (put key value d).map Prod.fst) :
    k = key ∨ k ∈ d.map Prod.fst := by
  cases value with
  | none => exact .inr h
  | some v => exact Json.mem_keys_setField h

theorem keys_payloadOf {h : Header} {evidence items : List (List Json)} :
    ∀ k ∈ (payloadOf h evidence items).map Prod.fst, k ∈ CLAUDE_COST_ACCOUNT_KEYS := by
  intro k hk
  rcases keys_put hk with rfl | hk
  · simp [CLAUDE_COST_ACCOUNT_KEYS]
  rcases keys_put hk with rfl | hk
  · simp [CLAUDE_COST_ACCOUNT_KEYS]
  rcases keys_put hk with rfl | hk
  · simp [CLAUDE_COST_ACCOUNT_KEYS]
  rcases keys_put hk with rfl | hk
  · simp [CLAUDE_COST_ACCOUNT_KEYS]
  have hk := ((Json.perm_sortFields _).map Prod.fst).mem_iff.mp hk
  have hsub : ∀ k ∈ ["kind", "v", "rule", "basis", "decided_at", "journal_hw", "items"],
      k ∈ CLAUDE_COST_ACCOUNT_KEYS := by decide
  exact hsub k hk

theorem find_payloadOf {key : String} (hkey : key ∉ ["items", "evidence"]) (h : Header)
    (evidence items : List (List Json)) : Dict.find key (payloadOf h evidence items) = Dict.find key (basePayload h) := by
  simp only [List.mem_cons, List.not_mem_nil, or_false, not_or] at hkey
  rw [payloadOf_eq, find_put, if_neg (Ne.symm hkey.2), Json.find_setField, if_neg (Ne.symm hkey.1)]

theorem find_payloadOf_items (h : Header) (evidence items : List (List Json)) :
    Dict.find "items" (payloadOf h evidence items) = some (itemsJson items) := by
  rw [payloadOf_eq, find_put, if_neg (by decide), Json.find_setField, if_pos rfl]

theorem find_payloadOf_evidence (h : Header) (evidence items : List (List Json)) :
    Dict.find "evidence" (payloadOf h evidence items) = evidenceJson evidence := by
  rw [payloadOf_eq, find_put, if_pos rfl, Json.find_setField, if_neg (by decide), find_basePayload_evidence, Option.or_none]

theorem field_payloadOf_basis (h : Header) (evidence items : List (List Json)) :
    field (payloadOf h evidence items) "basis" = .str h.basis := by
  rw [field, find_payloadOf (by decide)]
  simp [basePayload, find_put, Json.find_sortFields, Dict.find]

section
variable (tx : Texts)

theorem validateHeader_payloadOf (h : Header) (evidence items : List (List Json)) :
    validateHeader tx (payloadOf h evidence items) = validateHeader tx (basePayload h) := by
  have hknown : ∀ d : Json.Fields, (∀ k ∈ d.map Prod.fst, k ∈ CLAUDE_COST_ACCOUNT_KEYS) →
      (d.map Prod.fst).filter (fun key => !CLAUDE_COST_ACCOUNT_KEYS.contains key) = [] := by
    intro d hd
    rw [List.filter_eq_nil_iff]
    intro k hk
    simpa using hd k hk
  have hbase : ∀ k ∈ (basePayload h).map Prod.fst, k ∈ CLAUDE_COST_ACCOUNT_KEYS := by
    intro k hk
    by_cases hnot : k ∈ ["items", "evidence"]
    · simp only [List.mem_cons, List.not_mem_nil, or_false] at hnot
      rcases hnot with rfl | rfl <;> simp [CLAUDE_COST_ACCOUNT_KEYS]
    · refine @keys_payloadOf h [] [] k ?_
      by_contra hk'
      rw [← Dict.find_eq_none, find_payloadOf hnot, Dict.find_eq_none] at hk'
      exact hk' hk
  simp only [validateHeader, field, hasField, hknown _ keys_payloadOf, hknown _ hbase,
    @find_payloadOf "kind" (by decide), @find_payloadOf "v" (by decide),
    @find_payloadOf "rule" (by decide), @find_payloadOf "basis" (by decide),
    @find_payloadOf "reason" (by decide), @find_payloadOf "account_key" (by decide),
    @find_payloadOf "decided_at" (by decide), @find_payloadOf "journal_hw" (by decide),
    @find_payloadOf "closing_capture" (by decide)]
  rfl

theorem require_eq_ok {ok : Bool} {msg : String} {u : Unit} : require ok msg = .ok u ↔ ok = true := by
  cases ok with
  | false => simp [require]
  | true => simp [require, pure, Except.pure]

theorem validateEvidence_eq_ok {h : Header} {evidence items : List (List Json)} {u : Unit} :
    validateEvidence tx (payloadOf h evidence items) = .ok u ↔
      ∀ e ∈ evidence, h.basis ≠ BASIS_PRESERVED ∧ validEntry tx (.arr e) = true := by
  rw [validateEvidence, field_payloadOf_basis, hasField, field, find_payloadOf_evidence, evidenceJson]
  by_cases hnil : evidence = []
  · subst hnil
    simp [pure, Except.pure]
  · rw [if_neg hnil]
    simp only [Option.isSome_some, if_true, Option.getD_some, isList, elements]
    obtain ⟨e, he⟩ := List.exists_mem_of_ne_nil _ hnil
    simp only [Except.bind_eq_ok, require_eq_ok, exists_const, List.all_map, List.all_eq_true, Function.comp_apply,
      bne_iff_ne, ne_eq, Json.str.injEq, true_and]
    exact ⟨fun hok x hx => ⟨hok.1, hok.2 x hx⟩, fun hall => ⟨(hall e he).1, fun x hx => (hall x hx).2⟩⟩

theorem validateItems_eq_ok {h : Header} {evidence items : List (List Json)} {u : Unit} :
    validateItems tx (payloadOf h evidence items) = .ok u ↔
      items ≠ [] ∧ ∀ i ∈ items, validateClaudeCostItem tx (.str h.basis) (.arr i) = .ok () := by
  have hloop : ∀ l : List (List Json), forM (l.map Json.arr) (validateClaudeCostItem tx (.str h.basis)) = .ok () ↔
      ∀ i ∈ l, validateClaudeCostItem tx (.str h.basis) (.arr i) = .ok () := by
    intro l
    induction l with
    | nil => simp [pure, Except.pure]
    | cons i l ih =>
      rw [List.map_cons, List.forM_cons, Except.bind_eq_ok, List.forall_mem_cons, ih]
      exact ⟨fun ⟨_, hi, hl⟩ => ⟨hi, hl⟩, fun ⟨hi, hl⟩ => ⟨(), hi, hl⟩⟩
  rw [validateItems, field_payloadOf_basis, field, find_payloadOf_items, Option.getD_some, itemsJson, elements]
  simp only [Except.bind_eq_ok, require_eq_ok, exists_const, hloop, Bool.not_eq_true', List.isEmpty_eq_false_iff, ne_eq,
    List.map_eq_nil_iff]

end

section
variable (rt : Runtime) (tx : Texts) (fl : Json.Floats) {Identity : Type} (agreement : Bool) (h : Header)

def entriesOf (chunk : List (Member Identity)) : List (List Json) :=
  if agreement then chunk.flatMap (·.evidence) else []

def evidenceOf (chunk : List (Member Identity)) : List (List Json) := dedupe fl [] (entriesOf agreement chunk)

structure Good (chunk : List (Member Identity)) : Prop where
  hashable : ∀ m ∈ chunk, ∀ e ∈ m.evidence, Hashable fl e
  header : validateHeader tx (basePayload h) = .ok ()
  evidence : ∀ e ∈ evidenceOf fl agreement chunk, h.basis ≠ BASIS_PRESERVED ∧ validEntry tx (.arr e) = true
  nonempty : chunk ≠ []
  items : ∀ m ∈ chunk, validateClaudeCostItem tx (.str h.basis) (.arr m.item) = .ok ()

def chunkRecord (chunk : List (Member Identity)) : Json.Fields :=
  recordOf rt h (evidenceOf fl agreement chunk) (chunk.map (·.item))

variable {rt tx fl agreement h}

theorem make_eq_ok {evidence items : List (List Json)} {r : Json.Fields} :
    makeClaudeCostAccount rt tx h evidence items = .ok r ↔ (validateHeader tx (basePayload h) = .ok () ∧
      (∀ e ∈ evidence, h.basis ≠ BASIS_PRESERVED ∧ validEntry tx (.arr e) = true) ∧ items ≠ [] ∧
      ∀ i ∈ items, validateClaudeCostItem tx (.str h.basis) (.arr i) = .ok ()) ∧ r = recordOf rt h evidence items := by
  simp only [makeClaudeCostAccount, claudeCostAccountOpUnvalidated, validateClaudeCostAccount, Except.bind_eq_ok,
    Except.pure_eq_ok, validateHeader_payloadOf, validateEvidence_eq_ok, validateItems_eq_ok]
  constructor
  · rintro ⟨_, rfl, _, ⟨_, hh, _, he, hi⟩, rfl⟩
    exact ⟨⟨hh, he, hi⟩, rfl⟩
  · rintro ⟨⟨hh, he, hi⟩, rfl⟩
    exact ⟨_, rfl, (), ⟨(), hh, (), he, hi⟩, rfl⟩

theorem build_eq_ok {factory : Factory} {chunk : List (Member Identity)} {r : Json.Fields} :
    build fl agreement factory h chunk = .ok r ↔ (∀ m ∈ chunk, ∀ e ∈ m.evidence, Hashable fl e) ∧
      factory h (evidenceOf fl agreement chunk) (chunk.map (·.item)) = .ok r := by
  have hevidence : (if agreement then dedupe fl [] (chunk.flatMap (·.evidence)) else []) =
      evidenceOf fl agreement chunk := by
    cases agreement <;> rfl
  have hall : (∀ e ∈ chunk.flatMap (·.evidence), Hashable fl e) ↔ ∀ m ∈ chunk, ∀ e ∈ m.evidence, Hashable fl e := by
    simp only [List.mem_flatMap]
    exact ⟨fun hall m hm e he => hall e ⟨m, hm, he⟩, fun hall e ⟨m, hm, he⟩ => hall m hm e he⟩
  rw [build, Except.bind_eq_ok]
  simp only [foldlM_addFresh, hall, List.nil_append]
  constructor
  · rintro ⟨_, ⟨hhash, rfl⟩, hr⟩
    exact ⟨hhash, hevidence ▸ hr⟩
  · rintro ⟨hhash, hr⟩
    exact ⟨_, ⟨hhash, rfl⟩, by rw [hevidence]; exact hr⟩

theorem build_make_eq_ok {chunk : List (Member Identity)} {r : Json.Fields} :
    build fl agreement (makeClaudeCostAccount rt tx) h chunk = .ok r ↔
      Good tx fl agreement h chunk ∧ r = chunkRecord rt fl agreement h chunk := by
  rw [build_eq_ok, make_eq_ok, chunkRecord]
  simp only [List.map_eq_nil_iff, List.forall_mem_map, ne_eq]
  exact ⟨fun ⟨hhash, ⟨hh, he, hne, hi⟩, hr⟩ => ⟨⟨hhash, hh, he, hne, hi⟩, hr⟩,
    fun ⟨g, hr⟩ => ⟨g.hashable, ⟨g.header, g.evidence, g.nonempty, g.items⟩, hr⟩⟩

theorem entriesOf_append (chunk chunk' : List (Member Identity)) :
    entriesOf agreement (chunk ++ chunk') = entriesOf agreement chunk ++ entriesOf agreement chunk' := by
  cases agreement with
  | false => rfl
  | true => exact List.flatMap_append

theorem evidenceOf_append (chunk chunk' : List (Member Identity)) : evidenceOf fl agreement (chunk ++ chunk') =
    evidenceOf fl agreement chunk ++
      dedupe fl ((entriesOf agreement chunk).map (marks fl)) (entriesOf agreement chunk') := by
  rw [evidenceOf, entriesOf_append, dedupe_append, List.append_nil, evidenceOf]

theorem Good.left {chunk chunk' : List (Member Identity)} (g : Good tx fl agreement h (chunk ++ chunk'))
    (hne : chunk ≠ []) : Good tx fl agreement h chunk where
  hashable m hm := g.hashable m (List.mem_append_left _ hm)
  header := g.header
  evidence e he := g.evidence e (by rw [evidenceOf_append]; exact List.mem_append_left _ he)
  nonempty := hne
  items m hm := g.items m (List.mem_append_left _ hm)

theorem Good.append {chunk chunk' : List (Member Identity)} (g : Good tx fl agreement h chunk)
    (g' : Good tx fl agreement h chunk') : Good tx fl agreement h (chunk ++ chunk') where
  hashable m hm := (List.mem_append.mp hm).elim (g.hashable m) (g'.hashable m)
  header := g.header
  evidence e he := by
    rw [evidenceOf_append] at he
    rcases List.mem_append.mp he with he | he
    · exact g.evidence e he
    · exact g'.evidence e (dedupe_anti (fun k hk => absurd hk List.not_mem_nil) e he)
  nonempty := by
    intro hnil
    exact g.nonempty (List.append_eq_nil_iff.mp hnil).1
  items m hm := (List.mem_append.mp hm).elim (g.items m) (g'.items m)

variable (fl agreement h) in
def lineLen (idLen : Nat) (chunk : List (Member Identity)) : Nat :=
  overhead idLen h + itemsLen (chunk.map fun m => .arr m.item) + evidenceLen (evidenceOf fl agreement chunk)

variable {idLen : Nat}

theorem encodedLen_chunkRecord (hid : ∀ core, jsonLen (.str (contentId rt core)) = idLen)
    {chunk : List (Member Identity)} (hne : chunk ≠ []) :
    encodedLen rt tx (chunkRecord rt fl agreement h chunk) = .ok (lineLen fl agreement h idLen chunk) := by
  have hitems : chunk.map (·.item) ≠ [] := by simpa using hne
  rw [chunkRecord, encodedLen_recordOf, jsonLen_recordOf rt hid h _ hitems, List.map_map]
  rfl

theorem lineLen_snoc (chunk : List (Member Identity)) (m : Member Identity) {seen : List Marker}
    (hseen : ∀ k, k ∈ seen ↔ k ∈ (entriesOf agreement chunk).map (marks fl)) :
    lineLen fl agreement h idLen (chunk ++ [m]) =
      (if dedupe fl seen (if agreement then m.evidence else []) = [] then
        lineLen fl agreement h idLen chunk + jsonLen (.arr m.item) + 1
      else if seen = [] then lineLen fl agreement h idLen chunk + jsonLen (.arr m.item) + 1 +
        ((dedupe fl seen (if agreement then m.evidence else [])).map fun e => jsonLen (.arr e) + 1).sum + EVIDENCE_KEY_LEN
      else lineLen fl agreement h idLen chunk + jsonLen (.arr m.item) + 1 +
        ((dedupe fl seen (if agreement then m.evidence else [])).map fun e => jsonLen (.arr e) + 1).sum) := by
  have hone : entriesOf agreement [m] = if agreement then m.evidence else [] := by
    cases agreement with
    | false => rfl
    | true => exact List.flatMap_singleton _ _
  have hitems : itemsLen ((chunk ++ [m]).map fun m => Json.arr m.item) =
      itemsLen (chunk.map fun m => .arr m.item) + (jsonLen (.arr m.item) + 1) := by
    rw [List.map_append, Json.itemsLen_append]
    rfl
  have hfresh : ∀ fresh : List (List Json), (fresh.map fun e => jsonLen (.arr e) + 1).sum = itemsLen (fresh.map .arr) := by
    intro fresh
    rw [itemsLen, List.map_map]
    rfl
  have hnil : seen = [] ↔ evidenceOf fl agreement chunk = [] := by
    rw [evidenceOf, dedupe_eq_nil, ← List.map_eq_nil_iff (f := marks fl), List.eq_nil_iff_forall_not_mem,
      List.eq_nil_iff_forall_not_mem]
    simp only [hseen]
  rw [lineLen, lineLen, hitems, evidenceOf_append, hone, ← dedupe_congr hseen]
  generalize dedupe fl seen (if agreement then m.evidence else []) = fresh
  simp only [hfresh, hnil, evidenceLen, List.append_eq_nil_iff]
  by_cases hf : fresh = []
  · subst hf
    simp only [List.append_nil, and_true, if_true]
    omega
  · by_cases he : evidenceOf fl agreement chunk = []
    · simp only [hf, he, and_false, if_false, if_true, List.nil_append]
      omega
    · simp only [hf, he, and_false, if_false, List.map_append, Json.itemsLen_append]
      omega

end

/-! ## Both loops split where the greedy rule does -/

section
variable {rt : Runtime} {tx : Texts} {fl : Json.Floats} {Identity : Type} {budget : Nat} {agreement : Bool} {h : Header}
  {idLen : Nat}

variable (fl budget agreement h idLen) in
def overBudget (chunk : List (Member Identity)) : Bool := decide (budget < lineLen fl agreement h idLen chunk)

variable (rt fl agreement h) in
def batchOf (chunk : List (Member Identity)) : Json.Fields × List (Member Identity) :=
  (chunkRecord rt fl agreement h chunk, chunk)

variable (tx fl agreement h) in
def AllGood (chunks : List (List (Member Identity))) : Prop := ∀ c ∈ chunks, Good tx fl agreement h c

theorem AllGood.hashable {chunk : List (Member Identity)} {m : Member Identity} {rest : List (Member Identity)}
    (hall : AllGood tx fl agreement h (Packing.packFrom (overBudget fl budget agreement h idLen) chunk (m :: rest))) :
    ∀ e ∈ m.evidence, Hashable fl e := by
  have hm : m ∈ (Packing.packFrom (overBudget fl budget agreement h idLen) chunk (m :: rest)).flatten := by
    rw [Packing.flatten_packFrom]
    simp
  obtain ⟨c, hc, hmc⟩ := List.mem_flatten.mp hm
  exact (hall c hc).hashable m hmc

theorem AllGood.head {chunk : List (Member Identity)} {rest : List (Member Identity)} (hne : chunk ≠ [])
    (hall : AllGood tx fl agreement h (Packing.packFrom (overBudget fl budget agreement h idLen) chunk rest)) :
    Good tx fl agreement h chunk := by
  obtain ⟨grown, chunks, heq⟩ := @Packing.packFrom_eq _ (overBudget fl budget agreement h idLen) rest chunk
  exact (hall _ (by rw [heq]; exact List.mem_cons_self ..)).left hne

theorem packFrom_over {chunk : List (Member Identity)} {m : Member Identity} {rest : List (Member Identity)}
    (hover : budget < lineLen fl agreement h idLen (chunk ++ [m])) :
    Packing.packFrom (overBudget fl budget agreement h idLen) chunk (m :: rest) =
      chunk :: Packing.packFrom (overBudget fl budget agreement h idLen) [m] rest := by
  rw [Packing.packFrom, if_pos (by simpa [overBudget] using hover)]

theorem packFrom_within {chunk : List (Member Identity)} {m : Member Identity} {rest : List (Member Identity)}
    (hover : ¬ budget < lineLen fl agreement h idLen (chunk ++ [m])) :
    Packing.packFrom (overBudget fl budget agreement h idLen) chunk (m :: rest) =
      Packing.packFrom (overBudget fl budget agreement h idLen) (chunk ++ [m]) rest := by
  rw [Packing.packFrom, if_neg (by simpa [overBudget] using hover)]

/-! ### The reference -/

variable (hid : ∀ core, jsonLen (.str (contentId rt core)) = idLen)
include hid

theorem greedyStep_eq_ok {out : Batches Identity} {chunk : List (Member Identity)} (hne : chunk ≠ [])
    {m : Member Identity} {s : Batches Identity × List (Member Identity)} :
    greedyStep rt tx fl budget agreement h (out, chunk) m = .ok s ↔ Good tx fl agreement h (chunk ++ [m]) ∧
      s = if budget < lineLen fl agreement h idLen (chunk ++ [m]) then
        (out ++ [batchOf rt fl agreement h chunk], [m]) else (out, chunk ++ [m]) := by
  have hlen : 1 < (chunk ++ [m]).length := by
    have := List.length_pos_iff.mpr hne
    simpa using this
  have hlenEq : encodedLen rt tx (chunkRecord rt fl agreement h (chunk ++ [m])) =
      .ok (lineLen fl agreement h idLen (chunk ++ [m])) := encodedLen_chunkRecord hid (by simp)
  rw [greedyStep]
  simp only [if_pos hlen]
  constructor
  · intro hstep
    obtain ⟨r, hr, hstep⟩ := Except.bind_eq_ok.mp hstep
    obtain ⟨g, rfl⟩ := build_make_eq_ok.mp hr
    refine ⟨g, ?_⟩
    rw [hlenEq, Except.ok_bind] at hstep
    split at hstep
    · rename_i hover
      obtain ⟨r, hr, hs⟩ := Except.bind_eq_ok.mp hstep
      obtain ⟨-, rfl⟩ := build_make_eq_ok.mp hr
      rw [if_pos hover]
      exact Except.pure_eq_ok.mp hs
    · rename_i hover
      rw [if_neg hover]
      exact Except.pure_eq_ok.mp hstep
  · rintro ⟨g, rfl⟩
    refine Except.bind_eq_ok.mpr ⟨_, build_make_eq_ok.mpr ⟨g, rfl⟩, ?_⟩
    rw [hlenEq, Except.ok_bind]
    split
    · refine Except.bind_eq_ok.mpr ⟨_, build_make_eq_ok.mpr ⟨g.left hne, rfl⟩, rfl⟩
    · rfl

theorem greedyRun : ∀ {rest : List (Member Identity)} {out : Batches Identity} {chunk : List (Member Identity)}
    {r : Batches Identity}, chunk ≠ [] →
    ((do let s ← rest.foldlM (greedyStep rt tx fl budget agreement h) (out, chunk)
         if s.2 = [] then return s.1
         return s.1 ++ [(← build fl agreement (makeClaudeCostAccount rt tx) h s.2, s.2)]) = Except.ok r ↔
      AllGood tx fl agreement h (Packing.packFrom (overBudget fl budget agreement h idLen) chunk rest) ∧
        r = out ++ (Packing.packFrom (overBudget fl budget agreement h idLen) chunk rest).map
          (batchOf rt fl agreement h))
  | [], out, chunk, r, hne => by
    rw [List.foldlM_nil, Packing.packFrom]
    simp only [pure_bind, if_neg hne, Except.bind_eq_ok, build_make_eq_ok, Except.pure_eq_ok, AllGood,
      List.mem_singleton, forall_eq, List.map_singleton]
    constructor
    · rintro ⟨_, ⟨g, rfl⟩, rfl⟩
      exact ⟨g, rfl⟩
    · rintro ⟨g, rfl⟩
      exact ⟨_, ⟨g, rfl⟩, rfl⟩
  | m :: rest, out, chunk, r, hne => by
    rw [List.foldlM_cons, bind_assoc, Except.bind_eq_ok]
    simp only [greedyStep_eq_ok hid hne]
    by_cases hover : budget < lineLen fl agreement h idLen (chunk ++ [m])
    · simp only [if_pos hover, packFrom_over hover]
      constructor
      · rintro ⟨_, ⟨g, rfl⟩, hr⟩
        obtain ⟨hall, rfl⟩ := (greedyRun (List.cons_ne_nil _ _)).mp hr
        exact ⟨List.forall_mem_cons.mpr ⟨g.left hne, hall⟩, by simp⟩
      · rintro ⟨hall, rfl⟩
        obtain ⟨g, hall⟩ := List.forall_mem_cons.mp hall
        refine ⟨_, ⟨g.append (AllGood.head (List.cons_ne_nil _ _) hall), rfl⟩, ?_⟩
        exact (greedyRun (List.cons_ne_nil _ _)).mpr ⟨hall, by simp⟩
    · simp only [if_neg hover, packFrom_within hover]
      have hne' : chunk ++ [m] ≠ [] := by simp
      constructor
      · rintro ⟨_, ⟨-, rfl⟩, hr⟩
        exact (greedyRun hne').mp hr
      · rintro ⟨hall, rfl⟩
        exact ⟨_, ⟨AllGood.head hne' hall, rfl⟩, (greedyRun hne').mpr ⟨hall, rfl⟩⟩

theorem greedyBatches_eq_ok {members : List (Member Identity)} {r : Batches Identity} :
    greedyBatches rt tx fl budget agreement h members = .ok r ↔
      AllGood tx fl agreement h (Packing.pack (overBudget fl budget agreement h idLen) members) ∧
        r = (Packing.pack (overBudget fl budget agreement h idLen) members).map (batchOf rt fl agreement h) := by
  cases members with
  | nil =>
    have hnil : greedyBatches rt tx fl budget agreement h ([] : List (Member Identity)) = .ok [] := rfl
    rw [hnil, Packing.pack, Except.ok.injEq]
    exact ⟨fun hr => ⟨fun c hc => absurd hc List.not_mem_nil, hr.symm⟩, fun hr => hr.2.symm⟩
  | cons m rest =>
    have hstep : greedyStep rt tx fl budget agreement h ([], []) m = .ok ([], [m]) := rfl
    rw [greedyBatches, List.foldlM_cons, hstep, Except.ok_bind, Packing.pack]
    exact greedyRun hid (List.cons_ne_nil _ _)

end

/-! ### The arithmetic packing -/

section
variable {rt : Runtime} {tx : Texts} {fl : Json.Floats} {Identity : Type} {budget : Nat} {agreement : Bool} {h : Header}
  {idLen : Nat}

variable (fl budget agreement h idLen) in
structure Sized (s : Growing Identity) : Prop where
  nonempty : s.chunk ≠ []
  seen : ∀ k, k ∈ s.seen ↔ k ∈ (entriesOf agreement s.chunk).map (marks fl)
  length : s.length = lineLen fl agreement h idLen s.chunk
  within : 1 < s.chunk.length → s.length ≤ budget

theorem entriesOf_singleton (m : Member Identity) :
    entriesOf agreement [m] = if agreement then m.evidence else [] := by
  cases agreement with
  | false => rfl
  | true => exact List.flatMap_singleton _ _

theorem hashable_of_grow {s : Growing Identity} {m : Member Identity} (hm : ∀ e ∈ m.evidence, Hashable fl e) :
    ∃ s', grow fl agreement s m = .ok s' := by
  have hall : ∀ e ∈ (if agreement then m.evidence else []), Hashable fl e := by
    cases agreement with
    | false => exact fun e he => absurd he List.not_mem_nil
    | true => exact hm
  exact ⟨_, Except.bind_eq_ok.mpr ⟨_, foldlM_addFresh.mpr ⟨hall, rfl⟩, rfl⟩⟩

theorem grow_sized {s s' : Growing Identity} {m : Member Identity} (hs : Sized fl budget agreement h idLen s)
    (hgrow : grow fl agreement s m = .ok s') : s'.out = s.out ∧ s'.chunk = s.chunk ++ [m] ∧
      (∀ k, k ∈ s'.seen ↔ k ∈ (entriesOf agreement s'.chunk).map (marks fl)) ∧
      s'.length = lineLen fl agreement h idLen s'.chunk := by
  obtain ⟨acc, hacc, hgrow⟩ := Except.bind_eq_ok.mp hgrow
  obtain ⟨-, rfl⟩ := foldlM_addFresh.mp hacc
  simp only [List.nil_append, List.append_nil, Except.pure_eq_ok] at hgrow
  subst hgrow
  refine ⟨rfl, rfl, fun k => ?_, ?_⟩
  · rw [entriesOf_append, entriesOf_singleton, List.map_append, List.mem_append, List.mem_append, hs.seen k,
      List.mem_reverse]
    constructor
    · rintro (hk | hk)
      · exact .inl hk
      · obtain ⟨e, he, rfl⟩ := List.mem_map.mp hk
        exact .inr (List.mem_map_of_mem (mem_dedupe he))
    · rintro (hk | hk)
      · exact .inl hk
      · by_cases hseen : k ∈ s.seen
        · exact .inl ((hs.seen k).mp hseen)
        · obtain ⟨e, he, rfl⟩ := List.mem_map.mp hk
          exact .inr (mem_map_dedupe he hseen)
  · rw [lineLen_snoc _ _ hs.seen, ← hs.length]

theorem grown_sized {s s' : Growing Identity} {m : Member Identity} (hs : Sized fl budget agreement h idLen s)
    (hover : ¬ budget < lineLen fl agreement h idLen (s.chunk ++ [m])) (hgrow : grow fl agreement s m = .ok s') :
    Sized fl budget agreement h idLen s' ∧ s'.out = s.out ∧ s'.chunk = s.chunk ++ [m] := by
  obtain ⟨hout, hchunk, hseen, hlength⟩ := grow_sized hs hgrow
  exact ⟨⟨by rw [hchunk]; simp, hseen, hlength, fun _ => by rw [hlength, hchunk]; exact not_lt.mp hover⟩, hout, hchunk⟩

theorem mapM_markerOf : ∀ {entries : List (List Json)} {seen : List Marker}, entries.mapM (markerOf fl) = .ok seen ↔
    (∀ e ∈ entries, Hashable fl e) ∧ seen = entries.map (marks fl)
  | [], seen => by
    rw [List.mapM_nil, Except.pure_eq_ok]
    simp
  | e :: rest, seen => by
    rw [Except.mapM_cons]
    simp only [markerOf_eq_ok, @mapM_markerOf rest, List.forall_mem_cons, List.map_cons]
    constructor
    · rintro ⟨_, _, ⟨he, rfl⟩, ⟨hall, rfl⟩, rfl⟩
      exact ⟨⟨he, hall⟩, rfl⟩
    · rintro ⟨⟨he, hall⟩, rfl⟩
      exact ⟨_, _, ⟨he, rfl⟩, ⟨hall, rfl⟩, rfl⟩

theorem build_skeleton_eq_ok {m : Member Identity} {r : Json.Fields} :
    build fl agreement (claudeCostAccountOpUnvalidated rt) h [m] = .ok r ↔
      (∀ e ∈ m.evidence, Hashable fl e) ∧ r = chunkRecord rt fl agreement h [m] := by
  rw [build_eq_ok]
  simp only [List.mem_singleton, forall_eq, claudeCostAccountOpUnvalidated, Except.pure_eq_ok]
  rfl

theorem linearFrom_cons {s : Growing Identity} {m : Member Identity} {rest : List (Member Identity)}
    {r : Option (Batches Identity)} : linearFrom rt tx fl budget agreement h s (m :: rest) = .ok r ↔
      (linearStep rt tx fl budget agreement h s m = .ok none ∧ r = none) ∨
        ∃ s', linearStep rt tx fl budget agreement h s m = .ok (some s') ∧
          linearFrom rt tx fl budget agreement h s' rest = .ok r := by
  rw [linearFrom, Except.bind_eq_ok]
  constructor
  · rintro ⟨_ | s', hs', hr⟩
    · exact .inl ⟨hs', Except.pure_eq_ok.mp hr⟩
    · exact .inr ⟨s', hs', hr⟩
  · rintro (⟨hnone, rfl⟩ | ⟨s', hs', hr⟩)
    · exact ⟨none, hnone, rfl⟩
    · exact ⟨some s', hs', hr⟩

variable (hid : ∀ core, jsonLen (.str (contentId rt core)) = idLen)
include hid

theorem start_eq_ok {out : Batches Identity} {m : Member Identity} {s : Growing Identity} :
    start rt tx fl agreement h out m = .ok s ↔ (∀ e ∈ m.evidence, Hashable fl e) ∧
      s = ⟨out, [m], (entriesOf agreement [m]).map (marks fl), lineLen fl agreement h idLen [m]⟩ := by
  have hlen : encodedLen rt tx (chunkRecord rt fl agreement h [m]) = .ok (lineLen fl agreement h idLen [m]) :=
    encodedLen_chunkRecord hid (List.cons_ne_nil _ _)
  have hsub : (∀ e ∈ m.evidence, Hashable fl e) → ∀ e ∈ entriesOf agreement [m], Hashable fl e := by
    rw [entriesOf_singleton]
    cases agreement with
    | false => exact fun _ e he => absurd he List.not_mem_nil
    | true => exact id
  simp only [start, Except.bind_eq_ok, ← entriesOf_singleton, mapM_markerOf, build_skeleton_eq_ok, Except.pure_eq_ok]
  constructor
  · rintro ⟨_, ⟨-, rfl⟩, _, ⟨hm, rfl⟩, n, hn, rfl⟩
    rw [hlen, Except.ok.injEq] at hn
    exact ⟨hm, by rw [hn]⟩
  · rintro ⟨hm, rfl⟩
    exact ⟨_, ⟨hsub hm, rfl⟩, _, ⟨hm, rfl⟩, _, hlen, rfl⟩

theorem start_sized {out : Batches Identity} {m : Member Identity} {s : Growing Identity}
    (hstart : start rt tx fl agreement h out m = .ok s) :
    Sized fl budget agreement h idLen s ∧ s.out = out ∧ s.chunk = [m] := by
  obtain ⟨-, rfl⟩ := (start_eq_ok hid).mp hstart
  exact ⟨⟨List.cons_ne_nil _ _, fun k => Iff.rfl, rfl, fun hlen => absurd hlen (by simp)⟩, rfl, rfl⟩

theorem emit_sized {s : Growing Identity} (hs : Sized fl budget agreement h idLen s)
    {r : Option (Batches Identity)} : emit rt tx fl budget agreement h s = .ok r ↔
      Good tx fl agreement h s.chunk ∧ r = some (s.out ++ [batchOf rt fl agreement h s.chunk]) := by
  have hlen : encodedLen rt tx (chunkRecord rt fl agreement h s.chunk) = .ok (lineLen fl agreement h idLen s.chunk) :=
    encodedLen_chunkRecord hid hs.nonempty
  have hguard : ¬ (lineLen fl agreement h idLen s.chunk ≠ s.length ∨
      (1 < s.chunk.length ∧ budget < lineLen fl agreement h idLen s.chunk)) := by
    rintro (hne | ⟨hone, hover⟩)
    · exact hne hs.length.symm
    · exact absurd hover (not_lt.mpr (hs.length ▸ hs.within hone))
  simp only [emit, Except.bind_eq_ok, build_make_eq_ok]
  constructor
  · rintro ⟨_, ⟨g, rfl⟩, n, hn, hr⟩
    rw [hlen, Except.ok.injEq] at hn
    subst hn
    rw [if_neg hguard] at hr
    exact ⟨g, Except.pure_eq_ok.mp hr⟩
  · rintro ⟨g, rfl⟩
    exact ⟨_, ⟨g, rfl⟩, _, hlen, by rw [if_neg hguard]; rfl⟩

theorem linearStep_over {s : Growing Identity} (hs : Sized fl budget agreement h idLen s) {m : Member Identity}
    (hover : budget < lineLen fl agreement h idLen (s.chunk ++ [m])) {r : Option (Growing Identity)} :
    linearStep rt tx fl budget agreement h s m = .ok r ↔ Good tx fl agreement h s.chunk ∧
      ∃ next, start rt tx fl agreement h (s.out ++ [batchOf rt fl agreement h s.chunk]) m = .ok next ∧ r = some next := by
  have hlt : ∀ {grown}, grow fl agreement s m = .ok grown → ¬ grown.length ≤ budget := fun hgrow => by
    obtain ⟨-, hchunk, -, hlength⟩ := grow_sized hs hgrow
    rw [hlength, hchunk]
    exact not_le.mpr hover
  simp only [linearStep, if_neg hs.nonempty, Except.bind_eq_ok]
  constructor
  · rintro ⟨grown, hgrow, hr⟩
    rw [if_neg (hlt hgrow), Except.bind_eq_ok] at hr
    obtain ⟨_, hemit, hr⟩ := hr
    obtain ⟨g, rfl⟩ := (emit_sized hid hs).mp hemit
    obtain ⟨next, hnext, hr⟩ := Except.bind_eq_ok.mp hr
    exact ⟨g, next, hnext, Except.pure_eq_ok.mp hr⟩
  · rintro ⟨g, next, hnext, rfl⟩
    obtain ⟨grown, hgrow⟩ : ∃ grown, grow fl agreement s m = .ok grown :=
      hashable_of_grow ((start_eq_ok hid).mp hnext).1
    refine ⟨grown, hgrow, ?_⟩
    rw [if_neg (hlt hgrow), Except.bind_eq_ok]
    exact ⟨_, (emit_sized hid hs).mpr ⟨g, rfl⟩, Except.bind_eq_ok.mpr ⟨next, hnext, rfl⟩⟩

omit hid in
theorem linearStep_within {s : Growing Identity} (hs : Sized fl budget agreement h idLen s) {m : Member Identity}
    (hover : ¬ budget < lineLen fl agreement h idLen (s.chunk ++ [m])) {r : Option (Growing Identity)} :
    linearStep rt tx fl budget agreement h s m = .ok r ↔ ∃ grown, grow fl agreement s m = .ok grown ∧ r = some grown := by
  have hle : ∀ {grown}, grow fl agreement s m = .ok grown → grown.length ≤ budget := fun hgrow => by
    obtain ⟨-, hchunk, -, hlength⟩ := grow_sized hs hgrow
    rw [hlength, hchunk]
    exact not_lt.mp hover
  simp only [linearStep, if_neg hs.nonempty, Except.bind_eq_ok]
  constructor
  · rintro ⟨grown, hgrow, hr⟩
    rw [if_pos (hle hgrow)] at hr
    exact ⟨grown, hgrow, Except.pure_eq_ok.mp hr⟩
  · rintro ⟨grown, hgrow, rfl⟩
    exact ⟨grown, hgrow, by rw [if_pos (hle hgrow)]; rfl⟩

theorem linearRun : ∀ {rest : List (Member Identity)} {s : Growing Identity}, Sized fl budget agreement h idLen s →
    ∀ {r : Option (Batches Identity)}, linearFrom rt tx fl budget agreement h s rest = .ok r ↔
      AllGood tx fl agreement h (Packing.packFrom (overBudget fl budget agreement h idLen) s.chunk rest) ∧
        r = some (s.out ++ (Packing.packFrom (overBudget fl budget agreement h idLen) s.chunk rest).map
          (batchOf rt fl agreement h))
  | [], s, hs, r => by
    rw [linearFrom, if_neg hs.nonempty, emit_sized hid hs, Packing.packFrom]
    simp only [AllGood, List.mem_singleton, forall_eq, List.map_singleton]
  | m :: rest, s, hs, r => by
    rw [linearFrom_cons]
    by_cases hover : budget < lineLen fl agreement h idLen (s.chunk ++ [m])
    · simp only [linearStep_over hid hs hover, packFrom_over hover]
      constructor
      · rintro (⟨⟨-, _, -, hr⟩, -⟩ | ⟨s', ⟨g, _, hstart, hs'⟩, hr⟩)
        · cases hr
        obtain rfl := Option.some.inj hs'
        obtain ⟨hsized, hout, hchunk⟩ : Sized fl budget agreement h idLen s' ∧ _ := start_sized hid hstart
        obtain ⟨hall, rfl⟩ := (linearRun hsized).mp hr
        rw [hchunk] at hall
        refine ⟨List.forall_mem_cons.mpr ⟨g, hall⟩, ?_⟩
        rw [hchunk, hout, List.map_cons, List.append_assoc, List.singleton_append]
      · rintro ⟨hall, rfl⟩
        obtain ⟨g, hall⟩ := List.forall_mem_cons.mp hall
        have hm := (AllGood.head (List.cons_ne_nil _ _) hall).hashable m (List.mem_singleton_self m)
        obtain ⟨s', hstart⟩ : ∃ s', start rt tx fl agreement h (s.out ++ [batchOf rt fl agreement h s.chunk]) m =
            .ok s' := ⟨_, (start_eq_ok hid).mpr ⟨hm, rfl⟩⟩
        obtain ⟨hsized, hout, hchunk⟩ : Sized fl budget agreement h idLen s' ∧ _ := start_sized hid hstart
        refine .inr ⟨s', ⟨g, s', hstart, rfl⟩, (linearRun hsized).mpr ?_⟩
        rw [hchunk, hout, List.map_cons, List.append_assoc, List.singleton_append]
        exact ⟨hall, rfl⟩
    · simp only [linearStep_within hs hover, packFrom_within hover]
      constructor
      · rintro (⟨⟨_, -, hr⟩, -⟩ | ⟨s', ⟨_, hgrow, hs'⟩, hr⟩)
        · cases hr
        obtain rfl := Option.some.inj hs'
        obtain ⟨hsized, hout, hchunk⟩ := grown_sized hs hover hgrow
        rwa [linearRun hsized, hchunk, hout] at hr
      · rintro ⟨hall, rfl⟩
        -- the member is in a chunk that is built, so its entries have hashes
        obtain ⟨s', hgrow⟩ : ∃ s', grow fl agreement s m = .ok s' :=
          hashable_of_grow (AllGood.hashable (by rwa [packFrom_within hover]))
        obtain ⟨hsized, hout, hchunk⟩ := grown_sized hs hover hgrow
        refine .inr ⟨s', ⟨s', hgrow, rfl⟩, (linearRun hsized).mpr ?_⟩
        rw [hchunk, hout]
        exact ⟨hall, rfl⟩

theorem linearBatches_eq_ok {members : List (Member Identity)} {r : Option (Batches Identity)} :
    linearBatches rt tx fl budget agreement h members = .ok r ↔
      AllGood tx fl agreement h (Packing.pack (overBudget fl budget agreement h idLen) members) ∧
        r = some ((Packing.pack (overBudget fl budget agreement h idLen) members).map (batchOf rt fl agreement h)) := by
  cases members with
  | nil =>
    have hnil : linearBatches rt tx fl budget agreement h ([] : List (Member Identity)) = .ok (some []) := rfl
    rw [hnil, Packing.pack, Except.ok.injEq]
    exact ⟨fun hr => ⟨fun c hc => absurd hc List.not_mem_nil, hr.symm⟩, fun hr => hr.2.symm⟩
  | cons m rest =>
    have hstep : linearFrom rt tx fl budget agreement h ⟨[], [], [], 0⟩ (m :: rest) = .ok r ↔
        ∃ s, start rt tx fl agreement h [] m = .ok s ∧ linearFrom rt tx fl budget agreement h s rest = .ok r := by
      rw [linearFrom, linearStep, if_pos rfl, bind_assoc, Except.bind_eq_ok]
      simp only [pure_bind]
    rw [linearBatches, hstep, Packing.pack]
    constructor
    · rintro ⟨s, hstart, hr⟩
      obtain ⟨hsized, hout, hchunk⟩ : Sized fl budget agreement h idLen s ∧ _ := start_sized hid hstart
      obtain ⟨hall, rfl⟩ := (linearRun hid hsized).mp hr
      rw [hchunk] at hall
      exact ⟨hall, by rw [hchunk, hout, List.nil_append]⟩
    · rintro ⟨hall, rfl⟩
      have hm := (AllGood.head (List.cons_ne_nil _ _) hall).hashable m (List.mem_singleton_self m)
      obtain ⟨s, hstart⟩ : ∃ s, start rt tx fl agreement h [] m = .ok s := ⟨_, (start_eq_ok hid).mpr ⟨hm, rfl⟩⟩
      obtain ⟨hsized, hout, hchunk⟩ : Sized fl budget agreement h idLen s ∧ _ := start_sized hid hstart
      refine ⟨s, hstart, (linearRun hid hsized).mpr ?_⟩
      rw [hchunk, hout]
      exact ⟨hall, rfl⟩

end

section
variable (rt : Runtime) (tx : Texts) (fl : Json.Floats) {Identity : Type} {idLen : Nat}
  (hid : ∀ core, jsonLen (.str (contentId rt core)) = idLen)
include hid

/-- **The arithmetic packing of a group never takes its backstop: every emitted line has its predicted length. It
returns what the reference returns. The chunks together are the members, a line of several members is within the
budget, and no chunk could have taken the next member.** -/
theorem linearBatches_greedy (budget : Nat) (agreement : Bool) (h : Header) (members : List (Member Identity)) :
    linearBatches rt tx fl budget agreement h members ≠ .ok none ∧
    (∀ out, linearBatches rt tx fl budget agreement h members = .ok (some out) ↔
      greedyBatches rt tx fl budget agreement h members = .ok out) ∧
    ∀ out, greedyBatches rt tx fl budget agreement h members = .ok out →
      (out.map Prod.snd).flatten = members ∧
      (∀ batch ∈ out, batch.2 ≠ [] ∧
        build fl agreement (makeClaudeCostAccount rt tx) h batch.2 = .ok batch.1 ∧
        ∃ n, encodedLen rt tx batch.1 = .ok n ∧ (1 < batch.2.length → n ≤ budget)) ∧
      (out.map Prod.snd).IsChain fun chunk next => ∀ m ∈ next.head?, ∃ record n,
        build fl agreement (makeClaudeCostAccount rt tx) h (chunk ++ [m]) = .ok record ∧
        encodedLen rt tx record = .ok n ∧ budget < n := by
  refine ⟨fun hnone => ?_, fun out => ?_, fun out hout => ?_⟩
  · have hr := ((linearBatches_eq_ok hid).mp hnone).2
    cases hr
  · rw [linearBatches_eq_ok hid, greedyBatches_eq_ok hid, Option.some.injEq]
  · obtain ⟨hall, rfl⟩ := (greedyBatches_eq_ok hid).mp hout
    have hchunks : ((Packing.pack (overBudget fl budget agreement h idLen) members).map
        (batchOf rt fl agreement h)).map Prod.snd = Packing.pack (overBudget fl budget agreement h idLen) members := by
      rw [List.map_map]
      exact List.map_id _
    rw [hchunks]
    refine ⟨Packing.flatten_pack members, fun batch hbatch => ?_, ?_⟩
    · obtain ⟨c, hc, rfl⟩ := List.mem_map.mp hbatch
      have hne := Packing.nonempty_pack c hc
      refine ⟨hne, build_make_eq_ok.mpr ⟨hall c hc, rfl⟩, _, encodedLen_chunkRecord hid hne, fun hlen => ?_⟩
      simpa [overBudget] using Packing.within_pack c hc hlen
    · refine (Packing.full_pack members).imp_of_mem_imp fun c d hc hd hfull m hm => ?_
      have hone : Good tx fl agreement h [m] := by
        obtain ⟨rest, rfl⟩ := List.head?_eq_some_iff.mp hm
        have hg : Good tx fl agreement h ([m] ++ rest) := hall _ hd
        exact hg.left (List.cons_ne_nil _ _)
      refine ⟨_, _, build_make_eq_ok.mpr ⟨(hall c hc).append hone, rfl⟩, encodedLen_chunkRecord hid (by simp), ?_⟩
      simpa [overBudget] using hfull m hm

/-- **A plan is what the reference makes of its groups, one after the other**, and carries every member of every group
once. -/
theorem buildBatches_greedy (budget : Nat) (decidedAt : String) (journalHw : String × Int)
    (closingCapture : Option ClosingCapture) (groups : Dict Group (List (Member Identity))) (out : Batches Identity) :
    (buildBatches rt tx fl budget decidedAt journalHw closingCapture groups = .ok out ↔
      ∃ outs, List.Forall₂ (fun p batches => greedyBatches rt tx fl budget (p.1.basis == BASIS_AGREEMENT)
        (headerOf tx decidedAt journalHw closingCapture p.1) p.2 = .ok batches) groups.entries outs ∧
        out = outs.flatten) ∧
    (buildBatches rt tx fl budget decidedAt journalHw closingCapture groups = .ok out →
      (out.map Prod.snd).flatten = groups.entries.flatMap Prod.snd) := by
  have hgroup : ∀ {h : Header} {members : List (Member Identity)} {batches : Batches Identity},
      buildGroup rt tx fl budget h members = .ok batches ↔
        greedyBatches rt tx fl budget (h.basis == BASIS_AGREEMENT) h members = .ok batches := by
    intro h members batches
    rw [buildGroup, Except.bind_eq_ok, greedyBatches_eq_ok hid]
    simp only [linearBatches_eq_ok hid]
    constructor
    · rintro ⟨_, ⟨hall, rfl⟩, hr⟩
      exact ⟨hall, Except.pure_eq_ok.mp hr⟩
    · rintro ⟨hall, rfl⟩
      exact ⟨_, ⟨hall, rfl⟩, rfl⟩
  have hiff : buildBatches rt tx fl budget decidedAt journalHw closingCapture groups = .ok out ↔
      ∃ outs, List.Forall₂ (fun p batches => greedyBatches rt tx fl budget (p.1.basis == BASIS_AGREEMENT)
        (headerOf tx decidedAt journalHw closingCapture p.1) p.2 = .ok batches) groups.entries outs ∧
        out = outs.flatten := by
    rw [buildBatches, Except.bind_eq_ok]
    simp only [Except.mapM_eq_ok, hgroup, Except.pure_eq_ok]
    rfl
  refine ⟨hiff, fun hout => ?_⟩
  obtain ⟨outs, houts, rfl⟩ := hiff.mp hout
  clear hiff hout
  generalize groups.entries = entries at houts ⊢
  induction houts with
  | nil => rfl
  | cons hbatches _ ih =>
    obtain ⟨-, rfl⟩ := (greedyBatches_eq_ok hid).mp hbatches
    rw [List.flatten_cons, List.map_append, List.flatten_append, ih, List.flatMap_cons, List.map_map]
    exact congrArg (· ++ _) ((congrArg List.flatten (List.map_id _)).trans (Packing.flatten_pack _))

end

/-! A group of one agreement, whose two supporting observations are one. -/

def soleRuntime : Runtime :=
  ⟨fun _ => "47f5c6b2a7630e4198188b1ba9df080ec47c5082e1ab0b82b077f62d2cf7e08b", fun _ => true⟩

def soleTexts : Texts := ⟨fun _ => true, fun _ => "", fun _ => "", fun _ => ""⟩

def soleFloats : Json.Floats := ⟨fun _ => none, fun _ _ => false⟩

def soleHeader : Header :=
  ⟨BASIS_AGREEMENT, none, none, "2026-10-09T10:00:00.000000Z", ("observations-2026-10.jsonl", 123), none⟩

def soleEntry : List Json := [.str "2026-10-09T09:00:00.000000Z", .str "observations-2026-10.jsonl", .num 7]

def soleMember : Member Unit :=
  ⟨(), [.str FORM_KEYED, .str "msg-0", .str "req-0", .str "2026-10-09T10:00:00Z"], [soleEntry, soleEntry]⟩

theorem linearBatches_greedy_sole :
    linearBatches soleRuntime soleTexts soleFloats 900 true soleHeader [soleMember] ≠ .ok none ∧
    (∀ out, linearBatches soleRuntime soleTexts soleFloats 900 true soleHeader [soleMember] = .ok (some out) ↔
      greedyBatches soleRuntime soleTexts soleFloats 900 true soleHeader [soleMember] = .ok out) ∧
    ∀ out, greedyBatches soleRuntime soleTexts soleFloats 900 true soleHeader [soleMember] = .ok out →
      (out.map Prod.snd).flatten = [soleMember] := by
  have hid : ∀ core, jsonLen (.str (contentId soleRuntime core)) = 20 := by
    intro core
    simp only [contentId, soleRuntime]
    decide +kernel
  obtain ⟨hnone, hiff, hout⟩ := linearBatches_greedy soleRuntime soleTexts soleFloats hid 900 true soleHeader [soleMember]
  exact ⟨hnone, hiff, fun out h => (hout out h).1⟩

def soleGroups : Dict Group (List (Member Unit)) :=
  .ofList [(⟨BASIS_AGREEMENT, none, none, false⟩, [soleMember]), (⟨BASIS_AGREEMENT, none, some "a", true⟩, [soleMember])]

theorem buildBatches_greedy_sole :
    {out | buildBatches soleRuntime soleTexts soleFloats 900 "2026-10-09T10:00:00.000000Z"
      ("observations-2026-10.jsonl", 123) none soleGroups = .ok out} ⊆
    {out | (out.map Prod.snd).flatten = [soleMember, soleMember]} := by
  have hid : ∀ core, jsonLen (.str (contentId soleRuntime core)) = 20 := by
    intro core
    simp only [contentId, soleRuntime]
    decide +kernel
  exact fun out => (buildBatches_greedy soleRuntime soleTexts soleFloats hid 900 _ _ none soleGroups out).2

end Cctally.CostBatches
