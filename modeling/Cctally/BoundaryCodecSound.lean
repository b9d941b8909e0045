import Cctally.BoundaryCodec
import Mathlib.Data.List.Basic

/-!
# Boundaries round-trip

Decoding what was encoded gives the boundary back, the extents in key order. What
a decoder accepts is well formed but for one thing: the digest may end in a line feed.
-/

namespace Cctally.BoundaryCodec

open AccountProtocol (textIs textIs_iff intIs_iff PROTOCOL_REVISION SUCCESSOR_REVISION)
open Json (field keysAre setField sortFields without)

def Inventory : Option String → Option Json.Fields → Prop
  | some digest, none => isDigest digest = true
  | none, some failure => isInventoryFailure (.obj failure) = true
  | _, _ => False

def Episode : Option Json.Fields → Option (String × Int) → Prop
  | _, none => True
  | failure, some (segment, offset) => failure ≠ none ∧ segment ≠ "" ∧ 0 ≤ offset

structure CutoverBoundary.WellFormed (b : CutoverBoundary) : Prop where
  segment : b.segment ≠ ""
  endOffset : 0 ≤ b.endOffset
  extents : ∀ p ∈ b.frozenExtents.entries, p.1 ≠ "" ∧ 0 ≤ p.2
  inventory : Inventory b.legacySpoolBaselineDigest b.legacySpoolInventoryFailure

structure RevisionBoundary.WellFormed (b : RevisionBoundary) : Prop where
  base : b.base.WellFormed
  cutoverSegment : b.cutoverSegment ≠ ""
  cutoverOffset : 0 ≤ b.cutoverOffset
  episode : Episode b.legacySpoolInventoryFailure b.continuedInventoryEpisode

structure Revision3Boundary.WellFormed (b : Revision3Boundary) : Prop where
  base : b.base.WellFormed
  revision2Segment : b.revision2Segment ≠ ""
  revision2Offset : 0 ≤ b.revision2Offset

structure CutoverBoundary.Same (a b : CutoverBoundary) : Prop where
  segment : a.segment = b.segment
  endOffset : a.endOffset = b.endOffset
  extents : ∀ segment, a.frozenExtents.get? segment = b.frozenExtents.get? segment
  digest : a.legacySpoolBaselineDigest = b.legacySpoolBaselineDigest
  failure : a.legacySpoolInventoryFailure = b.legacySpoolInventoryFailure

structure RevisionBoundary.Same (a b : RevisionBoundary) : Prop where
  base : a.base.Same b.base
  cutoverSegment : a.cutoverSegment = b.cutoverSegment
  cutoverOffset : a.cutoverOffset = b.cutoverOffset
  episode : a.continuedInventoryEpisode = b.continuedInventoryEpisode

structure Revision3Boundary.Same (a b : Revision3Boundary) : Prop where
  base : a.base.Same b.base
  revision2Segment : a.revision2Segment = b.revision2Segment
  revision2Offset : a.revision2Offset = b.revision2Offset

structure Carries (record : Json.Fields) (kind : String) (payload : Json.Fields) : Prop where
  op : field record "t" = .str "op"
  payload : field record "payload" = .obj (setField "kind" (.str kind) payload)

def endsInNewline (s : String) : Bool := s.toList.getLast? == some '\n'

def newlineIn (payload : Json.Fields) : Bool :=
  match field payload "legacySpoolBaselineDigest" with
  | .str digest => endsInNewline digest
  | _ => false

def newlineDigest : Json → Bool
  | .obj record =>
    match field record "payload" with
    | .obj payload => newlineIn payload
    | _ => false
  | _ => false

theorem getLast?_digestChars {cs : List Char} (h : digestChars cs = true) : cs.getLast? ≠ some '\n' := by
  intro hlast
  simp only [digestChars, Bool.and_eq_true, beq_iff_eq, List.all_eq_true] at h
  obtain ⟨⟨-, hlen⟩, hall⟩ := h
  have hne : cs.drop 7 ≠ [] := by
    rw [Ne, List.drop_eq_nil_iff]; omega
  have hmem : '\n' ∈ cs.drop 7 := by
    rw [← List.take_append_drop 7 cs, List.getLast?_append_of_ne_nil _ hne] at hlast
    exact List.mem_of_getLast? hlast
  exact absurd (hall _ hmem) (by decide)

theorem isDigest_iff {s : String} (h : digestMatches s = true) : isDigest s = true ↔ endsInNewline s = false := by
  rw [digestMatches, Bool.or_eq_true, Bool.and_eq_true] at h
  constructor
  · intro hd
    rw [endsInNewline, beq_eq_false_iff_ne]
    exact getLast?_digestChars hd
  · intro hn
    rcases h with h | ⟨h, -⟩
    · exact h
    · rw [endsInNewline] at hn
      rw [hn] at h
      cases h

theorem digestMatches_of_isDigest {s : String} (h : isDigest s = true) : digestMatches s = true := by
  rw [digestMatches, h, Bool.true_or]

/-! ## Members -/

theorem keysAre_sortFields {l : Json.Fields} (h : (l.map Prod.fst).Nodup) (keys : List String) :
    keysAre (sortFields l) keys = keysAre l keys := by
  have hfind : Json.hasField (sortFields l) = Json.hasField l := by
    funext key
    rw [Json.hasField, Json.find_sortFields h, Json.hasField]
  rw [keysAre, keysAre, hfind, (Json.perm_sortFields l).all_eq]

theorem coordinateMember_coordinate {segment : String} {offset : Int} (hs : segment ≠ "") (ho : 0 ≤ offset) :
    coordinateMember (coordinate segment offset) = some (segment, offset) := by
  have hnodup : (([("segment", .str segment), ("offset", .num offset)] : Json.Fields).map Prod.fst).Nodup := by
    simp
  rw [coordinate, Json.dict, coordinateMember, keysAre_sortFields hnodup, Json.field_sortFields hnodup,
    Json.field_sortFields hnodup]
  simp [keysAre, Json.hasField, field, Dict.find, nonEmptyText, nonnegInt, hs, ho, text, whole]

theorem coordinateMember_some {v : Json} {coord : String × Int} (h : coordinateMember v = some coord) :
    coord.1 ≠ "" ∧ 0 ≤ coord.2 := by
  cases v with
  | obj value =>
    rw [coordinateMember] at h
    split at h
    · rename_i hok
      simp only [Bool.and_eq_true] at hok
      obtain ⟨⟨-, hs⟩, ho⟩ := hok
      cases h
      constructor
      · cases hf : field value "segment" with
        | str s => rw [hf] at hs; simpa [nonEmptyText, text] using hs
        | _ => rw [hf] at hs; cases hs
      · cases hf : field value "offset" with
        | num n => rw [hf] at ho; simpa [nonnegInt, whole] using ho
        | _ => rw [hf] at ho; cases ho
    · cases h
  | _ => cases h

theorem extentsOk_extentsJson {e : Dict String Int} (h : ∀ p ∈ e.entries, p.1 ≠ "" ∧ 0 ≤ p.2) :
    extentsOk (extentsJson e) = true := by
  rw [extentsJson, Json.dict, extentsOk, List.all_eq_true]
  intro p hp
  rw [(Json.perm_sortFields _).mem_iff, List.mem_map] at hp
  obtain ⟨q, hq, rfl⟩ := hp
  simpa [nonnegInt] using h q hq

theorem extentsOf_extentsJson (e : Dict String Int) (segment : String) :
    (extentsOf (extentsJson e)).get? segment = e.get? segment := by
  have hperm : ((sortFields (e.entries.map fun p => (p.1, Json.num p.2))).map fun p => (p.1, whole p.2)).Perm e.entries := by
    refine ((Json.perm_sortFields _).map _).trans ?_
    rw [List.map_map]
    exact .of_eq (List.map_id _)
  have hnodup : (((sortFields (e.entries.map fun p => (p.1, Json.num p.2))).map fun p => (p.1, whole p.2)).map
      Prod.fst).Nodup := ((hperm.map Prod.fst).nodup_iff).mpr e.nodup
  refine Option.ext fun n => ?_
  rw [extentsJson, Json.dict, extentsOf, Dict.get?_ofList_eq_some hnodup, hperm.mem_iff, Dict.get?_eq_some]

theorem mem_extentsOf {v : Json} (h : extentsOk v = true) : ∀ p ∈ (extentsOf v).entries, p.1 ≠ "" ∧ 0 ≤ p.2 := by
  cases v with
  | obj extents =>
    intro p hp
    have hmem := Dict.mem_of_get?_ofList (Dict.get?_eq_some.mpr hp)
    obtain ⟨q, hq, hpq⟩ := List.mem_map.mp hmem
    obtain ⟨hkey, hval⟩ := Prod.mk.inj hpq
    rw [extentsOk, List.all_eq_true] at h
    have hq := h q hq
    rw [Bool.and_eq_true, decide_eq_true_eq] at hq
    rw [← hkey, ← hval]
    refine ⟨hq.1, ?_⟩
    cases hv : q.2 with
    | num n => rw [hv] at hq; simpa [nonnegInt, whole] using hq.2
    | _ => exact le_rfl
  | _ => cases h

theorem opPayload_ok {kind notOp notKind : String} {op : Json} {payload : Json.Fields} :
    opPayload kind notOp notKind op = .ok payload ↔
      ∃ record, op = .obj record ∧ field record "t" = .str "op" ∧ field record "payload" = .obj payload ∧
        field payload "kind" = .str kind := by
  constructor
  · intro h
    cases op with
    | obj record =>
      rw [opPayload] at h
      split at h
      · rename_i ht
        split at h
        · rename_i payload' hp
          split at h
          · rename_i hk
            cases h
            exact ⟨record, rfl, textIs_iff.mp ht, hp, textIs_iff.mp hk⟩
          · cases h
        · cases h
      · cases h
    | _ => cases h
  · rintro ⟨record, rfl, ht, hp, hk⟩
    rw [opPayload, if_pos (textIs_iff.mpr ht), hp]
    exact if_pos (textIs_iff.mpr hk)

theorem opPayload_carries {kind notOp notKind : String} {record payload : Json.Fields}
    (h : Carries record kind payload) :
    opPayload kind notOp notKind (.obj record) = .ok (setField "kind" (.str kind) payload) :=
  opPayload_ok.mpr ⟨record, rfl, h.op, h.payload, Json.field_setField_self ..⟩

theorem opPayload_opOf (kind notOp notKind : String) (payload : Json.Fields) :
    opPayload kind notOp notKind (opOf kind payload) = .ok (setField "kind" (.str kind) payload) :=
  opPayload_carries ⟨rfl, rfl⟩

/-! ## The cutover -/

structure Reads (payload : Json.Fields) (b : CutoverBoundary) : Prop where
  segment : field payload "segment" = .str b.segment
  endOffset : field payload "endOffset" = .num b.endOffset
  extents : field payload "frozenExtents" = extentsJson b.frozenExtents
  digest : field payload "legacySpoolBaselineDigest" = orNull .str b.legacySpoolBaselineDigest
  failure : field payload "legacySpoolInventoryFailure" = orNull .obj b.legacySpoolInventoryFailure

def FENCE_FIELDS : List String :=
  ["segment", "endOffset", "frozenExtents", "legacySpoolBaselineDigest", "legacySpoolInventoryFailure"]

theorem Reads.congr {payload payload' : Json.Fields} {b : CutoverBoundary} (h : Reads payload b)
    (heq : ∀ key ∈ FENCE_FIELDS, field payload' key = field payload key) : Reads payload' b where
  segment := (heq _ (by simp [FENCE_FIELDS])).trans h.segment
  endOffset := (heq _ (by simp [FENCE_FIELDS])).trans h.endOffset
  extents := (heq _ (by simp [FENCE_FIELDS])).trans h.extents
  digest := (heq _ (by simp [FENCE_FIELDS])).trans h.digest
  failure := (heq _ (by simp [FENCE_FIELDS])).trans h.failure

section
variable {payload : Json.Fields} {b : CutoverBoundary}

theorem inventoryOf_reads (h : Reads payload b)
    (hw : Inventory b.legacySpoolBaselineDigest b.legacySpoolInventoryFailure) :
    inventoryOf payload = .ok (b.legacySpoolBaselineDigest, b.legacySpoolInventoryFailure) := by
  have hdigest := h.digest
  have hfailure := h.failure
  cases hd : b.legacySpoolBaselineDigest with
  | some digest =>
    cases hf : b.legacySpoolInventoryFailure with
    | some _ => rw [hd, hf] at hw; exact hw.elim
    | none =>
      rw [hd] at hdigest
      rw [hf] at hfailure
      rw [hd, hf] at hw
      rw [inventoryOf, hfailure]
      simp only [orNull, hdigest, if_pos (digestMatches_of_isDigest hw)]
      rfl
  | none =>
    cases hf : b.legacySpoolInventoryFailure with
    | none => rw [hd, hf] at hw; exact hw.elim
    | some failure =>
      rw [hd] at hdigest
      rw [hf] at hfailure
      rw [hd, hf] at hw
      have hw : isInventoryFailure (.obj failure) = true := hw
      rw [inventoryOf, hfailure]
      simp only [orNull, hdigest, hw, Bool.true_and, beq_self_eq_true, if_true]
      rfl

def readCutover (payload : Json.Fields) (inventory : Option String × Option Json.Fields) : CutoverBoundary where
  segment := text (field payload "segment")
  endOffset := whole (field payload "endOffset")
  frozenExtents := extentsOf (field payload "frozenExtents")
  revision := none
  revision3 := none
  legacySpoolBaselineDigest := inventory.1
  legacySpoolInventoryFailure := inventory.2

theorem boundaryFromOp_ok {op : Json} : boundaryFromOp op = .ok b ↔
    ∃ payload inventory, (∀ notOp notKind, opPayload CUTOVER_OP_KIND notOp notKind op = .ok payload) ∧
      nonEmptyText (field payload "segment") = true ∧ nonnegInt (field payload "endOffset") = true ∧
      extentsOk (field payload "frozenExtents") = true ∧ inventoryOf payload = .ok inventory ∧
      b = readCutover payload inventory := by
  simp only [boundaryFromOp, Except.bind_eq_ok, Except.guard_eq_ok, Except.pure_eq_ok, Bool.not_eq_true',
    Bool.not_eq_false]
  constructor
  · rintro ⟨payload, hop, hs, he, hx, inventory, hinv, rfl⟩
    exact ⟨payload, inventory, fun _ _ => opPayload_ok.mpr (opPayload_ok.mp hop), hs, he, hx, hinv, rfl⟩
  · rintro ⟨payload, inventory, hop, hs, he, hx, hinv, rfl⟩
    exact ⟨payload, hop _ _, hs, he, hx, inventory, hinv, rfl⟩

theorem boundaryFromOp_reads {op : Json}
    (hop : ∀ notOp notKind, opPayload CUTOVER_OP_KIND notOp notKind op = .ok payload) (h : Reads payload b)
    (hw : b.WellFormed) : ∃ b', boundaryFromOp op = .ok b' ∧ b'.Same b := by
  refine ⟨_, boundaryFromOp_ok.mpr ⟨payload, _, hop, ?_, ?_, ?_, inventoryOf_reads h hw.inventory, rfl⟩, ?_⟩
  · rw [h.segment]; exact decide_eq_true hw.segment
  · rw [h.endOffset]; exact decide_eq_true hw.endOffset
  · rw [h.extents]; exact extentsOk_extentsJson hw.extents
  · refine ⟨?_, ?_, fun segment => ?_, rfl, rfl⟩
    · rw [readCutover, h.segment]; rfl
    · rw [readCutover, h.endOffset]; rfl
    · rw [readCutover, h.extents]; exact extentsOf_extentsJson b.frozenExtents segment

theorem newlineDigest_eq {op : Json} {kind notOp notKind : String}
    (h : opPayload kind notOp notKind op = .ok payload) : newlineDigest op = newlineIn payload := by
  obtain ⟨record, rfl, -, hp, -⟩ := opPayload_ok.mp h
  rw [newlineDigest, hp]

theorem newlineIn_congr {payload' : Json.Fields}
    (h : field payload' "legacySpoolBaselineDigest" = field payload "legacySpoolBaselineDigest") :
    newlineIn payload' = newlineIn payload := by
  rw [newlineIn, h, newlineIn]

theorem inventory_iff {inventory : Option String × Option Json.Fields} (h : inventoryOf payload = .ok inventory) :
    Inventory inventory.1 inventory.2 ↔ newlineIn payload = false := by
  rw [inventoryOf] at h
  split at h
  · split at h
    · rename_i digest hd
      split at h
      · rename_i hm
        cases h
        rw [newlineIn, hd]
        exact isDigest_iff hm
      · cases h
    · cases h
  · split at h
    · rename_i hok
      rw [Bool.and_eq_true, beq_iff_eq] at hok
      cases h
      rw [newlineIn, hok.2]
      exact iff_of_true hok.1 rfl
    · cases h
  · cases h

theorem nonEmptyText_ne {v : Json} (h : nonEmptyText v = true) : text v ≠ "" := by
  cases v with
  | str s => exact of_decide_eq_true h
  | _ => cases h

theorem whole_nonneg {v : Json} (h : nonnegInt v = true) : 0 ≤ whole v := by
  cases v with
  | num n => exact of_decide_eq_true h
  | _ => cases h

theorem boundaryFromOp_wellFormed {op : Json} (h : boundaryFromOp op = .ok b) :
    b.WellFormed ↔ newlineDigest op = false := by
  obtain ⟨payload, inventory, hop, hs, he, hx, hinv, rfl⟩ := boundaryFromOp_ok.mp h
  rw [newlineDigest_eq (hop "" ""), ← inventory_iff hinv]
  exact ⟨fun hw => hw.inventory, fun hi => ⟨nonEmptyText_ne hs, whole_nonneg he, mem_extentsOf hx, hi⟩⟩

end

/-! ## Revision 2 -/

section
variable {payload : Json.Fields} {b : RevisionBoundary}

def readRevision (base : CutoverBoundary) (cutover : String × Int) (episode : Option (String × Int)) :
    RevisionBoundary where
  segment := base.segment
  endOffset := base.endOffset
  frozenExtents := base.frozenExtents
  cutoverSegment := cutover.1
  cutoverOffset := cutover.2
  legacySpoolBaselineDigest := base.legacySpoolBaselineDigest
  legacySpoolInventoryFailure := base.legacySpoolInventoryFailure
  continuedInventoryEpisode := episode

theorem revisionBoundaryFromOp_ok {op : Json} : revisionBoundaryFromOp op = .ok b ↔
    ∃ payload cutover episode base, (∀ notOp notKind, opPayload REVISION_OP_KIND notOp notKind op = .ok payload) ∧
      field payload "revision" = .num PROTOCOL_REVISION ∧ coordinateMember (field payload "cutover") = some cutover ∧
      episodeOf payload = .ok episode ∧
      boundaryFromOp (opOf CUTOVER_OP_KIND (without payload ["revision", "cutover", "inventoryEpisode"])) = .ok base ∧
      b = readRevision base cutover episode := by
  simp only [revisionBoundaryFromOp, Except.bind_eq_ok, Except.guard_eq_ok, Bool.not_eq_true', Bool.not_eq_false,
    intIs_iff]
  constructor
  · rintro ⟨payload, hop, hrev, h⟩
    split at h
    · cases h
    · rename_i cutover hcut
      simp only [Except.bind_eq_ok, Except.pure_eq_ok] at h
      obtain ⟨episode, hep, base, hbase, rfl⟩ := h
      exact ⟨payload, cutover, episode, base, fun _ _ => opPayload_ok.mpr (opPayload_ok.mp hop), hrev, hcut, hep, hbase,
        rfl⟩
  · rintro ⟨payload, cutover, episode, base, hop, hrev, hcut, hep, hbase, rfl⟩
    refine ⟨payload, hop _ _, hrev, ?_⟩
    simp only [hcut, Except.bind_eq_ok, Except.pure_eq_ok]
    exact ⟨episode, hep, base, hbase, rfl⟩

theorem episodeOf_wellFormed {episode : Option (String × Int)} (h : episodeOf payload = .ok episode)
    {inventory : Option String × Option Json.Fields} (hinv : inventoryOf payload = .ok inventory) :
    Episode inventory.2 episode := by
  rw [episodeOf] at h
  split at h
  · cases h; exact trivial
  · split at h
    · cases h
    · rename_i hne
      split at h
      · rename_i coord hcoord
        cases h
        refine ⟨?_, coordinateMember_some hcoord⟩
        rw [inventoryOf] at hinv
        split at hinv
        · rename_i hnull; exact absurd hnull hne
        · split at hinv
          · cases hinv; exact nofun
          · cases hinv
        · cases hinv
      · cases h

theorem field_inner {key : String} (hkind : key ≠ "kind") (h : key ∉ ["revision", "cutover", "inventoryEpisode"])
    (kind : Json) : field (setField "kind" kind (without payload ["revision", "cutover", "inventoryEpisode"])) key =
      field payload key := by
  rw [Json.field_setField_ne (Ne.symm hkind), Json.field_without h]

theorem revisionBoundaryFromOp_wellFormed {op : Json} (h : revisionBoundaryFromOp op = .ok b) :
    b.WellFormed ↔ newlineDigest op = false := by
  obtain ⟨payload, cutover, episode, base, hop, -, hcut, hep, hbase, rfl⟩ := revisionBoundaryFromOp_ok.mp h
  have hbase' := boundaryFromOp_wellFormed hbase
  rw [newlineDigest_eq (opPayload_opOf _ "" "" _), newlineIn_congr (field_inner (by decide) (by decide) _)] at hbase'
  rw [newlineDigest_eq (hop "" ""), ← hbase']
  obtain ⟨inner, inventory, hinner, -, -, -, hinv, rfl⟩ := boundaryFromOp_ok.mp hbase
  -- the inner payload holds the inventory of the outer one
  have hinventory : inventoryOf payload = .ok inventory := by
    have hget := hinner "" ""
    rw [opPayload_opOf] at hget
    cases hget
    rw [← hinv, inventoryOf, inventoryOf, field_inner (by decide) (by decide), field_inner (by decide) (by decide)]
  obtain ⟨hs, ho⟩ := coordinateMember_some hcut
  exact ⟨fun hw => hw.base, fun hw => ⟨hw, hs, ho, episodeOf_wellFormed hep hinventory⟩⟩

structure ReadsRevision (payload : Json.Fields) (b : RevisionBoundary) : Prop where
  base : Reads payload b.base
  revision : field payload "revision" = .num PROTOCOL_REVISION
  cutover : field payload "cutover" = coordinate b.cutoverSegment b.cutoverOffset
  episode : field payload "inventoryEpisode" = orNull (fun c => coordinate c.1 c.2) b.continuedInventoryEpisode

theorem episodeOf_reads (h : ReadsRevision payload b)
    (hw : Episode b.legacySpoolInventoryFailure b.continuedInventoryEpisode) :
    episodeOf payload = .ok b.continuedInventoryEpisode := by
  have hepisode := h.episode
  cases he : b.continuedInventoryEpisode with
  | none =>
    rw [he] at hepisode
    rw [episodeOf, hepisode]
    rfl
  | some coord =>
    rw [he] at hepisode hw
    obtain ⟨hfail, hs, ho⟩ := hw
    have hnull : field payload "legacySpoolInventoryFailure" ≠ .null := by
      rw [h.base.failure]
      cases hf : b.legacySpoolInventoryFailure with
      | none => exact absurd hf hfail
      | some failure => show orNull .obj b.base.legacySpoolInventoryFailure ≠ _; rw [RevisionBoundary.base, hf]; nofun
    rw [episodeOf, hepisode]
    show (if _ then _ else _) = _
    rw [if_neg hnull]
    simp only [orNull, coordinateMember_coordinate hs ho]
    rfl

theorem revisionBoundaryFromOp_reads {op : Json}
    (hop : ∀ notOp notKind, opPayload REVISION_OP_KIND notOp notKind op = .ok payload) (h : ReadsRevision payload b)
    (hw : b.WellFormed) : ∃ b', revisionBoundaryFromOp op = .ok b' ∧ b'.Same b := by
  have hinner : Reads (setField "kind" (.str CUTOVER_OP_KIND)
      (without payload ["revision", "cutover", "inventoryEpisode"])) b.base := by
    refine h.base.congr fun key hkey => field_inner ?_ ?_ _
    · rintro rfl; exact absurd hkey (by decide)
    · intro hin
      simp only [List.mem_cons, List.not_mem_nil, or_false] at hin
      rcases hin with rfl | rfl | rfl <;> exact absurd hkey (by decide)
  obtain ⟨base, hbase, hsame⟩ := boundaryFromOp_reads (fun _ _ => opPayload_opOf _ _ _ _) hinner hw.base
  have hcut : coordinateMember (field payload "cutover") = some (b.cutoverSegment, b.cutoverOffset) := by
    rw [h.cutover, coordinateMember_coordinate hw.cutoverSegment hw.cutoverOffset]
  refine ⟨_, revisionBoundaryFromOp_ok.mpr ⟨payload, _, _, base, hop, h.revision, hcut, episodeOf_reads h hw.episode,
    hbase, rfl⟩, ?_, rfl, rfl, rfl⟩
  exact ⟨hsame.segment, hsame.endOffset, hsame.extents, hsame.digest, hsame.failure⟩

end

section
variable {payload : Json.Fields} {b : Revision3Boundary}

def readRevision3 (base : RevisionBoundary) (revision2 : String × Int) : Revision3Boundary where
  segment := base.segment
  endOffset := base.endOffset
  frozenExtents := base.frozenExtents
  cutoverSegment := base.cutoverSegment
  cutoverOffset := base.cutoverOffset
  revision2Segment := revision2.1
  revision2Offset := revision2.2
  legacySpoolBaselineDigest := base.legacySpoolBaselineDigest
  legacySpoolInventoryFailure := base.legacySpoolInventoryFailure
  continuedInventoryEpisode := base.continuedInventoryEpisode

theorem revision3BoundaryFromOp_ok {op : Json} : revision3BoundaryFromOp op = .ok b ↔
    ∃ payload revision2 base, (∀ notOp notKind, opPayload REVISION3_OP_KIND notOp notKind op = .ok payload) ∧
      field payload "revision" = .num SUCCESSOR_REVISION ∧
      coordinateMember (field payload "revision2") = some revision2 ∧
      revisionBoundaryFromOp (opOf REVISION_OP_KIND
        (setField "revision" (.num PROTOCOL_REVISION) (without payload ["revision2"]))) = .ok base ∧
      b = readRevision3 base revision2 := by
  simp only [revision3BoundaryFromOp, Except.bind_eq_ok, Except.guard_eq_ok, Bool.not_eq_true', Bool.not_eq_false,
    intIs_iff]
  constructor
  · rintro ⟨payload, hop, hrev, h⟩
    split at h
    · cases h
    · rename_i revision2 hrev2
      simp only [Except.bind_eq_ok, Except.pure_eq_ok] at h
      obtain ⟨base, hbase, rfl⟩ := h
      exact ⟨payload, revision2, base, fun _ _ => opPayload_ok.mpr (opPayload_ok.mp hop), hrev, hrev2, hbase, rfl⟩
  · rintro ⟨payload, revision2, base, hop, hrev, hrev2, hbase, rfl⟩
    refine ⟨payload, hop _ _, hrev, ?_⟩
    simp only [hrev2, Except.bind_eq_ok, Except.pure_eq_ok]
    exact ⟨base, hbase, rfl⟩

theorem field_inner3 {key : String} (hkind : key ≠ "kind") (hrev : key ≠ "revision") (h : key ≠ "revision2")
    (kind revision : Json) :
    field (setField "kind" kind (setField "revision" revision (without payload ["revision2"]))) key =
      field payload key := by
  rw [Json.field_setField_ne (Ne.symm hkind), Json.field_setField_ne (Ne.symm hrev),
    Json.field_without (by simpa using h)]

theorem revision3BoundaryFromOp_wellFormed {op : Json} (h : revision3BoundaryFromOp op = .ok b) :
    b.WellFormed ↔ newlineDigest op = false := by
  obtain ⟨payload, revision2, base, hop, -, hrev2, hbase, rfl⟩ := revision3BoundaryFromOp_ok.mp h
  have hbase' := revisionBoundaryFromOp_wellFormed hbase
  rw [newlineDigest_eq (opPayload_opOf _ "" "" _),
    newlineIn_congr (field_inner3 (by decide) (by decide) (by decide) _ _)] at hbase'
  rw [newlineDigest_eq (hop "" ""), ← hbase']
  obtain ⟨hs, ho⟩ := coordinateMember_some hrev2
  exact ⟨fun hw => hw.base, fun hw => ⟨hw, hs, ho⟩⟩

structure ReadsRevision3 (payload : Json.Fields) (b : Revision3Boundary) : Prop where
  base : Reads payload b.base.base
  revision : field payload "revision" = .num SUCCESSOR_REVISION
  cutover : field payload "cutover" = coordinate b.cutoverSegment b.cutoverOffset
  revision2 : field payload "revision2" = coordinate b.revision2Segment b.revision2Offset
  episode : field payload "inventoryEpisode" = orNull (fun c => coordinate c.1 c.2) b.continuedInventoryEpisode

theorem revision3BoundaryFromOp_reads {op : Json}
    (hop : ∀ notOp notKind, opPayload REVISION3_OP_KIND notOp notKind op = .ok payload) (h : ReadsRevision3 payload b)
    (hw : b.WellFormed) : ∃ b', revision3BoundaryFromOp op = .ok b' ∧ b'.Same b := by
  have hinner : ReadsRevision (setField "kind" (.str REVISION_OP_KIND)
      (setField "revision" (.num PROTOCOL_REVISION) (without payload ["revision2"]))) b.base := by
    refine ⟨h.base.congr fun key hkey => field_inner3 ?_ ?_ ?_ _ _, ?_, ?_, ?_⟩
    · rintro rfl; exact absurd hkey (by decide)
    · rintro rfl; exact absurd hkey (by decide)
    · rintro rfl; exact absurd hkey (by decide)
    · rw [Json.field_setField_ne (by decide), Json.field_setField_self]
    · rw [field_inner3 (by decide) (by decide) (by decide), h.cutover]; rfl
    · rw [field_inner3 (by decide) (by decide) (by decide), h.episode]; rfl
  obtain ⟨base, hbase, hsame⟩ := revisionBoundaryFromOp_reads (fun _ _ => opPayload_opOf _ _ _ _) hinner hw.base
  have hrev2 : coordinateMember (field payload "revision2") = some (b.revision2Segment, b.revision2Offset) := by
    rw [h.revision2, coordinateMember_coordinate hw.revision2Segment hw.revision2Offset]
  refine ⟨_, revision3BoundaryFromOp_ok.mpr ⟨payload, _, base, hop, h.revision, hrev2, hbase, rfl⟩, ?_, rfl, rfl⟩
  refine ⟨?_, hsame.cutoverSegment, hsame.cutoverOffset, hsame.episode⟩
  exact ⟨hsame.base.segment, hsame.base.endOffset, hsame.base.extents, hsame.base.digest, hsame.base.failure⟩

end

/-! ## What a payload says -/

theorem field_payload {l : Json.Fields} (h : (l.map Prod.fst).Nodup) {key : String} (hkind : key ≠ "kind") (kind : Json) :
    field (setField "kind" kind (sortFields l)) key = field l key := by
  rw [Json.field_setField_ne (Ne.symm hkind), Json.field_sortFields h]

theorem reads_boundaryPayload (b : CutoverBoundary) (kind : Json) :
    Reads (setField "kind" kind (boundaryPayload b)) b := by
  have hnodup : ((fenceFields b.segment b.endOffset b.frozenExtents b.legacySpoolBaselineDigest ++
      failureFields b.legacySpoolInventoryFailure).map Prod.fst).Nodup := by
    cases b.legacySpoolInventoryFailure <;> simp [fenceFields, failureFields]
  constructor
  all_goals rw [boundaryPayload, field_payload hnodup (by decide)]
  case failure => cases b.legacySpoolInventoryFailure <;> simp [fenceFields, failureFields, field, Dict.find, orNull]
  all_goals simp [fenceFields, field, Dict.find]

theorem reads_revisionBoundaryPayload {b : RevisionBoundary} (hw : b.WellFormed) (kind : Json) :
    ReadsRevision (setField "kind" kind (revisionBoundaryPayload b)) b := by
  have hepisode := hw.episode
  have hnodup : (([("revision", .num PROTOCOL_REVISION), ("cutover", coordinate b.cutoverSegment b.cutoverOffset)] ++
      fenceFields b.segment b.endOffset b.frozenExtents b.legacySpoolBaselineDigest ++
      failureFields b.legacySpoolInventoryFailure ++
      episodeFields b.legacySpoolInventoryFailure b.continuedInventoryEpisode).map Prod.fst).Nodup := by
    cases b.legacySpoolInventoryFailure <;> cases b.continuedInventoryEpisode <;>
      simp [fenceFields, failureFields, episodeFields]
  refine ⟨?_, ?_, ?_, ?_⟩
  · constructor
    all_goals rw [revisionBoundaryPayload, field_payload hnodup (by decide)]
    case failure =>
      cases hf : b.legacySpoolInventoryFailure <;>
        simp [fenceFields, failureFields, episodeFields, field, Dict.find, orNull, RevisionBoundary.base, hf]
    all_goals simp [fenceFields, field, Dict.find, RevisionBoundary.base]
  · rw [revisionBoundaryPayload, field_payload hnodup (by decide)]
    simp [field, Dict.find]
  · rw [revisionBoundaryPayload, field_payload hnodup (by decide)]
    simp [field, Dict.find]
  · rw [revisionBoundaryPayload, field_payload hnodup (by decide)]
    cases he : b.continuedInventoryEpisode with
    | none => cases b.legacySpoolInventoryFailure <;>
        simp [fenceFields, failureFields, episodeFields, field, Dict.find, orNull]
    | some coord =>
      rw [he] at hepisode
      cases hf : b.legacySpoolInventoryFailure with
      | none => exact absurd hf hepisode.1
      | some failure => simp [fenceFields, failureFields, episodeFields, field, Dict.find, orNull]

theorem reads_revision3BoundaryPayload {b : Revision3Boundary} (hw : b.WellFormed) (kind : Json) :
    ReadsRevision3 (setField "kind" kind (revision3BoundaryPayload b)) b := by
  have hepisode : Episode b.legacySpoolInventoryFailure b.continuedInventoryEpisode := hw.base.episode
  have hnodup : (([("revision", .num SUCCESSOR_REVISION), ("cutover", coordinate b.cutoverSegment b.cutoverOffset),
        ("revision2", coordinate b.revision2Segment b.revision2Offset)] ++
      fenceFields b.segment b.endOffset b.frozenExtents b.legacySpoolBaselineDigest ++
      failureFields b.legacySpoolInventoryFailure ++
      episodeFields b.legacySpoolInventoryFailure b.continuedInventoryEpisode).map Prod.fst).Nodup := by
    cases b.legacySpoolInventoryFailure <;> cases b.continuedInventoryEpisode <;>
      simp [fenceFields, failureFields, episodeFields]
  refine ⟨?_, ?_, ?_, ?_, ?_⟩
  · constructor
    all_goals rw [revision3BoundaryPayload, field_payload hnodup (by decide)]
    case failure =>
      cases hf : b.legacySpoolInventoryFailure <;>
        simp [fenceFields, failureFields, episodeFields, field, Dict.find, orNull, RevisionBoundary.base,
          Revision3Boundary.base, hf]
    all_goals simp [fenceFields, field, Dict.find, RevisionBoundary.base, Revision3Boundary.base]
  · rw [revision3BoundaryPayload, field_payload hnodup (by decide)]
    simp [field, Dict.find]
  · rw [revision3BoundaryPayload, field_payload hnodup (by decide)]
    simp [field, Dict.find]
  · rw [revision3BoundaryPayload, field_payload hnodup (by decide)]
    simp [field, Dict.find]
  · rw [revision3BoundaryPayload, field_payload hnodup (by decide)]
    cases he : b.continuedInventoryEpisode with
    | none => cases b.legacySpoolInventoryFailure <;>
        simp [fenceFields, failureFields, episodeFields, field, Dict.find, orNull]
    | some coord =>
      rw [he] at hepisode
      cases hf : b.legacySpoolInventoryFailure with
      | none => exact absurd hf hepisode.1
      | some failure => simp [fenceFields, failureFields, episodeFields, field, Dict.find, orNull]

/-- **A well-formed boundary survives its op, and an accepted op holds a well-formed boundary
exactly when its digest does not end in a line feed.** -/
theorem boundary_codecs (record : Json.Fields) (op : Json) :
    (∀ b : CutoverBoundary, b.WellFormed → Carries record CUTOVER_OP_KIND (boundaryPayload b) →
      ∃ b', boundaryFromOp (.obj record) = .ok b' ∧ b'.Same b) ∧
    (∀ b : RevisionBoundary, b.WellFormed → Carries record REVISION_OP_KIND (revisionBoundaryPayload b) →
      ∃ b', revisionBoundaryFromOp (.obj record) = .ok b' ∧ b'.Same b) ∧
    (∀ b : Revision3Boundary, b.WellFormed → Carries record REVISION3_OP_KIND (revision3BoundaryPayload b) →
      ∃ b', revision3BoundaryFromOp (.obj record) = .ok b' ∧ b'.Same b) ∧
    (∀ b, boundaryFromOp op = .ok b → (b.WellFormed ↔ newlineDigest op = false)) ∧
    (∀ b, revisionBoundaryFromOp op = .ok b → (b.WellFormed ↔ newlineDigest op = false)) ∧
    (∀ b, revision3BoundaryFromOp op = .ok b → (b.WellFormed ↔ newlineDigest op = false)) := by
  refine ⟨fun b hw hc => ?_, fun b hw hc => ?_, fun b hw hc => ?_, fun _ => boundaryFromOp_wellFormed,
    fun _ => revisionBoundaryFromOp_wellFormed, fun _ => revision3BoundaryFromOp_wellFormed⟩
  · exact boundaryFromOp_reads (fun _ _ => opPayload_carries hc) (reads_boundaryPayload b _) hw
  · exact revisionBoundaryFromOp_reads (fun _ _ => opPayload_carries hc) (reads_revisionBoundaryPayload hw _) hw
  · exact revision3BoundaryFromOp_reads (fun _ _ => opPayload_carries hc) (reads_revision3BoundaryPayload hw _) hw

def zeroDigest : String := "sha256:" ++ String.ofList (List.replicate 64 '0')

def secondCutover : CutoverBoundary where
  segment := "2026-02.jsonl"
  endOffset := 0
  frozenExtents := ⟨[("2026-01.jsonl", 512)], List.nodup_singleton _⟩
  revision := none
  revision3 := none
  legacySpoolBaselineDigest := some zeroDigest
  legacySpoolInventoryFailure := none

theorem boundary_codecs_second :
    ∃ b', boundaryFromOp (opOf CUTOVER_OP_KIND (boundaryPayload secondCutover)) = .ok b' ∧ b'.Same secondCutover := by
  refine (boundary_codecs _ .null).1 secondCutover ⟨by decide, le_rfl, ?_, ?_⟩ ⟨rfl, rfl⟩
  · simp [secondCutover]
  · show isDigest zeroDigest = true
    decide +kernel

def cutoverPayload (digest : String) : Json.Fields :=
  [("endOffset", .num 0), ("frozenExtents", .obj []), ("kind", .str CUTOVER_OP_KIND),
   ("legacySpoolBaselineDigest", .str digest), ("segment", .str "2026-01.jsonl")]

/-- A digest with a line feed after it is accepted. -/
theorem boundaryFromOp_newline :
    ∃ b, boundaryFromOp (.obj [("payload", .obj (cutoverPayload (zeroDigest ++ "\n"))), ("t", .str "op")]) = .ok b ∧
      b.legacySpoolBaselineDigest = some (zeroDigest ++ "\n") ∧ ¬ b.WellFormed := by
  have hop : ∀ notOp notKind, opPayload CUTOVER_OP_KIND notOp notKind
      (.obj [("payload", .obj (cutoverPayload (zeroDigest ++ "\n"))), ("t", .str "op")]) =
        .ok (cutoverPayload (zeroDigest ++ "\n")) :=
    fun _ _ => opPayload_ok.mpr ⟨_, rfl, rfl, rfl, rfl⟩
  have hinventory : inventoryOf (cutoverPayload (zeroDigest ++ "\n")) = .ok (some (zeroDigest ++ "\n"), none) := by
    decide +kernel
  refine ⟨_, boundaryFromOp_ok.mpr ⟨_, _, hop, rfl, rfl, rfl, hinventory, rfl⟩, rfl, fun hw => ?_⟩
  have hdigest : isDigest (zeroDigest ++ "\n") = true := hw.inventory
  exact absurd hdigest (by decide +kernel)

end Cctally.BoundaryCodec
