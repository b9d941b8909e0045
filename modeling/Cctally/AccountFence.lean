import Cctally.AccountProtocol

/-!
# The fence is monotone

Taking a revision away never excludes a record, and no sequence of attachments
leaves a revision beside a boundary it does not extend. The fence is blind to a
record only where its family cannot be looked up.
-/

namespace Cctally

open Json (field)

namespace AccountProtocol

section
variable {record : Json} {coord : Coordinate} {boundary : Option CutoverBoundary}
  {revision : Option RevisionBoundary} {revision3 : Option Revision3Boundary}

/-- The values whose sets `_family` looks in have a hash. -/
def readable : Json → Bool
  | .obj record =>
    let t := field record "t"
    t.hashable && match field record "payload" with
      | .obj payload => !(textIs "op" t || textIs "evt" t) || (field payload "kind").hashable
      | _ => true
  | _ => true

theorem memberOf_eq {value : Json} {kinds : List String} (h : value.hashable = true) :
    memberOf value kinds = .ok (kinds.any fun kind => textIs kind value) := by
  unfold memberOf
  rw [if_pos h]
  rfl

theorem memberOf_error {value : Json} {kinds : List String} (h : value.hashable = false) :
    memberOf value kinds = .error .type := by
  unfold memberOf
  simp only [h]
  rfl

theorem opFamily_returns {payload : Json.Fields} {kind : Json} :
    (∃ r, opFamily payload kind = .ok r) ↔ kind.hashable = true := by
  unfold opFamily
  by_cases h : kind.hashable = true
  · simp only [memberOf_eq h, Except.ok_bind, h, iff_true]
    repeat' split
    all_goals exact ⟨_, rfl⟩
  · rw [Bool.not_eq_true] at h
    simp [memberOf_error h, bind, Except.bind, h]

theorem evtFamily_returns {payload : Json.Fields} {kind : Json} :
    (∃ r, evtFamily payload kind = .ok r) ↔ kind.hashable = true := by
  unfold evtFamily
  by_cases h : kind.hashable = true
  · simp only [memberOf_eq h, Except.ok_bind, h, iff_true]
    repeat' split
    all_goals exact ⟨_, rfl⟩
  · rw [Bool.not_eq_true] at h
    simp [memberOf_error h, bind, Except.bind, h]

theorem textIs_unique {a b : String} (hab : a ≠ b) {value : Json} (h : textIs a value = true) : textIs b value = false := by
  cases value with
  | str s =>
    simp only [textIs, decide_eq_true_eq] at h
    simp [textIs, h, hab]
  | _ => rfl

theorem admin_not_op {value : Json} (h : (ADMIN_RECORD_TYPES.any fun kind => textIs kind value) = true) :
    (textIs "op" value || textIs "evt" value) = false := by
  obtain ⟨kind, hkind, h⟩ := List.any_eq_true.1 h
  have hop : kind ≠ "op" ∧ kind ≠ "evt" := by
    have hall : ∀ k ∈ ADMIN_RECORD_TYPES, k ≠ "op" ∧ k ≠ "evt" := by decide
    exact hall kind hkind
  rw [textIs_unique hop.1 h, textIs_unique hop.2 h]
  rfl

theorem family_returns : (∃ r, family record = .ok r) ↔ readable record = true := by
  cases record with
  | obj fields =>
    unfold family readable
    by_cases ht : (field fields "t").hashable = true
    · simp only [memberOf_eq ht, Except.ok_bind, ht, Bool.true_and]
      by_cases hadmin : (ADMIN_RECORD_TYPES.any fun kind => textIs kind (field fields "t")) = true
      · -- the administrative types are decided before the payload is read
        rw [if_pos hadmin]
        refine ⟨fun _ => ?_, fun _ => ⟨_, rfl⟩⟩
        cases field fields "payload" with
        | obj payload => rw [admin_not_op hadmin]; rfl
        | _ => rfl
      rw [if_neg hadmin]
      cases field fields "payload" with
      | obj payload =>
        dsimp only
        by_cases hobs : textIs "obs" (field fields "t") = true
        · rw [if_pos hobs, textIs_unique (by decide) hobs, textIs_unique (by decide) hobs]
          exact ⟨fun _ => rfl, fun _ => ⟨_, rfl⟩⟩
        rw [if_neg hobs]
        by_cases hop : textIs "op" (field fields "t") = true
        · simp only [hop, if_true, Bool.true_or, Bool.not_true, Bool.false_or]
          exact opFamily_returns
        · by_cases hevt : textIs "evt" (field fields "t") = true
          · simp only [hop, hevt, if_true, Bool.or_true, Bool.not_true, Bool.false_or]
            exact evtFamily_returns
          · simp only [hop, hevt, Bool.or_false, Bool.not_false, Bool.true_or, iff_true]
            exact ⟨_, rfl⟩
      | _ => exact ⟨fun _ => rfl, fun _ => ⟨_, rfl⟩⟩
    · rw [Bool.not_eq_true] at ht
      simp [memberOf_error ht, bind, Except.bind, ht]
  | _ => exact ⟨fun _ => rfl, fun _ => ⟨_, rfl⟩⟩

/-! ## What admission asks -/

def admits (record : Json) (coord : Coordinate) (codexOnly : Bool) (boundary : Option CutoverBoundary)
    (revision : Option RevisionBoundary) (revision3 : Option Revision3Boundary) : Bool :=
  match boundary with
  | none => true
  | some b =>
    isHistorical coord b.frozenExtents || codexOnly ||
      isStamped record &&
        (passes coord ((revision.or b.revision).map (·.frozenExtents)) (hasCurrentRevision record) &&
          passes coord ((revision3.or b.revision3).map (·.frozenExtents)) (hasSuccessorRevision record))

theorem classifyAdmission_eq {fam : Family} {codexOnly : Bool} (h : family record = .ok (fam, codexOnly)) :
    ∃ reason, classifyAdmission record coord boundary revision revision3 =
      .ok ⟨admits record coord codexOnly boundary revision revision3, fam, reason⟩ := by
  unfold classifyAdmission admits
  simp only [h, Except.ok_bind]
  cases boundary with
  | none => exact ⟨_, rfl⟩
  | some b =>
    simp only
    by_cases hhist : isHistorical coord b.frozenExtents = true
    · simp only [hhist, if_true, Bool.true_or]
      exact ⟨_, rfl⟩
    rw [Bool.not_eq_true] at hhist
    cases codexOnly with
    | true =>
      simp only [hhist, Bool.false_or, Bool.true_or, if_true]
      repeat' split
      all_goals exact ⟨_, rfl⟩
    | false =>
      simp only [hhist, Bool.false_or, Bool.false_eq_true, if_false]
      cases isStamped record with
      | false => exact ⟨_, rfl⟩
      | true =>
        generalize passes coord ((revision.or b.revision).map (·.frozenExtents)) (hasCurrentRevision record) = p
        generalize passes coord ((revision3.or b.revision3).map (·.frozenExtents)) (hasSuccessorRevision record) = q
        cases p <;> cases q <;> exact ⟨_, rfl⟩

def Admitted (record : Json) (coord : Coordinate) (boundary : Option CutoverBoundary)
    (revision : Option RevisionBoundary) (revision3 : Option Revision3Boundary) : Prop :=
  ∃ a, classifyAdmission record coord boundary revision revision3 = .ok a ∧ a.admitted = true

theorem admitted_iff : Admitted record coord boundary revision revision3 ↔
    ∃ fam codexOnly, family record = .ok (fam, codexOnly) ∧
      admits record coord codexOnly boundary revision revision3 = true := by
  cases hfam : family record with
  | error e =>
    refine ⟨?_, ?_⟩
    · rintro ⟨a, ha, -⟩
      unfold classifyAdmission at ha
      rw [hfam] at ha
      cases ha
    · rintro ⟨_, _, h, -⟩
      cases h
  | ok r =>
    obtain ⟨fam, codexOnly⟩ := r
    have hreason : ∃ reason, classifyAdmission record coord boundary revision revision3 =
        .ok ⟨admits record coord codexOnly boundary revision revision3, fam, reason⟩ := classifyAdmission_eq hfam
    obtain ⟨reason, ha⟩ := hreason
    refine ⟨?_, ?_⟩
    · rintro ⟨a, ha', hadmit⟩
      rw [ha] at ha'
      cases ha'
      exact ⟨_, _, rfl, hadmit⟩
    · rintro ⟨_, _, h, hadmit⟩
      cases h
      exact ⟨_, ha, hadmit⟩

theorem Admitted.mono {boundary' : Option CutoverBoundary} (h : Admitted record coord boundary none none)
    (hle : ∀ codexOnly, admits record coord codexOnly boundary none none = true →
      admits record coord codexOnly boundary' none none = true) : Admitted record coord boundary' none none := by
  rw [admitted_iff] at h ⊢
  obtain ⟨fam, codexOnly, hfam, hadmit⟩ := h
  exact ⟨fam, codexOnly, hfam, hle codexOnly hadmit⟩

/-- What calls of `with_revision`, `with_revision3` and `original_boundary` make of a
cutover's own boundary. -/
inductive Attached : CutoverBoundary → Prop
  | own (b : CutoverBoundary) : b.revision = none → b.revision3 = none → Attached b
  | withRevision {b b' : CutoverBoundary} (revision : Option RevisionBoundary) :
    Attached b → withRevision (some b) revision = .ok (some b') → Attached b'
  | withRevision3 {b b' : CutoverBoundary} (revision3 : Option Revision3Boundary) :
    Attached b → withRevision3 (some b) revision3 = .ok (some b') → Attached b'
  | originalBoundary {b b' : CutoverBoundary} : Attached b → originalBoundary (some b) = some b' → Attached b'

structure Extends (b : CutoverBoundary) : Prop where
  revision : ∀ r, b.revision = some r → r.cutoverSegment = b.segment ∧ r.cutoverOffset = b.endOffset
  revision3 : ∀ r3, b.revision3 = some r3 → r3.cutoverSegment = b.segment ∧ r3.cutoverOffset = b.endOffset ∧
    ∃ r, b.revision = some r ∧ r3.revision2Segment = r.segment ∧ r3.revision2Offset = r.endOffset

theorem Extends.withRevision {b b' : CutoverBoundary} (h : Extends b)
    (hb : withRevision (some b) revision = .ok (some b')) : Extends b' := by
  cases revision with
  | none =>
    cases hb
    exact ⟨nofun, nofun⟩
  | some r =>
    simp only [AccountProtocol.withRevision, Except.guard_eq_ok, Except.pure_eq_ok, Option.some.injEq, not_not,
      Prod.mk.injEq] at hb
    obtain ⟨hcut, rfl⟩ := hb
    refine ⟨fun x hx => ?_, fun r3 hr3 => ?_⟩
    · cases hx
      exact hcut
    · obtain ⟨hold, hnames⟩ := Option.filter_eq_some_iff.1 hr3
      simp only [decide_eq_true_eq] at hnames
      exact ⟨(h.revision3 r3 hold).1, (h.revision3 r3 hold).2.1, r, rfl, hnames⟩

theorem Extends.withRevision3 {b b' : CutoverBoundary} (h : Extends b)
    (hb : withRevision3 (some b) revision3 = .ok (some b')) : Extends b' := by
  cases revision3 with
  | none =>
    cases hb
    exact ⟨h.revision, nofun⟩
  | some r3 =>
    simp only [AccountProtocol.withRevision3, Except.guard_eq_ok, not_not, Prod.mk.injEq] at hb
    obtain ⟨hcut, hb⟩ := hb
    cases hrev : b.revision with
    | none =>
      rw [hrev] at hb
      cases hb
    | some r =>
      simp only [hrev, Except.guard_eq_ok, Except.pure_eq_ok, Option.some.injEq, not_not, Prod.mk.injEq] at hb
      obtain ⟨hnames, rfl⟩ := hb
      refine ⟨fun x hx => h.revision x (hrev.trans hx), fun x hx => ?_⟩
      cases hx
      exact ⟨hcut.1, hcut.2, r, rfl, hnames⟩

theorem Attached.extends {b : CutoverBoundary} (h : Attached b) : Extends b := by
  induction h with
  | own b hr hr3 => exact ⟨by simp [hr], by simp [hr3]⟩
  | withRevision revision _ hb ih => exact ih.withRevision hb
  | withRevision3 revision3 _ hb ih => exact ih.withRevision3 hb
  | originalBoundary _ hb _ =>
    cases hb
    exact ⟨nofun, nofun⟩

def Stamped (record : Json) : Prop :=
  isStamped record = true ∧ hasCurrentRevision record = true ∧ hasSuccessorRevision record = true

theorem passes_true {extents : Option (Dict String Int)} : passes coord extents true = true := by
  unfold passes
  cases extents with
  | none => rfl
  | some e => exact Bool.or_true _

structure FenceMonotone (record : Json) : Prop where
  without_revision3 : ∀ coord b, Attached b → ∃ b', withRevision3 (some b) none = .ok (some b') ∧
    (Admitted record coord (some b) none none → Admitted record coord (some b') none none)
  without_revision : ∀ coord b, Attached b → ∃ b', withRevision (some b) none = .ok (some b') ∧
    (Admitted record coord (some b) none none → Admitted record coord (some b') none none)
  without_cutover : ∀ coord b, Attached b →
    Admitted record coord (some b) none none → Admitted record coord none none none
  codexOnly : ∀ fam, family record = .ok (fam, true) →
    ∀ coord boundary revision revision3, Admitted record coord boundary revision revision3
  stamped : Stamped record → ∀ coord boundary revision revision3, Admitted record coord boundary revision revision3
  attached : ∀ b, Attached b → Extends b

/-- **The fence is monotone**, and only a fully stamped record whose type or kind has
no hash gets no answer from it. -/
theorem fenceMonotone_iff (record : Json) : FenceMonotone record ↔ (Stamped record → readable record = true) := by
  refine ⟨fun h hs => ?_, fun h => ⟨?_, ?_, ?_, ?_, ?_, fun b hb => hb.extends⟩⟩
  · obtain ⟨fam, codexOnly, hfam, -⟩ := admitted_iff.1 (h.stamped hs ⟨"", 0⟩ none none none)
    exact family_returns.1 ⟨_, hfam⟩
  · intro coord b _
    refine ⟨_, rfl, fun ha => ha.mono fun codexOnly hadmit => ?_⟩
    simp only [admits, Option.none_or, Option.map_none, passes, Bool.or_eq_true, Bool.and_eq_true] at hadmit ⊢
    tauto
  · intro coord b _
    refine ⟨_, rfl, fun ha => ha.mono fun codexOnly hadmit => ?_⟩
    simp only [admits, Option.none_or, Option.map_none, passes, Bool.or_eq_true, Bool.and_eq_true] at hadmit ⊢
    tauto
  · intro coord b _ ha
    exact ha.mono fun codexOnly _ => rfl
  · intro fam hfam coord boundary revision revision3
    refine admitted_iff.2 ⟨fam, true, hfam, ?_⟩
    cases boundary with
    | none => rfl
    | some b => simp [admits]
  · intro hs coord boundary revision revision3
    obtain ⟨⟨fam, codexOnly⟩, hfam⟩ := family_returns.2 (h hs)
    refine admitted_iff.2 ⟨fam, codexOnly, hfam, ?_⟩
    cases boundary with
    | none => rfl
    | some b => simp [admits, hs.1, hs.2.1, hs.2.2, passes_true]

end

def listKind : Json :=
  .obj [("payload", .obj [("kind", .arr [])]), ("t", .str "op"), ("wpg", .str "account-bound-v1"), ("wpr", .num 2),
    ("wpx", .num 3)]

theorem fenceMonotone_listKind : ¬ FenceMonotone listKind := by
  intro h
  obtain ⟨a, ha, -⟩ := h.stamped ⟨rfl, rfl, rfl⟩ ⟨"", 0⟩ none none none
  cases ha

end AccountProtocol

end Cctally
