import Cctally.AccountFence
import Cctally.SegmentSummaries

/-!
# The fence over a segment

The cutover's boundary decides line by line. It never excludes a record inside the frozen
extent of the segment, nor a quota observation, which its fields prove Codex-only.
-/

namespace Cctally.SegmentSummaries

open AccountProtocol
open Json (field)

def textOf : Json → Option String
  | .str s => some s
  | _ => none

def payloadOf (record : Json.Fields) : Json.Fields :=
  match field record "payload" with
  | .obj payload => payload
  | _ => []

def recordDecoder (decodeLine : Bytes → Option Json.Fields) (providerOfLegacy : Json.Fields → Option Provider) :
    Decoder Json.Fields :=
  { decodeLine := decodeLine
    t := fun record => (textOf (field record "t")).getD ""
    at_ := fun record => textOf (field record "at")
    account := fun record => textOf (field record "account")
    provider := fun record => textOf (field record "provider")
    payloadKind := fun record => textOf (field (payloadOf record) "kind")
    payloadAccountKey := fun record => textOf (field (payloadOf record) "account_key")
    providerOfLegacy := providerOfLegacy }

/-- `not _is_admitted`; a record whose family cannot be looked up stops the pass. -/
def excludedBy (b : CutoverBoundary) (segment : String) (record : Json.Fields) (offset : Nat) : Bool :=
  match classifyAdmission (.obj record) ⟨segment, offset⟩ (some b) none none with
  | .ok admission => !admission.admitted
  | .error _ => false

theorem excludedBy_eq_false {b : CutoverBoundary} {segment : String} {record : Json.Fields} {offset : Nat}
    (h : ∀ codexOnly fam, family (.obj record) = .ok (fam, codexOnly) →
      admits (.obj record) ⟨segment, offset⟩ codexOnly (some b) none none = true) :
    excludedBy b segment record offset = false := by
  rw [excludedBy]
  cases hfamily : family (.obj record) with
  | error e =>
    unfold classifyAdmission
    rw [hfamily]
    rfl
  | ok r =>
    obtain ⟨fam, codexOnly⟩ := r
    obtain ⟨reason, heq⟩ : ∃ reason, classifyAdmission (.obj record) ⟨segment, offset⟩ (some b) none none =
        .ok ⟨admits (.obj record) ⟨segment, offset⟩ codexOnly (some b) none none, fam, reason⟩ := classifyAdmission_eq hfamily
    rw [heq]
    simp only [h codexOnly fam hfamily, Bool.not_true]

theorem textIs_of_textOf {value : Json} {s : String} (h : textOf value = some s) : value = .str s := by
  cases value with
  | str t => exact congrArg Json.str (Option.some.inj h)
  | _ => cases h

theorem family_of_quota {decodeLine : Bytes → Option Json.Fields} {providerOfLegacy : Json.Fields → Option Provider}
    {record : Json.Fields} (h : (recordDecoder decodeLine providerOfLegacy).isCodexQuotaObs record = true) :
    family (.obj record) = .ok (.codex, true) := by
  rw [Decoder.isCodexQuotaObs, Bool.and_eq_true, Bool.and_eq_true, decide_eq_true_eq, decide_eq_true_eq,
    decide_eq_true_eq] at h
  obtain ⟨⟨ht, hprovider⟩, hkind⟩ := h
  have hobs : field record "t" = .str "obs" := by
    simp only [recordDecoder] at ht
    cases htext : textOf (field record "t") with
    | none =>
      rw [htext] at ht
      exact absurd ht (by decide)
    | some s =>
      rw [htext, Option.getD_some] at ht
      exact ht ▸ textIs_of_textOf htext
  have hcodex : field record "provider" = .str "codex" := textIs_of_textOf hprovider
  have hpayload : ∃ payload, field record "payload" = .obj payload ∧ field payload "kind" = .str QUOTA_OBS_KIND := by
    simp only [recordDecoder, payloadOf] at hkind
    split at hkind
    next payload hobj => exact ⟨payload, hobj, textIs_of_textOf hkind⟩
    next => cases hkind
  obtain ⟨payload, hobj, hsnapshot⟩ := hpayload
  unfold family
  simp only [hobs, hobj]
  rw [memberOf_eq (by rfl)]
  simp only [Except.ok_bind, obsFamily, hcodex, hsnapshot]
  rfl

def Fence.ofBoundary (decodeLine : Bytes → Option Json.Fields) (providerOfLegacy : Json.Fields → Option Provider)
    (segment : String) (b : CutoverBoundary) : Fence (recordDecoder decodeLine providerOfLegacy) :=
  { frozenExtent := b.frozenExtents.get? segment
    excluded := excludedBy b segment
    historical := fun extent hextent record offset hlt => excludedBy_eq_false fun codexOnly _ _ => by
      have hhistorical : isHistorical ⟨segment, offset⟩ b.frozenExtents = true := by
        rw [isHistorical, hextent]
        exact decide_eq_true hlt
      rw [admits, hhistorical]
      rfl
    quota := fun record offset hquota => excludedBy_eq_false fun codexOnly fam hfamily => by
      obtain ⟨_, rfl⟩ := Prod.mk.inj (Except.ok.inj (hfamily.symm.trans (family_of_quota hquota)))
      rw [admits, Bool.or_true]
      rfl }

end Cctally.SegmentSummaries
