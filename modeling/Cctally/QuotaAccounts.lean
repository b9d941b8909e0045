import Cctally.Dict
import Mathlib.Data.List.Sort

/-!
# The accounts of quota rows

File-account decisions are kept first-wins in a map; a quota row takes the account of the
decision that covers its bytes, and else its observation's own stamp. Batches apply their
decisions before their observations.
-/

namespace Cctally.QuotaAccounts

variable {I R : Type*}

/-- `codex_file_account`: the account of a file's bytes from an offset on. -/
structure Decision (I : Type*) where
  fileIdentity : Option I
  incarnation : Option Int
  fromOffset : Option Int
  rootScope : Option String
  accountKey : Option String
  at_ : Option String

structure Observation (R : Type*) where
  source : Option String
  sourceRootKey : Option String
  sourcePath : Option String
  lineOffset : Option Int
  logicalLimitKey : Option String
  rest : R
  account : Option String

inductive Record (I R : Type*)
  | decision (d : Decision I)
  | observation (o : Observation R)

structure QuotaKey where
  source : String
  sourcePath : String
  lineOffset : Int
  logicalLimitKey : String
  deriving DecidableEq

structure QuotaRow (R : Type*) where
  sourceRootKey : Option String
  rest : R
  account : Option String

abbrev FileAccounts (I : Type*) := Dict (I × Int × Int) (Option String)

abbrev QuotaRows (R : Type*) := Dict QuotaKey (QuotaRow R)

/-- `codex_file_accounts` and `quota_window_snapshots`. -/
structure Cache (I R : Type*) where
  accounts : FileAccounts I
  quota : QuotaRows R

def emptyCache : Cache I R := ⟨Dict.empty, Dict.empty⟩

def Observation.naturalKey (o : Observation R) : Option QuotaKey :=
  match o.source, o.sourcePath, o.lineOffset, o.logicalLimitKey with
  | some source, some path, some offset, some limit => some ⟨source, path, offset, limit⟩
  | _, _, _, _ => none

section
variable [DecidableEq I]

/-- `_FILE_ACCOUNT_INSERT`: first wins, and a decision that breaks a constraint is dropped. -/
def applyDecision (accounts : FileAccounts I) (d : Decision I) : FileAccounts I :=
  match d.fileIdentity, d.incarnation, d.fromOffset, d.rootScope, d.at_ with
  | some identity, some incarnation, some offset, some _, some _ =>
    accounts.setdefault (identity, incarnation, offset) d.accountKey
  | _, _, _, _, _ => accounts

def applyFileAccountRecords (accounts : FileAccounts I) (ds : List (Decision I)) : FileAccounts I :=
  ds.foldl applyDecision accounts

/-! ## The oracle -/

def incarnations (accounts : FileAccounts I) (identity : I) : List Int :=
  ((accounts.keys.filter fun k => decide (k.1 = identity)).map (·.2.1)).dedup

/-- `_ranges_for`: none unless exactly one incarnation is known. -/
def rangesFor (accounts : FileAccounts I) (identity : I) : List (Int × Option String) :=
  match incarnations accounts identity with
  | [incarnation] =>
    ((accounts.entries.filter fun e => decide (e.1.1 = identity ∧ e.1.2.1 = incarnation)).map
      fun e => (e.1.2.2, e.2)).insertionSort fun a b => a.1 ≤ b.1
  | _ => []

def covering (offset : Int) : Option (Option String) → List (Int × Option String) → Option (Option String)
  | found, [] => found
  | found, (fromOffset, decided) :: ranges => if offset < fromOffset then found else covering offset (some decided) ranges

/-- `_CodexAttributionOracle.resolve`; `identify` is the file key of a path under a root. -/
def resolve (identify : String → String → Option I) (accounts : FileAccounts I) (o : Observation R) :
    Option (Option String) :=
  match o.sourceRootKey, o.sourcePath, o.lineOffset with
  | some root, some path, some offset =>
    if root = "" ∨ path = "" then none
    else
      match identify root path with
      | none => none
      | some identity => covering offset none (rangesFor accounts identity)
  | _, _, _ => none

theorem covering_eq {offset : Int} {ranges : List (Int × Option String)} (h : ranges.Pairwise fun a b => a.1 ≤ b.1)
    (found : Option (Option String)) : covering offset found ranges =
      (((ranges.filter fun r => decide (r.1 ≤ offset)).getLast?).map (·.2)).or found := by
  induction ranges generalizing found with
  | nil => rfl
  | cons r ranges ih =>
    obtain ⟨fromOffset, decided⟩ := r
    obtain ⟨hle, hrest⟩ := List.pairwise_cons.1 h
    rw [covering]
    by_cases hlt : offset < fromOffset
    · have hnone : ranges.filter (fun r => decide (r.1 ≤ offset)) = [] := by
        rw [List.filter_eq_nil_iff]
        intro r hr hin
        have := hle r hr
        rw [decide_eq_true_eq] at hin
        omega
      rw [if_pos hlt, List.filter_cons_of_neg (by simpa using hlt), hnone]
      rfl
    · rw [if_neg hlt, ih hrest, List.filter_cons_of_pos (by simpa using not_lt.1 hlt), List.getLast?_cons]
      cases (ranges.filter fun r => decide (r.1 ≤ offset)).getLast? <;> rfl

theorem mem_rangesFor {accounts : FileAccounts I} {identity : I} {n : Int} (h : incarnations accounts identity = [n])
    {r : Int × Option String} : r ∈ rangesFor accounts identity ↔ accounts.get? (identity, n, r.1) = some r.2 := by
  rw [rangesFor, h]
  simp only
  rw [(List.perm_insertionSort _ _).mem_iff, List.mem_map, Dict.get?_eq_some]
  constructor
  · intro hr
    obtain ⟨⟨⟨identity', n', fromOffset⟩, account⟩, hmem, hr⟩ := hr
    rw [List.mem_filter, decide_eq_true_eq] at hmem
    obtain ⟨hmem, rfl, rfl⟩ := hmem
    rwa [← hr]
  · intro hmem
    exact ⟨_, List.mem_filter.2 ⟨hmem, decide_eq_true ⟨rfl, rfl⟩⟩, rfl⟩

theorem rangesFor_sorted (accounts : FileAccounts I) (identity : I) :
    (rangesFor accounts identity).Pairwise fun a b => a.1 ≤ b.1 := by
  rw [rangesFor]
  split
  · exact List.pairwise_insertionSort _ _
  · exact List.Pairwise.nil

theorem le_of_getLast? {ranges : List (Int × Option String)} (h : ranges.Pairwise fun a b => a.1 ≤ b.1)
    {last : Int × Option String} (hlast : ranges.getLast? = some last) : ∀ r ∈ ranges, r.1 ≤ last.1 := by
  rcases ranges.eq_nil_or_concat with rfl | ⟨init, x, rfl⟩
  · cases hlast
  rw [List.concat_eq_append] at h hlast ⊢
  rw [List.getLast?_append] at hlast
  obtain rfl : x = last := Option.some.inj hlast
  intro r hr
  rcases List.mem_append.1 hr with hr | hr
  · exact (List.pairwise_append.1 h).2.2 r hr x List.mem_cons_self
  · exact le_of_eq (congrArg Prod.fst (List.mem_singleton.1 hr))

theorem of_resolve {identify : String → String → Option I} {accounts : FileAccounts I} {o : Observation R}
    {account : Option String} (h : resolve identify accounts o = some account) :
    ∃ root path offset identity n fromOffset, o.sourceRootKey = some root ∧ o.sourcePath = some path ∧
      o.lineOffset = some offset ∧ identify root path = some identity ∧ incarnations accounts identity = [n] ∧
      accounts.get? (identity, n, fromOffset) = some account ∧ fromOffset ≤ offset ∧
      ∀ other decided, accounts.get? (identity, n, other) = some decided → other ≤ offset → other ≤ fromOffset := by
  rw [resolve] at h
  split at h
  next root path offset hroot hpath hoffset =>
    split at h
    · cases h
    · cases hidentity : identify root path with
      | none =>
        rw [hidentity] at h
        cases h
      | some identity =>
        rw [hidentity] at h
        simp only at h
        rw [covering_eq (rangesFor_sorted accounts identity), Option.or_none, Option.map_eq_some_iff] at h
        obtain ⟨⟨fromOffset, decided⟩, hlast, rfl⟩ := h
        have hmem := List.mem_filter.1 (List.mem_of_getLast? hlast)
        have hone : ∃ n, incarnations accounts identity = [n] := by
          have hranges := hmem.1
          rw [rangesFor] at hranges
          split at hranges
          next n hn => exact ⟨n, hn⟩
          next => cases hranges
        obtain ⟨n, hn⟩ := hone
        refine ⟨root, path, offset, identity, n, fromOffset, hroot, hpath, hoffset, hidentity, hn,
          (mem_rangesFor hn).1 hmem.1, of_decide_eq_true hmem.2, fun other decided hget hle => ?_⟩
        have hin : (other, decided) ∈ (rangesFor accounts identity).filter fun r => decide (r.1 ≤ offset) :=
          List.mem_filter.2 ⟨(mem_rangesFor hn).2 hget, decide_eq_true hle⟩
        have hsorted := (rangesFor_sorted accounts identity).filter fun r => decide (r.1 ≤ offset)
        exact le_of_getLast? hsorted hlast _ hin
  next => cases h

def soleAccounts : FileAccounts Nat := .ofList [((7, 0, 0), some "a")]

theorem of_resolve_sole : ∃ n fromOffset, incarnations soleAccounts 7 = [n] ∧
    soleAccounts.get? (7, n, fromOffset) = some (some "a") ∧ fromOffset ≤ 12 := by
  have h : resolve (fun _ _ => some 7) soleAccounts ⟨none, some "root", some "path", some 12, none, (), none⟩ =
      some (some "a") := by decide
  obtain ⟨root, path, offset, identity, n, fromOffset, -, -, hoffset, hidentity, hn, hget, hle, -⟩ := of_resolve h
  obtain rfl := Option.some.inj hidentity
  obtain rfl := Option.some.inj hoffset
  exact ⟨n, fromOffset, hn, hget, hle⟩

end

section
variable (checks : R → Bool)

def lands (o : Observation R) : Bool :=
  (decide (o.source = some "claude") || (decide (o.source = some "codex") && o.sourceRootKey.isSome)) && checks o.rest

/-- One statement of `_apply_quota_records`, for the oracle's answer: an uncovered observation
inserts, a covered one inserts or moves the account. -/
def write (rows : QuotaRows R) (answered : Option (Option String) × Observation R) : QuotaRows R :=
  match answered.2.naturalKey with
  | none => rows
  | some key =>
    if lands checks answered.2 then
      match answered.1, rows.get? key with
      | none, none => rows.set key ⟨answered.2.sourceRootKey, answered.2.rest, answered.2.account⟩
      | none, some _ => rows
      | some decided, none => rows.set key ⟨answered.2.sourceRootKey, answered.2.rest, decided⟩
      | some decided, some row => if row.account = decided then rows else rows.set key { row with account := decided }
    else rows

variable [DecidableEq I] (identify : String → String → Option I)

def answers (accounts : FileAccounts I) (os : List (Observation R)) : List (Option (Option String) × Observation R) :=
  os.map fun o => (resolve identify accounts o, o)

def applyQuotaRecords (accounts : FileAccounts I) (rows : QuotaRows R) (os : List (Observation R)) : QuotaRows R :=
  (answers identify accounts os).foldl (write checks) rows

def decisions (records : List (Record I R)) : List (Decision I) :=
  records.filterMap fun
    | .decision d => some d
    | .observation _ => none

def observations (records : List (Record I R)) : List (Observation R) :=
  records.filterMap fun
    | .decision _ => none
    | .observation o => some o

def applyBatch (cache : Cache I R) (batch : List (Record I R)) : Cache I R :=
  let accounts := applyFileAccountRecords cache.accounts (decisions batch)
  ⟨accounts, applyQuotaRecords checks identify accounts cache.quota (observations batch)⟩

end

end Cctally.QuotaAccounts
