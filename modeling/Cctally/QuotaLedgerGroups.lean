import Cctally.QuotaLedgerUnits
import Mathlib.Logic.Equiv.List

/-!
# The closure of raw groups and their units

Minted groups reach one another in the closure exactly when they snap to one
unit. Their identities stamp the same unit as long as no raw key carries a pool.
-/

namespace Cctally.QuotaLedger

section
variable (tx : Texts)

def Group.IsMinted (x : Group) : Prop := ∃ (k : Mint) (n : Int), x.logicalLimitKey = k.key tx n

def Alike (x y : Group) : Prop :=
  (y.sourceRootKey = x.sourceRootKey ∧ y.observedSlot = x.observedSlot ∧ y.reset = x.reset) ∧
    snapMinutes y.windowMinutes = snapMinutes x.windowMinutes ∧
    ∃ (k : Mint) (n n' : Int), x.logicalLimitKey = k.key tx n ∧ y.logicalLimitKey = k.key tx n' ∧
      snapMinutes n' = snapMinutes n

variable {tx}

theorem Alike.refl {x : Group} (h : x.IsMinted tx) : Alike tx x x := by
  obtain ⟨k, n, hkey⟩ := h
  exact ⟨⟨rfl, rfl, rfl⟩, rfl, k, n, n, hkey, hkey, rfl⟩

theorem Alike.isMinted {x y : Group} (h : Alike tx x y) : y.IsMinted tx := by
  obtain ⟨-, -, k, -, n', -, hkey, -⟩ := h
  exact ⟨k, n', hkey⟩

theorem Alike.trans {x y z : Group} (h : Alike tx x y) (h' : Alike tx y z) : Alike tx x z := by
  obtain ⟨⟨hroot, hslot, hreset⟩, hcol, k, n, m, hx, hy, hnm⟩ := h
  obtain ⟨⟨hroot', hslot', hreset'⟩, hcol', k', m', l, hy', hz, hml⟩ := h'
  obtain ⟨rfl, rfl⟩ := key_injective tx (hy.symm.trans hy')
  exact ⟨⟨hroot'.trans hroot, hslot'.trans hslot, hreset'.trans hreset⟩, hcol'.trans hcol, k, n, l, hx, hz,
    hml.trans hnm⟩

theorem widen_spec {x : Group} (h : x.IsMinted tx) :
    ∃ ws, widen tx x = .ok ws ∧ ∀ y, y ∈ ws ↔ Alike tx x y := by
  obtain ⟨k, n, hkey⟩ := h
  refine ⟨_, by rw [widen, hkey, equivalentKeys_key, Except.ok_bind]; rfl, fun y => ?_⟩
  simp only [List.mem_flatMap, List.mem_map, mem_equivalents]
  constructor
  · rintro ⟨key, ⟨n', hn', rfl⟩, m, hm, rfl⟩
    exact ⟨⟨rfl, rfl, rfl⟩, hm, k, n, n', hkey, rfl, hn'⟩
  · rintro ⟨⟨hroot, hslot, hreset⟩, hcol, k', m, n', hx, hy, hn'⟩
    obtain ⟨rfl, rfl⟩ := key_injective tx (hkey.symm.trans hx)
    refine ⟨k.key tx n', ⟨n', hn', rfl⟩, y.windowMinutes, hcol, ?_⟩
    obtain ⟨root, key, slot, minutes, reset⟩ := y
    dsimp only at hroot hslot hreset hy
    subst hroot hslot hreset hy
    rfl

theorem closure_spec (groups : List Group) (h : ∀ x ∈ groups, x.IsMinted tx) :
    ∃ closed, snapEquivalentRawGroups tx groups = .ok closed ∧ ∀ y, y ∈ closed ↔ ∃ x ∈ groups, Alike tx x y := by
  have hreturns : ∀ x ∈ groups, ∃ ws, widen tx x = .ok ws := fun x hx => by
    obtain ⟨ws, hws, -⟩ := widen_spec (h x hx)
    exact ⟨ws, hws⟩
  obtain ⟨widened, hwidened⟩ := Except.mapM_returns hreturns
  refine ⟨widened.flatten, by rw [snapEquivalentRawGroups, hwidened]; rfl, fun y => ?_⟩
  rw [List.mem_flatten]
  constructor
  · rintro ⟨ws, hws, hy⟩
    obtain ⟨x, hx, hw⟩ := (Except.mem_of_mapM hwidened ws).1 hws
    obtain ⟨ws', hw', hmem⟩ := widen_spec (h x hx)
    obtain rfl := Except.ok.inj (hw.symm.trans hw')
    exact ⟨x, hx, (hmem y).1 hy⟩
  · rintro ⟨x, hx, hxy⟩
    obtain ⟨ws, hw, hmem⟩ := widen_spec (h x hx)
    exact ⟨ws, (Except.mem_of_mapM hwidened ws).2 ⟨x, hx, hw⟩, (hmem y).2 hxy⟩

theorem closure_closed {groups : List Group} (h : ∀ x ∈ groups, x.IsMinted tx) :
    ∃ closed, snapEquivalentRawGroups tx groups = .ok closed ∧ (∀ x ∈ groups, x ∈ closed) ∧
      ∃ again, snapEquivalentRawGroups tx closed = .ok again ∧ ∀ y, y ∈ again ↔ y ∈ closed := by
  obtain ⟨closed, hclosed, hmem⟩ := closure_spec groups h
  have hminted : ∀ y ∈ closed, y.IsMinted tx := fun y hy => by
    obtain ⟨x, -, hxy⟩ := (hmem y).1 hy
    exact hxy.isMinted
  obtain ⟨again, hagain, hmem'⟩ := closure_spec closed hminted
  refine ⟨closed, hclosed, fun x hx => (hmem x).2 ⟨x, hx, Alike.refl (h x hx)⟩, again, hagain, fun z => ?_⟩
  rw [hmem']
  constructor
  · rintro ⟨y, hy, hyz⟩
    obtain ⟨x, hx, hxy⟩ := (hmem y).1 hy
    exact (hmem z).2 ⟨x, hx, hxy.trans hyz⟩
  · intro hz
    exact ⟨z, hz, Alike.refl (hminted z hz)⟩

def InClosure (tx : Texts) (x y : Group) : Prop := ∃ closed, snapEquivalentRawGroups tx [x] = .ok closed ∧ y ∈ closed

theorem inClosure_iff {x y : Group} (h : x.IsMinted tx) : InClosure tx x y ↔ Alike tx x y := by
  obtain ⟨closed, hclosed, hmem⟩ := closure_spec [x] fun z hz => List.mem_singleton.1 hz ▸ h
  have hone := hmem y
  simp only [List.mem_singleton, exists_eq_left] at hone
  rw [← hone]
  constructor
  · rintro ⟨closed', hclosed', hy⟩
    rwa [Except.ok.inj (hclosed.symm.trans hclosed')]
  · exact fun hy => ⟨closed, hclosed, hy⟩

/-! ## Minted groups and their units -/

structure MintedGroup where
  sourceRootKey : String
  keyRoot : Option String
  limitId : Option String
  keySlot : String
  observedSlot : String
  windowMinutes : Int
  model : Option String
  reset : String

def MintedGroup.raw (tx : Texts) (g : MintedGroup) : Group where
  sourceRootKey := g.sourceRootKey
  logicalLimitKey := codexLogicalLimitKey tx g.keyRoot g.limitId g.keySlot g.windowMinutes g.model
  observedSlot := g.observedSlot
  windowMinutes := g.windowMinutes
  reset := g.reset

def MintedGroup.mint (tx : Texts) (g : MintedGroup) : Mint :=
  ⟨g.keyRoot, g.limitId, g.keySlot, codexModelScopedQuotaPool tx g.model⟩

/-- The limit keys an interpreted identity of the group may carry: the snapped key as it is, or
one minted again with the snapped length and the pool of any model, or none. -/
def Interprets (tx : Texts) (g : MintedGroup) (key : String) : Prop :=
  key = snapWindowMinutes tx (g.raw tx).logicalLimitKey ∨
    ∃ model, key = codexLogicalLimitKey tx g.keyRoot g.limitId g.keySlot (snapMinutes g.windowMinutes) model

theorem MintedGroup.raw_key (g : MintedGroup) : (g.raw tx).logicalLimitKey = (g.mint tx).key tx g.windowMinutes := rfl

theorem MintedGroup.isMinted (g : MintedGroup) : (g.raw tx).IsMinted tx := ⟨g.mint tx, g.windowMinutes, rfl⟩

theorem unit_raw (g : MintedGroup) :
    loadingUnitFromRaw tx (g.raw tx) =
      ⟨g.sourceRootKey, (g.mint tx).key tx (snapMinutes g.windowMinutes), g.observedSlot, snapMinutes g.windowMinutes,
        normalizeReset tx g.reset⟩ := by
  rw [loadingUnitFromRaw, g.raw_key, snapWindowMinutes_key]
  rfl

theorem alike_iff_unit {g g' : MintedGroup} (hroot : g'.sourceRootKey = g.sourceRootKey)
    (hslot : g'.observedSlot = g.observedSlot) (hreset : g'.reset = g.reset) :
    Alike tx (g.raw tx) (g'.raw tx) ↔ loadingUnitFromRaw tx (g.raw tx) = loadingUnitFromRaw tx (g'.raw tx) := by
  rw [unit_raw, unit_raw, Group.mk.injEq]
  constructor
  · rintro ⟨-, hcol, k, n, n', hkey, hkey', hn⟩
    obtain ⟨hk, hm⟩ := key_injective tx (g.raw_key.symm.trans hkey)
    obtain ⟨hk', hm'⟩ := key_injective tx (g'.raw_key.symm.trans hkey')
    have hsnap : snapMinutes g'.windowMinutes = snapMinutes g.windowMinutes := hcol
    rw [hk, hk', hsnap, hroot, hslot, hreset]
    exact ⟨rfl, rfl, rfl, rfl, rfl⟩
  · rintro ⟨-, hkey, -, hsnap, -⟩
    obtain ⟨hmint, -⟩ := key_injective tx hkey
    exact ⟨⟨hroot, hslot, hreset⟩, hsnap.symm, g.mint tx, _, _, g.raw_key, by rw [g'.raw_key, hmint], hsnap.symm⟩

theorem mutual_closure_iff {g g' : MintedGroup} (hroot : g'.sourceRootKey = g.sourceRootKey)
    (hslot : g'.observedSlot = g.observedSlot) (hreset : g'.reset = g.reset) :
    InClosure tx (g.raw tx) (g'.raw tx) ∧ InClosure tx (g'.raw tx) (g.raw tx) ↔
      loadingUnitFromRaw tx (g.raw tx) = loadingUnitFromRaw tx (g'.raw tx) := by
  rw [inClosure_iff g.isMinted, inClosure_iff g'.isMinted, alike_iff_unit hroot hslot hreset,
    alike_iff_unit hroot.symm hslot.symm hreset.symm]
  exact ⟨And.left, fun h => ⟨h, h.symm⟩⟩

theorem identity_unit_iff {g : MintedGroup} {key : String} (h : Interprets tx g key) :
    loadingUnitFromIdentity tx g.sourceRootKey key g.observedSlot (snapMinutes g.windowMinutes) g.reset =
      loadingUnitFromRaw tx (g.raw tx) ↔ codexModelScopedQuotaPool tx g.model = none := by
  have hstrip : stripModelPool tx key = (g.mint tx).unpooled.key tx (snapMinutes g.windowMinutes) := by
    rcases h with rfl | ⟨model, rfl⟩
    · rw [g.raw_key, snapWindowMinutes_key, stripModelPool_key]
    · exact stripModelPool_key tx ⟨g.keyRoot, g.limitId, g.keySlot, codexModelScopedQuotaPool tx model⟩ _
  rw [unit_raw, loadingUnitFromIdentity, hstrip, Group.mk.injEq]
  constructor
  · rintro ⟨-, hkey, -⟩
    obtain ⟨hmint, -⟩ := key_injective tx hkey
    exact (congrArg Mint.pool hmint).symm
  · intro hpool
    have hmint : (g.mint tx).unpooled = g.mint tx := by
      unfold Mint.unpooled MintedGroup.mint
      rw [hpool]
    rw [hmint]
    exact ⟨rfl, rfl, rfl, rfl, rfl⟩

end

def Separable (unit : Group) : Prop :=
  ∀ s ∈ [unit.sourceRootKey, unit.logicalLimitKey, unit.observedSlot, unit.reset], '\x1f' ∉ s.toList

theorem separator_not_mem_repr (n : Int) : '\x1f' ∉ n.repr.toList := by
  have hdigits : ∀ m : Nat, '\x1f' ∉ Nat.toDigits 10 m := fun m hm =>
    absurd (Nat.isDigit_of_mem_toDigits (by decide) (by decide) hm) (by decide)
  rw [Int.repr_eq_if]
  split
  · simp [hdigits]
  · simp [hdigits]

theorem text_injective {u u' : Group} (h : Separable u) (h' : Separable u')
    (heq : physicalGroupKeyText u = physicalGroupKeyText u') : u = u' := by
  have hsplit : ∀ v : Group, Separable v → (physicalGroupKeyText v).toList.splitOn '\x1f' =
      [v.sourceRootKey, v.logicalLimitKey, v.observedSlot, v.windowMinutes.repr, v.reset].map String.toList := by
    intro v hv
    have hsep : KEY_SEPARATOR.toList = ['\x1f'] := by decide
    rw [physicalGroupKeyText, String.toList_intercalate, hsep]
    refine List.splitOn_intercalate _ ?_ (by simp)
    simp only [Separable, List.mem_cons, List.not_mem_nil, or_false, forall_eq_or_imp, forall_eq] at hv
    simp only [List.map_cons, List.map_nil, List.mem_cons, List.not_mem_nil, or_false, forall_eq_or_imp, forall_eq]
    exact ⟨hv.1, hv.2.1, hv.2.2.1, separator_not_mem_repr _, hv.2.2.2⟩
  have hfields := hsplit u h
  rw [heq, hsplit u' h'] at hfields
  simp only [List.map_cons, List.map_nil, List.cons.injEq, String.toList_inj, and_true] at hfields
  obtain ⟨hroot, hkey, hslot, hminutes, hreset⟩ := hfields
  obtain ⟨root, key, slot, minutes, reset⟩ := u
  dsimp only at hroot hkey hslot hminutes hreset
  rw [← hroot, ← hkey, ← hslot, ← Int.repr_injective hminutes, ← hreset]

structure UnitsAgree (tx : Texts) (groups : List MintedGroup) : Prop where
  closed : ∃ closed, snapEquivalentRawGroups tx (groups.map (MintedGroup.raw tx)) = .ok closed ∧
    (∀ x ∈ groups.map (MintedGroup.raw tx), x ∈ closed) ∧
    ∃ again, snapEquivalentRawGroups tx closed = .ok again ∧ ∀ y, y ∈ again ↔ y ∈ closed
  mutual_closure : ∀ g ∈ groups, ∀ g' ∈ groups, g'.sourceRootKey = g.sourceRootKey →
    g'.observedSlot = g.observedSlot → g'.reset = g.reset →
      (InClosure tx (g.raw tx) (g'.raw tx) ∧ InClosure tx (g'.raw tx) (g.raw tx) ↔
        loadingUnitFromRaw tx (g.raw tx) = loadingUnitFromRaw tx (g'.raw tx))
  identity : ∀ g ∈ groups, ∀ key, Interprets tx g key →
    loadingUnitFromIdentity tx g.sourceRootKey key g.observedSlot (snapMinutes g.windowMinutes) g.reset =
      loadingUnitFromRaw tx (g.raw tx)
  text : ∀ u u' : Group, Separable u → Separable u' → physicalGroupKeyText u = physicalGroupKeyText u' → u = u'

/-- **Raw groups and units agree exactly when no raw key carries a pool.** -/
theorem units_agree_iff (tx : Texts) (groups : List MintedGroup) :
    UnitsAgree tx groups ↔ ∀ g ∈ groups, codexModelScopedQuotaPool tx g.model = none := by
  constructor
  · intro h g hg
    exact (identity_unit_iff (Or.inl rfl)).1 (h.identity g hg _ (Or.inl rfl))
  · intro h
    have hminted : ∀ x ∈ groups.map (MintedGroup.raw tx), x.IsMinted tx := fun x hx => by
      obtain ⟨g, -, rfl⟩ := List.mem_map.1 hx
      exact g.isMinted
    exact ⟨closure_closed hminted, fun g _ g' _ => mutual_closure_iff,
      fun g hg key hkey => (identity_unit_iff hkey).2 (h g hg), fun u u' => text_injective⟩

/-! ## A worked table of texts -/

def codes (s : String) : List Nat := s.toList.map Char.toNat

def ofCodes (l : List Nat) : String := String.ofList (l.map Char.ofNat)

theorem ofCodes_codes (s : String) : ofCodes (codes s) = s := by
  simp [ofCodes, codes, List.map_map, Function.comp_def]

def memberCode : Json → Option (Int ⊕ List Nat)
  | .num n => some (.inl n)
  | .str s => some (.inr (codes s))
  | _ => none

def ofMemberCode : Option (Int ⊕ List Nat) → Json
  | none => .null
  | some (.inl n) => .num n
  | some (.inr l) => .str (ofCodes l)

theorem ofMemberCode_memberCode : ∀ {v : Json}, Plain v → ofMemberCode (memberCode v) = v
  | .null, _ => rfl
  | .num _, _ => rfl
  | .str s, _ => congrArg Json.str (ofCodes_codes s)

def fieldsCode (fields : Json.Fields) : Nat := Encodable.encode (fields.map fun p => (codes p.1, memberCode p.2))

def ofFieldsCode (n : Nat) : Option Json.Fields :=
  (Encodable.decode n : Option (List (List Nat × Option (Int ⊕ List Nat)))).map fun l =>
    l.map fun p => (ofCodes p.1, ofMemberCode p.2)

theorem ofFieldsCode_fieldsCode {fields : Json.Fields} (h : ∀ p ∈ fields, Plain p.2) :
    ofFieldsCode (fieldsCode fields) = some fields := by
  unfold ofFieldsCode fieldsCode
  rw [Encodable.encodek, Option.map_some, List.map_map]
  refine congrArg some ((List.map_congr_left fun p hp => ?_).trans (List.map_id fields))
  exact Prod.ext (ofCodes_codes p.1) (ofMemberCode_memberCode (h p hp))

def workedMint (pool : Option String) : Mint := ⟨some "root-kernel", some "codex", "primary", pool⟩

def workedText (pool minutes : String) : String :=
  "\x7b\"limitId\":\"codex\"," ++ pool ++ "\"observedSlot\":\"primary\",\"source\":\"codex\"," ++
    "\"sourceRootKey\":\"root-kernel\",\"windowMinutes\":" ++ minutes ++ "\x7d"

def workedPool : String := "\"modelPool\":\"gpt-5.3-codex-spark\","

def workedKeys : List (Json × String) :=
  [(.obj ((workedMint none).fields 10080), workedText "" "10080"),
    (.obj ((workedMint none).fields 10081), workedText "" "10081"),
    (.obj ((workedMint (some "gpt-5.3-codex-spark")).fields 10080), workedText workedPool "10080")]

def workedJson (v : Json) : String :=
  match workedKeys.find? fun p => p.1 = v with
  | some p => p.2
  | none =>
    match v with
    | .obj fields => String.ofList (List.replicate (fieldsCode fields) '.')
    | _ => ""

def workedLoads (s : String) : Option Json :=
  match workedKeys.find? fun p => p.2 = s with
  | some p => some p.1
  | none => (ofFieldsCode s.length).map Json.obj

def workedTexts : Texts where
  canonicalJson := workedJson
  loads := workedLoads
  instant s := if s = "2026-07-31T15:00:00+00:00" then some s else none
  normalized := String.toLower
  loads_canonicalJson := by
    intro fields _ hplain
    unfold workedJson
    cases hfind : workedKeys.find? fun p => p.1 = .obj fields with
    | some p =>
      have hall : ∀ p ∈ workedKeys, workedLoads p.2 = some p.1 := by decide
      have hp : p.1 = .obj fields := by simpa using List.find?_some hfind
      dsimp only
      rw [hall p (List.mem_of_find?_eq_some hfind), hp]
    | none =>
      have hbrace : ∀ p ∈ workedKeys, '\x7b' ∈ p.2.toList := by decide +kernel
      have hnone : workedKeys.find? (fun p => p.2 = String.ofList (List.replicate (fieldsCode fields) '.')) = none := by
        rw [List.find?_eq_none]
        intro p hp heq
        have hmem := hbrace p hp
        rw [of_decide_eq_true heq, String.toList_ofList] at hmem
        exact absurd (List.eq_of_mem_replicate hmem) (by decide)
      dsimp only
      rw [workedLoads, hnone, String.length_ofList, List.length_replicate, ofFieldsCode_fieldsCode hplain]
      rfl

def workedGroup : MintedGroup where
  sourceRootKey := "root-kernel"
  keyRoot := some "root-kernel"
  limitId := some "codex"
  keySlot := "primary"
  observedSlot := "primary"
  windowMinutes := 10080
  model := some "gpt-5.3-codex-spark"
  reset := "2026-07-31T15:00:00Z"

/-- A key that carries a pool has another unit than the identities of its rows. -/
theorem pooled_units_differ : ¬UnitsAgree workedTexts [workedGroup] := by
  intro h
  have hpool : codexModelScopedQuotaPool workedTexts workedGroup.model ≠ none := by decide +kernel
  have hunit := h.identity workedGroup List.mem_cons_self _ (Or.inl rfl)
  exact hpool ((identity_unit_iff (Or.inl rfl)).1 hunit)

end Cctally.QuotaLedger
