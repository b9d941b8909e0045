import Cctally.QuotaLedger
import Std.Data.String.ToInt

/-!
# Raw groups and identities meet in one loading unit

A minted limit key is its coordinates, its length and its pool. Two lengths snap
alike when each is among the equivalents of the other, so closing a group twice
closes it no further. A unit reached from raw coordinates keeps the pool that
the unit of an identity drops.
-/

namespace Cctally.QuotaLedger

theorem snapMinutes_eq (m : Int) :
    snapMinutes m = if 299 ≤ m ∧ m ≤ 301 then 300 else if 10079 ≤ m ∧ m ≤ 10081 then 10080 else m := by
  unfold snapMinutes CODEX_NATIVE_WINDOW_MINUTES CODEX_WINDOW_MINUTES_SNAP_TOLERANCE
  have hfive : ((m - 300).natAbs : Int) ≤ 1 ↔ 299 ≤ m ∧ m ≤ 301 := by omega
  have hweek : ((m - 10080).natAbs : Int) ≤ 1 ↔ 10079 ≤ m ∧ m ≤ 10081 := by omega
  simp only [List.find?_cons, hfive, hweek, List.find?_nil]
  by_cases h : 299 ≤ m ∧ m ≤ 301
  · simp [h]
  · by_cases h' : 10079 ≤ m ∧ m ≤ 10081
    · simp [h, h']
    · simp [h, h']

theorem snapMinutes_snapMinutes (m : Int) : snapMinutes (snapMinutes m) = snapMinutes m := by
  simp only [snapMinutes_eq]
  split_ifs <;> omega

theorem mem_around {native n : Int} : n ∈ around native ↔ native - 1 ≤ n ∧ n ≤ native + 1 := by
  unfold around CODEX_WINDOW_MINUTES_SNAP_TOLERANCE
  rw [List.mem_map]
  constructor
  · rintro ⟨i, hi, rfl⟩
    have hi := List.mem_range.1 hi
    omega
  · intro h
    refine ⟨(n - native + 1).toNat, List.mem_range.2 ?_, ?_⟩ <;> omega

theorem mem_equivalents {m n : Int} :
    n ∈ codexSnapEquivalentWindowMinutes m ↔ snapMinutes n = snapMinutes m := by
  unfold codexSnapEquivalentWindowMinutes CODEX_NATIVE_WINDOW_MINUTES
  simp only [List.mem_cons, List.not_mem_nil, or_false]
  split
  case isTrue h =>
    rw [mem_around, snapMinutes_eq n]
    split_ifs <;> omega
  case isFalse h =>
    rw [List.mem_singleton]
    rw [snapMinutes_eq m] at h ⊢
    rw [snapMinutes_eq n]
    split_ifs at h ⊢ <;> omega

/-! ## Minted keys -/

structure Mint where
  sourceRootKey : Option String
  limitId : Option String
  observedSlot : String
  pool : Option String

section
variable (tx : Texts)

def Mint.fields (k : Mint) (m : Int) : Json.Fields := limitFields k.sourceRootKey k.limitId k.observedSlot m k.pool

def Mint.key (k : Mint) (m : Int) : String := tx.canonicalJson (.obj (k.fields m))

def Mint.unpooled (k : Mint) : Mint := { k with pool := none }

theorem limitFields_some (root limitId : Option String) (slot : String) (m : Int) (pool : String) :
    limitFields root limitId slot m (some pool) =
      [("limitId", textOrNone limitId), ("modelPool", .str pool), ("observedSlot", .str slot), ("source", .str "codex"),
        ("sourceRootKey", textOrNone root), ("windowMinutes", .num m)] := by
  have h₁ : ¬"modelPool" < "limitId" := by decide
  have h₂ : "modelPool" < "observedSlot" := by decide
  simp [limitFields, Json.setField, h₁, h₂]

theorem limitFields_none (root limitId : Option String) (slot : String) (m : Int) :
    limitFields root limitId slot m none =
      [("limitId", textOrNone limitId), ("observedSlot", .str slot), ("source", .str "codex"),
        ("sourceRootKey", textOrNone root), ("windowMinutes", .num m)] := rfl

theorem inOrder_fields (k : Mint) (m : Int) : Json.InOrder (k.fields m) := by
  obtain ⟨root, limitId, slot, pool⟩ := k
  unfold Mint.fields
  cases pool with
  | none =>
    have hkeys : (["limitId", "observedSlot", "source", "sourceRootKey", "windowMinutes"] : List String).Pairwise
        (· < ·) := by decide
    exact hkeys
  | some pool =>
    have hkeys : (["limitId", "modelPool", "observedSlot", "source", "sourceRootKey", "windowMinutes"] :
        List String).Pairwise (· < ·) := by decide
    rw [limitFields_some]
    exact hkeys

@[simp] theorem plain_str (s : String) : Plain (.str s) := trivial

@[simp] theorem plain_num (n : Int) : Plain (.num n) := trivial

@[simp] theorem plain_textOrNone : ∀ s : Option String, Plain (textOrNone s)
  | none => trivial
  | some _ => trivial

theorem plain_fields (k : Mint) (m : Int) : ∀ p ∈ k.fields m, Plain p.2 := by
  obtain ⟨root, limitId, slot, pool⟩ := k
  unfold Mint.fields
  cases pool with
  | none => simp [limitFields_none]
  | some pool => simp [limitFields_some]

theorem setField_fields (k : Mint) (m n : Int) : Json.setField "windowMinutes" (.num n) (k.fields m) = k.fields n := by
  obtain ⟨root, limitId, slot, pool⟩ := k
  have h₁ : ¬"windowMinutes" < "limitId" := by decide
  have h₂ : ¬"windowMinutes" < "modelPool" := by decide
  have h₃ : ¬"windowMinutes" < "observedSlot" := by decide
  have h₄ : ¬"windowMinutes" < "source" := by decide
  have h₅ : ¬"windowMinutes" < "sourceRootKey" := by decide
  unfold Mint.fields
  cases pool with
  | none => simp [limitFields_none, Json.setField, h₁, h₃, h₄, h₅]
  | some pool => simp [limitFields_some, Json.setField, h₁, h₂, h₃, h₄, h₅]

theorem without_fields (k : Mint) (m : Int) : Json.without (k.fields m) ["modelPool"] = k.unpooled.fields m := by
  obtain ⟨root, limitId, slot, pool⟩ := k
  unfold Mint.fields Mint.unpooled
  cases pool with
  | none => simp [limitFields_none, Json.without]
  | some pool => simp [limitFields_none, limitFields_some, Json.without]

theorem field_windowMinutes (k : Mint) (m : Int) : Json.field (k.fields m) "windowMinutes" = .num m := by
  rw [← setField_fields k m m, Json.field_setField_self]

theorem hasField_modelPool (k : Mint) (m : Int) : Json.hasField (k.fields m) "modelPool" = k.pool.isSome := by
  obtain ⟨root, limitId, slot, pool⟩ := k
  unfold Mint.fields
  cases pool with
  | none => simp [limitFields_none, Json.hasField, Dict.find]
  | some pool => simp [limitFields_some, Json.hasField, Dict.find]

theorem fields_injective {k k' : Mint} {m m' : Int} (h : k.fields m = k'.fields m') : k = k' ∧ m = m' := by
  have htext : ∀ {s s' : Option String}, textOrNone s = textOrNone s' → s = s'
    | none, none, _ => rfl
    | some _, some _, h => congrArg some (Json.str.inj h)
    | none, some _, h => nomatch h
    | some _, none, h => nomatch h
  obtain ⟨root, limitId, slot, pool⟩ := k
  obtain ⟨root', limitId', slot', pool'⟩ := k'
  unfold Mint.fields at h
  cases pool <;> cases pool' <;>
    simp only [limitFields_none, limitFields_some, List.cons.injEq, Prod.mk.injEq, Json.str.injEq, Json.num.injEq,
      true_and, and_true, reduceCtorEq, false_and, and_false, String.reduceEq] at h
  · obtain ⟨hlimit, rfl, hroot, rfl⟩ := h
    rw [htext hlimit, htext hroot]
    exact ⟨rfl, rfl⟩
  · obtain ⟨hlimit, rfl, rfl, hroot, rfl⟩ := h
    rw [htext hlimit, htext hroot]
    exact ⟨rfl, rfl⟩

theorem loads_key (k : Mint) (m : Int) : tx.loads (k.key tx m) = some (.obj (k.fields m)) :=
  tx.loads_canonicalJson _ (inOrder_fields k m) (plain_fields k m)

theorem key_injective {k k' : Mint} {m m' : Int} (h : k.key tx m = k'.key tx m') : k = k' ∧ m = m' := by
  have hloads := loads_key tx k m
  rw [h, loads_key] at hloads
  exact fields_injective (Json.obj.inj (Option.some.inj hloads)).symm

theorem snapWindowMinutes_key (k : Mint) (m : Int) : snapWindowMinutes tx (k.key tx m) = k.key tx (snapMinutes m) := by
  unfold snapWindowMinutes
  rw [loads_key]
  dsimp only
  rw [field_windowMinutes, snapCodexWindowMinutes, setField_fields]
  split
  case isTrue h => rw [Json.num.inj h]
  case isFalse => rfl

theorem stripModelPool_key (k : Mint) (m : Int) : stripModelPool tx (k.key tx m) = k.unpooled.key tx m := by
  unfold stripModelPool
  rw [loads_key]
  dsimp only
  rw [hasField_modelPool, without_fields]
  split
  case isTrue => rfl
  case isFalse h =>
    obtain ⟨root, limitId, slot, pool⟩ := k
    cases pool with
    | none => rfl
    | some pool => exact absurd rfl h

theorem equivalentKeys_key (k : Mint) (m : Int) :
    codexSnapEquivalentLimitKeys tx (k.key tx m) =
      .ok ((codexSnapEquivalentWindowMinutes m).map fun n => k.key tx n) := by
  unfold codexSnapEquivalentLimitKeys codexSnapEquivalentWindowMinutes
  rw [snapWindowMinutes_key, loads_key]
  dsimp only
  rw [field_windowMinutes]
  have hnative : (CODEX_NATIVE_WINDOW_MINUTES.any fun n => (Json.num (snapMinutes m)).eqInt n) = true ↔
      snapMinutes m ∈ CODEX_NATIVE_WINDOW_MINUTES := by
    rw [List.any_eq_true]
    simp only [Json.eqInt, beq_iff_eq, exists_eq_right']
  by_cases h : snapMinutes m ∈ CODEX_NATIVE_WINDOW_MINUTES
  · rw [if_pos (hnative.2 h), if_pos h]
    simp only [setField_fields]
    rfl
  · rw [if_neg (mt hnative.1 h), if_neg h]
    rfl

end

end Cctally.QuotaLedger
