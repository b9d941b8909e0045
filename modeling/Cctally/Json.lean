import Cctally.Dict
import Mathlib.Data.String.Basic

/-!
# JSON values

The values `json.loads` returns. A number with a fraction or an exponent is
kept as the text it prints as. An object lists its fields in key order, the
order the canonical encoder writes them in, so two equal dictionaries are the
same value and a value stands for its own canonical text.
-/

inductive Json where
  | null
  | bool (b : Bool)
  | num (n : Int)
  | float (repr : String)
  | str (s : String)
  | arr (items : List Json)
  | obj (fields : List (String × Json))
  deriving Inhabited

namespace Json

abbrev Fields := List (String × Json)

def field (d : Fields) (key : String) : Json := (Dict.find key d).getD .null

/-- `d.get(key, default)` -/
def fieldD (d : Fields) (key : String) (default : Json) : Json := (Dict.find key d).getD default

def hasField (d : Fields) (key : String) : Bool := (Dict.find key d).isSome

def without (d : Fields) (keys : List String) : Fields := d.filter fun p => p.1 ∉ keys

/-- `set(d) == set(keys)` -/
def keysAre (d : Fields) (keys : List String) : Bool :=
  d.all (fun p => p.1 ∈ keys) && keys.all (hasField d)

/-- `d[key] = value`, kept in key order. -/
def setField (key : String) (value : Json) : Fields → Fields
  | [] => [(key, value)]
  | (k, v) :: rest =>
    if k = key then (key, value) :: rest
    else if key < k then (key, value) :: (k, v) :: rest
    else (k, v) :: setField key value rest

def sortFields (fields : Fields) : Fields := fields.insertionSort fun a b => a.1 ≤ b.1

def dict (fields : Fields) : Json := .obj (sortFields fields)

def isObj : Json → Bool
  | .obj _ => true
  | _ => false

/-- Lists and dictionaries cannot be members of a set. -/
def hashable : Json → Bool
  | .arr _ => false
  | .obj _ => false
  | _ => true

/-- `value == n`, where `True == 1` and `1.0 == 1`. -/
def eqInt (n : Int) : Json → Bool
  | .num m => m == n
  | .bool b => (if b then 1 else 0) == n
  | .float r => r == toString n ++ ".0"
  | _ => false

def truthy : Json → Bool
  | .null => false
  | .bool b => b
  | .num n => n != 0
  | .float r => r != "0.0" && r != "-0.0"
  | .str s => s != ""
  | .arr items => !items.isEmpty
  | .obj fields => !fields.isEmpty

theorem find_setField (key k : String) (value : Json) : ∀ d : Fields,
    Dict.find k (setField key value d) = if key = k then some value else Dict.find k d
  | [] => rfl
  | (j, v) :: rest => by
    have ih := find_setField key k value rest
    by_cases hj : j = key
    · subst hj
      rw [setField, if_pos rfl, Dict.find, Dict.find]
      split <;> rfl
    · rw [setField, if_neg hj]
      by_cases hlt : key < j
      · rw [if_pos hlt, Dict.find]
      · rw [if_neg hlt, Dict.find, ih, Dict.find]
        by_cases hk : key = k
        · rw [if_pos hk, if_pos hk, if_neg (hk ▸ hj)]
        · rw [if_neg hk, if_neg hk]

theorem field_setField_self (key : String) (value : Json) (d : Fields) : field (setField key value d) key = value := by
  rw [field, find_setField, if_pos rfl, Option.getD_some]

theorem field_setField_ne {key k : String} (h : key ≠ k) (value : Json) (d : Fields) :
    field (setField key value d) k = field d k := by
  rw [field, find_setField, if_neg h, field]

theorem perm_sortFields (l : Fields) : (sortFields l).Perm l := List.perm_insertionSort _ l

theorem nodup_sortFields {l : Fields} (h : (l.map Prod.fst).Nodup) : ((sortFields l).map Prod.fst).Nodup :=
  ((perm_sortFields l).map Prod.fst).nodup_iff.mpr h

theorem find_sortFields {l : Fields} (h : (l.map Prod.fst).Nodup) (key : String) :
    Dict.find key (sortFields l) = Dict.find key l := by
  refine Option.ext fun v => ?_
  rw [Dict.find_eq_some (nodup_sortFields h), Dict.find_eq_some h]
  exact (perm_sortFields l).mem_iff

theorem field_sortFields {l : Fields} (h : (l.map Prod.fst).Nodup) (key : String) :
    field (sortFields l) key = field l key := by
  rw [field, find_sortFields h, field]

theorem sortFields_congr {l l' : Fields} (h : (l.map Prod.fst).Nodup) (hp : l.Perm l') :
    sortFields l = sortFields l' :=
  insertionSort_congr Prod.fst h hp

theorem without_sortFields {l : Fields} (h : (l.map Prod.fst).Nodup) (keys : List String) :
    without (sortFields l) keys = sortFields (without l keys) := by
  have hsort : (without (sortFields l) keys).Pairwise fun a b => a.1 ≤ b.1 :=
    have : Std.Total fun a b : String × Json => a.1 ≤ b.1 := ⟨fun a b => le_total a.1 b.1⟩
    have : IsTrans (String × Json) fun a b => a.1 ≤ b.1 := ⟨fun a b c => le_trans⟩
    (List.pairwise_insertionSort _ l).filter _
  have hperm : (without (sortFields l) keys).Perm (without l keys) := (perm_sortFields l).filter _
  have hnodup : ((without (sortFields l) keys).map Prod.fst).Nodup :=
    List.Sublist.nodup (List.filter_sublist.map Prod.fst) (nodup_sortFields h)
  rw [← sortFields_congr hnodup hperm]
  exact hsort.insertionSort_eq.symm

/-! ## Fields kept in key order -/

def InOrder (d : Fields) : Prop := (d.map Prod.fst).Pairwise (· < ·)

instance (d : Fields) : Decidable (InOrder d) := inferInstanceAs (Decidable ((d.map Prod.fst).Pairwise (· < ·)))

theorem mem_keys_setField {key k : String} {value : Json} : ∀ {d : Fields},
    k ∈ (setField key value d).map Prod.fst → k = key ∨ k ∈ d.map Prod.fst
  | [], h => .inl (by simpa [setField] using h)
  | (j, v) :: rest, h => by
    rw [setField] at h
    split at h
    · rename_i hj
      rcases List.mem_cons.1 h with rfl | h
      · exact .inl rfl
      · exact .inr (List.mem_cons_of_mem _ h)
    · split at h
      · exact List.mem_cons.1 h
      · rcases List.mem_cons.1 h with rfl | h
        · exact .inr (List.mem_cons_self ..)
        · exact (mem_keys_setField h).imp_right (List.mem_cons_of_mem _)

theorem inOrder_setField (key : String) (value : Json) : ∀ {d : Fields}, InOrder d → InOrder (setField key value d)
  | [], _ => List.pairwise_singleton _ _
  | (j, v) :: rest, h => by
    obtain ⟨hj, hrest⟩ := List.pairwise_cons.1 h
    rw [setField]
    split
    · rename_i heq
      exact List.pairwise_cons.2 ⟨heq ▸ hj, hrest⟩
    · rename_i hne
      split
      · rename_i hlt
        refine List.pairwise_cons.2 ⟨fun k hk => ?_, h⟩
        rcases List.mem_cons.1 hk with rfl | hk
        · exact hlt
        · exact hlt.trans (hj k hk)
      · rename_i hle
        refine List.pairwise_cons.2 ⟨fun k hk => ?_, inOrder_setField key value hrest⟩
        rcases mem_keys_setField hk with rfl | hk
        · exact lt_of_le_of_ne (not_lt.1 hle) hne
        · exact hj k hk

theorem setField_of_find {key : String} {value : Json} : ∀ {d : Fields}, InOrder d → Dict.find key d = some value →
    setField key value d = d
  | (j, v) :: rest, h, hfind => by
    obtain ⟨hj, hrest⟩ := List.pairwise_cons.1 h
    rw [Dict.find] at hfind
    rw [setField]
    split at hfind
    · rename_i heq
      rw [if_pos heq, heq, Option.some.inj hfind]
    · rename_i hne
      have hmem : key ∈ rest.map Prod.fst := by
        by_contra hnot
        rw [Dict.find_eq_none.2 hnot] at hfind
        cases hfind
      rw [if_neg hne, if_neg (lt_asymm (hj key hmem)), setField_of_find hrest hfind]

theorem setField_setField (key : String) (v w : Json) : ∀ d : Fields,
    setField key w (setField key v d) = setField key w d
  | [] => by simp [setField]
  | (j, u) :: rest => by
    have ih := setField_setField key v w rest
    by_cases hj : j = key
    · simp [setField, hj]
    · by_cases hlt : key < j
      · simp [setField, hj, hlt]
      · simp [setField, hj, hlt, ih]

theorem inOrder_without {d : Fields} (h : InOrder d) (keys : List String) : InOrder (without d keys) :=
  List.Pairwise.sublist (List.filter_sublist.map Prod.fst) h

theorem inOrder_sortFields {l : Fields} (h : (l.map Prod.fst).Nodup) : InOrder (sortFields l) := by
  have hle : ((sortFields l).map Prod.fst).Pairwise (· ≤ ·) :=
    have : Std.Total fun a b : String × Json => a.1 ≤ b.1 := ⟨fun a b => le_total a.1 b.1⟩
    have : IsTrans (String × Json) fun a b => a.1 ≤ b.1 := ⟨fun a b c => le_trans⟩
    List.pairwise_map.mpr (List.pairwise_insertionSort _ l)
  exact (hle.and (nodup_sortFields h)).imp fun ⟨hab, hne⟩ => lt_of_le_of_ne hab hne

theorem eq_of_find : ∀ {d d' : Fields}, InOrder d → InOrder d' → (∀ key, Dict.find key d = Dict.find key d') → d = d'
  | [], [], _, _, _ => rfl
  | [], (k, v) :: _, _, _, h => by
    have hk := h k
    rw [Dict.find, Dict.find, if_pos rfl] at hk
    cases hk
  | (k, v) :: _, [], _, _, h => by
    have hk := h k
    rw [Dict.find, Dict.find, if_pos rfl] at hk
    cases hk
  | (k, v) :: d, (k', v') :: d', hd, hd', h => by
    obtain ⟨hk, hrest⟩ := List.pairwise_cons.mp hd
    obtain ⟨hk', hrest'⟩ := List.pairwise_cons.mp hd'
    have hnot : ∀ {j : String} {l : Fields}, (∀ i ∈ l.map Prod.fst, j < i) → Dict.find j l = none :=
      fun hj => Dict.find_eq_none.mpr fun hmem => absurd (hj _ hmem) (lt_irrefl _)
    -- the lesser of two different first keys would be missing on the other side
    have hkey : k = k' := by
      rcases lt_trichotomy k k' with hlt | heq | hlt
      · have := h k
        rw [Dict.find, if_pos rfl, Dict.find, if_neg (ne_of_gt hlt), hnot fun i hi => hlt.trans (hk' i hi)] at this
        cases this
      · exact heq
      · have := h k'
        rw [Dict.find, if_neg (ne_of_gt hlt), Dict.find, if_pos rfl, hnot fun i hi => hlt.trans (hk i hi)] at this
        cases this
    subst hkey
    have hval := h k
    rw [Dict.find, Dict.find, if_pos rfl, if_pos rfl] at hval
    have htail : d = d' := by
      refine eq_of_find hrest hrest' fun key => ?_
      by_cases hne : k = key
      · rw [← hne, hnot hk, hnot hk']
      · have hfind := h key
        rwa [Dict.find, Dict.find, if_neg hne, if_neg hne] at hfind
    rw [Option.some.inj hval, htail]

theorem find_filter {q : String → Bool} {key : String} (hq : q key = true) : ∀ d : Fields,
    Dict.find key (d.filter fun p => q p.1) = Dict.find key d
  | [] => rfl
  | (k, v) :: rest => by
    have ih := find_filter hq rest
    by_cases hk : k = key
    · subst hk
      simp only [List.filter_cons, hq, if_true, Dict.find]
    · by_cases hqk : q k = true
      · simp only [List.filter_cons, hqk, if_true, Dict.find, if_neg hk, ih]
      · simp only [List.filter_cons, hqk, Bool.false_eq_true, if_false, Dict.find, if_neg hk, ih]

theorem find_without {keys : List String} {key : String} (h : key ∉ keys) (d : Fields) :
    Dict.find key (without d keys) = Dict.find key d :=
  find_filter (q := fun k => decide (k ∉ keys)) (decide_eq_true h) d

theorem find_without_mem {keys : List String} {key : String} (h : key ∈ keys) (d : Fields) :
    Dict.find key (without d keys) = none := by
  refine Dict.find_eq_none.mpr fun hmem => ?_
  obtain ⟨p, hp, rfl⟩ := List.mem_map.mp hmem
  exact of_decide_eq_true (List.mem_filter.mp hp).2 h

theorem field_without {keys : List String} {key : String} (h : key ∉ keys) (d : Fields) :
    field (without d keys) key = field d key := by
  rw [field, find_without h, field]

mutual

def identical : Json → Json → Bool
  | .null, .null => true
  | .bool a, .bool b => a == b
  | .num a, .num b => a == b
  | .float a, .float b => a == b
  | .str a, .str b => a == b
  | .arr xs, .arr ys => identicalItems xs ys
  | .obj xs, .obj ys => identicalFields xs ys
  | _, _ => false

def identicalItems : List Json → List Json → Bool
  | [], [] => true
  | x :: xs, y :: ys => identical x y && identicalItems xs ys
  | _, _ => false

def identicalFields : List (String × Json) → List (String × Json) → Bool
  | [], [] => true
  | (k, x) :: xs, (l, y) :: ys => k == l && identical x y && identicalFields xs ys
  | _, _ => false

end

mutual

theorem identical_iff : ∀ {a b : Json}, identical a b = true ↔ a = b
  | .arr xs, b => by cases b <;> simp [identical, identicalItems_iff]
  | .obj xs, b => by cases b <;> simp [identical, identicalFields_iff]
  | .null, b => by cases b <;> simp [identical]
  | .bool v, b => by cases b <;> simp [identical]
  | .num n, b => by cases b <;> simp [identical]
  | .float r, b => by cases b <;> simp [identical]
  | .str s, b => by cases b <;> simp [identical]

theorem identicalItems_iff : ∀ {xs ys : List Json}, identicalItems xs ys = true ↔ xs = ys
  | [], ys => by cases ys <;> simp [identicalItems]
  | x :: xs, ys => by cases ys <;> simp [identicalItems, identical_iff, identicalItems_iff]

theorem identicalFields_iff : ∀ {xs ys : List (String × Json)}, identicalFields xs ys = true ↔ xs = ys
  | [], ys => by cases ys <;> simp [identicalFields]
  | (k, x) :: xs, [] => by simp [identicalFields]
  | (k, x) :: xs, (l, y) :: ys => by
    simp [identicalFields, identical_iff, identicalFields_iff]

end

instance : DecidableEq Json := fun a b => decidable_of_iff (identical a b = true) identical_iff

end Json
