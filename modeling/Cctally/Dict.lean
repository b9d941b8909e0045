import Mathlib.Data.Finset.Basic
import Mathlib.Data.List.Nodup
import Mathlib.Data.List.Sort
import Mathlib.Data.List.Dedup
import Mathlib.Data.List.Induction
import Mathlib.Order.Basic

/-!
# Insertion-ordered dictionaries and sorted sets

A `Dict` is an association list whose keys are distinct: writing an existing
key keeps its place, writing a new one appends it, so the entries are always in
the order the keys were first written. `sortedSet` lists the members of a set
once each, in increasing order.
-/

structure Dict (κ α : Type*) where
  entries : List (κ × α)
  nodup : (entries.map Prod.fst).Nodup

namespace Dict

variable {κ κ' α β : Type*}

def empty : Dict κ α := ⟨[], List.nodup_nil⟩

instance : Inhabited (Dict κ α) := ⟨empty⟩

def keys (d : Dict κ α) : List κ := d.entries.map Prod.fst

def values (d : Dict κ α) : List α := d.entries.map Prod.snd

section
variable [DecidableEq κ]

def find (k : κ) : List (κ × α) → Option α
  | [] => none
  | (k', v) :: l => if k' = k then some v else find k l

def put (k : κ) (v : α) : List (κ × α) → List (κ × α)
  | [] => [(k, v)]
  | (k', v') :: l => if k' = k then (k, v) :: l else (k', v') :: put k v l

theorem find_put (k k' : κ) (v : α) : ∀ l : List (κ × α),
    find k' (put k v l) = if k = k' then some v else find k' l
  | [] => rfl
  | (j, w) :: l => by
    by_cases hj : j = k
    · subst hj; simp only [put, if_true, find]; split <;> rfl
    · simp only [put, if_neg hj, find, find_put k k' v l]
      by_cases hk : k = k'
      · subst hk; simp [hj]
      · simp [hk]

theorem mem_keys_put (k j : κ) (v : α) : ∀ l : List (κ × α),
    j ∈ (put k v l).map Prod.fst ↔ j = k ∨ j ∈ l.map Prod.fst
  | [] => by simp [put]
  | (i, w) :: l => by
    by_cases hi : i = k
    · subst hi; simp [put]
    · have ih := mem_keys_put k j v l
      simp only [put, if_neg hi, List.map_cons, List.mem_cons, ih]
      tauto

theorem nodup_put (k : κ) (v : α) : ∀ l : List (κ × α), (l.map Prod.fst).Nodup →
    ((put k v l).map Prod.fst).Nodup
  | [], _ => by simp [put]
  | (i, w) :: l, h => by
    rw [List.map_cons, List.nodup_cons] at h
    by_cases hi : i = k
    · subst hi; simpa [put] using h
    · simp only [put, if_neg hi, List.map_cons, List.nodup_cons]
      refine ⟨fun hm => ?_, nodup_put k v l h.2⟩
      rcases (mem_keys_put k i v l).mp hm with rfl | hm
      · exact hi rfl
      · exact h.1 hm

theorem find_eq_some {k : κ} {v : α} : ∀ {l : List (κ × α)}, (l.map Prod.fst).Nodup →
    (find k l = some v ↔ (k, v) ∈ l)
  | [], _ => by simp [find]
  | (i, w) :: l, h => by
    rw [List.map_cons, List.nodup_cons] at h
    by_cases hi : i = k
    · subst hi
      have hn : ∀ x, (i, x) ∉ l := fun x hm => h.1 (List.mem_map.mpr ⟨_, hm, rfl⟩)
      simp [find, hn, eq_comm]
    · have ih := find_eq_some (k := k) (v := v) h.2
      simp only [find, if_neg hi, ih, List.mem_cons, Prod.mk.injEq]
      tauto

theorem find_eq_none {k : κ} : ∀ {l : List (κ × α)}, find k l = none ↔ k ∉ l.map Prod.fst
  | [] => by simp [find]
  | (i, w) :: l => by
    have ih := find_eq_none (k := k) (l := l)
    by_cases hi : i = k
    · simp [find, hi]
    · simp only [find, if_neg hi, ih, List.map_cons, List.mem_cons, not_or]
      exact ⟨fun h => ⟨fun e => hi e.symm, h⟩, And.right⟩

/-! ## Reading and writing -/

def get? (d : Dict κ α) (k : κ) : Option α := find k d.entries

def set (d : Dict κ α) (k : κ) (v : α) : Dict κ α := ⟨put k v d.entries, nodup_put k v _ d.nodup⟩

def erase (d : Dict κ α) (k : κ) : Dict κ α :=
  ⟨d.entries.filter (fun p => p.1 ≠ k), by
    have : (d.entries.filter fun p => p.1 ≠ k).map Prod.fst = (d.entries.map Prod.fst).filter (· ≠ k) := by
      rw [List.filter_map]; rfl
    rw [this]; exact d.nodup.filter _⟩

/-- `setdefault` followed by nothing: the first value written to a key stays. -/
def setdefault (d : Dict κ α) (k : κ) (v : α) : Dict κ α :=
  match d.get? k with
  | some _ => d
  | none => d.set k v

def ofList (l : List (κ × α)) : Dict κ α := l.foldl (fun d p => d.set p.1 p.2) empty

@[simp] theorem get?_empty (k : κ) : (empty : Dict κ α).get? k = none := rfl

theorem get?_set (d : Dict κ α) (k k' : κ) (v : α) :
    (d.set k v).get? k' = if k = k' then some v else d.get? k' :=
  find_put k k' v d.entries

@[simp] theorem get?_set_self (d : Dict κ α) (k : κ) (v : α) : (d.set k v).get? k = some v := by
  rw [get?_set, if_pos rfl]

theorem get?_set_ne (d : Dict κ α) {k k' : κ} (v : α) (h : k ≠ k') : (d.set k v).get? k' = d.get? k' := by
  rw [get?_set, if_neg h]

theorem get?_eq_some {d : Dict κ α} {k : κ} {v : α} : d.get? k = some v ↔ (k, v) ∈ d.entries :=
  find_eq_some d.nodup

theorem get?_eq_none {d : Dict κ α} {k : κ} : d.get? k = none ↔ k ∉ d.keys := find_eq_none

theorem mem_keys {d : Dict κ α} {k : κ} : k ∈ d.keys ↔ ∃ v, d.get? k = some v := by
  rw [← not_iff_not, ← get?_eq_none, ← Option.ne_none_iff_exists', not_not]

theorem mem_values {d : Dict κ α} {v : α} : v ∈ d.values ↔ ∃ k, d.get? k = some v := by
  simp only [values, List.mem_map, get?_eq_some, Prod.exists, exists_eq_right]

theorem get?_erase (d : Dict κ α) (k k' : κ) :
    (d.erase k).get? k' = if k = k' then none else d.get? k' := by
  by_cases h : k = k'
  · subst h
    rw [if_pos rfl, get?_eq_none]
    simp [keys, erase]
  · rw [if_neg h]
    refine Option.ext fun v => ?_
    simp only [get?_eq_some, erase, List.mem_filter, decide_not, Bool.not_eq_eq_eq_not, Bool.not_true,
      decide_eq_false_iff_not]
    exact ⟨And.left, fun hm => ⟨hm, Ne.symm h⟩⟩

theorem mem_keys_set {d : Dict κ α} {k j : κ} {v : α} : j ∈ (d.set k v).keys ↔ j = k ∨ j ∈ d.keys :=
  mem_keys_put k j v d.entries

theorem map_fst_put (k : κ) (v : α) : ∀ l : List (κ × α),
    (put k v l).map Prod.fst = if k ∈ l.map Prod.fst then l.map Prod.fst else l.map Prod.fst ++ [k]
  | [] => rfl
  | (j, w) :: l => by
    by_cases hj : j = k
    · subst hj
      simp [put]
    · have ih := map_fst_put k v l
      simp only [put, if_neg hj, List.map_cons, ih]
      by_cases hk : k ∈ l.map Prod.fst
      · rw [if_pos hk, if_pos (List.mem_cons_of_mem _ hk)]
      · rw [if_neg hk, if_neg (by simp [hk, Ne.symm hj]), List.cons_append]

theorem keys_set (d : Dict κ α) (k : κ) (v : α) : (d.set k v).keys = if k ∈ d.keys then d.keys else d.keys ++ [k] :=
  map_fst_put k v d.entries

theorem mem_keys_setdefault {d : Dict κ α} {k j : κ} {v : α} :
    j ∈ (d.setdefault k v).keys ↔ j = k ∨ j ∈ d.keys := by
  unfold setdefault
  split
  · rename_i w h
    exact ⟨Or.inr, fun hj => hj.elim (fun e => e ▸ mem_keys.mpr ⟨w, h⟩) id⟩
  · exact mem_keys_set

theorem get?_setdefault (d : Dict κ α) (k k' : κ) (v : α) :
    (d.setdefault k v).get? k' = (d.get? k').or (if k = k' then some v else none) := by
  unfold setdefault
  cases h : d.get? k with
  | none =>
    simp only [get?_set]
    by_cases hk : k = k'
    · subst hk; simp [h]
    · simp [hk]
  | some w =>
    by_cases hk : k = k'
    · subst hk; simp [h]
    · simp [hk]

theorem mem_values_set {d : Dict κ α} {k : κ} {v w : α} (h : w ∈ (d.set k v).values) : w = v ∨ w ∈ d.values := by
  obtain ⟨j, hj⟩ := mem_values.mp h
  rw [get?_set] at hj
  split at hj
  · exact Or.inl (Option.some.inj hj).symm
  · exact Or.inr (mem_values.mpr ⟨j, hj⟩)

theorem mem_of_get?_ofList {l : List (κ × α)} {k : κ} {v : α} (h : (ofList l).get? k = some v) : (k, v) ∈ l := by
  have hstep : ∀ (l : List (κ × α)) (d : Dict κ α), (l.foldl (fun d p => d.set p.1 p.2) d).get? k = some v →
      d.get? k = some v ∨ (k, v) ∈ l := by
    intro l
    induction l with
    | nil => intro d h; exact Or.inl h
    | cons p l ih =>
      intro d h
      rcases ih _ h with h | h
      · rw [get?_set] at h
        split at h
        · rename_i hk
          obtain rfl := Option.some.inj h
          exact Or.inr (by simp [← hk])
        · exact Or.inl h
      · exact Or.inr (List.mem_cons_of_mem _ h)
  rcases hstep l empty h with h | h
  · cases h
  · exact h

theorem mem_keys_foldl_set (k : κ) : ∀ (l : List (κ × α)) (d : Dict κ α),
    k ∈ (l.foldl (fun d p => d.set p.1 p.2) d).keys ↔ k ∈ d.keys ∨ k ∈ l.map Prod.fst
  | [], d => by simp
  | p :: l, d => by
    rw [List.foldl_cons, mem_keys_foldl_set k l, mem_keys_set, List.map_cons, List.mem_cons]
    tauto

theorem mem_keys_ofList {l : List (κ × α)} {k : κ} : k ∈ (ofList l).keys ↔ k ∈ l.map Prod.fst := by
  rw [ofList, mem_keys_foldl_set]
  simp [keys, empty]

def mapValues (f : α → β) (d : Dict κ α) : Dict κ β :=
  ⟨d.entries.map fun p => (p.1, f p.2), by
    rw [List.map_map]
    exact d.nodup⟩

theorem get?_mapValues (f : α → β) (d : Dict κ α) (k : κ) : (d.mapValues f).get? k = (d.get? k).map f := by
  have hfind : ∀ l : List (κ × α), find k (l.map fun p => (p.1, f p.2)) = (find k l).map f := by
    intro l
    induction l with
    | nil => rfl
    | cons p l ih =>
      simp only [List.map_cons, find]
      by_cases h : p.1 = k
      · rw [if_pos h, if_pos h, Option.map_some]
      · rw [if_neg h, if_neg h, ih]
  exact hfind d.entries

def mapEntries (f : κ → α → β) (d : Dict κ α) : Dict κ β :=
  ⟨d.entries.map fun p => (p.1, f p.1 p.2), by
    rw [List.map_map]
    exact d.nodup⟩

theorem get?_mapEntries (f : κ → α → β) (d : Dict κ α) (k : κ) : (d.mapEntries f).get? k = (d.get? k).map (f k) := by
  have hfind : ∀ l : List (κ × α), find k (l.map fun p => (p.1, f p.1 p.2)) = (find k l).map (f k) := by
    intro l
    induction l with
    | nil => rfl
    | cons p l ih =>
      simp only [List.map_cons, find]
      by_cases h : p.1 = k
      · rw [if_pos h, if_pos h, h, Option.map_some]
      · rw [if_neg h, if_neg h, ih]
  exact hfind d.entries

theorem perm_of_get? {d d' : Dict κ α} (h : ∀ k, d.get? k = d'.get? k) : d.entries.Perm d'.entries := by
  refine (List.perm_ext_iff_of_nodup d.nodup.of_map d'.nodup.of_map).mpr fun p => ?_
  rw [← get?_eq_some, ← get?_eq_some, h]

def filter (p : κ → α → Bool) (d : Dict κ α) : Dict κ α :=
  ⟨d.entries.filter fun e => p e.1 e.2, List.Sublist.nodup (List.filter_sublist.map Prod.fst) d.nodup⟩

theorem get?_filter_eq_some {p : κ → α → Bool} {d : Dict κ α} {k : κ} {v : α} :
    (d.filter p).get? k = some v ↔ d.get? k = some v ∧ p k v = true := by
  rw [get?_eq_some, get?_eq_some, filter, List.mem_filter]

def merge (d e : Dict κ α) : Dict κ α := e.entries.foldl (fun d p => d.set p.1 p.2) d

theorem get?_foldl_set (k : κ) : ∀ (l : List (κ × α)) (d : Dict κ α), (l.map Prod.fst).Nodup →
    (l.foldl (fun d p => d.set p.1 p.2) d).get? k = (find k l).or (d.get? k)
  | [], _, _ => rfl
  | p :: l, d, h => by
    rw [List.map_cons, List.nodup_cons] at h
    rw [List.foldl_cons, get?_foldl_set k l _ h.2, get?_set]
    by_cases hk : p.1 = k
    · have hnone : find k l = none := find_eq_none.mpr (hk ▸ h.1)
      rw [if_pos hk, hnone, find, if_pos hk, Option.none_or, Option.some_or]
    · rw [if_neg hk, find, if_neg hk]

theorem get?_foldl_own (name : α → κ) {k : κ} {v : α} : ∀ (l : List α) (d : Dict κ α),
    (∀ a ∈ l, ∀ b ∈ l, name a = name b → a = b) →
    ((l.foldl (fun d a => d.set (name a) a) d).get? k = some v ↔
      (v ∈ l ∧ name v = k) ∨ ((∀ a ∈ l, name a ≠ k) ∧ d.get? k = some v))
  | [], d, _ => by simp
  | a :: l, d, h => by
    have hl : ∀ b ∈ l, ∀ c ∈ l, name b = name c → b = c :=
      fun b hb c hc => h b (List.mem_cons_of_mem _ hb) c (List.mem_cons_of_mem _ hc)
    rw [List.foldl_cons, get?_foldl_own name l _ hl, get?_set]
    by_cases hk : name a = k
    · rw [if_pos hk]
      constructor
      · rintro (⟨hv, hname⟩ | ⟨-, hv⟩)
        · exact .inl ⟨List.mem_cons_of_mem _ hv, hname⟩
        · cases hv
          exact .inl ⟨List.mem_cons_self .., hk⟩
      · rintro (⟨hv, hname⟩ | ⟨hne, -⟩)
        · have hva : v = a := h v hv a (List.mem_cons_self ..) (hname.trans hk.symm)
          subst hva
          by_cases hmem : v ∈ l
          · exact .inl ⟨hmem, hname⟩
          · refine .inr ⟨fun b hb hbk => hmem ?_, rfl⟩
            rw [← h b (List.mem_cons_of_mem _ hb) v (List.mem_cons_self ..) (hbk.trans hk.symm)]
            exact hb
        · exact absurd hk (hne a (List.mem_cons_self ..))
    · rw [if_neg hk]
      constructor
      · rintro (⟨hv, hname⟩ | ⟨hne, hv⟩)
        · exact .inl ⟨List.mem_cons_of_mem _ hv, hname⟩
        · exact .inr ⟨List.forall_mem_cons.2 ⟨hk, hne⟩, hv⟩
      · rintro (⟨hv, hname⟩ | ⟨hne, hv⟩)
        · rcases List.mem_cons.1 hv with rfl | hv
          · exact absurd hname hk
          · exact .inl ⟨hv, hname⟩
        · exact .inr ⟨fun b hb => hne b (List.mem_cons_of_mem _ hb), hv⟩

theorem perm_ofList {l : List (κ × α)} (h : (l.map Prod.fst).Nodup) : (ofList l).entries.Perm l := by
  refine (List.perm_ext_iff_of_nodup (ofList l).nodup.of_map h.of_map).mpr fun p => ?_
  rw [← get?_eq_some, ofList, get?_foldl_set p.1 l empty h, get?_empty, Option.or_none]
  exact find_eq_some h

theorem get?_ofList_eq_some {l : List (κ × α)} (h : (l.map Prod.fst).Nodup) {k : κ} {v : α} :
    (ofList l).get? k = some v ↔ (k, v) ∈ l := by
  rw [get?_eq_some, (perm_ofList h).mem_iff]

theorem get?_ofList_perm {l l' : List (κ × α)} (h : (l.map Prod.fst).Nodup) (hp : l.Perm l') (k : κ) :
    (ofList l).get? k = (ofList l').get? k := by
  refine Option.ext fun v => ?_
  rw [get?_ofList_eq_some h, get?_ofList_eq_some ((hp.map Prod.fst).nodup_iff.1 h), hp.mem_iff]

theorem get?_merge (d e : Dict κ α) (k : κ) : (d.merge e).get? k = (e.get? k).or (d.get? k) :=
  get?_foldl_set k e.entries d e.nodup

theorem mem_merge {d e : Dict κ α} {k : κ} {v : α} (h : (d.merge e).get? k = some v) :
    e.get? k = some v ∨ d.get? k = some v := by
  rw [get?_merge] at h
  cases he : e.get? k with
  | none => exact .inr (by simpa [he] using h)
  | some w => exact .inl (by simpa [he] using h)

section
variable {β γ : Type*} [DecidableEq γ]

theorem eraseDups_snoc (l : List κ) (a : κ) :
    (l ++ [a]).eraseDups = if a ∈ l then l.eraseDups else l.eraseDups ++ [a] := by
  rw [List.eraseDups_append]
  by_cases h : a ∈ l
  · simp [List.removeAll, h]
  · simp [List.removeAll, h, List.eraseDups_cons]

theorem nodup_eraseDups (l : List κ) : l.eraseDups.Nodup := by
  induction l using List.reverseRecOn with
  | nil => exact List.nodup_nil
  | append_singleton l a ih =>
    rw [eraseDups_snoc]
    by_cases h : a ∈ l
    · rw [if_pos h]
      exact ih
    · rw [if_neg h, List.nodup_append_comm]
      exact List.nodup_cons.mpr ⟨fun hm => h (List.mem_eraseDups.mp hm), ih⟩

def group (key : β → κ) (val : β → γ) (l : List β) : Dict κ (List γ) :=
  l.foldl (fun d b => d.set (key b) (((d.get? (key b)).getD []).insert (val b))) empty

variable (key : β → κ) (val : β → γ)

theorem group_snoc (l : List β) (b : β) :
    group key val (l ++ [b]) =
      (group key val l).set (key b) ((((group key val l).get? (key b)).getD []).insert (val b)) := by
  rw [group, List.foldl_append]
  rfl

theorem keys_group (l : List β) : (group key val l).keys = (l.map key).eraseDups := by
  induction l using List.reverseRecOn with
  | nil => rfl
  | append_singleton l b ih =>
    rw [group_snoc, keys_set, ih, List.map_append, List.map_singleton, eraseDups_snoc]
    simp only [List.mem_eraseDups]

theorem get?_group (l : List β) (k : κ) :
    (((group key val l).get? k).getD []).Nodup ∧
      ∀ c, c ∈ ((group key val l).get? k).getD [] ↔ ∃ b ∈ l, key b = k ∧ val b = c := by
  induction l using List.reverseRecOn with
  | nil => simp [group]
  | append_singleton l b ih =>
    rw [group_snoc, get?_set]
    by_cases hk : key b = k
    · subst hk
      rw [if_pos rfl, Option.getD_some]
      refine ⟨ih.1.insert, ?_⟩
      intro c
      rw [List.mem_insert_iff, ih.2]
      simp only [List.mem_append, List.mem_singleton, or_and_right, exists_or, exists_eq_left, true_and]
      rw [or_comm, eq_comm]
    · rw [if_neg hk]
      refine ⟨ih.1, ?_⟩
      intro c
      rw [ih.2]
      simp [or_and_right, exists_or, hk]

theorem group_sizes (l : List β) :
    (group key val l).entries.map (fun p => (p.1, p.2.length)) =
      (l.map key).eraseDups.map fun k => (k, ((l.filter (key · = k)).map val).eraseDups.length) := by
  rw [← keys_group key val, keys, List.map_map]
  refine List.map_congr_left ?_
  intro p hp
  have hget : (group key val l).get? p.1 = some p.2 := get?_eq_some.mpr hp
  obtain ⟨hnodup, hmem⟩ := get?_group key val l p.1
  rw [hget, Option.getD_some] at hnodup hmem
  have hperm : p.2.Perm ((l.filter (key · = p.1)).map val).eraseDups := by
    refine (List.perm_ext_iff_of_nodup hnodup (nodup_eraseDups _)).mpr ?_
    intro c
    rw [hmem, List.mem_eraseDups]
    simp [and_assoc]
  simp only [Function.comp_apply, hperm.length_eq]


end

/-! ## Collecting -/

section
variable {β γ : Type*}

/-- `d.setdefault(key, []).append(value)` over a list. -/
def collect (key : β → κ) (val : β → γ) (l : List β) : Dict κ (List γ) :=
  l.foldl (fun d b => d.set (key b) (((d.get? (key b)).getD []) ++ [val b])) empty

variable (key : β → κ) (val : β → γ)

theorem collect_snoc (l : List β) (b : β) :
    collect key val (l ++ [b]) =
      (collect key val l).set (key b) ((((collect key val l).get? (key b)).getD []) ++ [val b]) := by
  rw [collect, List.foldl_append]
  rfl

theorem getD_collect (l : List β) (k : κ) :
    ((collect key val l).get? k).getD [] = (l.filter (key · = k)).map val := by
  induction l using List.reverseRecOn with
  | nil => rfl
  | append_singleton l b ih =>
    rw [collect_snoc, get?_set, List.filter_append, List.map_append]
    by_cases hk : key b = k
    · subst hk
      rw [if_pos rfl, Option.getD_some, ih]
      simp
    · rw [if_neg hk, ih]
      simp [hk]

theorem keys_collect (l : List β) : (collect key val l).keys = (l.map key).eraseDups := by
  induction l using List.reverseRecOn with
  | nil => rfl
  | append_singleton l b ih =>
    rw [collect_snoc, keys_set, ih, List.map_append, List.map_singleton, eraseDups_snoc]
    simp only [List.mem_eraseDups]

theorem get?_collect (l : List β) (k : κ) :
    (collect key val l).get? k = if k ∈ l.map key then some ((l.filter (key · = k)).map val) else none := by
  by_cases hk : k ∈ l.map key
  · have hmem : k ∈ (collect key val l).keys := by
      rw [keys_collect, List.mem_eraseDups]
      exact hk
    obtain ⟨v, hv⟩ := mem_keys.1 hmem
    have hget := getD_collect key val l k
    rw [hv, Option.getD_some] at hget
    rw [if_pos hk, hv, hget]
  · rw [if_neg hk, get?_eq_none, keys_collect, List.mem_eraseDups]
    exact hk

end

section
variable {β γ ι : Type*}

/-- `collect` under keys that come with a tag; the dictionary keeps the tag it first meets. -/
def gather (key : β → κ) (tag : β → ι) (val : β → γ) (l : List β) : Dict κ (ι × List γ) :=
  l.foldl (fun d b =>
    d.set (key b) (match d.get? (key b) with
      | none => (tag b, [val b])
      | some (t, vs) => (t, vs ++ [val b]))) empty

variable (key : β → κ) (tag : β → ι) (val : β → γ)

theorem gather_snoc (l : List β) (b : β) :
    gather key tag val (l ++ [b]) =
      (gather key tag val l).set (key b) (match (gather key tag val l).get? (key b) with
        | none => (tag b, [val b])
        | some (t, vs) => (t, vs ++ [val b])) := by
  rw [gather, List.foldl_append]
  rfl

theorem get?_gather (l : List β) (k : κ) :
    (gather key tag val l).get? k =
      (l.filter (key · = k)).head?.map fun b => (tag b, (l.filter (key · = k)).map val) := by
  induction l using List.reverseRecOn with
  | nil => rfl
  | append_singleton l b ih =>
    rw [gather_snoc, get?_set, List.filter_append]
    by_cases hk : key b = k
    · subst hk
      rw [if_pos rfl, ih]
      cases hl : l.filter (key · = key b) with
      | nil => simp
      | cons a m => simp
    · rw [if_neg hk, ih]
      simp [hk]

theorem keys_gather (l : List β) : (gather key tag val l).keys = (l.map key).eraseDups := by
  induction l using List.reverseRecOn with
  | nil => rfl
  | append_singleton l b ih =>
    rw [gather_snoc, keys_set, ih, List.map_append, List.map_singleton, eraseDups_snoc]
    simp only [List.mem_eraseDups]

theorem mem_keys_gather {l : List β} {k : κ} : k ∈ (gather key tag val l).keys ↔ k ∈ l.map key := by
  rw [keys_gather, List.mem_eraseDups]

end

/-- `d.get(k, {})`. -/
def sub (d : Dict κ (Dict κ' α)) (k : κ) : Dict κ' α := (d.get? k).getD empty

variable [DecidableEq κ']

def getSub? (d : Dict κ (Dict κ' α)) (k : κ) (j : κ') : Option α := (d.sub k).get? j

def setSub (d : Dict κ (Dict κ' α)) (k : κ) (j : κ') (v : α) : Dict κ (Dict κ' α) :=
  d.set k ((d.sub k).set j v)

theorem sub_setSub (d : Dict κ (Dict κ' α)) (k i : κ) (j : κ') (v : α) :
    (d.setSub k j v).sub i = if k = i then (d.sub k).set j v else d.sub i := by
  unfold setSub sub
  rw [get?_set]
  by_cases h : k = i
  · simp [h]
  · simp [h]

theorem getSub?_setSub (d : Dict κ (Dict κ' α)) (k i : κ) (j l : κ') (v : α) :
    (d.setSub k j v).getSub? i l = if k = i ∧ j = l then some v else d.getSub? i l := by
  unfold getSub?
  rw [sub_setSub]
  by_cases h : k = i
  · subst h; rw [if_pos rfl, get?_set]; simp
  · simp [h]

end

end Dict

theorem perm_classes {α κ : Type*} [DecidableEq κ] (f : α → Option κ) : ∀ {keys : List κ} {l : List α}, keys.Nodup →
    (∀ a ∈ l, ∃ k ∈ keys, f a = some k) → (keys.flatMap fun k => l.filter fun a => f a = some k).Perm l
  | [], l, _, hl => by
    cases l with
    | nil => exact .nil
    | cons a l => exact absurd (hl a (List.mem_cons_self ..)) (by simp)
  | k :: keys, l, hk, hl => by
    obtain ⟨hnot, hk⟩ := List.nodup_cons.1 hk
    have hrest := perm_classes f (l := l.filter fun a => !decide (f a = some k)) hk fun a ha => by
      obtain ⟨ha, hne⟩ := List.mem_filter.1 ha
      obtain ⟨j, hj, hf⟩ := hl a ha
      rcases List.mem_cons.1 hj with rfl | hj
      · simp [hf] at hne
      · exact ⟨j, hj, hf⟩
    have hsame : (keys.flatMap fun j => (l.filter fun a => !decide (f a = some k)).filter fun a => f a = some j) =
        keys.flatMap fun j => l.filter fun a => f a = some j := by
      refine List.flatMap_congr fun j hj => ?_
      rw [List.filter_filter]
      refine List.filter_congr fun a _ => ?_
      by_cases hf : f a = some j
      · have hne : j ≠ k := fun h => hnot (h ▸ hj)
        simp [hf, hne]
      · simp [hf]
    rw [List.flatMap_cons]
    rw [hsame] at hrest
    exact (hrest.append_left _).trans (List.filter_append_perm _ l)

section
variable {α : Type*} [LinearOrder α]

def sortedSet (l : List α) : List α := l.dedup.insertionSort (· ≤ ·)

theorem mem_sortedSet {l : List α} {a : α} : a ∈ sortedSet l ↔ a ∈ l := by
  rw [sortedSet, List.mem_insertionSort, List.mem_dedup]

theorem nodup_sortedSet (l : List α) : (sortedSet l).Nodup :=
  (List.perm_insertionSort _ _).nodup_iff.mpr l.nodup_dedup

theorem pairwise_sortedSet (l : List α) : (sortedSet l).Pairwise (· ≤ ·) :=
  List.pairwise_insertionSort _ _

theorem sortedSet_range (n : Nat) : sortedSet (List.range n) = List.range n := by
  rw [sortedSet, List.nodup_range.dedup]
  exact (List.pairwise_lt_range.imp le_of_lt).insertionSort_eq

theorem sortedSet_congr {l l' : List α} (h : ∀ a, a ∈ l ↔ a ∈ l') : sortedSet l = sortedSet l' := by
  refine List.Perm.eq_of_pairwise (fun a b _ _ => le_antisymm) (pairwise_sortedSet l)
    (pairwise_sortedSet l') ?_
  refine (List.perm_ext_iff_of_nodup (nodup_sortedSet l) (nodup_sortedSet l')).mpr fun a => ?_
  rw [mem_sortedSet, mem_sortedSet, h]

theorem nodup_of_sorted {β : Type*} {key : β → α} {l : List β} (h : l.Pairwise fun a b => key a < key b) : l.Nodup :=
  h.imp fun hlt heq => by subst heq; exact lt_irrefl _ hlt

theorem eq_of_sorted {β : Type*} {key : β → α} {l l' : List β} (hl : l.Pairwise fun a b => key a < key b)
    (hl' : l'.Pairwise fun a b => key a < key b) (h : ∀ b, b ∈ l ↔ b ∈ l') : l = l' :=
  List.Perm.eq_of_pairwise (fun _ _ _ _ hlt hgt => absurd hlt (lt_asymm hgt)) hl hl'
    ((List.perm_ext_iff_of_nodup (nodup_of_sorted hl) (nodup_of_sorted hl')).2 h)

theorem insertionSort_congr {β : Type*} (key : β → α) {l l' : List β} (h : (l.map key).Nodup) (hp : l.Perm l') :
    l.insertionSort (fun a b => key a ≤ key b) = l'.insertionSort fun a b => key a ≤ key b := by
  have hsort : ∀ k : List β, (k.insertionSort fun a b => key a ≤ key b).Pairwise fun a b => key a ≤ key b := fun k =>
    have : Std.Total fun a b : β => key a ≤ key b := ⟨fun a b => le_total (key a) (key b)⟩
    have : IsTrans β fun a b => key a ≤ key b := ⟨fun a b c => le_trans⟩
    List.pairwise_insertionSort _ k
  have hperm := (List.perm_insertionSort (fun a b => key a ≤ key b) l).trans
    (hp.trans (List.perm_insertionSort (fun a b => key a ≤ key b) l').symm)
  refine List.Perm.eq_of_pairwise (fun a b ha hb hab hba => ?_) (hsort l) (hsort l') hperm
  have hmem : ∀ c ∈ l.insertionSort (fun a b => key a ≤ key b), c ∈ l := fun c => (List.mem_insertionSort _).1
  exact List.inj_on_of_nodup_map h (hmem a ha) (hmem b (hperm.mem_iff.2 hb)) (le_antisymm hab hba)

theorem sorted_entries {β : Type*} (d : Dict α β) :
    d.entries.insertionSort (fun a b => a.1 ≤ b.1) = (sortedSet d.keys).filterMap fun k => (d.get? k).map (Prod.mk k) := by
  have hstrict : ∀ l : List α, l.Pairwise (· ≤ ·) → l.Nodup → l.Pairwise (· < ·) := fun l hle hnd =>
    (hle.and hnd).imp fun h => lt_of_le_of_ne h.1 h.2
  refine @eq_of_sorted α _ (α × β) Prod.fst _ _ ?_ ?_ ?_
  · have hsort : (d.entries.insertionSort fun a b => a.1 ≤ b.1).Pairwise fun a b => a.1 ≤ b.1 :=
      have : Std.Total fun a b : α × β => a.1 ≤ b.1 := ⟨fun a b => le_total a.1 b.1⟩
      have : IsTrans (α × β) fun a b => a.1 ≤ b.1 := ⟨fun a b c => le_trans⟩
      List.pairwise_insertionSort _ _
    have hnodup : ((d.entries.insertionSort fun a b => a.1 ≤ b.1).map Prod.fst).Nodup :=
      ((List.perm_insertionSort _ d.entries).map Prod.fst).nodup_iff.2 d.nodup
    have hlt := hstrict _ (List.pairwise_map.2 hsort) hnodup
    exact List.pairwise_map.1 hlt
  · refine List.Pairwise.filterMap _ (fun a a' hlt b hb b' hb' => ?_)
      (hstrict _ (pairwise_sortedSet d.keys) (nodup_sortedSet d.keys))
    obtain ⟨v, -, rfl⟩ := Option.map_eq_some_iff.1 hb
    obtain ⟨v', -, rfl⟩ := Option.map_eq_some_iff.1 hb'
    exact hlt
  · intro p
    obtain ⟨key, value⟩ := p
    rw [List.mem_insertionSort, ← Dict.get?_eq_some, List.mem_filterMap]
    constructor
    · intro hget
      exact ⟨key, mem_sortedSet.2 (Dict.mem_keys.2 ⟨_, hget⟩), by rw [hget]; rfl⟩
    · intro hmem
      obtain ⟨k, -, hk⟩ := hmem
      obtain ⟨v, hget, hv⟩ := Option.map_eq_some_iff.1 hk
      cases hv
      exact hget

def inOrder (s : Finset α) : List α :=
  Quotient.lift (fun l : List α => l.insertionSort (· ≤ ·))
    (fun l l' (h : l.Perm l') =>
      List.Perm.eq_of_pairwise (fun _ _ _ _ => le_antisymm) (List.pairwise_insertionSort _ l)
        (List.pairwise_insertionSort _ l')
        ((List.perm_insertionSort _ l).trans (h.trans (List.perm_insertionSort _ l').symm))) s.val

theorem perm_inOrder (s : Finset α) : (inOrder s : Multiset α) = s.val := by
  obtain ⟨m, hm⟩ := s
  induction m using Quotient.inductionOn with
  | h l => exact Multiset.coe_eq_coe.2 (List.perm_insertionSort _ l)

theorem mem_inOrder {s : Finset α} {a : α} : a ∈ inOrder s ↔ a ∈ s := by
  rw [← Multiset.mem_coe, perm_inOrder]
  exact Iff.rfl

theorem nodup_inOrder (s : Finset α) : (inOrder s).Nodup := by
  rw [← Multiset.coe_nodup, perm_inOrder]
  exact s.nodup

end
