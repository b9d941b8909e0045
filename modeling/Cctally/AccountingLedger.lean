import Cctally.Dict
import Mathlib.Data.Prod.Lex
import Mathlib.Data.String.Basic

/-!
# The accounting change ledger

A trigger on each change of an accounting row advances a sequence and marks the paths the
change touched; a clear of the whole table marks it as full. The oldest markers are pruned.
-/

namespace Cctally.Accounting

abbrev Key := String ×ₗ {path : String // path ≠ ""}

instance lawfulKey : LawfulBEq Key := inferInstance

/-- A row of `codex_session_entries`, its joined thread metadata among its values. -/
structure Row (T V : Type) where
  id : Nat
  key : Key
  timestamp : T
  value : V
  deriving DecidableEq

/-- A row of `codex_accounting_change_log`; a full marker has no key. -/
structure Marker where
  mutationSeq : Nat
  key : Option Key
  deriving DecidableEq

structure Store (T V : Type) where
  rows : List (Row T V)
  mutationSeq : Nat
  pruned : List Marker
  log : List Marker
  nodup : (rows.map (·.id)).Nodup
  sorted : (pruned ++ log).Pairwise fun m m' => m.mutationSeq ≤ m'.mutationSeq
  seq_le : ∀ m ∈ pruned ++ log, m.mutationSeq ≤ mutationSeq

section
variable {T V : Type}

namespace Store

def empty : Store T V :=
  { rows := []
    mutationSeq := 0
    pruned := []
    log := []
    nodup := List.nodup_nil
    sorted := List.Pairwise.nil
    seq_le := nofun }

def record (s : Store T V) (rows : List (Row T V)) (nodup : (rows.map (·.id)).Nodup) (keys : List (Option Key)) :
    Store T V where
  rows := rows
  mutationSeq := s.mutationSeq + 1
  pruned := s.pruned
  log := s.log ++ keys.map fun key => ⟨s.mutationSeq + 1, key⟩
  nodup := nodup
  sorted := by
    rw [← List.append_assoc, List.pairwise_append]
    refine ⟨s.sorted, List.pairwise_map.2 (List.pairwise_of_forall fun _ _ => le_refl _), fun m hm m' hm' => ?_⟩
    obtain ⟨_, _, rfl⟩ := List.mem_map.1 hm'
    exact Nat.le_succ_of_le (s.seq_le m hm)
  seq_le m hm := by
    rw [← List.append_assoc] at hm
    rcases List.mem_append.1 hm with hm | hm
    · exact Nat.le_succ_of_le (s.seq_le m hm)
    · obtain ⟨_, _, rfl⟩ := List.mem_map.1 hm
      exact le_refl _

/-! ## Statements -/

def insert (s : Store T V) (row : Row T V) : Store T V :=
  if h : row.id ∈ s.rows.map (·.id) then s
  else
    s.record (s.rows ++ [row]) (by
      rw [List.map_append, List.map_singleton, List.nodup_append]
      exact ⟨s.nodup, List.nodup_singleton _, fun a ha b hb => by
        rw [List.mem_singleton.1 hb]
        exact fun heq => h (heq ▸ ha)⟩) [some row.key]

def delete (s : Store T V) (id : Nat) : Store T V :=
  match s.rows.find? fun r => r.id = id with
  | none => s
  | some r =>
    s.record (s.rows.filter fun r => r.id ≠ id) (s.nodup.sublist (List.filter_sublist.map _)) [some r.key]

def replaceRow (id : Nat) (row r : Row T V) : Row T V := if r.id = id then { row with id := id } else r

/-- `trg_codex_accounting_upd`: both images under one sequence, when the row changes. -/
def update [DecidableEq T] [DecidableEq V] (s : Store T V) (id : Nat) (row : Row T V) : Store T V :=
  match s.rows.find? fun r => r.id = id with
  | none => s
  | some r =>
    if { row with id := id } = r then s
    else
      s.record (s.rows.map (replaceRow id row)) (by
        have hids : (s.rows.map (replaceRow id row)).map (·.id) = s.rows.map (·.id) := by
          rw [List.map_map]
          refine List.map_congr_left fun r _ => ?_
          simp only [Function.comp_apply, replaceRow]
          split
          next h => exact h.symm
          next => rfl
        rw [hids]
        exact s.nodup) ((sortedSet [r.key, row.key]).map some)

def rejoinRow (paths : List Key) (f : V → V) (r : Row T V) : Row T V :=
  if r.key ∈ paths then { r with value := f r.value } else r

/-- The thread triggers: a thread's metadata changes the rows of the paths it names. -/
def rejoin (s : Store T V) (paths : List Key) (f : V → V) : Store T V :=
  if paths = [] then s
  else
    s.record (s.rows.map (rejoinRow paths f)) (by
      have hids : (s.rows.map (rejoinRow paths f)).map (·.id) = s.rows.map (·.id) := by
        rw [List.map_map]
        refine List.map_congr_left fun r _ => ?_
        simp only [Function.comp_apply, rejoinRow]
        split
        next => rfl
        next => rfl
      rw [hids]
      exact s.nodup) ((sortedSet paths).map some)

/-- `_clear_codex_derived_rows`; another row family can hold rows where this one holds none. -/
def clear (s : Store T V) (others : Bool) : Store T V :=
  if s.rows.isEmpty && !others then s else s.record [] List.nodup_nil [none]

def pruneCutoff (s : Store T V) (retainSequences : Nat) : Option Nat :=
  if s.mutationSeq ≤ retainSequences then none
  else if s.log.any fun m => m.mutationSeq ≤ s.mutationSeq - retainSequences then some (s.mutationSeq - retainSequences)
  else none

/-- `_prune_codex_accounting_change_log`: the oldest of the due markers, which come first. -/
def prune (s : Store T V) (retainSequences : Nat) (maxRows : Option Nat) : Store T V :=
  if retainSequences < 1 then s
  else
    match s.pruneCutoff retainSequences with
    | none => s
    | some cutoff =>
      let due := (s.log.filter fun m => m.mutationSeq ≤ cutoff).length
      let n := match maxRows with
        | none => due
        | some m => min m due
      { s with
        pruned := s.pruned ++ s.log.take n
        log := s.log.drop n
        sorted := by
          rw [List.append_assoc, List.take_append_drop]
          exact s.sorted
        seq_le := by
          rw [List.append_assoc, List.take_append_drop]
          exact s.seq_le }

end Store

inductive Statement (T V : Type)
  | insert (row : Row T V)
  | delete (id : Nat)
  | update (id : Nat) (row : Row T V)
  | rejoin (paths : List Key) (f : V → V)
  | clear (others : Bool)

def Store.run [DecidableEq T] [DecidableEq V] (s : Store T V) : Statement T V → Store T V
  | .insert row => s.insert row
  | .delete id => s.delete id
  | .update id row => s.update id row
  | .rejoin paths f => s.rejoin paths f
  | .clear others => s.clear others

def Store.full (s : Store T V) : List Marker := s.pruned ++ s.log

/-! ## What changes -/

def Store.at_ (s : Store T V) (key : Key) : List (Row T V) := s.rows.filter fun r => r.key = key

structure Recorded (s s' : Store T V) : Prop where
  seq : s'.mutationSeq = s.mutationSeq + 1
  pruned : s'.pruned = s.pruned
  marks : ∃ keys : List (Option Key), s'.full = s.full ++ (keys.map fun key => ⟨s.mutationSeq + 1, key⟩) ∧
    ∀ key, none ∉ keys → some key ∉ keys → s'.at_ key = s.at_ key

theorem recorded_record (s : Store T V) (rows : List (Row T V)) (nodup : (rows.map (·.id)).Nodup)
    (keys : List (Option Key))
    (h : ∀ key, none ∉ keys → some key ∉ keys → (rows.filter fun r => r.key = key) = s.at_ key) :
    Recorded s (s.record rows nodup keys) :=
  ⟨rfl, rfl, keys, (List.append_assoc _ _ _).symm, h⟩

theorem insert_recorded (s : Store T V) (row : Row T V) : s.insert row = s ∨ Recorded s (s.insert row) := by
  rw [Store.insert]
  split
  next => exact .inl rfl
  next =>
    refine .inr (recorded_record s _ _ _ fun key _ hkey => ?_)
    have hne : row.key ≠ key := fun h => hkey (h ▸ List.mem_singleton_self _)
    rw [List.filter_append, List.filter_singleton, decide_eq_false hne]
    exact List.append_nil _

theorem eq_of_find {s : Store T V} {id : Nat} {r r' : Row T V} (hr : (s.rows.find? fun r => r.id = id) = some r)
    (hr' : r' ∈ s.rows) (hid : r'.id = id) : r' = r := by
  have hrid := List.find?_some hr
  rw [decide_eq_true_eq] at hrid
  exact List.inj_on_of_nodup_map s.nodup hr' (List.mem_of_find?_eq_some hr) (hid.trans hrid.symm)

theorem delete_recorded (s : Store T V) (id : Nat) : s.delete id = s ∨ Recorded s (s.delete id) := by
  rw [Store.delete]
  split
  next => exact .inl rfl
  next r hr =>
    refine .inr (recorded_record s _ _ _ fun key _ hkey => ?_)
    have hne : r.key ≠ key := fun h => hkey (h ▸ List.mem_singleton_self _)
    rw [List.filter_filter]
    refine List.filter_congr fun r' hr' => ?_
    by_cases hid : r'.id = id
    · rw [eq_of_find hr hr' hid, decide_eq_false hne, Bool.false_and]
    · rw [decide_eq_true hid, Bool.and_true]

theorem filter_map_key {f : Row T V → Row T V} {key : Key} : ∀ {rows : List (Row T V)},
    (∀ r ∈ rows, f r = r ∨ (r.key ≠ key ∧ (f r).key ≠ key)) →
      ((rows.map f).filter fun r => r.key = key) = rows.filter fun r => r.key = key
  | [], _ => rfl
  | r :: rows, h => by
    have hrest := filter_map_key fun r' hr' => h r' (List.mem_cons_of_mem _ hr')
    rw [List.map_cons, List.filter_cons, List.filter_cons, hrest]
    rcases h r List.mem_cons_self with heq | ⟨hne, hne'⟩
    · rw [heq]
    · rw [decide_eq_false hne, decide_eq_false hne']
      rfl

theorem update_recorded [DecidableEq T] [DecidableEq V] (s : Store T V) (id : Nat) (row : Row T V) :
    s.update id row = s ∨ Recorded s (s.update id row) := by
  rw [Store.update]
  split
  next => exact .inl rfl
  next r hr =>
    split
    next => exact .inl rfl
    next =>
      refine .inr (recorded_record s _ _ _ fun key _ hkey => filter_map_key fun r' hr' => ?_)
      have hkeys : ∀ k ∈ [r.key, row.key], k ≠ key := fun k hk heq =>
        hkey (List.mem_map.2 ⟨k, mem_sortedSet.2 hk, congrArg some heq⟩)
      rw [Store.replaceRow]
      split
      next hid =>
        rw [eq_of_find hr hr' hid]
        exact .inr ⟨hkeys r.key List.mem_cons_self, hkeys row.key (List.mem_cons_of_mem _ List.mem_cons_self)⟩
      next => exact .inl rfl

theorem rejoin_recorded (s : Store T V) (paths : List Key) (f : V → V) :
    s.rejoin paths f = s ∨ Recorded s (s.rejoin paths f) := by
  rw [Store.rejoin]
  split
  next => exact .inl rfl
  next =>
    refine .inr (recorded_record s _ _ _ fun key _ hkey => filter_map_key fun r hr => ?_)
    rw [Store.rejoinRow]
    split
    next hmem =>
      have hne : r.key ≠ key := fun heq => hkey (List.mem_map.2 ⟨r.key, mem_sortedSet.2 hmem, congrArg some heq⟩)
      exact .inr ⟨hne, hne⟩
    next => exact .inl rfl

theorem clear_recorded (s : Store T V) (others : Bool) : s.clear others = s ∨ Recorded s (s.clear others) := by
  rw [Store.clear]
  split
  next => exact .inl rfl
  next => exact .inr (recorded_record s _ _ _ fun _ hnone _ => absurd (List.mem_singleton_self _) hnone)

theorem run_recorded [DecidableEq T] [DecidableEq V] (s : Store T V) (st : Statement T V) :
    s.run st = s ∨ Recorded s (s.run st) := by
  cases st with
  | insert row => exact insert_recorded s row
  | delete id => exact delete_recorded s id
  | update id row => exact update_recorded s id row
  | rejoin paths f => exact rejoin_recorded s paths f
  | clear others => exact clear_recorded s others

theorem prune_eq (s : Store T V) (retainSequences : Nat) (maxRows : Option Nat) :
    (s.prune retainSequences maxRows).rows = s.rows ∧
      (s.prune retainSequences maxRows).mutationSeq = s.mutationSeq ∧
        (s.prune retainSequences maxRows).full = s.full := by
  rw [Store.prune]
  split
  next => exact ⟨rfl, rfl, rfl⟩
  next =>
    split
    next => exact ⟨rfl, rfl, rfl⟩
    next =>
      refine ⟨rfl, rfl, ?_⟩
      simp only [Store.full]
      rw [List.append_assoc, List.take_append_drop]

end

end Cctally.Accounting
