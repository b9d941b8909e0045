import Mathlib.Algebra.Order.Group.Int
import Mathlib.Data.List.Sort
import Mathlib.Data.List.Nodup
import Mathlib.Data.Prod.Lex

/-!
# Usage entries and the fold of the current bucket

Entries are inserted, or rewritten in place under a fresh mutation sequence. A bucket's
value is the left fold of its entries in the order of their event times and ids.
-/

namespace Cctally.GroupA

variable {L E A B : Type*}

structure Entry (E : Type*) where
  timestamp : Int
  model : String
  usage : E

structure Row (E : Type*) where
  id : Nat
  mutationSeq : Nat
  mutationMinTs : Int
  entry : Entry E

/-- `session_entries`, and the mutation sequence of `cache_meta`. -/
structure Store (E : Type*) where
  rows : List (Row E)
  mutationSeq : Nat
  nodup : (rows.map (·.id)).Nodup
  seq_le : ∀ r ∈ rows, r.mutationSeq ≤ mutationSeq
  minTs_le : ∀ r ∈ rows, r.mutationMinTs ≤ r.entry.timestamp

inductive Edit (E : Type*)
  | insert (skip : Nat) (entry : Entry E)
  | rewrite (id : Nat) (entry : Entry E)

def maxId : List (Row E) → Nat
  | [] => 0
  | r :: rows => max r.id (maxId rows)

theorem le_maxId : ∀ {rows : List (Row E)} {r : Row E}, r ∈ rows → r.id ≤ maxId rows
  | r' :: rows, r, h => by
    rw [maxId]
    rcases List.mem_cons.1 h with rfl | h
    · exact le_max_left _ _
    · exact le_trans (le_maxId h) (le_max_right _ _)

theorem maxId_le {n : Nat} : ∀ {rows : List (Row E)}, (∀ r ∈ rows, r.id ≤ n) → maxId rows ≤ n
  | [], _ => Nat.zero_le n
  | r :: rows, h => by
    rw [maxId]
    exact max_le (h r List.mem_cons_self) (maxId_le fun r' hr => h r' (List.mem_cons_of_mem _ hr))

def inserted (s : Store E) (skip : Nat) (entry : Entry E) : Row E :=
  ⟨maxId s.rows + 1 + skip, s.mutationSeq + 1, entry.timestamp, entry⟩

def rewritten (s : Store E) (id : Nat) (entry : Entry E) (r : Row E) : Row E :=
  if r.id = id then ⟨id, s.mutationSeq + 1, min r.mutationMinTs entry.timestamp, entry⟩ else r

theorem rewritten_id (s : Store E) (id : Nat) (entry : Entry E) (r : Row E) : (rewritten s id entry r).id = r.id := by
  unfold rewritten
  split
  next h => exact h.symm
  next => rfl

def Store.insert (s : Store E) (skip : Nat) (entry : Entry E) : Store E where
  rows := s.rows ++ [inserted s skip entry]
  mutationSeq := s.mutationSeq + 1
  nodup := by
    rw [List.map_append, List.nodup_append]
    refine ⟨s.nodup, List.nodup_singleton _, fun i hi j hj => ?_⟩
    obtain ⟨r, hr, rfl⟩ := List.mem_map.1 hi
    have hle := le_maxId hr
    rw [List.mem_singleton.1 hj, inserted]
    simp only
    omega
  seq_le r hr := by
    rcases List.mem_append.1 hr with hr | hr
    · exact Nat.le_succ_of_le (s.seq_le r hr)
    · rw [List.mem_singleton.1 hr]
      exact le_refl _
  minTs_le r hr := by
    rcases List.mem_append.1 hr with hr | hr
    · exact s.minTs_le r hr
    · rw [List.mem_singleton.1 hr]
      exact le_refl _

def Store.rewrite (s : Store E) (id : Nat) (entry : Entry E) : Store E where
  rows := s.rows.map (rewritten s id entry)
  mutationSeq := s.mutationSeq + 1
  nodup := by
    have hids : (s.rows.map (rewritten s id entry)).map (·.id) = s.rows.map (·.id) := by
      rw [List.map_map]
      exact List.map_congr_left fun r _ => rewritten_id s id entry r
    rw [hids]
    exact s.nodup
  seq_le r hr := by
    obtain ⟨r', hr', rfl⟩ := List.mem_map.1 hr
    unfold rewritten
    split
    · exact le_refl _
    · exact Nat.le_succ_of_le (s.seq_le r' hr')
  minTs_le r hr := by
    obtain ⟨r', hr', rfl⟩ := List.mem_map.1 hr
    unfold rewritten
    split
    · exact min_le_right _ _
    · exact s.minTs_le r' hr'

def Store.edit (s : Store E) : Edit E → Store E
  | .insert skip entry => s.insert skip entry
  | .rewrite id entry => s.rewrite id entry

def Row.key (r : Row E) : Int ×ₗ Nat := toLex (r.entry.timestamp, r.id)

structure Builder (L E A B : Type*) where
  newBucketAcc : A
  foldEntry : A → Entry E → A
  finalizeBucket : L → A → B
  inWindow : L → Int → Bool
  membership : L → Entry E → Bool

namespace Builder

variable (b : Builder L E A B)

def ordered (rows : List (Row E)) : List (Row E) := rows.insertionSort fun r r' => r.key ≤ r'.key

/-- `fetch_all`: the label's window up to now. -/
def fetchAll (label : L) (now : Int) (rows : List (Row E)) : List (Row E) :=
  (ordered rows).filter fun r => b.inWindow label r.entry.timestamp && decide (r.entry.timestamp ≤ now)

/-- `fetch_delta`: what changed since the sequence or came after the clock. -/
def fetchDelta (label : L) (now : Int) (rows : List (Row E)) (afterSeq : Nat) (afterTs : Int) : List (Row E) :=
  (b.fetchAll label now rows).filter fun r => decide (afterSeq < r.mutationSeq) || decide (afterTs < r.entry.timestamp)

def folded (label : L) (r : Row E) : Bool := !decide (r.entry.model = "<synthetic>") && b.membership label r.entry

def foldRows (acc : A) (rows : List (Row E)) : A := rows.foldl (fun acc r => b.foldEntry acc r.entry) acc

def tailOf (tail : Option (Int ×ₗ Nat)) (rows : List (Row E)) : Option (Int ×ₗ Nat) :=
  rows.foldl (fun _ r => some r.key) tail

def finalizeOrNone (label : L) (acc : A) (tail : Option (Int ×ₗ Nat)) : Option B :=
  if tail.isNone then none else some (b.finalizeBucket label acc)

def members (label : L) (now : Int) (rows : List (Row E)) : List (Row E) := (b.fetchAll label now rows).filter (b.folded label)

def scratch (label : L) (now : Int) (rows : List (Row E)) : Option B :=
  b.finalizeOrNone label (b.foldRows b.newBucketAcc (b.members label now rows)) (tailOf none (b.members label now rows))

end Builder

structure Accumulator (L A : Type*) where
  label : L
  acc : A
  tail : Option (Int ×ₗ Nat)
  lastSeenId : Nat
  lastSeenSeq : Nat
  lastNow : Int

namespace Builder

variable [DecidableEq L] (b : Builder L E A B)

/-- `_cold`: the whole window refolded. -/
def cold (label : L) (now : Int) (store : Store E) : Option B × Accumulator L A :=
  let rows := b.members label now store.rows
  let acc := b.foldRows b.newBucketAcc rows
  let tail := tailOf none rows
  (b.finalizeOrNone label acc tail, ⟨label, acc, tail, maxId store.rows, store.mutationSeq, now⟩)

def delta (prior : Accumulator L A) (label : L) (now : Int) (rows : List (Row E)) : List (Row E) :=
  (b.fetchDelta label now rows prior.lastSeenSeq prior.lastNow).filter (b.folded label)

/-- The delta holds a row that was there before, or one at or before the tail. -/
def refolds (prior : Accumulator L A) (delta : List (Row E)) : Bool :=
  (delta.any fun r => decide (r.id ≤ prior.lastSeenId)) ||
    match prior.tail with
    | some tail => delta.any fun r => decide (r.key ≤ tail)
    | none => false

def accumulateCurrentBucket (prior : Option (Accumulator L A)) (label : L) (now : Int) (store : Store E) :
    Option B × Accumulator L A :=
  match prior with
  | none => b.cold label now store
  | some prior =>
    if prior.label ≠ label ∨ now < prior.lastNow then b.cold label now store
    else
      let delta := b.delta prior label now store.rows
      if delta.isEmpty then
        (b.finalizeOrNone label prior.acc prior.tail,
          ⟨label, prior.acc, prior.tail, maxId store.rows, store.mutationSeq, now⟩)
      else if refolds prior delta then b.cold label now store
      else
        let acc := b.foldRows prior.acc delta
        let tail := tailOf prior.tail delta
        (b.finalizeOrNone label acc tail, ⟨label, acc, tail, maxId store.rows, store.mutationSeq, now⟩)

end Builder

end Cctally.GroupA
