import Cctally.GroupAAccumulator
import Cctally.Dict

/-!
# The cached buckets of a calendar builder

Past buckets are served from the cache unless a changed row reaches them; the current one
is folded again at every tick, or by the running fold.
-/

namespace Cctally.GroupA

variable {L E A B X : Type*}

structure Calendar (L E A B : Type*) extends Builder L E A B where
  bucketEndOf : L → Option Int

/-- `changed_min_timestamp`: the earliest event time held by a row changed since the sequence. -/
def changedMinTimestamp (rows : List (Row E)) (lastSeenSeq : Nat) : Option Int :=
  ((rows.filter fun r => decide (lastSeenSeq < r.mutationSeq)).map (·.mutationMinTs)).min?

structure LastSeen (X : Type*) where
  maxId : Nat
  maxSeq : Nat
  extra : X

structure Held (L A B : Type*) where
  cache : Dict L B
  current : Option (Accumulator L A)

structure GroupAState (L A B X : Type*) extends Held L A B where
  lastSeen : Option (LastSeen X)

def coldStart : GroupAState L A B X := ⟨⟨Dict.empty, none⟩, none⟩

structure Pass (L E : Type*) where
  store : Store E
  now : Int
  current : Option L
  accumulates : Bool
  dirty : L → Bool

namespace Calendar

def dirtySince (c : Calendar L E A B) (rows : List (Row E)) (lastSeenSeq : Nat) (label : L) : Bool :=
  match changedMinTimestamp rows lastSeenSeq, c.bucketEndOf label with
  | some earliest, some ends => decide (earliest < ends)
  | _, _ => false

variable [DecidableEq L] (c : Calendar L E A B)

def bucket (q : Pass L E) (held : Held L A B) (label : L) : Option B × Option (Accumulator L A) :=
  if q.current = some label ∧ q.accumulates = true then
    let out := c.accumulateCurrentBucket held.current label q.now q.store
    (out.1, some out.2)
  else if q.current = some label ∨ q.dirty label = true then (c.scratch label q.now q.store.rows, held.current)
  else
    match held.cache.get? label with
    | some bucket => (some bucket, held.current)
    | none => (c.scratch label q.now q.store.rows, held.current)

def keep (cache : Dict L B) (label : L) : Option B → Dict L B
  | none => cache.erase label
  | some bucket => cache.set label bucket

def cachedBuckets (q : Pass L E) : List L → Held L A B → List B × Held L A B
  | [], held => ([], held)
  | label :: labels, held =>
    let out := c.bucket q held label
    let rest := cachedBuckets q labels ⟨keep held.cache label out.1, out.2⟩
    (out.1.toList ++ rest.1, rest.2)

end Calendar

def fullInvalidate [DecidableEq X] (lastSeen : Option (LastSeen X)) (extra : X) (store : Store E) : Bool :=
  match lastSeen with
  | none => false
  | some seen =>
    !decide (seen.extra = extra) || decide (maxId store.rows < seen.maxId) || decide (store.mutationSeq < seen.maxSeq)

def GroupAState.held [DecidableEq X] (s : GroupAState L A B X) (extra : X) (store : Store E) : Held L A B :=
  if fullInvalidate s.lastSeen extra store then ⟨Dict.empty, none⟩ else s.toHeld

def Calendar.dirty [DecidableEq X] (c : Calendar L E A B) (lastSeen : Option (LastSeen X)) (extra : X) (store : Store E)
    (label : L) : Bool :=
  match lastSeen with
  | none => true
  | some seen => fullInvalidate lastSeen extra store || c.dirtySince store.rows seen.maxSeq label

def Calendar.buildCachedGroupA [DecidableEq L] [DecidableEq X] (c : Calendar L E A B) (s : GroupAState L A B X)
    (store : Store E) (labels : List L) (current : Option L) (extra : X) (accumulates : Bool) (now : Int) :
    List B × GroupAState L A B X :=
  let pass : Pass L E := ⟨store, now, current, accumulates, c.dirty s.lastSeen extra store⟩
  let out := c.cachedBuckets pass labels (s.held extra store)
  (out.1, ⟨out.2, some ⟨maxId store.rows, store.mutationSeq, extra⟩⟩)

/-! ## The loop over the labels -/

namespace Calendar

variable [DecidableEq L] {c : Calendar L E A B} {q : Pass L E} {held : Held L A B} {label : L}

structure Serves (c : Calendar L E A B) (q : Pass L E) (held : Held L A B) (label : L) : Prop where
  accumulated : q.current = some label → q.accumulates = true →
    (c.accumulateCurrentBucket held.current label q.now q.store).1 = c.scratch label q.now q.store.rows
  cached : q.current ≠ some label → q.dirty label = false →
    ∀ v ∈ held.cache.get? label, c.scratch label q.now q.store.rows = some v

theorem Serves.bucket_eq (h : Serves c q held label) : (c.bucket q held label).1 = c.scratch label q.now q.store.rows := by
  rw [bucket]
  by_cases hacc : q.current = some label ∧ q.accumulates = true
  · rw [if_pos hacc]
    exact h.accumulated hacc.1 hacc.2
  rw [if_neg hacc]
  by_cases hre : q.current = some label ∨ q.dirty label = true
  · rw [if_pos hre]
  rw [if_neg hre]
  push Not at hre
  cases hget : held.cache.get? label with
  | none => rfl
  | some v => exact (h.cached hre.1 (Bool.eq_false_iff.2 hre.2) v hget).symm

theorem bucket_current : (c.bucket q held label).2 =
    if q.current = some label ∧ q.accumulates = true then
      some (c.accumulateCurrentBucket held.current label q.now q.store).2
    else held.current := by
  rw [bucket]
  by_cases hacc : q.current = some label ∧ q.accumulates = true
  · rw [if_pos hacc, if_pos hacc]
  rw [if_neg hacc, if_neg hacc]
  split
  · rfl
  · cases held.cache.get? label <;> rfl

theorem get?_keep (cache : Dict L B) (out : Option B) (label' : L) :
    (keep cache label out).get? label' = if label = label' then out else cache.get? label' := by
  cases out with
  | none => rw [keep, Dict.get?_erase]
  | some v => rw [keep, Dict.get?_set]

theorem cachedBuckets_eq {labels : List L} (hnodup : labels.Nodup) (h : ∀ label ∈ labels, Serves c q held label) :
    (c.cachedBuckets q labels held).1 = labels.filterMap (fun label => c.scratch label q.now q.store.rows) ∧
      ∀ label, (c.cachedBuckets q labels held).2.cache.get? label =
        if label ∈ labels then c.scratch label q.now q.store.rows else held.cache.get? label := by
  induction labels generalizing held with
  | nil => exact ⟨rfl, fun _ => (if_neg (List.not_mem_nil)).symm⟩
  | cons label labels ih =>
    obtain ⟨hfresh, hnodup⟩ := List.nodup_cons.1 hnodup
    have hbucket := (h label List.mem_cons_self).bucket_eq
    have hlater : ∀ label' ∈ labels, Serves c q ⟨keep held.cache label (c.bucket q held label).1,
        (c.bucket q held label).2⟩ label' := fun label' hmem => by
      have hne : label ≠ label' := fun heq => hfresh (heq ▸ hmem)
      obtain ⟨haccumulated, hcached⟩ := h label' (List.mem_cons_of_mem _ hmem)
      refine ⟨fun hcurrent hacc => ?_, fun hcurrent hclean v hv => ?_⟩
      · have hother : ¬ (q.current = some label ∧ q.accumulates = true) := fun hboth =>
          hne (Option.some.inj (hboth.1.symm.trans hcurrent))
        simp only
        rw [bucket_current, if_neg hother]
        exact haccumulated hcurrent hacc
      · simp only at hv
        rw [get?_keep, if_neg hne] at hv
        exact hcached hcurrent hclean v hv
    obtain ⟨hlist, hcache⟩ := ih hnodup hlater
    refine ⟨?_, fun label' => ?_⟩
    · rw [cachedBuckets]
      simp only
      rw [hlist, hbucket, List.filterMap_cons]
      cases c.scratch label q.now q.store.rows <;> rfl
    · rw [cachedBuckets]
      simp only
      rw [hcache, get?_keep, hbucket]
      by_cases hmem : label' ∈ labels
      · rw [if_pos hmem, if_pos (List.mem_cons_of_mem _ hmem)]
      rw [if_neg hmem]
      by_cases heq : label = label'
      · rw [if_pos heq, if_pos (heq ▸ List.mem_cons_self), heq]
      · rw [if_neg heq, if_neg (List.not_mem_cons_of_ne_of_not_mem (Ne.symm heq) hmem)]

theorem current_of_notMem {labels : List L} (hcurrent : q.current = some label) (hnot : label ∉ labels) :
    (c.cachedBuckets q labels held).2.current = held.current := by
  induction labels generalizing held with
  | nil => rfl
  | cons label' labels ih =>
    obtain ⟨hne, hnot⟩ : label ≠ label' ∧ label ∉ labels := by rwa [List.mem_cons, not_or] at hnot
    have hother : ¬ (q.current = some label' ∧ q.accumulates = true) := fun hboth =>
      hne (Option.some.inj (hcurrent.symm.trans hboth.1))
    rw [cachedBuckets]
    simp only
    rw [ih hnot, bucket_current, if_neg hother]

theorem cachedBuckets_current {labels : List L} (hnodup : labels.Nodup) (hcurrent : q.current = some label)
    (hmem : label ∈ labels) : (c.cachedBuckets q labels held).2.current =
      if q.accumulates = true then some (c.accumulateCurrentBucket held.current label q.now q.store).2
      else held.current := by
  induction labels generalizing held with
  | nil => cases hmem
  | cons label' labels ih =>
    obtain ⟨hfresh, hnodup⟩ := List.nodup_cons.1 hnodup
    rw [cachedBuckets]
    simp only
    by_cases heq : label = label'
    · subst heq
      rw [current_of_notMem hcurrent hfresh, bucket_current]
      simp only [hcurrent, true_and]
    · have hother : ¬ (q.current = some label' ∧ q.accumulates = true) := fun hboth =>
        heq (Option.some.inj (hcurrent.symm.trans hboth.1))
      rw [ih hnodup (List.mem_of_ne_of_mem heq hmem), bucket_current, if_neg hother]

end Calendar

end Cctally.GroupA
