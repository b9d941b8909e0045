import Cctally.Bisect
import Cctally.Dict
import Cctally.SubWeeks
import Cctally.SubWeeksCycles
import Mathlib

/-!
# Usage by subscription week

Entries are folded into the buckets of the weeks that they are assigned to: a bisection
finds the last week that has started, and a walk goes back while the week before still
contains the entry. An entry that is assigned to no week is dropped.
-/

namespace Cctally.WeeklyUsage

open SubWeeks (Clock SubWeek)

/-! ## Entries and buckets -/

structure UsageEntry (U : Type) where
  timestamp : Int
  model : String
  speed : Option String
  inputTokens : Int
  outputTokens : Int
  cacheCreationTokens : Int
  cacheReadTokens : Int
  rest : U

/-- `_calculate_entry_cost`, and costs as they are added and compared. -/
structure Pricing (U C : Type) where
  entryCost : UsageEntry U → C
  zero : C
  add : C → C → C
  le : C → C → Bool

structure Sums (C : Type) where
  input : Int
  output : Int
  cacheCreate : Int
  cacheRead : Int
  cost : C

structure Acc (C : Type) where
  sums : Sums C
  models : Dict String (Sums C)
  modelsOrder : List String

structure BucketUsage (C : Type) where
  bucket : String
  inputTokens : Int
  outputTokens : Int
  cacheCreationTokens : Int
  cacheReadTokens : Int
  totalTokens : Int
  costUsd : C
  models : List String
  modelBreakdowns : List (String × Sums C)

def SYNTHETIC : String := "<synthetic>"

section
variable {U C : Type}

def UsageEntry.synthetic (e : UsageEntry U) : Bool := e.model = SYNTHETIC

def UsageEntry.totalTokens (e : UsageEntry U) : Int :=
  e.inputTokens + e.outputTokens + e.cacheCreationTokens + e.cacheReadTokens

def UsageEntry.displayModel (e : UsageEntry U) : String :=
  if e.speed = some "fast" then e.model ++ "-fast" else e.model

variable (pr : Pricing U C)

def newSums : Sums C := ⟨0, 0, 0, 0, pr.zero⟩

def addTo (s : Sums C) (e : UsageEntry U) : Sums C :=
  { input := s.input + e.inputTokens
    output := s.output + e.outputTokens
    cacheCreate := s.cacheCreate + e.cacheCreationTokens
    cacheRead := s.cacheRead + e.cacheReadTokens
    cost := pr.add s.cost (pr.entryCost e) }

def newBucketAcc : Acc C := ⟨newSums pr, Dict.empty, []⟩

def foldEntry (acc : Acc C) (e : UsageEntry U) : Acc C :=
  if e.synthetic then acc
  else
    { sums := addTo pr acc.sums e
      models := acc.models.set e.displayModel (addTo pr ((acc.models.get? e.displayModel).getD (newSums pr)) e)
      modelsOrder := if e.displayModel ∈ acc.modelsOrder then acc.modelsOrder else acc.modelsOrder ++ [e.displayModel] }

/-- `_finalize_bucket`; the sort by falling cost is stable. -/
def finalizeBucket (bucketKey : String) (acc : Acc C) : BucketUsage C :=
  { bucket := bucketKey
    inputTokens := acc.sums.input
    outputTokens := acc.sums.output
    cacheCreationTokens := acc.sums.cacheCreate
    cacheReadTokens := acc.sums.cacheRead
    totalTokens := acc.sums.input + acc.sums.output + acc.sums.cacheCreate + acc.sums.cacheRead
    costUsd := acc.sums.cost
    models := acc.modelsOrder
    modelBreakdowns := acc.models.entries.insertionSort fun a b => pr.le b.2.cost a.2.cost }

/-- One turn of the loop of `_aggregate_buckets`. -/
def bucketStep (keyFn : UsageEntry U → String) (byBucket : Dict String (Acc C)) (e : UsageEntry U) : Dict String (Acc C) :=
  if e.synthetic then byBucket
  else byBucket.set (keyFn e) (foldEntry pr ((byBucket.get? (keyFn e)).getD (newBucketAcc pr)) e)

def aggregateBuckets (keyFn : UsageEntry U → String) (entries : List (UsageEntry U)) : List (BucketUsage C) :=
  let byBucket := entries.foldl (bucketStep pr keyFn) Dict.empty
  (sortedSet byBucket.keys).filterMap fun key => (byBucket.get? key).map (finalizeBucket pr key)

end

/-- The parsed bounds of a week, and its `segment_key`. -/
structure Bound where
  start : Int
  end_ : Int
  key : String
  deriving DecidableEq

def Bound.contains (b : Bound) (ts : Int) : Bool := b.start ≤ ts && ts < b.end_

/-- The bounds of the weeks; none for a `ValueError`. -/
def parsedBounds {D : Type} (ck : Clock D) (weeks : List (SubWeek D)) : Option (List Bound) :=
  weeks.mapM fun w => do
    let start ← ck.parseIsoDatetime w.startTs
    let end_ ← ck.parseIsoDatetime w.endTs
    let key ← w.segmentKey ck
    return ⟨start, end_, key⟩

def walkBack (bounds : List Bound) (ts : Int) : Nat → Nat
  | 0 => 0
  | idx + 1 =>
    match bounds[idx]? with
    | none => idx + 1
    | some prev => if prev.contains ts then walkBack bounds ts idx else idx + 1

def weekKeyOrNone (bounds : List Bound) (ts : Int) : Option String :=
  match Bisect.bisectRight (bounds.map (·.start)) ts with
  | 0 => none
  | idx + 1 =>
    match bounds[walkBack bounds ts idx]? with
    | none => none
    | some b => if b.contains ts then some b.key else none

/-- `_aggregate_weekly`. The keys are looked up by the entry itself, so each entry finds its own. -/
def aggregateWeekly {D U C : Type} (ck : Clock D) (pr : Pricing U C) (entries : List (UsageEntry U))
    (weeks : List (SubWeek D)) : Option (List (BucketUsage C)) := do
  let bounds ← parsedBounds ck weeks
  let keyed := entries.filterMap fun e => (weekKeyOrNone bounds e.timestamp).map fun key => (e, key)
  return aggregateBuckets pr (fun e => (weekKeyOrNone bounds e.timestamp).getD "") (keyed.map Prod.fst)

section
variable {U C : Type} (pr : Pricing U C)

def members (assign : UsageEntry U → Option String) (key : String) (entries : List (UsageEntry U)) :
    List (UsageEntry U) :=
  entries.filter fun e => !e.synthetic && decide (assign e = some key)

def bucketsBy (assign : UsageEntry U → Option String) (entries : List (UsageEntry U)) : List (BucketUsage C) :=
  (sortedSet ((entries.filter fun e => !e.synthetic).filterMap assign)).map fun key =>
    finalizeBucket pr key ((members assign key entries).foldl (foldEntry pr) (newBucketAcc pr))

variable (keyFn : UsageEntry U → String)

theorem members_cons (assign : UsageEntry U → Option String) (key : String) (e : UsageEntry U)
    (entries : List (UsageEntry U)) : members assign key (e :: entries) =
      if !e.synthetic && decide (assign e = some key) then e :: members assign key entries else members assign key entries :=
  List.filter_cons

theorem get?_byBucket (key : String) : ∀ (entries : List (UsageEntry U)) (d : Dict String (Acc C)),
    (entries.foldl (bucketStep pr keyFn) d).get? key =
      if members (fun e => some (keyFn e)) key entries = [] then d.get? key
      else some ((members (fun e => some (keyFn e)) key entries).foldl (foldEntry pr) ((d.get? key).getD (newBucketAcc pr)))
  | [], _ => rfl
  | e :: entries, d => by
    rw [List.foldl_cons, get?_byBucket key entries, members_cons, bucketStep]
    cases hsyn : e.synthetic with
    | true => rfl
    | false =>
      by_cases hkey : keyFn e = key
      · subst hkey
        simp only [Bool.not_false, decide_true, Bool.and_self, if_true, reduceCtorEq, if_false, List.foldl_cons,
          Dict.get?_set_self, Option.getD_some]
        split
        next hnone => rw [hnone, List.foldl_nil]
        next => rfl
      · have hne : ¬ some (keyFn e) = some key := fun h => hkey (Option.some.inj h)
        simp only [Bool.not_false, decide_eq_false hne, Bool.and_false, Bool.false_eq_true, if_false,
          Dict.get?_set_ne d _ hkey]

theorem aggregateBuckets_eq (entries : List (UsageEntry U)) :
    aggregateBuckets pr keyFn entries = bucketsBy pr (fun e => some (keyFn e)) entries := by
  have hget := fun key => get?_byBucket pr keyFn key entries Dict.empty
  have hmem : ∀ key, members (fun e => some (keyFn e)) key entries = [] ↔
      key ∉ (entries.filter fun e => !e.synthetic).filterMap fun e => some (keyFn e) := fun key => by
    rw [members, List.filter_eq_nil_iff]
    simp [List.mem_filter, and_assoc]
  have hkeys : ∀ key, key ∈ (entries.foldl (bucketStep pr keyFn) Dict.empty).keys ↔
      key ∈ (entries.filter fun e => !e.synthetic).filterMap fun e => some (keyFn e) := fun key => by
    rw [← not_iff_not, ← Dict.get?_eq_none, ← hmem key, hget key]
    split <;> simp_all
  simp only [aggregateBuckets, bucketsBy]
  rw [sortedSet_congr hkeys, ← List.filterMap_eq_map]
  refine List.filterMap_congr fun key hkey => ?_
  rw [hget key, if_neg (fun h => (hmem key).1 h (mem_sortedSet.1 hkey))]
  rfl

theorem members_congr {assign assign' : UsageEntry U → Option String} {entries : List (UsageEntry U)}
    (h : ∀ e ∈ entries, e.synthetic = false → assign e = assign' e) (key : String) :
    members assign key entries = members assign' key entries := by
  refine List.filter_congr fun e he => ?_
  cases hsyn : e.synthetic with
  | true => rfl
  | false => rw [h e he hsyn]

theorem bucketsBy_congr {assign assign' : UsageEntry U → Option String} {entries : List (UsageEntry U)}
    (h : ∀ e ∈ entries, e.synthetic = false → assign e = assign' e) :
    bucketsBy pr assign entries = bucketsBy pr assign' entries := by
  have hkeys : (entries.filter fun e => !e.synthetic).filterMap assign =
      (entries.filter fun e => !e.synthetic).filterMap assign' := by
    refine List.filterMap_congr fun e he => ?_
    obtain ⟨hmem, hsyn⟩ := List.mem_filter.1 he
    exact h e hmem (Bool.not_eq_true' _ ▸ hsyn)
  rw [bucketsBy, hkeys, bucketsBy]
  exact List.map_congr_left fun key _ => by rw [members_congr h]

theorem bucketsBy_assigned (assign : UsageEntry U → Option String) (entries : List (UsageEntry U)) :
    bucketsBy pr assign (entries.filter fun e => (assign e).isSome) = bucketsBy pr assign entries := by
  have hkeys : ((entries.filter fun e => (assign e).isSome).filter fun e => !e.synthetic).filterMap assign =
      (entries.filter fun e => !e.synthetic).filterMap assign := by
    rw [List.filter_comm, List.filterMap_filter]
    refine List.filterMap_congr fun e _ => ?_
    cases assign e <;> rfl
  have hmembers : ∀ key, members assign key (entries.filter fun e => (assign e).isSome) = members assign key entries := by
    intro key
    rw [members, List.filter_filter]
    refine List.filter_congr fun e _ => ?_
    by_cases heq : assign e = some key
    · rw [heq, Option.isSome_some, Bool.and_true]
    · rw [decide_eq_false heq, Bool.and_false, Bool.false_and]
  rw [bucketsBy, hkeys, bucketsBy]
  exact List.map_congr_left fun key _ => by rw [hmembers]

/-! ## Tokens -/

theorem total_foldl (key : String) : ∀ (entries : List (UsageEntry U)) (acc : Acc C), (∀ e ∈ entries, e.synthetic = false) →
    (finalizeBucket pr key (entries.foldl (foldEntry pr) acc)).totalTokens =
      (finalizeBucket pr key acc).totalTokens + (entries.map (·.totalTokens)).sum
  | [], _, _ => (Int.add_zero _).symm
  | e :: entries, acc, h => by
    obtain ⟨hsyn, hrest⟩ := List.forall_mem_cons.1 h
    have hstep : (finalizeBucket pr key (foldEntry pr acc e)).totalTokens =
        (finalizeBucket pr key acc).totalTokens + e.totalTokens := by
      simp only [finalizeBucket, foldEntry, hsyn, Bool.false_eq_true, if_false, addTo, UsageEntry.totalTokens]
      omega
    rw [List.foldl_cons, total_foldl key entries _ hrest, hstep, List.map_cons, List.sum_cons, Int.add_assoc]

theorem total_bucketsBy (assign : UsageEntry U → Option String) (entries : List (UsageEntry U)) :
    ((bucketsBy pr assign entries).map (·.totalTokens)).sum =
      ((entries.filter fun e => !e.synthetic && (assign e).isSome).map (·.totalTokens)).sum := by
  have hbucket : ∀ key, (finalizeBucket pr key ((members assign key entries).foldl (foldEntry pr) (newBucketAcc pr))).totalTokens =
      ((members assign key entries).map (·.totalTokens)).sum := by
    intro key
    rw [total_foldl pr key _ _ fun e he => ?_]
    · exact Int.zero_add _
    · have hsyn := (Bool.and_eq_true_iff.1 (List.mem_filter.1 he).2).1
      exact Bool.not_eq_true' _ ▸ hsyn
  have hclasses := perm_classes assign (l := entries.filter fun e => !e.synthetic && (assign e).isSome)
    (nodup_sortedSet ((entries.filter fun e => !e.synthetic).filterMap assign)) fun e he => by
      obtain ⟨hmem, hin⟩ := List.mem_filter.1 he
      obtain ⟨hsyn, hsome⟩ := Bool.and_eq_true_iff.1 hin
      obtain ⟨key, hkey⟩ := Option.isSome_iff_exists.1 hsome
      exact ⟨key, mem_sortedSet.2 (List.mem_filterMap.2 ⟨e, List.mem_filter.2 ⟨hmem, hsyn⟩, hkey⟩), hkey⟩
  have hmembers : ∀ key, (entries.filter fun e => !e.synthetic && (assign e).isSome).filter (fun e => assign e = some key) =
      members assign key entries := by
    intro key
    rw [List.filter_filter]
    refine List.filter_congr fun e _ => ?_
    by_cases heq : assign e = some key
    · rw [heq, Option.isSome_some, decide_eq_true rfl, Bool.true_and]
    · rw [decide_eq_false heq, Bool.false_and, Bool.and_false]
  rw [← (hclasses.map _).sum_eq, List.map_flatMap, List.flatMap, List.sum_flatten, List.map_map, bucketsBy, List.map_map]
  refine congrArg List.sum (List.map_congr_left fun key _ => ?_)
  rw [Function.comp_apply, Function.comp_apply, hmembers]
  exact hbucket key

end

section
variable {bounds : List Bound} {ts : Int}

def firstMatch (bounds : List Bound) (ts : Int) : Option Bound := bounds.find? (·.contains ts)

def Reached (bounds : List Bound) (ts : Int) : Prop :=
  ∀ b, firstMatch bounds ts = some b → ∃ j b', bounds[j]? = some b' ∧ b'.start = b.start ∧ b'.contains ts ∧
    ∀ i u v, j ≤ i → bounds[i]? = some u → bounds[i + 1]? = some v → v.start ≤ ts → u.contains ts

theorem start_le {b : Bound} (h : b.contains ts) : b.start ≤ ts := of_decide_eq_true (Bool.and_eq_true_iff.1 h).1

theorem sorted_starts (hsorted : bounds.Pairwise fun b b' => b.start ≤ b'.start) :
    (bounds.map (·.start)).Pairwise (· ≤ ·) := List.pairwise_map.2 hsorted

theorem lt_bisectRight_iff (hsorted : bounds.Pairwise fun b b' => b.start ≤ b'.start) {i : Nat} {b : Bound}
    (hi : bounds[i]? = some b) : i < Bisect.bisectRight (bounds.map (·.start)) ts ↔ b.start ≤ ts := by
  have hbetween := Bisect.bisectRight_between (sorted_starts hsorted) ts
  have hat : (bounds.map (·.start))[i]? = some b.start := by rw [List.getElem?_map, hi]; rfl
  refine ⟨fun h => hbetween.below i _ h hat, fun h => ?_⟩
  by_contra hnot
  exact absurd h (not_le.2 (hbetween.above i _ (not_lt.1 hnot) hat))

theorem walkBack_le (bounds : List Bound) (ts : Int) : ∀ idx, walkBack bounds ts idx ≤ idx
  | 0 => Nat.le_refl 0
  | idx + 1 => by
    rw [walkBack]
    split
    next => exact Nat.le_refl _
    next =>
      split
      next => exact Nat.le_succ_of_le (walkBack_le bounds ts idx)
      next => exact Nat.le_refl _

theorem walkBack_contains : ∀ {idx i : Nat}, walkBack bounds ts idx ≤ i → i < idx →
    ∃ b, bounds[i]? = some b ∧ b.contains ts
  | idx + 1, i, hle, hlt => by
    rw [walkBack] at hle
    split at hle
    next => omega
    next prev hprev =>
      split at hle
      next hcontains =>
        rcases Nat.lt_succ_iff_lt_or_eq.1 hlt with hlt' | rfl
        · exact walkBack_contains hle hlt'
        · exact ⟨prev, hprev, hcontains⟩
      next => omega

theorem walkBack_stops : ∀ {idx k : Nat}, walkBack bounds ts idx = k + 1 → ∀ b, bounds[k]? = some b → b.contains ts = false
  | idx + 1, k, h, b, hb => by
    rw [walkBack] at h
    split at h
    next hnone =>
      obtain rfl := Nat.succ.inj h
      rw [hnone] at hb
      cases hb
    next prev hprev =>
      split at h
      next => exact walkBack_stops h b hb
      next hcontains =>
        obtain rfl := Nat.succ.inj h
        rw [hprev] at hb
        obtain rfl := Option.some.inj hb
        exact Bool.not_eq_true _ ▸ hcontains

def Keyed (bounds : List Bound) : Prop := ∀ b ∈ bounds, ∀ b' ∈ bounds, b.key = b'.key ↔ b.start = b'.start

theorem weekKeyOrNone_of_started {idx : Nat} (h : Bisect.bisectRight (bounds.map (·.start)) ts = idx + 1) {b : Bound}
    (hb : bounds[walkBack bounds ts idx]? = some b) : weekKeyOrNone bounds ts = if b.contains ts then some b.key else none := by
  rw [weekKeyOrNone, h]
  simp only [hb]

theorem exists_getElem? {i j : Nat} {b : Bound} (hij : i ≤ j) (h : bounds[j]? = some b) : ∃ b', bounds[i]? = some b' := by
  obtain ⟨hlt, _⟩ := List.getElem?_eq_some_iff.1 h
  exact ⟨_, List.getElem?_eq_getElem (hij.trans_lt hlt)⟩

theorem start_firstMatch_le (hsorted : bounds.Pairwise fun b b' => b.start ≤ b'.start) {b b' : Bound} {i : Nat}
    (hfirst : firstMatch bounds ts = some b) (hi : bounds[i]? = some b') (hcontains : b'.contains ts) :
    b.start ≤ b'.start := by
  obtain ⟨_, pre, post, rfl, hpre⟩ := List.find?_eq_some_iff_append.1 hfirst
  have hmem : b' ∈ pre ++ b :: post := List.mem_of_getElem? hi
  rcases List.mem_append.1 hmem with hmem | hmem
  · have hnot := hpre b' hmem
    rw [hcontains] at hnot
    cases hnot
  · rcases List.mem_cons.1 hmem with rfl | hmem
    · exact le_refl _
    · exact (List.pairwise_cons.1 (List.pairwise_append.1 hsorted).2.1).1 b' hmem

/-- **An instant is assigned to the first week that contains it** exactly when that week is reached. -/
theorem weekKeyOrNone_iff (hsorted : bounds.Pairwise fun b b' => b.start ≤ b'.start) (hkeyed : Keyed bounds) :
    weekKeyOrNone bounds ts = (firstMatch bounds ts).map (·.key) ↔ Reached bounds ts := by
  cases hbisect : Bisect.bisectRight (bounds.map (·.start)) ts with
  | zero =>
    -- no week has started, so none contains the instant
    have hnone : firstMatch bounds ts = none := by
      refine List.find?_eq_none.2 fun b hb hcontains => ?_
      obtain ⟨i, hi⟩ := List.mem_iff_getElem?.1 hb
      have hlt := (lt_bisectRight_iff hsorted hi).2 (start_le hcontains)
      omega
    have hkey : weekKeyOrNone bounds ts = none := by rw [weekKeyOrNone, hbisect]
    rw [Reached, hkey, hnone]
    exact iff_of_true rfl nofun
  | succ idx =>
    have hidx : ∃ b, bounds[idx]? = some b := by
      have hle := (Bisect.bisectRight_between (sorted_starts hsorted) ts).le_length
      rw [List.length_map] at hle
      exact ⟨_, List.getElem?_eq_getElem (by omega)⟩
    obtain ⟨last, hlast⟩ := hidx
    have hstarted : ∀ {i b}, bounds[i]? = some b → (i ≤ idx ↔ b.start ≤ ts) := fun hi => by
      rw [← lt_bisectRight_iff hsorted hi, hbisect, Nat.lt_succ_iff]
    have hle := walkBack_le bounds ts idx
    obtain ⟨b', hb'⟩ := exists_getElem? hle hlast
    rw [weekKeyOrNone_of_started hbisect hb']
    constructor
    · intro heq b hfirst
      rw [hfirst, Option.map_some] at heq
      split at heq
      next hcontains =>
        have hstart := (hkeyed b' (List.mem_of_getElem? hb') b (List.mem_of_find?_eq_some hfirst)).1 (Option.some.inj heq)
        refine ⟨_, b', hb', hstart, hcontains, fun i u v hi hu hv hvstart => ?_⟩
        obtain ⟨u', hu', hcontains'⟩ := walkBack_contains hi (Nat.lt_of_succ_le ((hstarted hv).2 hvstart))
        rw [hu] at hu'
        exact Option.some.inj hu' ▸ hcontains'
      next => cases heq
    · intro hreached
      cases hfirst : firstMatch bounds ts with
      | none =>
        have hnot := List.find?_eq_none.1 hfirst b' (List.mem_of_getElem? hb')
        rw [if_neg hnot]
        rfl
      | some b =>
        obtain ⟨j, bj, hbj, hstart, hcontains, hrun⟩ := hreached b hfirst
        have hjidx : j ≤ idx := (hstarted hbj).2 (start_le hcontains)
        -- the walk does not end before it has come to that week
        have hkj : walkBack bounds ts idx ≤ j := by
          by_contra hnot
          obtain ⟨k, hk⟩ : ∃ k, walkBack bounds ts idx = k + 1 := Nat.exists_eq_succ_of_ne_zero (by omega)
          obtain ⟨u, hu⟩ := exists_getElem? (Nat.le_of_lt (show k < idx by omega)) hlast
          rw [hk] at hb'
          have hin := hrun k u b' (by omega) hu hb' ((hstarted hb').1 (by omega))
          rw [walkBack_stops hk u hu] at hin
          cases hin
        have hin : b'.contains ts := by
          rcases Nat.lt_or_eq_of_le hkj with hlt | heq
          · obtain ⟨u, hu, hcontains'⟩ := walkBack_contains (Nat.le_refl _) (lt_of_lt_of_le hlt hjidx)
            rw [hb'] at hu
            exact Option.some.inj hu ▸ hcontains'
          · rw [heq, hbj] at hb'
            exact Option.some.inj hb' ▸ hcontains
        have hbetween := Bisect.getElem?_le (sorted_starts hsorted) hkj
          (by rw [List.getElem?_map, hb']; rfl) (by rw [List.getElem?_map, hbj]; rfl)
        have hsame : b'.start = b.start := le_antisymm (hstart ▸ hbetween) (start_firstMatch_le hsorted hfirst hb' hin)
        rw [if_pos hin, (hkeyed b' (List.mem_of_getElem? hb') b (List.mem_of_find?_eq_some hfirst)).2 hsame]
        rfl

end

/-! ## The buckets -/

section
variable {D U C : Type} {ck : Clock D} (pr : Pricing U C)

theorem mem_parsedBounds : ∀ {weeks : List (SubWeek D)} {bounds : List Bound}, parsedBounds ck weeks = some bounds →
    ∀ b ∈ bounds, ∃ text, ck.parseIsoDatetime text = some b.start ∧ b.key = ck.isoformat b.start
  | [], _, h, b, hb => by
    obtain rfl := Option.some.inj h
    cases hb
  | w :: weeks, bounds, h, b, hb => by
    rw [parsedBounds, List.mapM_cons] at h
    obtain ⟨b₀, hb₀, hrest⟩ := Option.bind_eq_some_iff.1 h
    obtain ⟨bounds', hbounds', heq⟩ := Option.bind_eq_some_iff.1 hrest
    obtain rfl := Option.some.inj heq
    rcases List.mem_cons.1 hb with rfl | hb
    · obtain ⟨start, hstart, hrest⟩ := Option.bind_eq_some_iff.1 hb₀
      obtain ⟨end_, hend, hrest⟩ := Option.bind_eq_some_iff.1 hrest
      obtain ⟨key, hkey, heq⟩ := Option.bind_eq_some_iff.1 hrest
      obtain rfl := Option.some.inj heq
      rw [SubWeek.segmentKey, hstart] at hkey
      exact ⟨w.startTs, hstart, (Option.some.inj hkey).symm⟩
    · exact mem_parsedBounds hbounds' b hb

theorem keyed_parsedBounds {weeks : List (SubWeek D)} {bounds : List Bound} (h : parsedBounds ck weeks = some bounds) :
    Keyed bounds := by
  intro b hb b' hb'
  obtain ⟨text, hparse, hkey⟩ := mem_parsedBounds h b hb
  obtain ⟨text', hparse', hkey'⟩ := mem_parsedBounds h b' hb'
  rw [hkey, hkey']
  refine ⟨fun heq => ?_, congrArg _⟩
  have hback := ck.reads_back text b.start hparse
  rw [heq, ck.reads_back text' b'.start hparse'] at hback
  exact (Option.some.inj hback).symm

theorem aggregateWeekly_eq (entries : List (UsageEntry U)) {weeks : List (SubWeek D)} {bounds : List Bound}
    (h : parsedBounds ck weeks = some bounds) :
    aggregateWeekly ck pr entries weeks = some (bucketsBy pr (fun e => weekKeyOrNone bounds e.timestamp) entries) := by
  have hkept : (entries.filterMap fun e => (weekKeyOrNone bounds e.timestamp).map fun key => (e, key)).map Prod.fst =
      entries.filter fun e => (weekKeyOrNone bounds e.timestamp).isSome := by
    rw [List.map_filterMap, ← List.filterMap_eq_filter]
    refine List.filterMap_congr fun e _ => ?_
    cases hkey : weekKeyOrNone bounds e.timestamp <;> simp [Option.guard, hkey]
  rw [aggregateWeekly, h]
  show some _ = some _
  rw [hkept, aggregateBuckets_eq, ← bucketsBy_assigned pr fun e => weekKeyOrNone bounds e.timestamp]
  refine congrArg some (bucketsBy_congr pr fun e he _ => ?_)
  obtain ⟨key, hkey⟩ := Option.isSome_iff_exists.1 (List.mem_filter.1 he).2
  rw [hkey]
  rfl

/-- Each entry of a week is counted once, in the bucket of the first week that contains it, and
no other entry is. -/
structure ByFirstMatch (bounds : List Bound) (entries : List (UsageEntry U)) (buckets : List (BucketUsage C)) : Prop where
  assigned : ∀ e ∈ entries, e.synthetic = false →
    weekKeyOrNone bounds e.timestamp = (firstMatch bounds e.timestamp).map (·.key)
  folded : buckets = bucketsBy pr (fun e => (firstMatch bounds e.timestamp).map (·.key)) entries
  totals : (buckets.map (·.totalTokens)).sum =
    ((entries.filter fun e => !e.synthetic && bounds.any (·.contains e.timestamp)).map (·.totalTokens)).sum

theorem byFirstMatch_iff {bounds : List Bound} (hsorted : bounds.Pairwise fun b b' => b.start ≤ b'.start)
    (hkeyed : Keyed bounds) (entries : List (UsageEntry U)) :
    ByFirstMatch pr bounds entries (bucketsBy pr (fun e => weekKeyOrNone bounds e.timestamp) entries) ↔
      ∀ e ∈ entries, e.synthetic = false → Reached bounds e.timestamp := by
  have hassigned : (∀ e ∈ entries, e.synthetic = false →
      weekKeyOrNone bounds e.timestamp = (firstMatch bounds e.timestamp).map (·.key)) ↔
        ∀ e ∈ entries, e.synthetic = false → Reached bounds e.timestamp :=
    forall₃_congr fun e _ _ => weekKeyOrNone_iff hsorted hkeyed
  rw [← hassigned]
  refine ⟨fun h => h.assigned, fun h => ?_⟩
  have hbuckets := bucketsBy_congr pr h
  refine ⟨h, hbuckets, ?_⟩
  have hcovered : ∀ e : UsageEntry U, ((firstMatch bounds e.timestamp).map (·.key)).isSome =
      bounds.any (·.contains e.timestamp) := fun e => by
    rw [Option.isSome_map, firstMatch, Bool.eq_iff_iff, List.find?_isSome, List.any_eq_true]
  rw [hbuckets, total_bucketsBy]
  simp only [hcovered]

/-- **Weekly aggregation is by first match** exactly when every entry of a week is reached. -/
theorem aggregateWeekly_iff (ck : Clock D) (entries : List (UsageEntry U)) (weeks : List (SubWeek D)) (bounds : List Bound)
    (hbounds : parsedBounds ck weeks = some bounds) (hsorted : bounds.Pairwise fun b b' => b.start ≤ b'.start) :
    ∃ buckets, aggregateWeekly ck pr entries weeks = some buckets ∧
      (ByFirstMatch pr bounds entries buckets ↔ ∀ e ∈ entries, e.synthetic = false → Reached bounds e.timestamp) :=
  ⟨_, aggregateWeekly_eq pr entries hbounds, byFirstMatch_iff pr hsorted (keyed_parsedBounds hbounds) entries⟩

end

open SubWeeks (workedClock workedWeek)

def unitPricing : Pricing Unit Nat := ⟨fun _ => 1, 0, Nat.add, Nat.ble⟩

def nestedWeeks : List (SubWeek Int) :=
  [workedWeek 20454 "2026-01-01T00:00:00+00:00" "2026-01-15T00:00:00+00:00",
    workedWeek 20461 "2026-01-08T00:00:00+00:00" "2026-01-09T00:00:00.250000+00:00",
    workedWeek 20463 "2026-01-10T00:00:00+00:00" "2026-01-12T00:00:00+00:00"]

def nestedBounds : List Bound :=
  [⟨1767225600000000, 1768435200000000, "2026-01-01T00:00:00+00:00"⟩,
    ⟨1767830400000000, 1767916800250000, "2026-01-08T00:00:00+00:00"⟩,
    ⟨1768003200000000, 1768176000000000, "2026-01-10T00:00:00+00:00"⟩]

def usageAt (timestamp : Int) : UsageEntry Unit := ⟨timestamp, "claude-opus", none, 1, 2, 3, 4, ()⟩

theorem parsedBounds_nested : parsedBounds workedClock nestedWeeks = some nestedBounds := by decide

theorem aggregateWeekly_iff_nested : ∃ buckets,
    aggregateWeekly workedClock unitPricing [usageAt 1767916800750000] nestedWeeks = some buckets ∧
      (ByFirstMatch unitPricing nestedBounds [usageAt 1767916800750000] buckets ↔
        ∀ e ∈ [usageAt 1767916800750000], e.synthetic = false → Reached nestedBounds e.timestamp) :=
  aggregateWeekly_iff unitPricing workedClock _ nestedWeeks nestedBounds parsedBounds_nested (by decide)

/-- On the twelfth the last week to start and the one before it are over, and the first is not:
the entry is lost. -/
theorem aggregateWeekly_loses : ∃ buckets,
    aggregateWeekly workedClock unitPricing [usageAt 1768176000000000] nestedWeeks = some buckets ∧ buckets.length = 0 ∧
      ¬ ByFirstMatch unitPricing nestedBounds [usageAt 1768176000000000] buckets := by
  refine ⟨_, aggregateWeekly_eq unitPricing _ parsedBounds_nested, by decide +kernel, fun h => ?_⟩
  exact absurd (h.assigned _ List.mem_cons_self (by decide)) (by decide +kernel)

end Cctally.WeeklyUsage
