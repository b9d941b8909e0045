import Cctally.Bisect
import Cctally.Dict
import Cctally.Doubles
import Cctally.Least
import Mathlib.Data.Prod.Lex
import Mathlib.Data.String.Basic

/-!
# The owner of an entry

An entry belongs to the window that contains it and resets first. The partition
sorts the windows once and bisects them for each entry. Instants are
microseconds since the epoch.
-/

namespace Cctally

namespace Ownership

/-! ## Canonical keys -/

structure Number where
  value : ℚ
  finite : |value| < 2 ^ 1024 - 2 ^ 970

/-- A window's key; `Ω` is every type that is neither a datetime nor a number. -/
inductive Key (Ω : Type)
  | aware (instant : Int)
  | naive (clock : Int)
  | bool (b : Bool)
  | number (n : Number)
  | other (value : Ω)

inductive Ident (Ω : Type)
  | aware (instant : Int)
  | naive (clock : Int)
  | number (value : ℚ)
  | other (value : Ω)
  deriving DecidableEq

def Key.ident {Ω : Type} : Key Ω → Ident Ω
  | .aware t => .aware t
  | .naive t => .naive t
  | .bool b => .number (if b then 1 else 0)
  | .number n => .number n.value
  | .other v => .other v

def civil (days : Int) : Int × Int × Int :=
  let z := days + 719468
  let doe := z % 146097
  let yoe := (doe - doe / 1460 + doe / 36524 - doe / 146096) / 365
  let doy := doe - (365 * yoe + yoe / 4 - yoe / 100)
  let mp := (5 * doy + 2) / 153
  let month := if mp < 10 then mp + 3 else mp - 9
  (yoe + z / 146097 * 400 + (if month ≤ 2 then 1 else 0), month, doy - (153 * mp + 2) / 5 + 1)

def padded (width : Nat) (n : Int) : String :=
  let digits := (Nat.toDigits 10 n.toNat)
  String.ofList (List.replicate (width - digits.length) '0' ++ digits)

def isoformat (t : Int) : String :=
  let (year, month, day) := civil (t / 86400000000)
  let seconds := t / 1000000 % 86400
  let micros := t % 1000000
  padded 4 year ++ "-" ++ padded 2 month ++ "-" ++ padded 2 day ++ "T" ++ padded 2 (seconds / 3600) ++ ":" ++
    padded 2 (seconds / 60 % 60) ++ ":" ++ padded 2 (seconds % 60) ++
    (if micros = 0 then "" else "." ++ padded 6 micros) ++ "+00:00"

abbrev KeyOrder : Type := Nat ×ₗ String ×ₗ ℚ ×ₗ String

section
variable {Ω ε : Type} [DecidableEq Ω] (str : Ω → String) (timestamp : ε → Int)

/-- `_canonical_key_order`; a naive datetime is read as UTC. -/
def canonicalKeyOrder : Key Ω → KeyOrder
  | .aware t => toLex (0, toLex (isoformat t, toLex (0, "")))
  | .naive t => toLex (0, toLex (isoformat t, toLex (0, "")))
  | .bool b => toLex (2, toLex ("", toLex (0, if b then "True" else "False")))
  | .number n => toLex (1, toLex ("", toLex (Doubles.round n.value, "")))
  | .other v => toLex (2, toLex ("", toLex (0, str v)))

structure OwnedWindow (Ω : Type) where
  key : Key Ω
  start : Int
  reset : Int

def windowOrder (w : OwnedWindow Ω) : Int ×ₗ KeyOrder := toLex (w.reset, canonicalKeyOrder str w.key)

def contend (entry : ε) (owner : Option (OwnedWindow Ω)) (window : OwnedWindow Ω) : Option (OwnedWindow Ω) :=
  if window.start ≤ timestamp entry ∧ timestamp entry < window.reset then
    match owner with
    | none => some window
    | some best => if windowOrder str window < windowOrder str best then some window else some best
  else owner

def resolveOwningWindow (entry : ε) (windows : List (OwnedWindow Ω)) : Option (OwnedWindow Ω) :=
  windows.foldl (contend str timestamp entry) none

def ownerOf (ordered : List (OwnedWindow Ω)) (entry : ε) : Option (OwnedWindow Ω) :=
  (ordered.drop (Bisect.bisectRight (ordered.map (·.reset)) (timestamp entry))).find? fun window =>
    window.start ≤ timestamp entry

structure Partition (Ω ε : Type) where
  owned : Dict (Ident Ω) (List ε)
  leftovers : List ε

def Partition.assign (ordered : List (OwnedWindow Ω)) (p : Partition Ω ε) (entry : ε) : Partition Ω ε :=
  match ownerOf timestamp ordered entry with
  | none => { p with leftovers := p.leftovers ++ [entry] }
  | some owner =>
    { p with owned := p.owned.set owner.key.ident ((p.owned.get? owner.key.ident).getD [] ++ [entry]) }

def sortWindows (windows : List (OwnedWindow Ω)) : List (OwnedWindow Ω) :=
  windows.insertionSort fun v w => windowOrder str v ≤ windowOrder str w

def partitionEntriesByOwner (entries : List ε) (windows : List (OwnedWindow Ω)) : Partition Ω ε :=
  entries.foldl (Partition.assign timestamp (sortWindows str windows))
    { owned := Dict.ofList (windows.map fun w => (w.key.ident, [])), leftovers := [] }

end

section
variable {Ω ε : Type} {str : Ω → String} {timestamp : ε → Int}
  {entries : List ε} {windows windows' : List (OwnedWindow Ω)}

def Contains (window : OwnedWindow Ω) (ts : Int) : Prop := window.start ≤ ts ∧ ts < window.reset

instance (window : OwnedWindow Ω) (ts : Int) : Decidable (Contains window ts) :=
  inferInstanceAs (Decidable (_ ∧ _))

theorem resolveOwningWindow_eq (entry : ε) (windows : List (OwnedWindow Ω)) :
    resolveOwningWindow str timestamp entry windows =
      Least.least (windowOrder str) (windows.filter fun w => Contains w (timestamp entry)) := by
  rw [Least.least, List.foldl_filter, resolveOwningWindow]
  congr
  funext owner w
  simp only [decide_eq_true_eq]
  cases owner <;> rfl

theorem sortWindows_resets (windows : List (OwnedWindow Ω)) :
    ((sortWindows str windows).map (·.reset)).Pairwise (· ≤ ·) := by
  have : Std.Total fun v w : OwnedWindow Ω => windowOrder str v ≤ windowOrder str w := ⟨fun v w => le_total _ _⟩
  have : IsTrans (OwnedWindow Ω) fun v w => windowOrder str v ≤ windowOrder str w := ⟨fun _ _ _ => le_trans⟩
  have hs := List.pairwise_insertionSort (fun v w => windowOrder str v ≤ windowOrder str w) windows
  refine List.pairwise_map.2 (hs.imp fun {v w} hle => ?_)
  rcases Prod.Lex.le_iff.1 hle with hlt | ⟨heq, -⟩
  · exact hlt.le
  · exact heq.le

/-- **The bisected search finds the owner.** -/
theorem ownerOf_sortWindows (entry : ε) (windows : List (OwnedWindow Ω)) :
    ownerOf timestamp (sortWindows str windows) entry = resolveOwningWindow str timestamp entry windows := by
  rw [ownerOf, Bisect.find?_drop_bisectRight (sortWindows_resets windows), resolveOwningWindow_eq, sortWindows,
    Least.find?_insertionSort]
  refine congrArg _ (List.filter_congr fun w _ => ?_)
  exact (Bool.and_comm ..).trans (Bool.decide_and ..).symm

/-! ## The buckets -/

variable [DecidableEq Ω]

def bucketOf (str : Ω → String) (timestamp : ε → Int) (windows : List (OwnedWindow Ω)) (entry : ε) :
    Option (Ident Ω) :=
  (resolveOwningWindow str timestamp entry windows).map (·.key.ident)

omit [DecidableEq Ω] in
theorem bucketOf_mem {entry : ε} {key : Ident Ω} (h : bucketOf str timestamp windows entry = some key) :
    key ∈ windows.map (·.key.ident) := by
  obtain ⟨owner, howner, rfl⟩ := Option.map_eq_some_iff.1 h
  rw [resolveOwningWindow_eq] at howner
  exact List.mem_map_of_mem (List.mem_filter.1 (Least.least_mem howner)).1

theorem assign_eq (p : Partition Ω ε) (entry : ε) :
    p.assign timestamp (sortWindows str windows) entry =
      match bucketOf str timestamp windows entry with
      | none => { p with leftovers := p.leftovers ++ [entry] }
      | some key => { p with owned := p.owned.set key ((p.owned.get? key).getD [] ++ [entry]) } := by
  rw [Partition.assign, ownerOf_sortWindows, bucketOf]
  cases resolveOwningWindow str timestamp entry windows with
  | none => rfl
  | some owner => rfl

structure Partitions (str : Ω → String) (timestamp : ε → Int) (entries : List ε) (windows : List (OwnedWindow Ω))
    (p : Partition Ω ε) : Prop where
  keys : ∀ key, key ∈ p.owned.keys ↔ key ∈ windows.map (·.key.ident)
  owned : ∀ key bucket, p.owned.get? key = some bucket →
    bucket = entries.filter fun e => bucketOf str timestamp windows e = some key
  leftovers : p.leftovers = entries.filter fun e => bucketOf str timestamp windows e = none

theorem Partitions.start (windows : List (OwnedWindow Ω)) : Partitions str timestamp [] windows
    { owned := Dict.ofList (windows.map fun w => (w.key.ident, [])), leftovers := [] } := by
  refine ⟨fun key => ?_, fun key bucket h => ?_, rfl⟩
  · rw [Dict.mem_keys_ofList, List.map_map]
    rfl
  · obtain ⟨w, -, hw⟩ := List.mem_map.1 (Dict.mem_of_get?_ofList h)
    cases hw
    rfl

theorem Partitions.assign {p : Partition Ω ε} (h : Partitions str timestamp entries windows p) (entry : ε) :
    Partitions str timestamp (entries ++ [entry]) windows (p.assign timestamp (sortWindows str windows) entry) := by
  rw [assign_eq]
  cases hb : bucketOf str timestamp windows entry with
  | none =>
    refine ⟨h.keys, fun key bucket hget => ?_, ?_⟩
    · rw [h.owned key bucket hget, List.filter_append]
      simp [hb]
    · simp only [List.filter_append, h.leftovers]
      simp [hb]
  | some own =>
    have hmem := (h.keys own).2 (bucketOf_mem hb)
    obtain ⟨held, hheld⟩ := Dict.mem_keys.1 hmem
    refine ⟨fun key => ?_, fun key bucket hget => ?_, ?_⟩
    · rw [Dict.mem_keys_set, h.keys]
      constructor
      · intro hkey
        rcases hkey with rfl | hkey
        · exact bucketOf_mem hb
        · exact hkey
      · exact Or.inr
    · rw [Dict.get?_set, hheld, Option.getD_some] at hget
      rw [List.filter_append]
      by_cases hkey : own = key
      · rw [if_pos hkey, Option.some.injEq] at hget
        subst hkey
        rw [← hget, h.owned own held hheld]
        simp [hb]
      · rw [if_neg hkey] at hget
        rw [h.owned key bucket hget]
        simp [hb, hkey]
    · simp only [List.filter_append, h.leftovers]
      simp [hb]

theorem partitionEntriesByOwner_partitions (entries : List ε) (windows : List (OwnedWindow Ω)) :
    Partitions str timestamp entries windows (partitionEntriesByOwner str timestamp entries windows) := by
  induction entries using List.reverseRecOn with
  | nil => exact .start windows
  | append_singleton entries entry ih =>
    rw [partitionEntriesByOwner, List.foldl_append]
    exact ih.assign entry

theorem Partitions.perm {p : Partition Ω ε} (h : Partitions str timestamp entries windows p) :
    (p.owned.values.flatten ++ p.leftovers).Perm entries := by
  have hvalues : p.owned.values.flatten =
      p.owned.keys.flatMap fun key => entries.filter fun e => bucketOf str timestamp windows e = some key := by
    rw [Dict.values, Dict.keys, List.flatMap_map, List.flatMap_def]
    refine congrArg _ (List.map_congr_left fun e he => ?_)
    exact h.owned e.1 e.2 (Dict.get?_eq_some.2 he)
  have hkept : (fun e => decide (bucketOf str timestamp windows e = none)) =
      fun e => !(bucketOf str timestamp windows e).isSome := by
    funext e
    cases bucketOf str timestamp windows e <;> rfl
  have hnarrow : ∀ key, (entries.filter fun e => bucketOf str timestamp windows e = some key) =
      (entries.filter fun e => (bucketOf str timestamp windows e).isSome).filter fun e =>
        bucketOf str timestamp windows e = some key := by
    intro key
    rw [List.filter_filter]
    refine List.filter_congr fun e _ => ?_
    cases bucketOf str timestamp windows e <;> simp
  rw [hvalues, h.leftovers, hkept]
  simp only [hnarrow]
  refine ((perm_classes _ p.owned.nodup fun e he => ?_).append_right _).trans (List.filter_append_perm _ entries)
  obtain ⟨key, hkey⟩ := Option.isSome_iff_exists.1 (List.mem_filter.1 he).2
  exact ⟨key, (h.keys key).2 (bucketOf_mem hkey), hkey⟩

def TiesAgree (str : Ω → String) (windows : List (OwnedWindow Ω)) : Prop :=
  ∀ v ∈ windows, ∀ w ∈ windows, windowOrder str v = windowOrder str w → v.key.ident = w.key.ident

omit [DecidableEq Ω] in
theorem bucketOf_perm (hp : windows.Perm windows') (ht : TiesAgree str windows) (entry : ε) :
    bucketOf str timestamp windows entry = bucketOf str timestamp windows' entry := by
  rw [bucketOf, bucketOf, resolveOwningWindow_eq, resolveOwningWindow_eq]
  apply Least.map_least_congr
  · intro w
    rw [List.mem_filter, List.mem_filter, hp.mem_iff]
  · intro v hv w hw heq
    exact ht v (List.mem_filter.1 hv).1 w (List.mem_filter.1 hw).1 heq

structure SamePartition (p p' : Partition Ω ε) : Prop where
  owned : ∀ key, p.owned.get? key = p'.owned.get? key
  leftovers : p.leftovers = p'.leftovers

theorem Partitions.same {p p' : Partition Ω ε} (h : Partitions str timestamp entries windows p)
    (h' : Partitions str timestamp entries windows' p') (hp : windows.Perm windows') (ht : TiesAgree str windows) :
    SamePartition p p' := by
  have hbucket : ∀ entry, bucketOf str timestamp windows entry = bucketOf str timestamp windows' entry :=
    bucketOf_perm hp ht
  refine ⟨fun key => ?_, ?_⟩
  · have hkeys : key ∈ p.owned.keys ↔ key ∈ p'.owned.keys := by
      rw [h.keys, h'.keys, (hp.map _).mem_iff]
    cases hget : p.owned.get? key with
    | none =>
      rw [Dict.get?_eq_none, hkeys] at hget
      rw [Dict.get?_eq_none.2 hget]
    | some bucket =>
      obtain ⟨bucket', hget'⟩ := Dict.mem_keys.1 (hkeys.1 (Dict.mem_keys.2 ⟨bucket, hget⟩))
      rw [hget', h.owned key bucket hget, h'.owned key bucket' hget']
      simp only [hbucket]
  · rw [h.leftovers, h'.leftovers]
    simp only [hbucket]

/-- **The partition is the ownership rule**: each entry is once in the bucket of its owner's key, or left over. -/
theorem partition_owners (str : Ω → String) (timestamp : ε → Int) (entries : List ε)
    (windows : List (OwnedWindow Ω)) :
    Partitions str timestamp entries windows (partitionEntriesByOwner str timestamp entries windows) ∧
    ((partitionEntriesByOwner str timestamp entries windows).owned.values.flatten ++
      (partitionEntriesByOwner str timestamp entries windows).leftovers).Perm entries ∧
    ∀ windows', windows.Perm windows' → TiesAgree str windows →
      SamePartition (partitionEntriesByOwner str timestamp entries windows)
        (partitionEntriesByOwner str timestamp entries windows') := by
  have h : Partitions str timestamp entries windows (partitionEntriesByOwner str timestamp entries windows) :=
    partitionEntriesByOwner_partitions entries windows
  refine ⟨h, h.perm, fun windows' hp ht => ?_⟩
  exact h.same (partitionEntriesByOwner_partitions entries windows') hp ht

end

def tenSeconds (key : Key String) : OwnedWindow String :=
  { key := key
    start := 0
    reset := 10000000 }

theorem sortWindows_tie {v w : OwnedWindow String} (h : windowOrder id v = windowOrder id w) :
    sortWindows id [v, w] = [v, w] := by
  simp [sortWindows, h]

theorem partition_order_tie :
    [tenSeconds (.aware 0), tenSeconds (.naive 0)].Perm [tenSeconds (.naive 0), tenSeconds (.aware 0)] ∧
    (partitionEntriesByOwner id id [(5 : Int)] [tenSeconds (.aware 0), tenSeconds (.naive 0)]).owned.get? (.aware 0) =
      some [5] ∧
    (partitionEntriesByOwner id id [(5 : Int)] [tenSeconds (.naive 0), tenSeconds (.aware 0)]).owned.get? (.aware 0) =
      some [] := by
  have haware := sortWindows_tie (v := tenSeconds (.aware 0)) (w := tenSeconds (.naive 0)) rfl
  have hnaive := sortWindows_tie (v := tenSeconds (.naive 0)) (w := tenSeconds (.aware 0)) rfl
  refine ⟨.swap .., ?_, ?_⟩
  · rw [partitionEntriesByOwner, haware]
    decide
  · rw [partitionEntriesByOwner, hnaive]
    decide

theorem partition_owners_two :
    SamePartition (partitionEntriesByOwner id id [(5 : Int)] [tenSeconds (.other "a"), tenSeconds (.other "b")])
      (partitionEntriesByOwner id id [(5 : Int)] [tenSeconds (.other "b"), tenSeconds (.other "a")]) := by
  refine (partition_owners id id [(5 : Int)] [tenSeconds (.other "a"), tenSeconds (.other "b")]).2.2 _
    (List.Perm.swap ..) ?_
  intro v hv w hw heq
  simp only [List.mem_cons, List.not_mem_nil, or_false] at hv hw
  rcases hv with rfl | rfl <;> rcases hw with rfl | rfl <;> simp_all [windowOrder, canonicalKeyOrder, tenSeconds]

end Ownership

end Cctally
