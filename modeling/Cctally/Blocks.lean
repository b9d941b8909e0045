import Cctally.Bisect
import Cctally.Dict
import Mathlib

/-!
# Five-hour activity blocks

Entries that a recorded window owns form a block of their own window. The others
are grouped by the hour of the first one into blocks of five hours, which end
early where a recorded window starts. Instants are microseconds.
-/

namespace Cctally

namespace Blocks

/-- `timestamp` is the instant and `utcOffset` the offset it was written with. -/
structure UsageEntry where
  timestamp : Int
  utcOffset : Int
  model : String
  usage : Dict String Int

inductive Anchor
  | recorded
  | heuristic
  deriving DecidableEq, Repr

/-- A block without its costs, and with the entries `_entry_membership` records for it. -/
structure Block where
  startTime : Int
  endTime : Int
  actualEndTime : Option Int
  isActive : Bool
  isGap : Bool
  entriesCount : Nat
  inputTokens : Int
  outputTokens : Int
  cacheCreationTokens : Int
  cacheReadTokens : Int
  totalTokens : Int
  models : List String
  anchor : Anchor
  entries : List UsageEntry

def HOUR : Int := 3600000000

def BLOCK_DURATION : Int := 5 * HOUR

/-- `_floor_to_hour`: the hour of the clock the timestamp was written with. -/
def floorToHour (entry : UsageEntry) : Int := entry.timestamp - (entry.timestamp + entry.utcOffset) % HOUR

structure OwnedWindow where
  key : Int
  start : Int
  reset : Int
  deriving DecidableEq

/-- `_window_order`; the ISO texts of keys in UTC are ordered as the keys are. -/
def windowOrder (a b : OwnedWindow) : Prop := a.reset < b.reset ∨ a.reset = b.reset ∧ a.key ≤ b.key

instance (a b : OwnedWindow) : Decidable (windowOrder a b) := by
  unfold windowOrder
  infer_instance

def ownerOf (ordered : List OwnedWindow) (entry : UsageEntry) : Option OwnedWindow :=
  (ordered.drop (Bisect.bisectRight (ordered.map (·.reset)) entry.timestamp)).find? fun window =>
    window.start ≤ entry.timestamp

structure Partition where
  owned : Dict Int (List UsageEntry)
  leftovers : List UsageEntry

def Partition.assign (p : Partition) (ordered : List OwnedWindow) (entry : UsageEntry) : Partition :=
  match ownerOf ordered entry with
  | none => { p with leftovers := p.leftovers ++ [entry] }
  | some owner => { p with owned := p.owned.set owner.key ((p.owned.get? owner.key).getD [] ++ [entry]) }

def partitionEntriesByOwner (entries : List UsageEntry) (windows : List OwnedWindow) : Partition :=
  let ordered := windows.insertionSort windowOrder
  entries.foldl (fun p entry => p.assign ordered entry)
    { owned := Dict.ofList (windows.map fun window => (window.key, [])), leftovers := [] }

def exactInterval (canonicalIntervals : Dict Int (Int × Int)) (blockStartOverrides : Dict Int Int) (anchor : Int) :
    Int × Int :=
  match canonicalIntervals.get? anchor with
  | some interval => interval
  | none => ((blockStartOverrides.get? anchor).getD (anchor - BLOCK_DURATION), anchor)

structure RawBlock where
  start : Int
  stop : Int
  entries : List UsageEntry

def RawBlock.open (entry : UsageEntry) : RawBlock :=
  { start := floorToHour entry, stop := floorToHour entry + BLOCK_DURATION, entries := [entry] }

def rawBlocksFrom (current : RawBlock) : List UsageEntry → List RawBlock
  | [] => [current]
  | entry :: rest =>
    if current.stop ≤ entry.timestamp then current :: rawBlocksFrom (.open entry) rest
    else rawBlocksFrom { current with entries := current.entries ++ [entry] } rest

def rawBlocks : List UsageEntry → List RawBlock
  | [] => []
  | entry :: rest => rawBlocksFrom (.open entry) rest

def RawBlock.clamp (interval : Int → Int × Int) (recordedWindows : List Int) (block : RawBlock) : RawBlock :=
  match recordedWindows[Bisect.bisectRight recordedWindows block.start]? with
  | none => block
  | some next =>
    let start := (interval next).1
    if block.start < start ∧ start < block.stop then { block with stop := start } else block

/-! ## Blocks -/

def tokens (key : String) (entries : List UsageEntry) : Int :=
  (entries.map fun entry => (entry.usage.get? key).getD 0).sum

def buildActivityBlock (entries : List UsageEntry) (startTime endTime now : Int) (anchor : Anchor) : Block :=
  let input := tokens "input_tokens" entries
  let output := tokens "output_tokens" entries
  let creation := tokens "cache_creation_input_tokens" entries
  let read := tokens "cache_read_input_tokens" entries
  { startTime := startTime
    endTime := endTime
    actualEndTime := entries.getLast?.map (·.timestamp)
    isActive := now < endTime
    isGap := false
    entriesCount := entries.length
    inputTokens := input
    outputTokens := output
    cacheCreationTokens := creation
    cacheReadTokens := read
    totalTokens := input + output + creation + read
    models := sortedSet (entries.map (·.model))
    anchor := anchor
    entries := entries }

def gapBlock (startTime endTime : Int) : Block :=
  { startTime := startTime, endTime := endTime, actualEndTime := none, isActive := false, isGap := true,
    entriesCount := 0, inputTokens := 0, outputTokens := 0, cacheCreationTokens := 0, cacheReadTokens := 0,
    totalTokens := 0, models := [], anchor := .heuristic, entries := [] }

def gapBetween (prev b : Block) : List Block :=
  if prev.endTime < b.startTime then
    let firstEntry := (b.entries.head?.map (·.timestamp)).getD b.startTime
    let prevActualEnd := prev.actualEndTime.getD prev.endTime
    if firstEntry - prevActualEnd < 60000000 then [] else [gapBlock prevActualEnd firstEntry]
  else []

def withGaps : List Block → List Block
  | [] => []
  | [b] => [b]
  | prev :: b :: rest => prev :: gapBetween prev b ++ withGaps (b :: rest)

def sortEntries (entries : List UsageEntry) : List UsageEntry :=
  entries.insertionSort fun a b => a.timestamp ≤ b.timestamp

def recordedBlock (interval : Int → Int × Int) (now anchor : Int) : List UsageEntry → Option Block
  | [] => none
  | bucket => some (buildActivityBlock (sortEntries bucket) (interval anchor).1 (interval anchor).2 now .recorded)

def heuristicBlock (now : Int) (raw : RawBlock) : Block :=
  buildActivityBlock raw.entries raw.start raw.stop now .heuristic

def groupEntriesIntoBlocks (entries : List UsageEntry) (recordedWindows : List Int)
    (blockStartOverrides : Dict Int Int) (canonicalIntervals : Dict Int (Int × Int)) (now : Int) : List Block :=
  if entries = [] then []
  else
    let sorted := sortEntries entries
    let recordedWindows := recordedWindows.insertionSort (· ≤ ·)
    let interval := exactInterval canonicalIntervals blockStartOverrides
    let windows := recordedWindows.map fun anchor => OwnedWindow.mk anchor (interval anchor).1 (interval anchor).2
    let p := partitionEntriesByOwner sorted windows
    let recorded := recordedWindows.filterMap fun anchor =>
      recordedBlock interval now anchor ((p.owned.get? anchor).getD [])
    let heuristic := (rawBlocks p.leftovers).map fun raw => heuristicBlock now (raw.clamp interval recordedWindows)
    withGaps ((recorded ++ heuristic).insertionSort fun a b => a.startTime ≤ b.startTime)

section
variable {ordered : List OwnedWindow} {windows : List OwnedWindow} {entry : UsageEntry} {entries : List UsageEntry}

theorem ordered_resets (windows : List OwnedWindow) :
    ((windows.insertionSort windowOrder).map (·.reset)).Pairwise (· ≤ ·) := by
  have : Std.Total windowOrder := ⟨fun a b => by unfold windowOrder; omega⟩
  have : IsTrans OwnedWindow windowOrder := ⟨fun a b c => by unfold windowOrder; omega⟩
  rw [List.pairwise_map]
  refine (List.pairwise_insertionSort windowOrder windows).imp fun {a b} h => ?_
  unfold windowOrder at h
  omega

theorem ownerOf_some {owner : OwnedWindow} (h : ownerOf (windows.insertionSort windowOrder) entry = some owner) :
    owner ∈ windows ∧ owner.start ≤ entry.timestamp ∧ entry.timestamp < owner.reset := by
  have hmem := List.mem_of_find?_eq_some h
  rw [Bisect.mem_drop_bisectRight (ordered_resets windows), List.mem_insertionSort] at hmem
  have hstart : owner.start ≤ entry.timestamp := by simpa using List.find?_some h
  exact ⟨hmem.1, hstart, hmem.2⟩

theorem ownerOf_none : ownerOf (windows.insertionSort windowOrder) entry = none ↔
    ∀ window ∈ windows, ¬ (window.start ≤ entry.timestamp ∧ entry.timestamp < window.reset) := by
  unfold ownerOf
  simp only [List.find?_eq_none, Bisect.mem_drop_bisectRight (ordered_resets windows), List.mem_insertionSort,
    decide_eq_true_eq]
  exact ⟨fun h w hw hin => h w ⟨hw, hin.2⟩ hin.1, fun h w hw hle => h w hw.1 ⟨hle, hw.2⟩⟩

def bucket (ordered : List OwnedWindow) (key : Int) (entries : List UsageEntry) : List UsageEntry :=
  entries.filter fun entry => (ownerOf ordered entry).map (·.key) = some key

theorem foldl_assign : ∀ (entries : List UsageEntry) (p : Partition),
    let q := entries.foldl (fun p entry => p.assign ordered entry) p
    q.leftovers = p.leftovers ++ entries.filter (fun entry => ownerOf ordered entry = none) ∧
      ∀ key, (q.owned.get? key).getD [] = (p.owned.get? key).getD [] ++ bucket ordered key entries
  | [], p => ⟨(List.append_nil _).symm, fun _ => (List.append_nil _).symm⟩
  | entry :: rest, p => by
    obtain ⟨hleft, howned⟩ := foldl_assign rest (p.assign ordered entry)
    simp only [List.foldl_cons]
    refine ⟨hleft.trans ?_, fun key => (howned key).trans ?_⟩
    · unfold Partition.assign
      cases h : ownerOf ordered entry with
      | none => simp [h]
      | some owner => simp [h]
    · unfold Partition.assign bucket
      cases h : ownerOf ordered entry with
      | none => simp [h]
      | some owner =>
        by_cases hk : owner.key = key
        · subst hk
          simp [h]
        · simp [h, hk, Dict.get?_set_ne]

theorem partition_leftovers : (partitionEntriesByOwner entries windows).leftovers =
    entries.filter fun entry => ownerOf (windows.insertionSort windowOrder) entry = none :=
  (foldl_assign entries _).1

theorem partition_owned (key : Int) : ((partitionEntriesByOwner entries windows).owned.get? key).getD [] =
    bucket (windows.insertionSort windowOrder) key entries := by
  refine ((foldl_assign entries _).2 key).trans ?_
  have hempty : ((Dict.ofList (windows.map fun window => (window.key, ([] : List UsageEntry)))).get? key).getD [] = [] := by
    cases h : (Dict.ofList (windows.map fun window => (window.key, ([] : List UsageEntry)))).get? key with
    | none => rfl
    | some l =>
      obtain ⟨w, -, hw⟩ := List.mem_map.1 (Dict.mem_of_get?_ofList h)
      exact (congrArg Prod.snd hw).symm
  rw [hempty]
  rfl

theorem partition_perm {keys : List Int} (hk : keys.Nodup) (hkeys : ∀ w ∈ windows, w.key ∈ keys) :
    ((keys.flatMap fun key => bucket (windows.insertionSort windowOrder) key entries) ++
      (partitionEntriesByOwner entries windows).leftovers).Perm entries := by
  rw [partition_leftovers]
  have hsome := perm_classes (fun entry => (ownerOf (windows.insertionSort windowOrder) entry).map (·.key)) hk
    (l := entries.filter fun entry => !decide (ownerOf (windows.insertionSort windowOrder) entry = none)) fun e he => by
      obtain ⟨-, hne⟩ := List.mem_filter.1 he
      cases howner : ownerOf (windows.insertionSort windowOrder) e with
      | none => simp [howner] at hne
      | some owner => exact ⟨owner.key, hkeys owner (ownerOf_some howner).1, rfl⟩
  have hbucket : ∀ key, (entries.filter fun entry =>
      !decide (ownerOf (windows.insertionSort windowOrder) entry = none)).filter (fun entry =>
        (ownerOf (windows.insertionSort windowOrder) entry).map (·.key) = some key) =
      bucket (windows.insertionSort windowOrder) key entries := by
    intro key
    rw [List.filter_filter]
    refine List.filter_congr fun e _ => ?_
    cases ownerOf (windows.insertionSort windowOrder) e <;> simp
  simp only [hbucket] at hsome
  exact (hsome.append_right _).trans (List.perm_append_comm.trans (List.filter_append_perm _ entries))

end

def RawBlock.Fits (block : RawBlock) : Prop := ∀ e ∈ block.entries, block.start ≤ e.timestamp ∧ e.timestamp < block.stop

theorem floorToHour_bounds (entry : UsageEntry) : floorToHour entry ≤ entry.timestamp ∧
    entry.timestamp < floorToHour entry + HOUR := by
  unfold floorToHour HOUR
  omega

theorem RawBlock.open_fits (entry : UsageEntry) : (RawBlock.open entry).Fits := by
  intro e he
  obtain rfl := List.mem_singleton.1 he
  have := floorToHour_bounds e
  unfold RawBlock.open BLOCK_DURATION
  unfold HOUR at *
  simp only
  omega

theorem rawBlocksFrom_entries : ∀ (rest : List UsageEntry) (current : RawBlock),
    (rawBlocksFrom current rest).flatMap (·.entries) = current.entries ++ rest
  | [], current => by simp [rawBlocksFrom]
  | entry :: rest, current => by
    unfold rawBlocksFrom
    by_cases h : current.stop ≤ entry.timestamp
    · rw [if_pos h, List.flatMap_cons, rawBlocksFrom_entries rest]
      rfl
    · rw [if_neg h, rawBlocksFrom_entries rest, List.append_assoc]
      rfl

theorem rawBlocks_entries (leftovers : List UsageEntry) : (rawBlocks leftovers).flatMap (·.entries) = leftovers := by
  cases leftovers with
  | nil => rfl
  | cons entry rest => exact rawBlocksFrom_entries rest _

theorem rawBlocksFrom_fits : ∀ {rest : List UsageEntry} {current : RawBlock}, current.Fits →
    current.stop = current.start + BLOCK_DURATION → (∀ e ∈ rest, current.start ≤ e.timestamp) →
      rest.Pairwise (·.timestamp ≤ ·.timestamp) →
        ∀ block ∈ rawBlocksFrom current rest, block.Fits ∧ block.stop = block.start + BLOCK_DURATION
  | [], current, hfits, hstop, _, _, block, hb => by
    obtain rfl := List.mem_singleton.1 hb
    exact ⟨hfits, hstop⟩
  | entry :: rest, current, hfits, hstop, hstart, hsorted, block, hb => by
    obtain ⟨hfirst, hsorted⟩ := List.pairwise_cons.1 hsorted
    unfold rawBlocksFrom at hb
    by_cases h : current.stop ≤ entry.timestamp
    · rw [if_pos h] at hb
      rcases List.mem_cons.1 hb with rfl | hb
      · exact ⟨hfits, hstop⟩
      · refine rawBlocksFrom_fits (RawBlock.open_fits entry) rfl (fun e he => ?_) hsorted block hb
        exact (floorToHour_bounds entry).1.trans (hfirst e he)
    · rw [if_neg h] at hb
      have hmore : RawBlock.Fits { current with entries := current.entries ++ [entry] } := by
        intro e he
        rcases List.mem_append.1 he with he | he
        · exact hfits e he
        · obtain rfl := List.mem_singleton.1 he
          exact ⟨hstart e (List.mem_cons_self ..), not_le.1 h⟩
      exact rawBlocksFrom_fits hmore hstop (fun e he => hstart e (List.mem_cons_of_mem _ he)) hsorted block hb

theorem rawBlocks_fits {leftovers : List UsageEntry} (hsorted : leftovers.Pairwise (·.timestamp ≤ ·.timestamp))
    {block : RawBlock} (hb : block ∈ rawBlocks leftovers) : block.Fits ∧ block.stop = block.start + BLOCK_DURATION := by
  cases leftovers with
  | nil => cases hb
  | cons entry rest =>
    obtain ⟨hfirst, hsorted⟩ := List.pairwise_cons.1 hsorted
    refine rawBlocksFrom_fits (RawBlock.open_fits entry) rfl (fun e he => ?_) hsorted block hb
    exact (floorToHour_bounds entry).1.trans (hfirst e he)

section
variable {interval : Int → Int × Int} {recordedWindows : List Int} {block : RawBlock}

def NextWindow (recordedWindows : List Int) (start next : Int) : Prop :=
  next ∈ recordedWindows ∧ start < next ∧ ∀ w ∈ recordedWindows, start < w → next ≤ w

theorem nextWindow_bisect (hsorted : recordedWindows.Pairwise (· ≤ ·)) {start next : Int}
    (h : recordedWindows[Bisect.bisectRight recordedWindows start]? = some next) :
    NextWindow recordedWindows start next := by
  have hb := Bisect.bisectRight_between hsorted start
  refine ⟨List.mem_of_getElem? h, hb.above _ _ (Nat.le_refl _) h, fun w hw hlt => ?_⟩
  obtain ⟨i, hi⟩ := List.mem_iff_getElem?.1 hw
  refine Bisect.getElem?_le hsorted ?_ h hi
  by_contra hbelow
  exact absurd hlt (not_lt.2 (hb.below i w (not_le.1 hbelow) hi))

theorem exists_nextWindow (hsorted : recordedWindows.Pairwise (· ≤ ·)) {start next : Int}
    (h : NextWindow recordedWindows start next) :
    recordedWindows[Bisect.bisectRight recordedWindows start]? = some next := by
  have hb := Bisect.bisectRight_between hsorted start
  cases hget : recordedWindows[Bisect.bisectRight recordedWindows start]? with
  | none =>
    obtain ⟨i, hi⟩ := List.mem_iff_getElem?.1 h.1
    have hlen := List.getElem?_eq_none_iff.1 hget
    obtain ⟨hilt, -⟩ := List.getElem?_eq_some_iff.1 hi
    exact absurd h.2.1 (not_lt.2 (hb.below i next (by omega) hi))
  | some w =>
    have hw := nextWindow_bisect hsorted hget
    rw [le_antisymm (hw.2.2 next h.1 h.2.1) (h.2.2 w hw.1 hw.2.1)]

def RawBlock.Unclamped (block : RawBlock) (interval : Int → Int × Int) (recordedWindows : List Int) : Prop :=
  ∀ next, NextWindow recordedWindows block.start next → block.start < (interval next).1 →
    (interval next).1 < block.stop → ∀ e ∈ block.entries, e.timestamp < (interval next).1

theorem RawBlock.clamp_entries : (block.clamp interval recordedWindows).entries = block.entries ∧
    (block.clamp interval recordedWindows).start = block.start := by
  unfold RawBlock.clamp
  cases recordedWindows[Bisect.bisectRight recordedWindows block.start]? with
  | none => exact ⟨rfl, rfl⟩
  | some next =>
    simp only
    split <;> exact ⟨rfl, rfl⟩

theorem RawBlock.clamp_fits_iff (hsorted : recordedWindows.Pairwise (· ≤ ·)) (hfits : block.Fits) :
    (block.clamp interval recordedWindows).Fits ↔ block.Unclamped interval recordedWindows := by
  unfold RawBlock.Fits RawBlock.Unclamped
  rw [RawBlock.clamp_entries.1, RawBlock.clamp_entries.2]
  unfold RawBlock.clamp
  cases hget : recordedWindows[Bisect.bisectRight recordedWindows block.start]? with
  | none =>
    refine iff_of_true hfits fun next hnext => ?_
    rw [exists_nextWindow hsorted hnext] at hget
    cases hget
  | some w =>
    have hw := nextWindow_bisect hsorted hget
    have hunique : ∀ next, NextWindow recordedWindows block.start next → next = w := fun next hnext => by
      rw [exists_nextWindow hsorted hnext] at hget
      exact Option.some.inj hget
    simp only
    by_cases hin : block.start < (interval w).1 ∧ (interval w).1 < block.stop
    · rw [if_pos hin]
      refine ⟨fun h next hnext _ _ e he => ?_, fun h e he => ⟨(hfits e he).1, h w hw hin.1 hin.2 e he⟩⟩
      rw [hunique next hnext]
      exact (h e he).2
    · rw [if_neg hin]
      refine iff_of_true hfits fun next hnext hlo hhi => ?_
      rw [hunique next hnext] at hlo hhi
      exact absurd ⟨hlo, hhi⟩ hin

end

/-! ## Blocks -/

structure Placed (entries : List UsageEntry) (blocks : List Block) : Prop where
  once : ((blocks.filter (!·.isGap)).flatMap (·.entries)).Perm entries
  count : ((blocks.filter (!·.isGap)).map (·.entriesCount)).sum = entries.length
  input : ((blocks.filter (!·.isGap)).map (·.inputTokens)).sum = tokens "input_tokens" entries
  output : ((blocks.filter (!·.isGap)).map (·.outputTokens)).sum = tokens "output_tokens" entries
  creation : ((blocks.filter (!·.isGap)).map (·.cacheCreationTokens)).sum = tokens "cache_creation_input_tokens" entries
  read : ((blocks.filter (!·.isGap)).map (·.cacheReadTokens)).sum = tokens "cache_read_input_tokens" entries
  total : ((blocks.filter (!·.isGap)).map (·.totalTokens)).sum =
    tokens "input_tokens" entries + tokens "output_tokens" entries + tokens "cache_creation_input_tokens" entries +
      tokens "cache_read_input_tokens" entries
  within : ∀ b ∈ blocks, b.isGap = false → ∀ e ∈ b.entries, b.startTime ≤ e.timestamp ∧ e.timestamp < b.endTime

structure Block.Counts (b : Block) : Prop where
  activity : b.isGap = false
  count : b.entriesCount = b.entries.length
  input : b.inputTokens = tokens "input_tokens" b.entries
  output : b.outputTokens = tokens "output_tokens" b.entries
  creation : b.cacheCreationTokens = tokens "cache_creation_input_tokens" b.entries
  read : b.cacheReadTokens = tokens "cache_read_input_tokens" b.entries
  total : b.totalTokens = b.inputTokens + b.outputTokens + b.cacheCreationTokens + b.cacheReadTokens

theorem buildActivityBlock_counts (entries : List UsageEntry) (startTime endTime now : Int) (anchor : Anchor) :
    (buildActivityBlock entries startTime endTime now anchor).Counts := ⟨rfl, rfl, rfl, rfl, rfl, rfl, rfl⟩

theorem withGaps_activity : ∀ {blocks : List Block}, (∀ b ∈ blocks, b.isGap = false) →
    (withGaps blocks).filter (!·.isGap) = blocks
  | [], _ => rfl
  | [b], h => by simp [withGaps, h b (List.mem_cons_self ..)]
  | prev :: b :: rest, h => by
    have hgap : (gapBetween prev b).filter (!·.isGap) = [] := by
      unfold gapBetween
      simp only
      repeat' split
      all_goals rfl
    have hprev := h prev (List.mem_cons_self ..)
    rw [withGaps, List.cons_append, List.filter_cons, List.filter_append, hgap,
      withGaps_activity fun c hc => h c (List.mem_cons_of_mem _ hc)]
    simp [hprev]

theorem tokens_append (key : String) (a b : List UsageEntry) : tokens key (a ++ b) = tokens key a + tokens key b := by
  simp [tokens]

theorem tokens_perm (key : String) {a b : List UsageEntry} (h : a.Perm b) : tokens key a = tokens key b :=
  (h.map _).sum_eq

theorem sum_tokens {key : String} {f : Block → Int} : ∀ {blocks : List Block},
    (∀ b ∈ blocks, f b = tokens key b.entries) → (blocks.map f).sum = tokens key (blocks.flatMap (·.entries))
  | [], _ => rfl
  | b :: rest, h => by
    rw [List.map_cons, List.sum_cons, List.flatMap_cons, tokens_append, h b (List.mem_cons_self ..),
      sum_tokens fun c hc => h c (List.mem_cons_of_mem _ hc)]

theorem sum_counts : ∀ {blocks : List Block}, (∀ b ∈ blocks, b.entriesCount = b.entries.length) →
    (blocks.map (·.entriesCount)).sum = (blocks.flatMap (·.entries)).length
  | [], _ => rfl
  | b :: rest, h => by
    rw [List.map_cons, List.sum_cons, List.flatMap_cons, List.length_append, h b (List.mem_cons_self ..),
      sum_counts fun c hc => h c (List.mem_cons_of_mem _ hc)]

theorem sum_totals : ∀ {blocks : List Block}, (∀ b ∈ blocks, b.Counts) → (blocks.map (·.totalTokens)).sum =
    (blocks.map (·.inputTokens)).sum + (blocks.map (·.outputTokens)).sum + (blocks.map (·.cacheCreationTokens)).sum +
      (blocks.map (·.cacheReadTokens)).sum
  | [], _ => rfl
  | b :: rest, h => by
    have ih := sum_totals fun c hc => h c (List.mem_cons_of_mem _ hc)
    simp only [List.map_cons, List.sum_cons, ih, (h b (List.mem_cons_self ..)).total]
    omega

theorem placed_iff {entries : List UsageEntry} {blocks : List Block} (hcounts : ∀ b ∈ blocks, b.Counts)
    (hperm : (blocks.flatMap (·.entries)).Perm entries) : Placed entries (withGaps blocks) ↔
      ∀ b ∈ blocks, ∀ e ∈ b.entries, b.startTime ≤ e.timestamp ∧ e.timestamp < b.endTime := by
  have hactivity := withGaps_activity fun b hb => (hcounts b hb).activity
  have hmem : ∀ b, b ∈ withGaps blocks ∧ b.isGap = false ↔ b ∈ blocks := by
    intro b
    have hfilter : b ∈ (withGaps blocks).filter (!·.isGap) ↔ b ∈ blocks := by rw [hactivity]
    simpa using hfilter
  refine ⟨fun h b hb => h.within b ((hmem b).2 hb).1 ((hmem b).2 hb).2, fun h => ?_⟩
  have hinput := (sum_tokens fun b hb => (hcounts b hb).input).trans (tokens_perm _ hperm)
  have houtput := (sum_tokens fun b hb => (hcounts b hb).output).trans (tokens_perm _ hperm)
  have hcreation := (sum_tokens fun b hb => (hcounts b hb).creation).trans (tokens_perm _ hperm)
  have hread := (sum_tokens fun b hb => (hcounts b hb).read).trans (tokens_perm _ hperm)
  constructor
  all_goals try rw [hactivity]
  · exact hperm
  · exact (sum_counts fun b hb => (hcounts b hb).count).trans hperm.length_eq
  · exact hinput
  · exact houtput
  · exact hcreation
  · exact hread
  · rw [sum_totals hcounts, hinput, houtput, hcreation, hread]
  · exact fun b hb hgap => h b ((hmem b).1 ⟨hb, hgap⟩)

theorem mem_of_recordedBlock {interval : Int → Int × Int} {now anchor : Int} {owned : List UsageEntry} {b : Block}
    (h : recordedBlock interval now anchor owned = some b) :
    b.Counts ∧ b.startTime = (interval anchor).1 ∧ b.endTime = (interval anchor).2 ∧ b.entries.Perm owned := by
  cases owned with
  | nil => cases h
  | cons e rest =>
    cases h
    exact ⟨buildActivityBlock_counts _ _ _ _ _, rfl, rfl, List.perm_insertionSort _ _⟩

theorem recorded_entries {interval : Int → Int × Int} {now : Int} (owned : Int → List UsageEntry) :
    ∀ anchors : List Int, ((anchors.filterMap fun anchor => recordedBlock interval now anchor (owned anchor)).flatMap
      (·.entries)).Perm (anchors.flatMap owned)
  | [] => .nil
  | anchor :: anchors => by
    have ih := @recorded_entries interval now owned anchors
    rw [List.flatMap_cons, List.filterMap_cons]
    cases h : recordedBlock interval now anchor (owned anchor) with
    | none =>
      have hnil : owned anchor = [] := by
        cases hown : owned anchor with
        | nil => rfl
        | cons e rest => rw [hown] at h; cases h
      simpa [hnil] using ih
    | some b => exact (mem_of_recordedBlock h).2.2.2.append ih

section
variable (entries : List UsageEntry) (recordedWindows : List Int) (interval : Int → Int × Int)

def unowned : List UsageEntry := (sortEntries entries).filter fun e =>
  recordedWindows.all fun w => !decide ((interval w).1 ≤ e.timestamp ∧ e.timestamp < (interval w).2)

def ownershipWindows : List OwnedWindow :=
  (recordedWindows.insertionSort (· ≤ ·)).map fun anchor => .mk anchor (interval anchor).1 (interval anchor).2

variable {entries recordedWindows interval}

theorem sortEntries_sorted (entries : List UsageEntry) : (sortEntries entries).Pairwise (·.timestamp ≤ ·.timestamp) :=
  have : Std.Total fun a b : UsageEntry => a.timestamp ≤ b.timestamp := ⟨fun _ _ => le_total _ _⟩
  have : IsTrans UsageEntry fun a b => a.timestamp ≤ b.timestamp := ⟨fun _ _ _ => le_trans⟩
  List.pairwise_insertionSort _ _

theorem leftovers_eq : (partitionEntriesByOwner (sortEntries entries) (ownershipWindows recordedWindows interval)).leftovers =
    unowned entries recordedWindows interval := by
  rw [partition_leftovers]
  unfold unowned
  refine List.filter_congr fun e _ => ?_
  rw [Bool.eq_iff_iff, decide_eq_true_eq, ownerOf_none]
  simp only [ownershipWindows, List.mem_map, List.mem_insertionSort, forall_exists_index, and_imp,
    forall_apply_eq_imp_iff₂, List.all_eq_true, Bool.not_eq_true', decide_eq_false_iff_not]

theorem nextWindow_sort {start next : Int} : NextWindow (recordedWindows.insertionSort (· ≤ ·)) start next ↔
    NextWindow recordedWindows start next := by
  unfold NextWindow
  simp only [List.mem_insertionSort]

theorem bucket_within {anchor : Int} {e : UsageEntry}
    (he : e ∈ bucket ((ownershipWindows recordedWindows interval).insertionSort windowOrder) anchor (sortEntries entries)) :
    (interval anchor).1 ≤ e.timestamp ∧ e.timestamp < (interval anchor).2 := by
  obtain ⟨-, he⟩ := List.mem_filter.1 he
  obtain ⟨owner, howner, rfl⟩ := Option.map_eq_some_iff.1 (of_decide_eq_true he)
  obtain ⟨hmem, hin⟩ := ownerOf_some howner
  obtain ⟨w, -, rfl⟩ := List.mem_map.1 hmem
  exact hin

/-- **Every entry lies in one block**, and within its span exactly if no recorded window
clamps a heuristic block before one of its entries. -/
theorem groupEntriesIntoBlocks_placed_iff (entries : List UsageEntry) (recordedWindows : List Int)
    (hk : recordedWindows.Nodup) (blockStartOverrides : Dict Int Int) (canonicalIntervals : Dict Int (Int × Int))
    (now : Int) :
    Placed entries (groupEntriesIntoBlocks entries recordedWindows blockStartOverrides canonicalIntervals now) ↔
      ∀ block ∈ rawBlocks (unowned entries recordedWindows (exactInterval canonicalIntervals blockStartOverrides)),
        block.Unclamped (exactInterval canonicalIntervals blockStartOverrides) recordedWindows := by
  unfold groupEntriesIntoBlocks
  by_cases hnil : entries = []
  · subst hnil
    rw [if_pos rfl]
    exact iff_of_true (by constructor <;> simp [tokens]) (by simp [unowned, sortEntries, rawBlocks])
  rw [if_neg hnil]
  simp only
  generalize exactInterval canonicalIntervals blockStartOverrides = interval
  have hsorted : (recordedWindows.insertionSort (· ≤ ·)).Pairwise (· ≤ ·) := List.pairwise_insertionSort _ _
  have hkeys : (recordedWindows.insertionSort (· ≤ ·)).Nodup := (List.perm_insertionSort _ _).nodup_iff.2 hk
  rw [show (recordedWindows.insertionSort (· ≤ ·)).map (fun anchor => OwnedWindow.mk anchor (interval anchor).1
    (interval anchor).2) = ownershipWindows recordedWindows interval from rfl]
  simp only [partition_owned, leftovers_eq]
  have hanchors : ∀ w ∈ ownershipWindows recordedWindows interval, w.key ∈ recordedWindows.insertionSort (· ≤ ·) := by
    intro w hw
    obtain ⟨anchor, hanchor, rfl⟩ := List.mem_map.1 hw
    exact hanchor
  have hpartition := @partition_perm _ (sortEntries entries) _ hkeys hanchors
  rw [leftovers_eq] at hpartition
  have hleft : (unowned entries recordedWindows interval).Pairwise (·.timestamp ≤ ·.timestamp) :=
    (sortEntries_sorted entries).filter _
  have hheuristic : ((rawBlocks (unowned entries recordedWindows interval)).map fun raw =>
      heuristicBlock now (raw.clamp interval (recordedWindows.insertionSort (· ≤ ·)))).flatMap (·.entries) =
        unowned entries recordedWindows interval := by
    rw [List.flatMap_map]
    refine Eq.trans (List.flatMap_congr fun raw _ => ?_) (rawBlocks_entries _)
    exact RawBlock.clamp_entries.1
  rw [placed_iff]
  · simp only [List.mem_insertionSort, List.mem_append]
    have hnext : ∀ raw : RawBlock, raw.Unclamped interval (recordedWindows.insertionSort (· ≤ ·)) ↔
        raw.Unclamped interval recordedWindows := by
      intro raw
      unfold RawBlock.Unclamped
      simp only [nextWindow_sort]
    simp only [← hnext]
    refine ⟨fun h raw hraw => ?_, fun h b hb => ?_⟩
    · rw [← RawBlock.clamp_fits_iff hsorted (rawBlocks_fits hleft hraw).1]
      exact h _ (.inr (List.mem_map.2 ⟨raw, hraw, rfl⟩))
    · rcases hb with hb | hb
      · obtain ⟨anchor, -, hb⟩ := List.mem_filterMap.1 hb
        obtain ⟨-, hstart, hend, hperm⟩ := mem_of_recordedBlock hb
        intro e he
        rw [hstart, hend]
        exact bucket_within (hperm.mem_iff.1 he)
      · obtain ⟨raw, hraw, rfl⟩ := List.mem_map.1 hb
        exact (RawBlock.clamp_fits_iff hsorted (rawBlocks_fits hleft hraw).1).2 (h raw hraw)
  · intro b hb
    rw [List.mem_insertionSort, List.mem_append] at hb
    rcases hb with hb | hb
    · obtain ⟨anchor, -, hb⟩ := List.mem_filterMap.1 hb
      exact (mem_of_recordedBlock hb).1
    · obtain ⟨raw, -, rfl⟩ := List.mem_map.1 hb
      exact buildActivityBlock_counts _ _ _ _ _
  · refine ((List.perm_insertionSort _ _).flatMap_right _).trans ?_
    rw [List.flatMap_append, hheuristic]
    exact ((recorded_entries _ _).append_right _).trans (hpartition.trans (List.perm_insertionSort _ _))

end

def entryAt (minutes : Int) : UsageEntry :=
  { timestamp := minutes * 60000000, utcOffset := 0, model := "m", usage := Dict.ofList [("input_tokens", 1)] }

theorem groupEntriesIntoBlocks_placed_iff_credit :
    Placed [entryAt 470, entryAt 540] (groupEntriesIntoBlocks [entryAt 470, entryAt 540] [510 * 60000000] Dict.empty
        (Dict.ofList [(510 * 60000000, (480 * 60000000, 510 * 60000000))]) 0) ↔
      ∀ block ∈ rawBlocks (unowned [entryAt 470, entryAt 540] [510 * 60000000] (exactInterval
          (Dict.ofList [(510 * 60000000, (480 * 60000000, 510 * 60000000))]) Dict.empty)),
        block.Unclamped (exactInterval (Dict.ofList [(510 * 60000000, (480 * 60000000, 510 * 60000000))]) Dict.empty)
          [510 * 60000000] :=
  groupEntriesIntoBlocks_placed_iff _ _ (List.nodup_singleton _) _ _ _

/-- A window that a credit ended at 8:30 clamps the block of 7:00 at 8:00, with an entry of 9:00 in it. -/
theorem groupEntriesIntoBlocks_misplaced : ([510 * 60000000] : List Int).Nodup ∧
    ¬ Placed [entryAt 470, entryAt 540] (groupEntriesIntoBlocks [entryAt 470, entryAt 540] [510 * 60000000] Dict.empty
      (Dict.ofList [(510 * 60000000, (480 * 60000000, 510 * 60000000))]) 0) := by
  refine ⟨List.nodup_singleton _, fun h => ?_⟩
  have hout : (groupEntriesIntoBlocks [entryAt 470, entryAt 540] [510 * 60000000] Dict.empty
      (Dict.ofList [(510 * 60000000, (480 * 60000000, 510 * 60000000))]) 0).any (fun b =>
        !b.isGap && b.entries.any fun e => b.endTime ≤ e.timestamp) = true := by decide +kernel
  obtain ⟨b, hb, hbad⟩ := List.any_eq_true.1 hout
  rw [Bool.and_eq_true, Bool.not_eq_true', List.any_eq_true] at hbad
  obtain ⟨hgap, e, he, hle⟩ := hbad
  exact absurd (h.within b hb hgap e he).2 (not_lt.2 (of_decide_eq_true hle))

end Blocks

end Cctally
