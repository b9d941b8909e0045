import Cctally.QuotaIndexRun

/-!
# What a step can do to the directory of the index

Every step but a power loss keeps the files it found and the complete lines in them. An append
goes through a few directories, and leaves one of them however it ends.
-/

namespace Cctally.QuotaIndex

open Segments (repairTornTail repair_eq flatten_isLine)
open TornLines DurableDir

variable {Key : Type*}

structure Existing (dir : Dir Key) : Prop where
  entry_lt : ∀ e i, dir.live.get? e = some i → i < dir.fresh
  index_lt : ∀ i s, dir.node i = .sidecar s → s.indexNode < dir.fresh

structure Follows (d d' : Dir Key) : Prop where
  grows : Grows d d'
  existing : Existing d → Existing d'

theorem Follows.refl (d : Dir Key) : Follows d d := ⟨.refl d, id⟩

theorem Follows.trans {a b c : Dir Key} (hab : Follows a b) (hbc : Follows b c) : Follows a c :=
  ⟨hab.grows.trans hbc.grows, hbc.existing ∘ hab.existing⟩

variable {d : Dir Key} {e : Entry} {i : Nat} {c : Content Key}

theorem follows_write (hle : d.node i ≤ c) (hindex : ∀ s, c = .sidecar s → s.indexNode < d.fresh) : Follows d (d.write i c) := by
  refine ⟨grows_write hle, fun h => ⟨h.entry_lt, fun j s hj => ?_⟩⟩
  rw [DurableDir.write] at hj ⊢
  simp only at hj ⊢
  by_cases hji : j = i
  · rw [hji, Function.update_self] at hj
    exact hindex s hj
  · rw [Function.update_of_ne hji] at hj
    exact h.index_lt j s hj

theorem follows_sync (d : Dir Key) (i : Nat) : Follows d (d.sync i) :=
  ⟨⟨le_refl _, fun _ _ => le_refl _⟩, fun h => ⟨h.entry_lt, h.index_lt⟩⟩

theorem follows_syncDir (d : Dir Key) : Follows d d.syncDir :=
  ⟨⟨le_refl _, fun _ _ => le_refl _⟩, fun h => ⟨h.entry_lt, h.index_lt⟩⟩

theorem follows_alloc (d : Dir Key) (c : Content Key) (hindex : ∀ s, c = .sidecar s → s.indexNode < d.fresh + 1) : Follows d (d.alloc c) := by
  refine ⟨grows_alloc d c, fun h => ⟨fun e i he => Nat.lt_succ_of_lt (h.entry_lt e i he), fun j s hj => ?_⟩⟩
  rw [DurableDir.alloc] at hj ⊢
  simp only at hj ⊢
  by_cases hji : j = d.fresh
  · rw [hji, Function.update_self] at hj
    exact hindex s hj
  · rw [Function.update_of_ne hji] at hj
    exact Nat.lt_succ_of_lt (h.index_lt j s hj)

theorem follows_rename (hi : Existing d → i < d.fresh) : Follows d (d.rename e i) := by
  refine ⟨⟨le_refl _, fun _ _ => le_refl _⟩, fun h => ⟨fun e' j he => ?_, h.index_lt⟩⟩
  rw [DurableDir.rename] at he ⊢
  simp only at he ⊢
  rw [Dict.get?_set] at he
  split at he
  · exact Option.some.inj he ▸ hi h
  · exact h.entry_lt e' j he

theorem follows_unlink (d : Dir Key) (e : Entry) : Follows d (d.unlink e) := by
  refine ⟨⟨le_refl _, fun _ _ => le_refl _⟩, fun h => ⟨fun e' j he => ?_, h.index_lt⟩⟩
  rw [DurableDir.unlink] at he ⊢
  simp only at he ⊢
  rw [Dict.get?_erase] at he
  split at he
  · cases he
  · exact h.entry_lt e' j he

theorem follows_create (d : Dir Key) (e : Entry) : Follows d (d.create e) :=
  (follows_alloc d (.segment []) nofun).trans (follows_rename fun _ => Nat.lt_succ_self _)

/-! ## What an append leaves -/

def opened (dir : Dir Key) (a : Append) : Dir Key := (openSegment dir a.segment).1

def target (dir : Dir Key) (a : Append) : Nat := (openSegment dir a.segment).2.1

def wrote (dir : Dir Key) (a : Append) (bytes : Bytes) : Dir Key := (opened dir a).write (target dir a) (.segment bytes)

def settled (dir : Dir Key) (a : Append) (bytes : Bytes) : Dir Key :=
  let synced := (wrote dir a bytes).sync (target dir a)
  if (openSegment dir a.segment).2.2 then synced.syncDir else synced

def heldBytes (dir : Dir Key) (a : Append) : Bytes := ((opened dir a).node (target dir a)).bytes

def keyed (dir : Dir Key) (a : Append) (bytes : Bytes) (i : Nat) (file : KeyFile Key) : Dir Key :=
  (settled dir a bytes).write i (.keys file)

inductive Left (dir : Dir Key) (a : Append) (key : Option Key) : Dir Key → Prop
  | opened : Left dir a key (opened dir a)
  | wrote {valid : Bytes} (h : repairTornTail (heldBytes dir a) = some valid) (n : Nat) :
      Left dir a key (wrote dir a (valid ++ a.data.take n))
  | synced {valid : Bytes} (h : repairTornTail (heldBytes dir a) = some valid) :
      Left dir a key ((wrote dir a (valid ++ a.data)).sync (target dir a))
  | settled {valid : Bytes} (h : repairTornTail (heldBytes dir a) = some valid) : Left dir a key (settled dir a (valid ++ a.data))
  | torn {valid : Bytes} (h : repairTornTail (heldBytes dir a) = some valid) {i : Nat} {file : KeyFile Key}
      (hkeys : contentOf (settled dir a (valid ++ a.data)) .keys = some (i, .keys file)) (n : Nat) :
      Left dir a key (keyed dir a (valid ++ a.data) i (file.tear n))
  | keyed {valid : Bytes} (h : repairTornTail (heldBytes dir a) = some valid) {k : Key} (hkey : key = some k) {i : Nat}
      {file : KeyFile Key} (hkeys : contentOf (settled dir a (valid ++ a.data)) .keys = some (i, .keys file)) :
      Left dir a key (keyed dir a (valid ++ a.data) i (file.add k))

inductive Appended (s : State Key) (a : Append) (key : Option Key) : State Key → Prop
  | stays {dir : Dir Key} (h : Left s.dir a key dir) : Appended s a key { s with dir := dir }
  | crashed {dir : Dir Key} (h : Left s.dir a key dir) : Appended s a key (State.exit { s with dir := dir } a.proc)
  | forgets {dir : Dir Key} (h : Left s.dir a key dir) : Appended s a key (State.setProc { s with dir := dir } a.proc noKeys)
  | learns {valid : Bytes} (h : repairTornTail (heldBytes s.dir a) = some valid) {k : Key} (hkey : key = some k) {i : Nat}
      {file : KeyFile Key} (hkeys : contentOf (settled s.dir a (valid ++ a.data)) .keys = some (i, .keys file))
      {loaded : Option (Nat × Nat)} (hloaded : loaded.map Prod.fst = (s.procs a.proc).loaded.map Prod.fst) :
      Appended s a key (State.setProc { s with dir := (keyed s.dir a (valid ++ a.data) i (file.add k)).sync i }
        a.proc ⟨loaded, (s.procs a.proc).keys ++ [k]⟩)

theorem keys_tear (file : KeyFile Key) (n : Nat) : (file.tear n).keys = file.keys := by
  unfold KeyFile.tear
  cases file.tail <;> rfl

theorem keys_add (file : KeyFile Key) (k : Key) : (file.add k).keys = file.keys ∨ (file.add k).keys = file.keys ++ [k] := by
  unfold KeyFile.add
  cases file.tail with
  | whole => exact .inr rfl
  | torn n => exact .inl rfl
  | garbled n ended => exact .inl rfl

variable {keyOf : Bytes → Option Key} {s : State Key} {a : Append} {key : Option Key} {halt : Option Halt}

def reachesKey : Option Halt → Bool
  | none => true
  | some .keyWritten => true
  | _ => false

def writtenKey (halt : Option Halt) (key : Option Key) : Option Key := if reachesKey halt then key else none

theorem indexKey_appended {valid : Bytes} (h : repairTornTail (heldBytes s.dir a) = some valid) {k : Key}
    (hhalt : halt = none ∨ halt = some .keyWritten ∨ ∃ n, halt = some (.keyTorn n)) :
    Appended s a (writtenKey halt (some k)) (indexKey s a.proc (settled s.dir a (valid ++ a.data)) k halt).1 := by
  rw [indexKey]
  split
  next i file hkeys =>
    rcases hhalt with rfl | rfl | ⟨n, rfl⟩
    · refine .learns h rfl hkeys ?_
      rw [Option.map_map]
      congr 1
      funext l
      rw [Function.comp_apply]
      split <;> rfl
    · exact .crashed (.keyed h rfl hkeys)
    · exact .crashed (.torn h hkeys _)
  next => exact .forgets (.settled h)

theorem writeSegment_appended : Appended s a (writtenKey halt key) (writeSegment s a key halt).1 := by
  rw [writeSegment]
  simp only
  split
  next => exact .crashed .opened
  next hopened =>
    split
    next => exact .stays .opened
    next valid hrepair =>
      split
      next => exact .crashed (.wrote hrepair _)
      next hwritten =>
        split
        next => exact .crashed (.synced hrepair)
        next hsynced =>
          split
          next => exact .crashed (.settled hrepair)
          next hdirSynced =>
            cases key with
            | none => exact .stays (.settled hrepair)
            | some k =>
              refine indexKey_appended hrepair ?_
              cases halt with
              | none => exact .inl rfl
              | some stop =>
                cases stop with
                | keyTorn n => exact .inr (.inr ⟨n, rfl⟩)
                | keyWritten => exact .inr (.inl rfl)
                | opened => exact absurd rfl hopened
                | written n => exact absurd rfl (hwritten n)
                | synced => exact absurd rfl hsynced
                | dirSynced => exact absurd rfl hdirSynced

theorem writeSegment_not_skipped : (writeSegment s a key halt).2 ≠ .skipped := by
  rw [writeSegment]
  simp only
  split
  next => exact nofun
  next =>
    split
    next => exact nofun
    next =>
      split
      next => exact nofun
      next =>
        split
        next => exact nofun
        next =>
          split
          next => exact nofun
          next =>
            split
            next => exact nofun
            next =>
              rw [indexKey]
              split
              next => split <;> exact nofun
              next => exact nofun

inductive Took (keyOf : Bytes → Option Key) (s : State Key) (a : Append) (halt : Option Halt) : State Key → Prop
  | idle : Took keyOf s a halt s
  | loads {proc : Proc Key} (h : proc = noKeys ∨ loadKeys s.dir (s.procs a.proc) = some proc) :
      Took keyOf s a halt (s.setProc a.proc proc)
  | plain {s' : State Key} (h : Appended s a none s') : Took keyOf s a halt s'
  | deduped {proc : Proc Key} {k : Key} {s' : State Key} (hdedupe : a.dedupe = true)
      (hload : loadKeys s.dir (s.procs a.proc) = some proc) (hkey : a.key keyOf = some k) (hnew : k ∉ proc.keys)
      (h : Appended (s.setProc a.proc proc) a (writtenKey halt (some k)) s') : Took keyOf s a halt s'

theorem le_wrote {valid : Bytes} (h : repairTornTail (heldBytes d a) = some valid) (rest : Bytes) :
    (opened d a).node (target d a) ≤ .segment (valid ++ rest) := by
  change lines newline (heldBytes d a) <+: lines newline (valid ++ rest)
  rw [repair_eq h, lines_flatten (flatten_isLine _)]
  exact List.prefix_append _ _

theorem follows_opened (d : Dir Key) (a : Append) : Follows d (opened d a) := by
  rw [opened, openSegment]
  split
  next => exact .refl d
  next => exact follows_create d _

theorem follows_wrote {valid : Bytes} (h : repairTornTail (heldBytes d a) = some valid) (rest : Bytes) :
    Follows d (wrote d a (valid ++ rest)) :=
  (follows_opened d a).trans (follows_write (le_wrote h rest) nofun)

theorem follows_settled {valid : Bytes} (h : repairTornTail (heldBytes d a) = some valid) (rest : Bytes) :
    Follows d (settled d a (valid ++ rest)) := by
  rw [settled]
  split
  next => exact ((follows_wrote h rest).trans (follows_sync _ _)).trans (follows_syncDir _)
  next => exact (follows_wrote h rest).trans (follows_sync _ _)

theorem node_of_contentOf {e : Entry} {found : Nat × Content Key} (h : contentOf d e = some found) :
    d.live.get? e = some found.1 ∧ d.node found.1 = found.2 := by
  rw [contentOf] at h
  cases hget : d.live.get? e with
  | none => rw [hget] at h; cases h
  | some i =>
    rw [hget] at h
    obtain rfl := Option.some.inj h
    exact ⟨rfl, rfl⟩

theorem le_keys {e : Entry} {i : Nat} {file : KeyFile Key} (h : contentOf d e = some (i, .keys file)) (c : Content Key) :
    d.node i ≤ c := by
  rw [(node_of_contentOf h).2]
  exact List.nil_prefix

theorem Left.follows {d' : Dir Key} (h : Left d a key d') : Follows d d' := by
  cases h with
  | opened => exact follows_opened d a
  | wrote h n => exact follows_wrote h _
  | synced h => exact (follows_wrote h _).trans (follows_sync _ _)
  | settled h => exact follows_settled h _
  | torn h hkeys n => exact (follows_settled h _).trans (follows_write (le_keys hkeys _) nofun)
  | keyed h hkey hkeys => exact (follows_settled h _).trans (follows_write (le_keys hkeys _) nofun)

theorem Appended.follows {s' : State Key} (h : Appended s a key s') :
    Follows s.dir s'.dir ∧ ∀ r, s'.rebuild = some r → s.rebuild = some r := by
  cases h with
  | stays h => exact ⟨h.follows, fun _ hr => hr⟩
  | crashed h => exact ⟨h.follows, fun _ hr => Option.eq_some_of_filter_eq_some hr⟩
  | forgets h => exact ⟨h.follows, fun _ hr => hr⟩
  | learns h hkey hkeys _ => exact ⟨(Left.keyed h hkey hkeys).follows.trans (follows_sync _ _), fun _ hr => hr⟩

theorem Took.follows {s' : State Key} (h : Took keyOf s a halt s') :
    Follows s.dir s'.dir ∧ ∀ r, s'.rebuild = some r → s.rebuild = some r := by
  cases h with
  | idle => exact ⟨.refl _, fun _ hr => hr⟩
  | loads h => exact ⟨.refl _, fun _ hr => hr⟩
  | plain h => exact h.follows
  | deduped _ _ _ _ h => exact h.follows

/-! ## What a rebuild does -/

theorem follows_publishKeys (d : Dir Key) (coverage : Coverage) (keys : List Key) : Follows d (publishKeys d coverage keys) := by
  refine ((follows_alloc d (.keys _) nofun).trans (follows_alloc _ _ fun s hs => ?_)).trans (follows_rename fun _ => ?_)
  · rw [← Content.sidecar.inj hs]
    exact Nat.lt_succ_of_lt (Nat.lt_succ_self _)
  · exact Nat.lt_succ_of_lt (Nat.lt_succ_self _)

theorem follows_publishBoth (d : Dir Key) (coverage : Coverage) (keys : List Key) : Follows d (publishBoth d coverage keys) :=
  (follows_publishKeys d coverage keys).trans (follows_rename fun _ => Nat.lt_succ_self _)

theorem follows_publish (s : State Key) (p : Nat) (coverage : Coverage) (keys : List Key) (halt : Option PublishHalt) :
    Follows s.dir (publish s p coverage keys halt).dir := by
  rw [publish.eq_def]
  split
  next => exact follows_publishKeys _ _ _
  next => exact follows_publishBoth _ _ _
  next => exact (follows_publishBoth _ _ _).trans (follows_syncDir _)

variable {suffixBound maxAttempts : Nat} {p : Nat}

section
variable [LinearOrder Key]

theorem append_took : Took keyOf s a halt (append keyOf s a halt).1 := by
  rw [append]
  split
  next => exact .idle
  next =>
    split
    next hdedupe =>
      split
      next => exact .loads (.inl rfl)
      next proc hload =>
        split
        next => exact .loads (.inr hload)
        next k hkey =>
          split
          next => exact .loads (.inr hload)
          next hnew => exact .deduped hdedupe hload hkey hnew writeSegment_appended
    next =>
      refine .plain ?_
      have happended : Appended s a (writtenKey halt none) (writeSegment s a none halt).1 := writeSegment_appended
      rwa [writtenKey, ite_self] at happended

theorem mem_of_skipped (h : (append keyOf s a halt).2 = .skipped) :
    ∃ proc k, loadKeys s.dir (s.procs a.proc) = some proc ∧ a.key keyOf = some k ∧ k ∈ proc.keys := by
  rw [append] at h
  split at h
  next => cases h
  next =>
    split at h
    next =>
      split at h
      next => cases h
      next proc hload =>
        split at h
        next => cases h
        next k hkey =>
          split at h
          next hmem => exact ⟨proc, k, hload, hkey, hmem⟩
          next => exact absurd h writeSegment_not_skipped
    next => exact absurd h writeSegment_not_skipped

inductive Rebuilt (keyOf : Bytes → Option Key) (suffixBound maxAttempts : Nat) (s : State Key) (p : Nat)
    (halt : Option PublishHalt) : State Key → Prop
  | idle : Rebuilt keyOf suffixBound maxAttempts s p halt s
  | started (hnone : s.rebuild = none) :
      Rebuilt keyOf suffixBound maxAttempts s p halt { s with rebuild := some (p, ⟨0, Dict.empty, [], .capture⟩) }
  | advanced {r r' : Rebuild Key} (hr : s.rebuild = some (p, r)) (h : advance keyOf suffixBound maxAttempts s.dir r = .next r') :
      Rebuilt keyOf suffixBound maxAttempts s p halt { s with rebuild := some (p, r') }
  | failed : Rebuilt keyOf suffixBound maxAttempts s p halt { s with rebuild := none }
  | published {r : Rebuild Key} {coverage : Coverage} {keys : List Key} (hr : s.rebuild = some (p, r))
      (h : advance keyOf suffixBound maxAttempts s.dir r = .publish coverage keys) :
      Rebuilt keyOf suffixBound maxAttempts s p halt (publish { s with rebuild := none } p coverage keys halt)

theorem rebuildStep_rebuilt {halt : Option PublishHalt} :
    Rebuilt keyOf suffixBound maxAttempts s p halt (rebuildStep keyOf suffixBound maxAttempts s p halt) := by
  rw [rebuildStep]
  split
  next hnone =>
    split
    next => exact .idle
    next => exact .started hnone
  next q r hr =>
    split
    next => exact .idle
    next hq =>
      obtain rfl := not_not.1 hq
      split
      next r' h => exact .advanced hr h
      next => exact .failed
      next coverage keys h => exact .published hr h

theorem Rebuilt.follows {s' : State Key} {halt : Option PublishHalt} (h : Rebuilt keyOf suffixBound maxAttempts s p halt s') :
    Follows s.dir s'.dir := by
  cases h with
  | idle => exact .refl _
  | started => exact .refl _
  | advanced => exact .refl _
  | failed => exact .refl _
  | @published r coverage keys _ _ => exact follows_publish { s with rebuild := none } p coverage keys halt

/-- **Every step but a power loss** keeps the files and the complete lines in them. -/
theorem step_follows {e : Event} (he : e ≠ .powerLoss) : Follows s.dir (step keyOf suffixBound maxAttempts s e).dir := by
  cases e with
  | append a halt => exact (append_took : Took keyOf s a halt _).follows.1
  | unlinkEmpty name =>
    rw [step]
    split
    next =>
      split
      next => exact follows_unlink _ _
      next => exact .refl _
    next => exact .refl _
  | syncDir => exact follows_syncDir _
  | rebuild p halt => exact (rebuildStep_rebuilt : Rebuilt keyOf suffixBound maxAttempts s p halt _).follows
  | exit p => exact .refl _
  | powerLoss => exact absurd rfl he
  | replace name bytes => exact (follows_alloc _ (.segment bytes) nofun).trans (follows_rename fun _ => Nat.lt_succ_self _)
  | move source target =>
    rw [step]
    split
    next i hget =>
      refine ⟨⟨le_refl _, fun _ _ => le_refl _⟩, fun h => ((follows_unlink s.dir _).trans (follows_rename ?_)).existing h⟩
      exact fun _ => h.entry_lt _ i hget
    next => exact .refl _
  | remove name => exact follows_unlink _ _

theorem rebuild_of_step {e : Event} {q : Nat} {r : Rebuild Key}
    (h : (step keyOf suffixBound maxAttempts s e).rebuild = some (q, r)) :
    s.rebuild = some (q, r) ∨ (∃ p halt, e = .rebuild p halt) := by
  cases e with
  | append a halt => exact .inl ((append_took : Took keyOf s a halt _).follows.2 _ h)
  | unlinkEmpty name =>
    rw [step] at h
    split at h
    next => split at h <;> exact .inl h
    next => exact .inl h
  | syncDir => exact .inl h
  | rebuild p halt => exact .inr ⟨p, halt, rfl⟩
  | exit p => exact .inl (Option.eq_some_of_filter_eq_some h)
  | powerLoss => cases h
  | replace name bytes => exact .inl h
  | move source target =>
    rw [step] at h
    split at h <;> exact .inl h
  | remove name => exact .inl h

end

end Cctally.QuotaIndex
