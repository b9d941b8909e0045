import Cctally.QuotaIndexPublish

/-!
# A skipped observation is durable

A key is durable when a synced file under a durable entry of a segment holds its line, and it stays
so. Every key in a keys file or a process's set is durable as long as a rebuild publishes only
durable keys, and a deduplicating append adds to a segment only under a durable entry.
-/

namespace Cctally.QuotaIndex

open Segments (Encoded isSegmentName repairTornTail repair_eq flatten_isLine Encoded.isLine)
open TornLines DurableDir

variable {Key : Type*}

def segmentEntries : Set Entry := {e | ∃ name, e = .segment name}

section
variable (keyOf : Bytes → Option Key)

def holding (k : Key) : Set (Content Key) := {c | k ∈ keysOf keyOf c.bytes}

def KeyDurable (dir : Dir Key) (k : Key) : Prop :=
  ∃ name, isSegmentName name = true ∧ dir.Kept (.segment name) (holding keyOf k)

def bytesAt (dir : Dir Key) (name : String) : Bytes :=
  match contentOf dir (.segment name) with
  | some (_, content) => content.bytes
  | none => []

def KeyThere (dir : Dir Key) (k : Key) : Prop := ∃ name ∈ listSegments dir, k ∈ keysOf keyOf (bytesAt dir name)

end

variable {keyOf : Bytes → Option Key} {d d' : Dir Key} {k : Key}

theorem isUpperSet_holding (k : Key) : IsUpperSet (holding keyOf k) := 
  fun c c' (hle : lines newline c.bytes <+: lines newline c'.bytes) hk => (hle.filterMap keyOf).subset hk

theorem bot_not_mem_holding (k : Key) : ⊥ ∉ holding keyOf k := fun h => nomatch (show k ∈ ([] : List Key) from h)

theorem KeyDurable.extend (hext : Extends segmentEntries d d') (h : KeyDurable keyOf d k) : KeyDurable keyOf d' k := by
  obtain ⟨name, hname, hkept⟩ := h
  exact ⟨name, hname, hext.keeps _ (isUpperSet_holding k) (bot_not_mem_holding k) _ ⟨name, rfl⟩ hkept⟩

theorem KeyDurable.there (hsound : Sound segmentEntries d) (h : KeyDurable keyOf d k) : KeyThere keyOf d k := by
  obtain ⟨name, hname, hkept⟩ := h
  obtain ⟨i, hlive, hnode⟩ := hsound.live_of_kept (isUpperSet_holding k) (bot_not_mem_holding k) ⟨name, rfl⟩ hkept
  refine ⟨name, mem_listSegments.2 ⟨hname, i, hlive⟩, ?_⟩
  rw [bytesAt, contentOf, hlive]
  exact hnode

/-! ## What each step extends -/

variable {a : Append} {key : Option Key}

theorem opened_live (d : Dir Key) (a : Append) : (opened d a).live.get? (.segment a.segment) = some (target d a) := by
  rw [opened, target, openSegment]
  split
  next i hi => exact hi
  next => exact Dict.get?_set_self _ _ _

theorem opened_extends (h : Sound segmentEntries d) (a : Append) : Extends segmentEntries d (opened d a) := by
  rw [opened, openSegment]
  split
  next => exact h.refl
  next hnone => exact h.create hnone

theorem wrote_extends (h : Sound segmentEntries d) {valid : Bytes} (hrepair : repairTornTail (heldBytes d a) = some valid)
    (rest : Bytes) : Extends segmentEntries d (wrote d a (valid ++ rest)) :=
  (opened_extends h a).trans ((opened_extends h a).sound.write (le_wrote hrepair rest))

theorem synced_extends (h : Sound segmentEntries d) {valid : Bytes} (hrepair : repairTornTail (heldBytes d a) = some valid)
    (rest : Bytes) : Extends segmentEntries d ((wrote d a (valid ++ rest)).sync (target d a)) :=
  (wrote_extends h hrepair rest).trans ((wrote_extends h hrepair rest).sound.sync (opened_live d a))

theorem settled_extends (h : Sound segmentEntries d) {valid : Bytes} (hrepair : repairTornTail (heldBytes d a) = some valid)
    (rest : Bytes) : Extends segmentEntries d (settled d a (valid ++ rest)) := by
  rw [settled]
  split
  next => exact (synced_extends h hrepair rest).trans (synced_extends h hrepair rest).sound.syncDir
  next => exact synced_extends h hrepair rest

theorem Left.extends_ (hleft : Left d a key d') (h : Sound segmentEntries d) : Extends segmentEntries d d' := by
  cases hleft with
  | opened => exact opened_extends h a
  | wrote hrepair n => exact wrote_extends h hrepair _
  | synced hrepair => exact synced_extends h hrepair _
  | settled hrepair => exact settled_extends h hrepair _
  | torn hrepair hkeys n =>
    exact (settled_extends h hrepair _).trans ((settled_extends h hrepair _).sound.write (le_keys hkeys _))
  | keyed hrepair hkey hkeys =>
    exact (settled_extends h hrepair _).trans ((settled_extends h hrepair _).sound.write (le_keys hkeys _))

theorem keyed_sync (h : Sound segmentEntries d) {valid : Bytes} (hrepair : repairTornTail (heldBytes d a) = some valid) {i : Nat}
    {file : KeyFile Key} (hkeys : contentOf (settled d a (valid ++ a.data)) .keys = some (i, .keys file)) (file' : KeyFile Key) :
    Extends segmentEntries (settled d a (valid ++ a.data)) (keyed d a (valid ++ a.data) i file') ∧
      Extends segmentEntries (keyed d a (valid ++ a.data) i file') ((keyed d a (valid ++ a.data) i file').sync i) := by
  have hwritten := (settled_extends h hrepair a.data).sound.write (le_keys hkeys (.keys file'))
  have hlive : (settled d a (valid ++ a.data)).live.get? .keys = some i := (node_of_contentOf hkeys).1
  exact ⟨hwritten, hwritten.sound.sync hlive⟩

theorem not_segment_keys : Entry.keys ∉ segmentEntries := fun ⟨_, h⟩ => nomatch h

theorem not_segment_sidecar : Entry.sidecar ∉ segmentEntries := fun ⟨_, h⟩ => nomatch h

theorem publishKeys_extends (h : Sound segmentEntries d) (coverage : Coverage) (keys : List Key) :
    Extends segmentEntries d (publishKeys d coverage keys) := by
  have halloc := (h.alloc (.keys ⟨keys, .whole⟩)).trans
    ((h.alloc (.keys ⟨keys, .whole⟩)).sound.alloc (.sidecar (newSidecar d.fresh coverage keys)))
  refine halloc.trans (halloc.sound.rename (Nat.lt_succ_of_lt (Nat.lt_succ_self _)) (fun m hp => ?_) fun hn =>
    absurd hn not_segment_keys)
  exact Nat.lt_irrefl _ (h.lt_fresh m _ hp)

theorem publishBoth_extends (h : Sound segmentEntries d) (coverage : Coverage) (keys : List Key) :
    Extends segmentEntries d (publishBoth d coverage keys) := by
  have hkeys := publishKeys_extends h coverage keys
  refine hkeys.trans (hkeys.sound.rename (Nat.lt_succ_self _) (fun m hp => ?_) fun hn => absurd hn not_segment_sidecar)
  have hlt : ∀ e i, (publishKeys d coverage keys).Points e i → i ≤ d.fresh := by
    intro e i hpoints
    rcases hpoints with hlive | hdisk
    · change Dict.get? (Dict.set _ _ _) e = some i at hlive
      rw [Dict.get?_set] at hlive
      split at hlive
      · exact le_of_eq (Option.some.inj hlive).symm
      · exact Nat.le_of_lt (h.lt_fresh e i (.inl hlive))
    · exact Nat.le_of_lt (h.lt_fresh e i (.inr hdisk))
  exact Nat.lt_irrefl _ (hlt m _ hp)

theorem publish_extends {s : State Key} (h : Sound segmentEntries s.dir) (p : Nat) (coverage : Coverage) (keys : List Key)
    (halt : Option PublishHalt) : Extends segmentEntries s.dir (publish s p coverage keys halt).dir := by
  rw [publish.eq_def]
  split
  next => exact publishKeys_extends h coverage keys
  next => exact publishBoth_extends h coverage keys
  next => exact (publishBoth_extends h coverage keys).trans (publishBoth_extends h coverage keys).sound.syncDir

def Event.ordinary : Event → Bool
  | replace _ _ => false
  | move _ _ => false
  | remove _ => false
  | _ => true

variable {s s' : State Key}

theorem Appended.extends_ (happended : Appended s a key s') (h : Sound segmentEntries s.dir) :
    Extends segmentEntries s.dir s'.dir := by
  cases happended with
  | stays hleft => exact hleft.extends_ h
  | crashed hleft => exact hleft.extends_ h
  | forgets hleft => exact hleft.extends_ h
  | learns hrepair hkey hkeys _ =>
    exact ((settled_extends h hrepair _).trans (keyed_sync h hrepair hkeys _).1).trans (keyed_sync h hrepair hkeys _).2

theorem Took.extends_ {halt : Option Halt} (htook : Took keyOf s a halt s') (h : Sound segmentEntries s.dir) : Extends segmentEntries s.dir s'.dir := by
  cases htook with
  | idle => exact h.refl
  | loads => exact h.refl
  | plain happended => exact happended.extends_ h
  | deduped _ _ _ _ happended => exact happended.extends_ h

section
variable [LinearOrder Key] {suffixBound maxAttempts : Nat} {p : Nat}

theorem Rebuilt.extends_ {halt : Option PublishHalt} (hrebuilt : Rebuilt keyOf suffixBound maxAttempts s p halt s')
    (h : Sound segmentEntries s.dir) : Extends segmentEntries s.dir s'.dir := by
  cases hrebuilt with
  | idle => exact h.refl
  | started => exact h.refl
  | advanced => exact h.refl
  | failed => exact h.refl
  | @published r coverage keys _ _ => exact publish_extends (s := { s with rebuild := none }) h p coverage keys halt

/-- **What is durable stays durable** through every step of the processes and every power loss. -/
theorem step_extends (h : Sound segmentEntries s.dir) {e : Event} (he : e.ordinary = true) :
    Extends segmentEntries s.dir (step keyOf suffixBound maxAttempts s e).dir := by
  cases e with
  | append a halt => exact (append_took : Took keyOf s a halt _).extends_ h
  | unlinkEmpty name =>
    rw [step]
    split
    next j content hcontent =>
      split
      next hempty =>
        obtain ⟨hlive, hnode⟩ := node_of_contentOf hcontent
        refine h.unlink fun i hi => ?_
        obtain rfl : j = i := Option.some.inj (hlive.symm.trans hi)
        change lines newline (s.dir.node j).bytes <+: []
        rw [hnode, hempty]
        exact List.prefix_rfl
      next => exact h.refl
    next => exact h.refl
  | syncDir => exact h.syncDir
  | rebuild p halt => exact (rebuildStep_rebuilt : Rebuilt keyOf suffixBound maxAttempts s p halt _).extends_ h
  | exit p => exact h.refl
  | powerLoss => exact h.powerLoss
  | replace name bytes => cases he
  | move source target => cases he
  | remove name => cases he

end

/-! ## What the index lists -/

def Content.named : Content Key → Option Nat
  | sidecar s => some s.indexNode
  | _ => none

structure Backed (P : Key → Prop) (orphans : Set Nat) (d : Dir Key) : Prop where
  node : ∀ i ∉ orphans, ∀ k ∈ (d.node i).indexed, P k
  synced : ∀ i ∉ orphans, ∀ k ∈ (d.synced i).indexed, P k
  node_named : ∀ i, d.Points .sidecar i → ∀ j, (d.node i).named = some j → j ∉ orphans ∧ j < d.fresh
  synced_named : ∀ i, d.Points .sidecar i → ∀ j, (d.synced i).named = some j → j ∉ orphans ∧ j < d.fresh
  lt : ∀ i ∈ orphans, i < d.fresh

variable {P Q : Key → Prop} {orphans : Set Nat}

theorem Backed.mono (h : Backed P orphans d) (hle : ∀ k, P k → Q k) : Backed Q orphans d :=
  ⟨fun i hi k hk => hle k (h.node i hi k hk), fun i hi k hk => hle k (h.synced i hi k hk), h.node_named, h.synced_named, h.lt⟩

theorem update_cases {f : Nat → Content Key} {i : Nat} {c : Content Key} {R : Nat → Content Key → Prop} (hc : R i c) {j : Nat}
    (hf : R j (f j)) : R j (Function.update f i c j) := by
  by_cases hj : j = i
  · rw [hj, Function.update_self]
    exact hc
  · rw [Function.update_of_ne hj]
    exact hf

theorem Backed.write (h : Backed P orphans d) (i : Nat) (c : Content Key) (hc : i ∉ orphans → ∀ k ∈ c.indexed, P k)
    (hnamed : c.named = none) : Backed P orphans (d.write i c) := by
  refine ⟨fun j hj => ?_, h.synced, fun j hj => ?_, h.synced_named, h.lt⟩
  · exact update_cases (R := fun j c => j ∉ orphans → ∀ k ∈ c.indexed, P k) hc (h.node j) hj
  · exact update_cases (R := fun _ c => ∀ m, c.named = some m → m ∉ orphans ∧ m < d.fresh) (fun m hm => by rw [hnamed] at hm; cases hm)
      (h.node_named j hj)

theorem Backed.sync (h : Backed P orphans d) (i : Nat) : Backed P orphans (d.sync i) := by
  refine ⟨h.node, fun j hj => ?_, h.node_named, fun j hj m hm => ?_, h.lt⟩
  · exact update_cases (R := fun j c => j ∉ orphans → ∀ k ∈ c.indexed, P k) (h.node i) (h.synced j) hj
  · change (Function.update d.synced i (d.node i) j).named = some m at hm
    by_cases hji : j = i
    · rw [hji, Function.update_self] at hm
      exact h.node_named i (hji ▸ hj) m hm
    · rw [Function.update_of_ne hji] at hm
      exact h.synced_named j hj m hm

theorem Backed.repoint (h : Backed P orphans d) (hnode : d'.node = d.node) (hsynced : d'.synced = d.synced)
    (hfresh : d'.fresh = d.fresh) (hpoints : ∀ i, d'.Points .sidecar i → d.Points .sidecar i) : Backed P orphans d' :=
  ⟨hnode ▸ h.node, hsynced ▸ h.synced, fun i hi => hnode ▸ hfresh ▸ h.node_named i (hpoints i hi),
    fun i hi => hsynced ▸ hfresh ▸ h.synced_named i (hpoints i hi), hfresh ▸ h.lt⟩

theorem Backed.syncDir (h : Backed P orphans d) : Backed P orphans d.syncDir :=
  h.repoint rfl rfl rfl fun _ hi => .inl (hi.elim id id)

theorem Backed.powerLoss (h : Backed P orphans d) : Backed P orphans d.powerLoss :=
  ⟨h.synced, h.synced, fun i hi => h.synced_named i (.inr (hi.elim id id)), fun i hi => h.synced_named i (.inr (hi.elim id id)), h.lt⟩

theorem Backed.alloc (h : Backed P orphans d) (hsound : Sound segmentEntries d) (c : Content Key)
    (hc : d.fresh ∉ orphans → ∀ k ∈ c.indexed, P k) : Backed P orphans (d.alloc c) := by
  have hother : ∀ {f : Nat → Content Key} {j}, d.Points .sidecar j → Function.update f d.fresh c j = f j := fun hj =>
    Function.update_of_ne (Nat.ne_of_lt (hsound.lt_fresh _ _ hj)) _ _
  refine ⟨fun j hj => ?_, fun j hj => ?_, fun j hj m hm => ?_, fun j hj m hm => ?_, fun j hj => Nat.lt_succ_of_lt (h.lt j hj)⟩
  · exact update_cases (R := fun j c => j ∉ orphans → ∀ k ∈ c.indexed, P k) hc (h.node j) hj
  · exact update_cases (R := fun j c => j ∉ orphans → ∀ k ∈ c.indexed, P k) hc (h.synced j) hj
  · exact (h.node_named j hj m (hm ▸ congrArg Content.named (hother hj).symm)).imp id Nat.lt_succ_of_lt
  · exact (h.synced_named j hj m (hm ▸ congrArg Content.named (hother hj).symm)).imp id Nat.lt_succ_of_lt

theorem points_rename {e : Entry} {i j : Nat} (he : e ≠ .sidecar) (h : (d.rename e i).Points .sidecar j) : d.Points .sidecar j :=
  h.imp (fun h => (Dict.get?_set_ne d.live i he).symm.trans h) id

theorem Backed.opened (h : Backed P orphans d) (hsound : Sound segmentEntries d) (a : Append) : Backed P orphans (opened d a) := by
  rw [QuotaIndex.opened, openSegment]
  split
  next => exact h
  next =>
    refine (h.alloc hsound (.segment []) fun _ _ h => ?_).repoint rfl rfl rfl fun _ => points_rename fun h => ?_
    · cases h
    · cases h

theorem Backed.wrote (h : Backed P orphans d) (hsound : Sound segmentEntries d) (a : Append) (bytes : Bytes) :
    Backed P orphans (wrote d a bytes) := (h.opened hsound a).write _ (.segment bytes) (fun _ => nofun) rfl

theorem Backed.settled (h : Backed P orphans d) (hsound : Sound segmentEntries d) (a : Append) (bytes : Bytes) :
    Backed P orphans (settled d a bytes) := by
  rw [QuotaIndex.settled]
  split
  next => exact ((h.wrote hsound a bytes).sync _).syncDir
  next => exact (h.wrote hsound a bytes).sync _

theorem Backed.allocOrphan (h : Backed P orphans d) (hsound : Sound segmentEntries d) (c : Content Key) :
    Backed P (insert d.fresh orphans) (d.alloc c) := by
  have hother : ∀ {f : Nat → Content Key} {j}, j ≠ d.fresh → Function.update f d.fresh c j = f j := fun hj =>
    Function.update_of_ne hj _ _
  have hold : ∀ {j}, j ∉ insert d.fresh orphans → j ≠ d.fresh ∧ j ∉ orphans := fun hj => not_or.1 hj
  have hnew : ∀ {j}, j ∉ orphans ∧ j < d.fresh → j ∉ insert d.fresh orphans ∧ j < d.fresh + 1 := fun ⟨hnot, hlt⟩ =>
    ⟨not_or.2 ⟨Nat.ne_of_lt hlt, hnot⟩, Nat.lt_succ_of_lt hlt⟩
  have hpointed : ∀ {j}, d.Points .sidecar j → j ≠ d.fresh := fun hj => Nat.ne_of_lt (hsound.lt_fresh _ _ hj)
  refine ⟨fun j hj k hk => ?_, fun j hj k hk => ?_, fun j hj m hm => ?_, fun j hj m hm => ?_, fun j hj => ?_⟩
  · exact h.node j (hold hj).2 k (hother (f := d.node) (hold hj).1 ▸ hk)
  · exact h.synced j (hold hj).2 k (hother (f := d.synced) (hold hj).1 ▸ hk)
  · exact hnew (h.node_named j hj m (hm ▸ congrArg Content.named (hother (hpointed hj)).symm))
  · exact hnew (h.synced_named j hj m (hm ▸ congrArg Content.named (hother (hpointed hj)).symm))
  · rcases Set.mem_insert_iff.1 hj with rfl | hj
    · exact Nat.lt_succ_self _
    · exact Nat.lt_succ_of_lt (h.lt j hj)

theorem Backed.publishKeys (h : Backed P orphans d) (hsound : Sound segmentEntries d) (coverage : Coverage) (keys : List Key) :
    Backed P (insert d.fresh orphans) (publishKeys d coverage keys) := by
  have hkeys := h.allocOrphan hsound (.keys ⟨keys, .whole⟩)
  have hsidecar := hkeys.alloc (hsound.alloc _).sound (.sidecar (newSidecar d.fresh coverage keys)) fun _ => nofun
  exact hsidecar.repoint rfl rfl rfl fun _ => points_rename nofun

theorem Backed.publishBoth (h : Backed P orphans d) (hsound : Sound segmentEntries d) (coverage : Coverage) {keys : List Key}
    (hall : ∀ k ∈ keys, P k) : Backed P orphans (publishBoth d coverage keys) := by
  have hkeys := h.alloc hsound (.keys ⟨keys, .whole⟩) fun _ => hall
  have hsidecar := hkeys.alloc (hsound.alloc _).sound (.sidecar (newSidecar d.fresh coverage keys)) fun _ => nofun
  have hrenamed : Backed P orphans (QuotaIndex.publishKeys d coverage keys) :=
    hsidecar.repoint rfl rfl rfl fun _ => points_rename nofun
  have hnew : ∀ {f : Nat → Content Key} {m}, (Function.update f (d.fresh + 1) (.sidecar (newSidecar d.fresh coverage keys))
      (d.fresh + 1)).named = some m → m ∉ orphans ∧ m < d.fresh + 1 + 1 := fun {f m} hm => by
    rw [Function.update_self] at hm
    obtain rfl : d.fresh = m := Option.some.inj hm
    exact ⟨fun hmem => Nat.lt_irrefl _ (h.lt _ hmem), Nat.lt_succ_of_lt (Nat.lt_succ_self _)⟩
  have hpoints : ∀ {j}, (QuotaIndex.publishBoth d coverage keys).Points .sidecar j →
      j = d.fresh + 1 ∨ (QuotaIndex.publishKeys d coverage keys).Points .sidecar j := fun {j} hj => by
    rcases hj with hlive | hdisk
    · left
      exact (Option.some.inj ((Dict.get?_set_self _ _ _).symm.trans hlive)).symm
    · exact .inr (.inr hdisk)
  refine ⟨hrenamed.node, hrenamed.synced, fun j hj m hm => ?_, fun j hj m hm => ?_, hrenamed.lt⟩
  · rcases hpoints hj with rfl | hj
    · exact hnew hm
    · exact hrenamed.node_named j hj m hm
  · rcases hpoints hj with rfl | hj
    · exact hnew hm
    · exact hrenamed.synced_named j hj m hm

theorem indexed_of_contentOf (h : Backed P orphans d) {e : Entry} {i : Nat} {file : KeyFile Key}
    (hcontent : contentOf d e = some (i, .keys file)) (hi : i ∉ orphans) : ∀ k ∈ file.keys, P k := fun k hk =>
  h.node i hi k (by rw [(node_of_contentOf hcontent).2]; exact hk)

def EntryDurable (d : Dir Key) (a : Append) : Prop :=
  ∀ i, d.live.get? (.segment a.segment) = some i → d.disk.get? (.segment a.segment) = some i

theorem settled_disk (h : EntryDurable d a) (bytes : Bytes) :
    (settled d a bytes).disk.get? (.segment a.segment) = some (target d a) := by
  rw [settled, wrote, opened, target, openSegment]
  split
  next i hi =>
    rw [if_neg Bool.false_ne_true]
    exact h i hi
  next =>
    rw [if_pos rfl]
    exact Dict.get?_set_self _ _ _

theorem settled_synced (d : Dir Key) (a : Append) (bytes : Bytes) :
    (settled d a bytes).synced (target d a) = .segment bytes := by
  have hsynced : ((wrote d a bytes).sync (target d a)).synced (target d a) = .segment bytes :=
    (Function.update_self _ _ _).trans (Function.update_self _ _ _)
  rw [settled]
  split
  next => exact hsynced
  next => exact hsynced

theorem mem_keysOf_data (hkey : a.key keyOf = some k) {valid bytes : Bytes} (hrepair : repairTornTail bytes = some valid) :
    k ∈ keysOf keyOf (valid ++ a.data) := by
  rw [Append.key] at hkey
  split at hkey
  next e hgroup =>
    have hdata : a.data = e.bytes ++ [] := by
      rw [Append.data, hgroup, List.map_singleton, List.flatten_singleton, List.append_nil]
    rw [repair_eq hrepair, hdata, keysOf, lines_flatten (flatten_isLine bytes), lines_cons e.isLine]
    exact List.mem_filterMap.2 ⟨e.bytes, List.mem_append_right _ List.mem_cons_self, hkey⟩
  next => cases hkey

theorem settled_keyDurable (hdurable : EntryDurable d a) (hkey : a.key keyOf = some k) {valid : Bytes}
    (hrepair : repairTornTail (heldBytes d a) = some valid) : KeyDurable keyOf (settled d a (valid ++ a.data)) k := by
  refine ⟨a.segment, a.named, target d a, settled_disk hdurable _, ?_⟩
  rw [settled_synced]
  exact mem_keysOf_data hkey hrepair

/-! ## The promise -/

structure Promise (keyOf : Bytes → Option Key) (orphans : Set Nat) (s : State Key) : Prop where
  sound : Sound segmentEntries s.dir
  backed : Backed (KeyDurable keyOf s.dir) orphans s.dir
  remembered : ∀ p, ∀ k ∈ (s.procs p).keys, KeyDurable keyOf s.dir k
  loaded : ∀ p l, (s.procs p).loaded = some l → l.1 ∉ orphans ∧ l.1 < s.dir.fresh

theorem add_all {file : KeyFile Key} (h : ∀ k ∈ file.keys, P k) (hk : P k) : ∀ k' ∈ (file.add k).keys, P k' := by
  intro k' hk'
  rcases keys_add file k with hsame | hgrown
  · exact h k' (hsame ▸ hk')
  · rw [hgrown, List.mem_append, List.mem_singleton] at hk'
    rcases hk' with hk' | rfl
    · exact h k' hk'
    · exact hk

theorem Left.backed (hleft : Left d a key d') (hsound : Sound segmentEntries d)
    (hbacked : Backed (KeyDurable keyOf d) orphans d) (hkey : ∀ k, key = some k → a.key keyOf = some k ∧ EntryDurable d a) :
    Backed (KeyDurable keyOf d') orphans d' := by
  have hmono := hbacked.mono fun _ => KeyDurable.extend (hleft.extends_ hsound)
  cases hleft with
  | opened => exact hmono.opened hsound a
  | wrote hrepair n => exact hmono.wrote hsound a _
  | synced hrepair => exact (hmono.wrote hsound a _).sync _
  | settled hrepair => exact hmono.settled hsound a _
  | @torn valid hrepair i file hkeys n =>
    have hsettled := hmono.settled hsound a (valid ++ a.data)
    refine hsettled.write _ (.keys _) (fun hi k hk => ?_) rfl
    rw [Content.indexed, keys_tear] at hk
    exact indexed_of_contentOf hsettled hkeys hi k hk
  | @keyed valid hrepair k hk i file hkeys =>
    obtain ⟨hak, hdurable⟩ := hkey k hk
    have hsettled := hmono.settled hsound a (valid ++ a.data)
    have hdk := (settled_keyDurable hdurable hak hrepair).extend (keyed_sync hsound hrepair hkeys (file.add k)).1
    exact hsettled.write i (.keys _) (fun hi => add_all (indexed_of_contentOf hsettled hkeys hi) hdk) rfl

theorem forall_procs {R : Proc Key → Prop} {procs : Nat → Proc Key} {p : Nat} {proc : Proc Key} (h : ∀ p, R (procs p))
    (hproc : R proc) : ∀ q, R (Function.update procs p proc q) := by
  intro q
  by_cases hq : q = p
  · rw [hq, Function.update_self]
    exact hproc
  · rw [Function.update_of_ne hq]
    exact h q

structure ProcSound (P : Key → Prop) (orphans : Set Nat) (fresh : Nat) (proc : Proc Key) : Prop where
  keys : ∀ k ∈ proc.keys, P k
  loaded : ∀ l, proc.loaded = some l → l.1 ∉ orphans ∧ l.1 < fresh

theorem procSound_noKeys {fresh : Nat} : ProcSound P orphans fresh (noKeys : Proc Key) := ⟨nofun, nofun⟩

theorem Promise.proc (h : Promise keyOf orphans s) (p : Nat) :
    ProcSound (KeyDurable keyOf s.dir) orphans s.dir.fresh (s.procs p) := ⟨h.remembered p, h.loaded p⟩

theorem promise_of (hsound : Sound segmentEntries s'.dir) (hbacked : Backed (KeyDurable keyOf s'.dir) orphans s'.dir)
    (hprocs : ∀ p, ProcSound (KeyDurable keyOf s'.dir) orphans s'.dir.fresh (s'.procs p)) : Promise keyOf orphans s' :=
  ⟨hsound, hbacked, fun p => (hprocs p).keys, fun p => (hprocs p).loaded⟩

theorem ProcSound.mono {proc : Proc Key} {fresh fresh' : Nat} (h : ProcSound P orphans fresh proc) (hle : ∀ k, P k → Q k)
    (hfresh : fresh ≤ fresh') : ProcSound Q orphans fresh' proc :=
  ⟨fun k hk => hle k (h.keys k hk), fun l hl => (h.loaded l hl).imp id fun hlt => Nat.lt_of_lt_of_le hlt hfresh⟩

theorem Appended.promise (happended : Appended s a key s') (h : Promise keyOf orphans s)
    (hkey : ∀ k, key = some k → a.key keyOf = some k ∧ EntryDurable s.dir a) : Promise keyOf orphans s' := by
  have hext := happended.extends_ h.sound
  have hfresh := happended.follows.1.grows.fresh_le
  have hprocs := fun p => (h.proc p).mono (fun _ => KeyDurable.extend hext) hfresh
  cases happended with
  | stays hleft => exact promise_of hext.sound (hleft.backed h.sound h.backed hkey) hprocs
  | crashed hleft => exact promise_of hext.sound (hleft.backed h.sound h.backed hkey) (forall_procs hprocs procSound_noKeys)
  | forgets hleft => exact promise_of hext.sound (hleft.backed h.sound h.backed hkey) (forall_procs hprocs procSound_noKeys)
  | @learns valid hrepair k hk i file hkeys loaded hloaded =>
    obtain ⟨hak, hdurable⟩ := hkey k hk
    obtain ⟨hwritten, hsynced⟩ := keyed_sync h.sound hrepair hkeys (file.add k)
    have hleft : Left s.dir a key (keyed s.dir a (valid ++ a.data) i (file.add k)) := .keyed hrepair hk hkeys
    have hdk := ((settled_keyDurable hdurable hak hrepair).extend hwritten).extend hsynced
    have hbacked := (hleft.backed h.sound h.backed hkey).mono fun _ => KeyDurable.extend hsynced
    refine promise_of hext.sound (hbacked.sync i) (forall_procs hprocs ⟨fun k' hk' => ?_, fun l hl => ?_⟩)
    · rw [List.mem_append, List.mem_singleton] at hk'
      rcases hk' with hk' | rfl
      · exact (hprocs a.proc).keys k' hk'
      · exact hdk
    · rw [show loaded = some l from hl] at hloaded
      obtain ⟨l', hl', heq⟩ := Option.map_eq_some_iff.1 hloaded.symm
      rw [← heq]
      exact (hprocs a.proc).loaded l' hl'

theorem loadKeys_sound {proc proc' : Proc Key} (hbacked : Backed P orphans d) (hproc : ProcSound P orphans d.fresh proc)
    (hload : loadKeys d proc = some proc') : ProcSound P orphans d.fresh proc' := by
  have hcomplete : ∀ {file : KeyFile Key} {keys}, file.complete = some keys → keys = file.keys := by
    intro file keys h
    unfold KeyFile.complete at h
    split at h
    next => cases h
    next => exact (Option.some.inj h).symm
  rw [loadKeys] at hload
  split at hload
  next caught hcaught =>
    cases hload
    unfold catchUp at hcaught
    split at hcaught
    next i consumed j file hloaded hkeys =>
      obtain ⟨hi, hlt⟩ := hproc.loaded _ hloaded
      split at hcaught
      next hsame =>
        obtain ⟨rfl, _⟩ := hsame
        split at hcaught
        next =>
          cases hcaught
          exact hproc
        next =>
          obtain ⟨keys, hkeys', rfl⟩ := Option.map_eq_some_iff.1 hcaught
          obtain rfl := hcomplete hkeys'
          refine ⟨fun k hk => ?_, fun l hl => ?_⟩
          · rcases List.mem_append.1 hk with hk | hk
            · exact hproc.keys k hk
            · exact indexed_of_contentOf hbacked hkeys hi k (List.mem_of_mem_drop hk)
          · cases hl
            exact ⟨hi, hlt⟩
      next => cases hcaught
    next => cases hcaught
  next =>
    split at hload
    next => cases hload
    next sidecar i file hvalid =>
      split at hload
      next => cases hload
      next keys hkeys =>
        split at hload
        next => cases hload
        next =>
          cases hload
          obtain rfl := hcomplete hkeys
          obtain ⟨j, hsidecar⟩ := sidecar_of_validate hvalid
          obtain ⟨hlive, hnode⟩ := node_of_contentOf hsidecar
          have hnamed : (d.node j).named = some i := by
            rw [hnode, (validFor_of_validate hvalid).2.1]
            rfl
          obtain ⟨hi, hlt⟩ := hbacked.node_named j (.inl hlive) i hnamed
          refine ⟨indexed_of_contentOf hbacked (contentOf_of_validate hvalid) hi, fun l hl => ?_⟩
          cases hl
          exact ⟨hi, hlt⟩

theorem Took.promise {halt : Option Halt} (htook : Took keyOf s a halt s') (h : Promise keyOf orphans s)
    (hdurable : ∀ proc k, a.dedupe = true → loadKeys s.dir (s.procs a.proc) = some proc → a.key keyOf = some k → k ∉ proc.keys →
      reachesKey halt = true → EntryDurable s.dir a) : Promise keyOf orphans s' := by
  have hloads : ∀ {proc}, (proc = noKeys ∨ loadKeys s.dir (s.procs a.proc) = some proc) →
      Promise keyOf orphans (s.setProc a.proc proc) := fun hproc => by
    refine promise_of h.sound h.backed (forall_procs h.proc ?_)
    rcases hproc with rfl | hload
    · exact procSound_noKeys
    · exact loadKeys_sound h.backed (h.proc a.proc) hload
  cases htook with
  | idle => exact h
  | loads hproc => exact hloads hproc
  | plain happended => exact happended.promise h nofun
  | deduped hdedupe hload hkey hnew happended =>
    refine happended.promise (hloads (.inr hload)) fun k hk => ?_
    rw [writtenKey] at hk
    split at hk
    next hreaches =>
      cases hk
      exact ⟨hkey, hdurable _ _ hdedupe hload hkey hnew hreaches⟩
    next => cases hk

theorem publish_promise (h : Promise keyOf orphans s) {p : Nat} {coverage : Coverage} {keys : List Key} {halt : Option PublishHalt}
    (hkeys : halt ≠ some .keysRenamed → ∀ k ∈ keys, KeyDurable keyOf s.dir k) :
    ∃ orphans', Promise keyOf orphans' (publish s p coverage keys halt) := by
  have hext := publish_extends h.sound p coverage keys halt
  have hprocs := fun p => (h.proc p).mono (fun _ => KeyDurable.extend hext) (follows_publish s p coverage keys halt).grows.fresh_le
  have hmono := h.backed.mono fun _ => KeyDurable.extend hext
  rw [publish.eq_def] at hext hprocs hmono ⊢
  split at hext
  next =>
    refine ⟨_, promise_of hext.sound (hmono.publishKeys h.sound coverage keys) (forall_procs (fun p => ?_) procSound_noKeys)⟩
    exact ⟨(hprocs p).keys, fun l hl => ⟨not_or.2 ⟨Nat.ne_of_lt (h.loaded p l hl).2, (h.loaded p l hl).1⟩, ((hprocs p).loaded l hl).2⟩⟩
  next =>
    have hdurable := fun k hk => (hkeys (by simp) k hk).extend hext
    exact ⟨_, promise_of hext.sound (hmono.publishBoth h.sound coverage hdurable) (forall_procs hprocs procSound_noKeys)⟩
  next =>
    have hdurable := fun k hk => (hkeys (by simp) k hk).extend hext
    refine ⟨_, promise_of hext.sound (hmono.publishBoth h.sound coverage hdurable).syncDir (forall_procs hprocs ⟨hdurable, ?_⟩)⟩
    intro l hl
    cases hl
    exact ⟨fun hmem => Nat.lt_irrefl _ (h.backed.lt _ hmem), Nat.lt_succ_of_lt (Nat.lt_succ_self _)⟩

theorem promise_noJournal : Promise keyOf ∅ (noJournal : State Key) :=
  promise_of sound_empty ⟨fun _ _ => nofun, fun _ _ => nofun, fun _ h => (nomatch h.elim id id), fun _ h => (nomatch h.elim id id), nofun⟩
    fun _ => procSound_noKeys

/-! ## Runs -/

section
variable [LinearOrder Key]

instance (dir : Dir Key) (k : Key) : Decidable (KeyThere keyOf dir k) :=
  inferInstanceAs (Decidable (∃ name ∈ listSegments dir, k ∈ keysOf keyOf (bytesAt dir name)))

section
variable (keyOf : Bytes → Option Key) (suffixBound maxAttempts : Nat)

/-- A deduplicating append that gets to write its key finds its segment's entry durable, and a rebuild that puts its
sidecar in place lists only durable keys. -/
def Meets (s : State Key) : Event → Prop
  | .append a halt => ∀ proc k, a.dedupe = true → loadKeys s.dir (s.procs a.proc) = some proc → a.key keyOf = some k →
      k ∉ proc.keys → reachesKey halt = true → EntryDurable s.dir a
  | .rebuild p halt => publishes keyOf suffixBound maxAttempts s p = true → halt ≠ some .keysRenamed →
      ∀ k, Listed keyOf s.dir k → KeyDurable keyOf s.dir k
  | _ => True

def MeetsAll : State Key → List Event → Prop
  | _, [] => True
  | s, e :: events => Meets keyOf suffixBound maxAttempts s e ∧ MeetsAll (step keyOf suffixBound maxAttempts s e) events

end

variable {suffixBound maxAttempts : Nat} {events : List Event}

/-- **A step that meets the condition** keeps every key that can be loaded durable. -/
theorem step_promise {orphans : Set Nat} (h : Promise keyOf orphans s) (htracking : Tracking keyOf s) {e : Event}
    (he : e.ordinary = true) (hmeets : Meets keyOf suffixBound maxAttempts s e) :
    ∃ orphans', Promise keyOf orphans' (step keyOf suffixBound maxAttempts s e) := by
  have hext : Extends segmentEntries s.dir (step keyOf suffixBound maxAttempts s e).dir := step_extends h.sound he
  have hmono := h.backed.mono fun _ => KeyDurable.extend hext
  have hprocs : s.dir.fresh ≤ (step keyOf suffixBound maxAttempts s e).dir.fresh → ∀ p, ProcSound
      (KeyDurable keyOf (step keyOf suffixBound maxAttempts s e).dir) orphans (step keyOf suffixBound maxAttempts s e).dir.fresh
      (s.procs p) := fun hfresh p => (h.proc p).mono (fun _ => KeyDurable.extend hext) hfresh
  cases e with
  | append a halt => exact ⟨_, (append_took : Took keyOf s a halt _).promise h hmeets⟩
  | unlinkEmpty name =>
    refine ⟨orphans, ?_⟩
    rw [step] at hext hmono hprocs ⊢
    split
    next hcontent =>
      rw [hcontent] at hext hmono hprocs
      split
      next hempty =>
        simp only [if_pos hempty] at hext hmono hprocs
        refine promise_of hext.sound (hmono.repoint rfl rfl rfl fun i hi => hi.imp (fun hlive => ?_) id) (hprocs (le_refl _))
        exact ((Dict.get?_erase _ _ _).trans (if_neg (by simp))).symm.trans hlive
      next => exact h
    next => exact h
  | syncDir => exact ⟨orphans, promise_of hext.sound hmono.syncDir (hprocs (le_refl _))⟩
  | rebuild p halt =>
    have hstep : Rebuilt keyOf suffixBound maxAttempts s p halt (step keyOf suffixBound maxAttempts s (.rebuild p halt)) :=
      rebuildStep_rebuilt
    clear hext hmono hprocs
    generalize step keyOf suffixBound maxAttempts s (.rebuild p halt) = s' at hstep ⊢
    cases hstep with
    | idle => exact ⟨orphans, h⟩
    | started => exact ⟨orphans, h.sound, h.backed, h.remembered, h.loaded⟩
    | advanced => exact ⟨orphans, h.sound, h.backed, h.remembered, h.loaded⟩
    | failed => exact ⟨orphans, h.sound, h.backed, h.remembered, h.loaded⟩
    | @published r coverage keys hr hadvance =>
      have hentry : ∀ e i, s.dir.live.get? e = some i → i < s.dir.fresh := fun e i he => h.sound.lt_fresh e i (.inl he)
      obtain ⟨hscanned, hcoverage⟩ := advance_publish hentry (htracking p r hr) hadvance
      have hpublishes := publishes_iff.2 ⟨r, coverage, keys, hr, hadvance⟩
      have hidle : Promise keyOf orphans { s with rebuild := none } := ⟨h.sound, h.backed, h.remembered, h.loaded⟩
      refine publish_promise hidle fun hhalt k hk => ?_
      exact hmeets hpublishes hhalt k ((mem_iff_listed hscanned hcoverage k).1 hk)
  | exit p => exact ⟨orphans, promise_of h.sound h.backed (forall_procs h.proc procSound_noKeys)⟩
  | powerLoss => exact ⟨orphans, promise_of hext.sound hmono.powerLoss fun _ => procSound_noKeys⟩
  | replace name bytes => cases he
  | move source target => cases he
  | remove name => cases he

theorem run_promise {orphans : Set Nat} (h : Promise keyOf orphans s) (htracking : Tracking keyOf s)
    (hordinary : ∀ e ∈ events, e.ordinary = true) (hmeets : MeetsAll keyOf suffixBound maxAttempts s events) :
    ∃ orphans', Promise keyOf orphans' (run keyOf suffixBound maxAttempts s events) := by
  induction events generalizing s orphans with
  | nil => exact ⟨orphans, h⟩
  | cons e events ih =>
    obtain ⟨orphans', hstep⟩ := step_promise h htracking (hordinary e List.mem_cons_self) hmeets.1
    exact ih hstep (step_tracking (fun e i hget => h.sound.lt_fresh e i (.inl hget)) htracking e)
      (fun e' he' => hordinary e' (List.mem_cons_of_mem _ he')) hmeets.2

theorem run_extends (h : Sound segmentEntries s.dir) (hordinary : ∀ e ∈ events, e.ordinary = true) :
    Extends segmentEntries s.dir (run keyOf suffixBound maxAttempts s events).dir := by
  induction events generalizing s with
  | nil => exact h.refl
  | cons e events ih =>
    have hstep : Extends segmentEntries s.dir (step keyOf suffixBound maxAttempts s e).dir :=
      step_extends h (hordinary e List.mem_cons_self)
    exact hstep.trans (ih hstep.sound fun e' he' => hordinary e' (List.mem_cons_of_mem _ he'))

/-- **A skipped observation is on a line**, and stays on one through every later crash and power loss, in a run whose
steps meet the condition. -/
theorem skipped_durable (hordinary : ∀ e ∈ events, e.ordinary = true)
    (hmeets : MeetsAll keyOf suffixBound maxAttempts noJournal events) {a : Append} {halt : Option Halt}
    (hskip : (append keyOf (run keyOf suffixBound maxAttempts noJournal events) a halt).2 = .skipped) {later : List Event}
    (hlater : ∀ e ∈ later, e.ordinary = true) :
    ∃ k, a.key keyOf = some k ∧ KeyThere keyOf (run keyOf suffixBound maxAttempts
      (append keyOf (run keyOf suffixBound maxAttempts noJournal events) a halt).1 later).dir k := by
  obtain ⟨orphans, hpromise⟩ := run_promise promise_noJournal nofun hordinary hmeets
  obtain ⟨proc, k, hload, hkey, hmem⟩ := mem_of_skipped hskip
  have hdurable := (loadKeys_sound hpromise.backed (hpromise.proc a.proc) hload).keys k hmem
  have happend : Extends segmentEntries _ _ := (append_took : Took keyOf _ a halt (append keyOf _ a halt).1).extends_ hpromise.sound
  have hrun : Extends segmentEntries _ (run keyOf suffixBound maxAttempts _ later).dir := run_extends happend.sound hlater
  exact ⟨k, hkey, (hdurable.extend (happend.trans hrun)).there hrun.sound⟩

end

def seven (p : Nat) (dedupe : Bool) : Append := ⟨p, "observations-2026-09.jsonl", by decide, [⟨[7], by decide⟩], dedupe⟩

theorem meets_of_empty {s : State Nat} {p : Nat} {halt : Option PublishHalt} (h : listSegments s.dir = []) :
    Meets sevens 4194304 5 s (.rebuild p halt) := fun _ _ k ⟨name, hname, _⟩ => by
  rw [h] at hname
  cases hname

theorem skipped_durable_again :
    (append sevens (run sevens 4194304 5 noJournal (List.replicate 8 (.rebuild 1 none) ++ [.append (seven 0 true) none]))
      (seven 2 true) none).2 = .skipped ∧
    ∃ k, (seven 2 true).key sevens = some k ∧ KeyThere sevens (run sevens 4194304 5 (append sevens
      (run sevens 4194304 5 noJournal (List.replicate 8 (.rebuild 1 none) ++ [.append (seven 0 true) none])) (seven 2 true) none).1
      [.powerLoss]).dir k := by
  have hskip : (append sevens (run sevens 4194304 5 noJournal
      (List.replicate 8 (.rebuild 1 none) ++ [.append (seven 0 true) none])) (seven 2 true) none).2 = .skipped := by decide +kernel
  refine ⟨hskip, skipped_durable (by decide) ?_ hskip (by decide)⟩
  have hempty : ∀ {s : State Nat} {events}, listSegments s.dir = [] → MeetsAll sevens 4194304 5
      (step sevens 4194304 5 s (.rebuild 1 none)) events → MeetsAll sevens 4194304 5 s (.rebuild 1 none :: events) :=
    fun h hrest => ⟨meets_of_empty h, hrest⟩
  have hnone : (run sevens 4194304 5 noJournal (List.replicate 8 (.rebuild 1 none))).dir.live.get?
      (.segment (seven 0 true).segment) = none := by decide +kernel
  have hdurable : EntryDurable (run sevens 4194304 5 noJournal (List.replicate 8 (.rebuild 1 none))).dir (seven 0 true) :=
    fun i hi => absurd (hnone.symm.trans hi) nofun
  exact hempty (by decide +kernel) (hempty (by decide +kernel) (hempty (by decide +kernel) (hempty (by decide +kernel)
    (hempty (by decide +kernel) (hempty (by decide +kernel) (hempty (by decide +kernel) (hempty (by decide +kernel)
      ⟨fun _ _ _ _ _ _ _ => hdurable, trivial⟩)))))))

/-- **A skipped observation is lost with the power**: the rebuild listed it from a line that a crash left unsynced. -/
theorem skipped_then_lost :
    let s := run sevens 4194304 5 noJournal (.append (seven 0 false) (some (.written 2)) :: List.replicate 9 (.rebuild 1 none))
    (append sevens s (seven 2 true) none).2 = .skipped ∧ KeyThere sevens (append sevens s (seven 2 true) none).1.dir 7 ∧
      ¬ KeyThere sevens (run sevens 4194304 5 (append sevens s (seven 2 true) none).1 [.powerLoss]).dir 7 := by
  decide +kernel

end Cctally.QuotaIndex
