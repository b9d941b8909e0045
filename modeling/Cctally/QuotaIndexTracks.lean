import Cctally.QuotaIndexSteps
import Cctally.SegmentsOrder

/-!
# What a rebuild has scanned

The ranges a rebuild scans begin and end at line ends and tile each segment from its start, so
the keys it has written are those on the lines it covers, however the files grow meanwhile.
-/

namespace Cctally.QuotaIndex

open Attribution (segmentSortKey)
open Segments (isSegmentName mem_sortSegments sortSegments_sorted)
open TornLines DurableDir

variable {Key : Type*}

def tailLength (bytes : Bytes) : Nat := bytes.length - (lines newline bytes).flatten.length

theorem completeLineOffset_eq (bytes : Bytes) : completeLineOffset bytes =
    if tailLength bytes < COMPLETE_LINE_TAIL_WINDOW then (lines newline bytes).flatten.length else 0 := by
  obtain ⟨t, _, _, heq⟩ := eq_flatten_append newline bytes
  have hdrop := @rfind_drop_eq _ _ newline bytes
  have hwindow : 0 < COMPLETE_LINE_TAIL_WINDOW := Nat.two_pow_pos 20
  rw [completeLineOffset, tailLength]
  generalize COMPLETE_LINE_TAIL_WINDOW = window at hwindow ⊢
  generalize hw : (lines newline bytes).flatten = w at heq hdrop ⊢
  have hlength : bytes.length = w.length + t.length := by rw [heq, List.length_append]
  by_cases hzero : bytes.length = 0
  · rw [if_pos hzero]
    split <;> omega
  rw [if_neg hzero]
  by_cases hlast : bytes.getLast? = some newline
  · have hwhole := eq_flatten_of_getLast? hlast
    rw [hw] at hwhole
    rw [if_pos hlast, hwhole, Nat.sub_self, if_pos hwindow]
  · rw [if_neg hlast]
    simp only
    rw [hdrop]
    split
    next hnone =>
      have hge : ¬ bytes.length - min bytes.length window < w.length := fun hlt => by
        rw [if_pos hlt] at hnone
        cases hnone
      split <;> omega
    next i hsome =>
      by_cases hlt : bytes.length - min bytes.length window < w.length
      · rw [if_pos hlt] at hsome
        have hi := Option.some.inj hsome
        rw [if_pos (by omega)]
        omega
      · rw [if_neg hlt] at hsome
        cases hsome

theorem completeLineOffset_cut (bytes : Bytes) : Cut newline bytes (completeLineOffset bytes) := by
  rw [completeLineOffset_eq]
  split
  · exact cut_all bytes
  · exact cut_zero bytes

variable {dir : Dir Key}

theorem mem_listSegments {name : String} :
    name ∈ listSegments dir ↔ isSegmentName name = true ∧ ∃ i, dir.live.get? (.segment name) = some i := by
  rw [listSegments, mem_sortSegments, List.mem_filterMap]
  constructor
  · intro ⟨e, he, hname⟩
    cases e with
    | segment name' =>
      simp only at hname
      split at hname
      next hsegment =>
        obtain rfl := Option.some.inj hname
        exact ⟨hsegment, Dict.mem_keys.1 he⟩
      next => cases hname
    | keys => cases hname
    | sidecar => cases hname
  · intro ⟨hsegment, hlive⟩
    exact ⟨.segment name, Dict.mem_keys.2 hlive, if_pos hsegment⟩

theorem listSegments_sorted (dir : Dir Key) :
    (listSegments dir).Pairwise fun a b => segmentSortKey a < segmentSortKey b := by
  refine sortSegments_sorted (List.Nodup.filterMap (fun e e' name h h' => ?_) dir.live.nodup)
  cases e <;> cases e' <;> simp at h h'
  rw [h.2, h'.2]

/-! ## Ranges and what they hold -/

section
variable (keyOf : Bytes → Option Key)

def keysUpTo (dir : Dir Key) (i extent : Nat) : List Key := keysOf keyOf ((dir.node i).bytes.take extent)

structure Scanned (dir : Dir Key) (coverage : Coverage) (written : List Key) : Prop where
  cut : ∀ name i extent, coverage.get? name = some (i, extent) → i < dir.fresh ∧ Cut newline (dir.node i).bytes extent
  mem : ∀ k, k ∈ written ↔ ∃ name i extent, coverage.get? name = some (i, extent) ∧ k ∈ keysUpTo keyOf dir i extent
  nodup : written.Nodup

end

structure Tiles (dir : Dir Key) (coverage : Coverage) (t : Target) : Prop where
  lt : t.node < dir.fresh
  start_cut : Cut newline (dir.node t.node).bytes t.start
  stop_cut : Cut newline (dir.node t.node).bytes t.stop
  le : t.start ≤ t.stop
  goes_on : coverage.get? t.name = some (t.node, t.start) ∨ coverage.get? t.name = none ∧ t.start = 0

variable {keyOf : Bytes → Option Key} {dir' : Dir Key} {coverage : Coverage} {written found : List Key} {t : Target}

theorem Cut.follow {i n : Nat} (h : Follows dir dir') (hi : i < dir.fresh) (hcut : Cut newline (dir.node i).bytes n) :
    Cut newline (dir'.node i).bytes n ∧ (dir'.node i).bytes.take n = (dir.node i).bytes.take n :=
  hcut.grow (h.grows.node_le i hi)

theorem Scanned.follow (h : Follows dir dir') (hs : Scanned keyOf dir coverage written) : Scanned keyOf dir' coverage written := by
  refine ⟨fun name i extent hget => ?_, fun k => ?_, hs.nodup⟩
  · obtain ⟨hi, hcut⟩ := hs.cut name i extent hget
    exact ⟨Nat.lt_of_lt_of_le hi h.grows.fresh_le, (Cut.follow h hi hcut).1⟩
  · rw [hs.mem]
    have hsame : ∀ name i extent, coverage.get? name = some (i, extent) → keysUpTo keyOf dir' i extent = keysUpTo keyOf dir i extent := by
      intro name i extent hget
      obtain ⟨hi, hcut⟩ := hs.cut name i extent hget
      rw [keysUpTo, keysUpTo, (Cut.follow h hi hcut).2]
    constructor
    · intro ⟨name, i, extent, hget, hk⟩
      exact ⟨name, i, extent, hget, hsame name i extent hget ▸ hk⟩
    · intro ⟨name, i, extent, hget, hk⟩
      exact ⟨name, i, extent, hget, (hsame name i extent hget).symm ▸ hk⟩

theorem Tiles.follow (h : Follows dir dir') (ht : Tiles dir coverage t) : Tiles dir' coverage t :=
  ⟨Nat.lt_of_lt_of_le ht.lt h.grows.fresh_le, (Cut.follow h ht.lt ht.start_cut).1, (Cut.follow h ht.lt ht.stop_cut).1, ht.le,
    ht.goes_on⟩

theorem Tiles.set {name : String} {found : Nat × Nat} (h : Tiles dir coverage t) (hname : name ≠ t.name) :
    Tiles dir (coverage.set name found) t := by
  refine ⟨h.lt, h.start_cut, h.stop_cut, h.le, ?_⟩
  rw [Dict.get?_set_ne _ _ hname]
  exact h.goes_on

theorem Tiles.keysUpTo_stop (h : Tiles dir coverage t) : keysUpTo keyOf dir t.node t.stop =
    keysUpTo keyOf dir t.node t.start ++ keysOf keyOf (((dir.node t.node).bytes.take t.stop).drop t.start) := by
  rw [keysUpTo, keysUpTo, keysOf, keysOf, keysOf, h.start_cut.lines_take h.stop_cut h.le, List.filterMap_append]

theorem scanRange_found (h : scanRange keyOf dir t = .found found) :
    found = keysOf keyOf (((dir.node t.node).bytes.take t.stop).drop t.start) := by
  rw [scanRange] at h
  split at h
  next hle =>
    obtain rfl := Scan.found.inj h
    rw [List.drop_eq_nil_of_le (by rw [List.length_take]; omega)]
    rfl
  next =>
    split at h
    next => cases h
    next i content hcontent =>
      split at h
      next => cases h
      next hsame =>
        obtain ⟨rfl, _⟩ : i = t.node ∧ _ := not_or.1 hsame |>.imp not_not.1 id
        rw [(node_of_contentOf hcontent).2]
        simp only at h
        split at h
        next => exact (Scan.found.inj h).symm
        next => cases h

section
variable [LinearOrder Key]

theorem mem_addNew {k : Key} : k ∈ addNew written found ↔ k ∈ written ∨ k ∈ found := by
  induction found generalizing written with
  | nil => simp [addNew]
  | cons x found ih =>
    rw [addNew, List.foldl_cons, ← addNew, ih, List.mem_cons]
    split
    next hx =>
      have hkx : k = x → k ∈ written := fun heq => heq ▸ hx
      tauto
    next =>
      rw [List.mem_append, List.mem_singleton]
      tauto

theorem nodup_addNew (h : written.Nodup) : (addNew written found).Nodup := by
  induction found generalizing written with
  | nil => exact h
  | cons x found ih =>
    rw [addNew, List.foldl_cons, ← addNew]
    refine ih ?_
    split
    next => exact h
    next hx => exact List.nodup_append.2 ⟨h, List.nodup_singleton x, fun a ha b hb heq => hx (by simp_all)⟩

theorem Scanned.scan (h : Scanned keyOf dir coverage written) (ht : Tiles dir coverage t)
    (hscan : scanRange keyOf dir t = .found found) :
    Scanned keyOf dir (coverage.set t.name (t.node, t.stop)) (addNew written found) := by
  obtain rfl := scanRange_found hscan
  refine ⟨fun name i extent hget => ?_, fun k => ?_, nodup_addNew h.nodup⟩
  · rw [Dict.get?_set] at hget
    split at hget
    next =>
      cases hget
      exact ⟨ht.lt, ht.stop_cut⟩
    next => exact h.cut name i extent hget
  · rw [mem_addNew, h.mem]
    constructor
    · intro hk
      rcases hk with ⟨name, i, extent, hget, hk⟩ | hk
      · by_cases hname : t.name = name
        · subst hname
          rcases ht.goes_on with hon | ⟨hnone, _⟩
          · rw [hon] at hget
            cases hget
            refine ⟨t.name, t.node, t.stop, Dict.get?_set_self _ _ _, ?_⟩
            rw [ht.keysUpTo_stop]
            exact List.mem_append_left _ hk
          · rw [hnone] at hget
            cases hget
        · exact ⟨name, i, extent, by rw [Dict.get?_set_ne _ _ hname]; exact hget, hk⟩
      · refine ⟨t.name, t.node, t.stop, Dict.get?_set_self _ _ _, ?_⟩
        rw [ht.keysUpTo_stop]
        exact List.mem_append_right _ hk
    · intro hk
      obtain ⟨name, i, extent, hget, hk⟩ := hk
      rw [Dict.get?_set] at hget
      split at hget
      next hname =>
        cases hget
        rw [ht.keysUpTo_stop, List.mem_append] at hk
        refine hk.imp (fun hk => ?_) id
        rcases ht.goes_on with hon | ⟨_, hzero⟩
        · exact ⟨t.name, t.node, t.start, hon, hk⟩
        · rw [hzero, keysUpTo, List.take_zero] at hk
          cases hk
      next => exact .inl ⟨name, i, extent, hget, hk⟩

theorem Scanned.scanTargets {todo : List Target} {coverage' : Coverage} {written' : List Key}
    (h : Scanned keyOf dir coverage written) (ht : ∀ t ∈ todo, Tiles dir coverage t) (hdistinct : (todo.map Target.name).Nodup)
    (hscan : scanTargets keyOf dir todo coverage written = .found (coverage', written')) :
    Scanned keyOf dir coverage' written' ∧ (∀ t ∈ todo, coverage'.get? t.name = some (t.node, t.stop)) ∧
      ∀ name ∉ todo.map Target.name, coverage'.get? name = coverage.get? name := by
  induction todo generalizing coverage written with
  | nil =>
    cases hscan
    exact ⟨h, nofun, fun _ _ => rfl⟩
  | cons t todo ih =>
    rw [QuotaIndex.scanTargets] at hscan
    rw [List.map_cons, List.nodup_cons] at hdistinct
    split at hscan
    next found hfound =>
      have hother : ∀ t' ∈ todo, t.name ≠ t'.name := fun t' ht' heq =>
        hdistinct.1 (heq ▸ List.mem_map_of_mem ht')
      obtain ⟨hscanned, hset, hkept⟩ := ih (h.scan (ht t List.mem_cons_self) hfound)
        (fun t' ht' => (ht t' (List.mem_cons_of_mem _ ht')).set (hother t' ht')) hdistinct.2 hscan
      refine ⟨hscanned, fun t' ht' => ?_, fun name hname => ?_⟩
      · rcases List.mem_cons.1 ht' with rfl | ht'
        · rw [hkept _ hdistinct.1, Dict.get?_set_self]
        · exact hset t' ht'
      · rw [List.map_cons, List.mem_cons, not_or] at hname
        rw [hkept name hname.2, Dict.get?_set_ne _ _ (Ne.symm hname.1)]
    next => cases hscan
    next => cases hscan

end

/-! ## A rebuild's steps -/

def Phase.todo : Phase → List Target
  | scan todo => todo
  | grow _ todo => todo
  | _ => []

structure Tracks (keyOf : Bytes → Option Key) (dir : Dir Key) (r : Rebuild Key) : Prop where
  scanned : Scanned keyOf dir r.coverage r.written
  tiles : ∀ t ∈ r.phase.todo, Tiles dir r.coverage t
  distinct : (r.phase.todo.map Target.name).Nodup

theorem Tracks.follow {r : Rebuild Key} (h : Follows dir dir') (ht : Tracks keyOf dir r) : Tracks keyOf dir' r :=
  ⟨ht.scanned.follow h, fun t hmem => (ht.tiles t hmem).follow h, ht.distinct⟩

theorem scanned_empty (keyOf : Bytes → Option Key) (dir : Dir Key) : Scanned keyOf dir Dict.empty [] :=
  ⟨nofun, fun _ => ⟨nofun, fun ⟨_, _, _, hget, _⟩ => nomatch hget⟩, List.nodup_nil⟩

theorem Tracks.next {r r' : Rebuild Key} (h : Tracks keyOf dir r) (hcoverage : r'.coverage = r.coverage)
    (hwritten : r'.written = r.written) (htodo : r'.phase.todo = []) : Tracks keyOf dir r' := by
  refine ⟨?_, ?_, ?_⟩
  · rw [hcoverage, hwritten]
    exact h.scanned
  · rw [htodo]
    exact nofun
  · rw [htodo]
    exact List.nodup_nil

theorem mem_captureSegments (hentry : ∀ e i, dir.live.get? e = some i → i < dir.fresh) (ht : t ∈ captureSegments dir) : Tiles dir Dict.empty t := by
  obtain ⟨name, _, hname⟩ := List.mem_filterMap.1 ht
  obtain ⟨found, hfound, rfl⟩ := Option.map_eq_some_iff.1 hname
  obtain ⟨hlive, hnode⟩ := node_of_contentOf hfound
  refine ⟨hentry _ _ hlive, cut_zero _, ?_, Nat.zero_le _, .inr ⟨rfl, rfl⟩⟩
  simp only [hnode]
  exact completeLineOffset_cut _

theorem map_name_captureSegments (dir : Dir Key) : (captureSegments dir).map Target.name = listSegments dir := by
  have hname : ∀ name ∈ listSegments dir, ((contentOf dir (.segment name)).map fun found =>
      (⟨name, found.1, 0, completeLineOffset found.2.bytes⟩ : Target)).map Target.name = some name := by
    intro name hmem
    obtain ⟨_, i, hlive⟩ := mem_listSegments.1 hmem
    rw [contentOf, hlive]
    rfl
  rw [captureSegments, List.map_filterMap, List.filterMap_congr hname, List.filterMap_some]

theorem uncoveredOf_eq {measure : Bytes → Nat} {name : String} (h : uncoveredOf dir coverage measure name = .ok t) :
    t.name = name ∧ ∃ content, contentOf dir (.segment name) = some (t.node, content) ∧ t.stop = measure content.bytes ∧
      t.start ≤ t.stop ∧ (coverage.get? name = some (t.node, t.start) ∨ coverage.get? name = none ∧ t.start = 0) := by
  rw [uncoveredOf] at h
  split at h
  next => cases h
  next i content hcontent =>
    split at h
    next node extent hget =>
      split at h
      next => cases h
      next hkept =>
        cases h
        rw [not_or, not_or, not_not, not_lt, not_lt] at hkept
        exact ⟨rfl, content, hcontent, rfl, hkept.2.2, .inl (hkept.1 ▸ hget)⟩
    next hget =>
      cases h
      exact ⟨rfl, content, hcontent, rfl, Nat.zero_le _, .inr ⟨hget, rfl⟩⟩

theorem uncovered_eq {measure : Bytes → Nat} {targets : List Target} (h : uncovered dir coverage measure = .ok targets) :
    (∀ name, coverage.get? name ≠ none → name ∈ listSegments dir) ∧
      (listSegments dir).mapM (uncoveredOf dir coverage measure) = .ok targets := by
  rw [uncovered] at h
  split at h
  next => cases h
  next hnone =>
    refine ⟨fun name hname => ?_, h⟩
    have hall := List.find?_eq_none.1 hnone name (Dict.mem_keys.2 (Option.ne_none_iff_exists'.1 hname))
    simpa using hall

theorem map_name_uncovered {measure : Bytes → Nat} {targets : List Target} (h : uncovered dir coverage measure = .ok targets) :
    targets.map Target.name = listSegments dir := by
  have hmap := Except.map_of_mapM (fun _ _ hok => (uncoveredOf_eq hok).1) (uncovered_eq h).2
  rwa [List.map_id'] at hmap

theorem uncovered_tiles (hentry : ∀ e i, dir.live.get? e = some i → i < dir.fresh) (hscanned : Scanned keyOf dir coverage written) {targets : List Target}
    (h : uncovered dir coverage completeLineOffset = .ok targets) : ∀ t ∈ targets, Tiles dir coverage t := by
  intro t ht
  obtain ⟨name, _, hok⟩ := (Except.mem_of_mapM (uncovered_eq h).2 t).1 ht
  obtain ⟨rfl, content, hcontent, hstop, hle, hon⟩ := uncoveredOf_eq hok
  obtain ⟨hlive, hnode⟩ := node_of_contentOf hcontent
  refine ⟨hentry _ _ hlive, ?_, ?_, hle, hon⟩
  · rcases hon with hon | ⟨_, hzero⟩
    · exact (hscanned.cut _ _ _ hon).2
    · rw [hzero]
      exact cut_zero _
  · rw [hstop, hnode]
    exact completeLineOffset_cut _

section
variable [LinearOrder Key] {suffixBound maxAttempts : Nat}

theorem scanOne_tracks {r r' : Rebuild Key} {after : Phase} {todo : List Target} (h : Tracks keyOf dir r)
    (htodo : r.phase.todo = t :: todo) (hafter : after.todo = todo) (hnext : r.scanOne keyOf dir t after = .next r') :
    Tracks keyOf dir r' := by
  have htiles := h.tiles
  have hdistinct := h.distinct
  rw [htodo] at htiles hdistinct
  rw [List.map_cons, List.nodup_cons] at hdistinct
  rw [Rebuild.scanOne, scanTargets] at hnext
  split at hnext
  next coverage' written' hfound =>
    cases hnext
    split at hfound
    next found hscan =>
      cases hfound
      refine ⟨h.scanned.scan (htiles t List.mem_cons_self) hscan, fun t' ht' => ?_, ?_⟩
      · rw [hafter] at ht'
        exact (htiles t' (List.mem_cons_of_mem _ ht')).set fun heq => hdistinct.1 (heq ▸ List.mem_map_of_mem ht')
      · rw [hafter]
        exact hdistinct.2
    next => cases hfound
    next => cases hfound
  next =>
    cases hnext
    exact h.next rfl rfl rfl
  next => cases hnext

theorem scanOne_not_publish {r : Rebuild Key} {after : Phase} : r.scanOne keyOf dir t after ≠ .publish coverage written := by
  rw [Rebuild.scanOne]
  split <;> exact nofun

/-- **A rebuild's step** keeps its keys those on the lines it covers. -/
theorem advance_tracks (hentry : ∀ e i, dir.live.get? e = some i → i < dir.fresh) {r r' : Rebuild Key} (h : Tracks keyOf dir r)
    (hnext : advance keyOf suffixBound maxAttempts dir r = .next r') : Tracks keyOf dir r' := by
  rw [advance.eq_def] at hnext
  split at hnext
  next =>
    split at hnext
    next =>
      cases hnext
      refine ⟨scanned_empty keyOf dir, fun t ht => mem_captureSegments hentry ht, ?_⟩
      exact map_name_captureSegments dir ▸ nodup_of_sorted (listSegments_sorted dir)
    next => cases hnext
  next hphase =>
    cases hnext
    refine ⟨⟨h.scanned.cut, fun k => ?_, ?_⟩, nofun, List.nodup_nil⟩
    · rw [(List.perm_insertionSort _ _).mem_iff]
      exact h.scanned.mem k
    · exact (List.perm_insertionSort _ _).nodup_iff.2 h.scanned.nodup
  next t todo hphase => exact scanOne_tracks h (by rw [hphase]; rfl) rfl hnext
  next n hphase =>
    split at hnext
    next =>
      cases hnext
      exact h.next rfl rfl rfl
    next =>
      split at hnext
      next =>
        cases hnext
        exact h.next rfl rfl rfl
      next targets hok =>
        cases hnext
        refine ⟨h.scanned, uncovered_tiles hentry h.scanned hok, ?_⟩
        exact map_name_uncovered hok ▸ nodup_of_sorted (listSegments_sorted dir)
  next n hphase =>
    cases hnext
    exact h.next rfl rfl rfl
  next n t todo hphase => exact scanOne_tracks h (by rw [hphase]; rfl) rfl hnext
  next n hphase =>
    split at hnext
    next =>
      cases hnext
      exact h.next rfl rfl rfl
    next =>
      cases hnext
      refine h.next rfl rfl ?_
      simp only
      split <;> rfl
  next hphase =>
    split at hnext
    next =>
      cases hnext
      exact h.next rfl rfl rfl
    next =>
      split at hnext
      next =>
        split at hnext
        next =>
          cases hnext
          exact h.next rfl rfl rfl
        next =>
          cases hnext
          exact h.next rfl rfl rfl
      next =>
        split at hnext
        next => cases hnext
        next =>
          cases hnext
          exact h.next rfl rfl rfl
        next => cases hnext

theorem advance_publish (hentry : ∀ e i, dir.live.get? e = some i → i < dir.fresh) {r : Rebuild Key} (h : Tracks keyOf dir r)
    (hpublish : advance keyOf suffixBound maxAttempts dir r = .publish coverage written) :
    Scanned keyOf dir coverage written ∧ ∀ name i extent, coverage.get? name = some (i, extent) ↔
      name ∈ listSegments dir ∧ ∃ content, contentOf dir (.segment name) = some (i, content) ∧
        extent = completeLineOffset content.bytes := by
  rw [advance.eq_def] at hpublish
  split at hpublish
  next => split at hpublish <;> cases hpublish
  next => cases hpublish
  next => exact absurd hpublish scanOne_not_publish
  next =>
    split at hpublish
    next => cases hpublish
    next => split at hpublish <;> cases hpublish
  next => cases hpublish
  next => exact absurd hpublish scanOne_not_publish
  next => split at hpublish <;> cases hpublish
  next =>
    split at hpublish
    next => cases hpublish
    next targets hok =>
      split at hpublish
      next => split at hpublish <;> cases hpublish
      next =>
        split at hpublish
        next found hfound =>
          cases hpublish
          have hnames := map_name_uncovered hok
          obtain ⟨hscanned, hset, hkept⟩ := h.scanned.scanTargets (uncovered_tiles hentry h.scanned hok)
            (hnames ▸ nodup_of_sorted (listSegments_sorted dir)) hfound
          refine ⟨hscanned, fun name i extent => ?_⟩
          by_cases hname : name ∈ listSegments dir
          · obtain ⟨t, ht, hok'⟩ := Except.ok_of_mapM (uncovered_eq hok).2 name hname
            obtain ⟨rfl, content, hcontent, hstop, _, _⟩ := uncoveredOf_eq hok'
            rw [hset t ht, hcontent, hstop]
            constructor
            · intro heq
              cases heq
              exact ⟨hname, content, rfl, rfl⟩
            · intro hlisted
              obtain ⟨-, content', hcontent', hextent⟩ := hlisted
              cases hcontent'
              rw [hextent]
          · rw [hkept name (hnames ▸ hname)]
            refine ⟨fun hget => absurd ((uncovered_eq hok).1 name ?_) hname, fun hmem => absurd hmem.1 hname⟩
            rw [hget]
            exact Option.some_ne_none _
        next => cases hpublish
        next => cases hpublish

end

end Cctally.QuotaIndex
