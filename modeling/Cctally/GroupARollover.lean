import Cctally.GroupABuckets

/-!
# Cached buckets across rollovers

A clean past bucket is served as it was at the last tick. It is still right as long as the
clock revealed none of its entries: an entry stored ahead of its event time is in no changed
row when it comes to count.
-/

namespace Cctally.GroupA

variable {L E A B X : Type*}

def Calendar.Ends (c : Calendar L E A B) : Prop :=
  ∀ label e, c.inWindow label e.timestamp = true → c.membership label e = true →
    ∃ ends, c.bucketEndOf label = some ends ∧ e.timestamp < ends

theorem changedMinTimestamp_le {rows : List (Row E)} {n : Nat} {r : Row E} (hr : r ∈ rows) (hn : n < r.mutationSeq) :
    ∃ earliest, changedMinTimestamp rows n = some earliest ∧ earliest ≤ r.mutationMinTs := by
  have hmem : r.mutationMinTs ∈ (rows.filter fun r => decide (n < r.mutationSeq)).map (·.mutationMinTs) :=
    List.mem_map_of_mem (List.mem_filter.2 ⟨hr, decide_eq_true hn⟩)
  cases hmin : changedMinTimestamp rows n with
  | none =>
    rw [List.min?_eq_none_iff.1 hmin] at hmem
    cases hmem
  | some earliest => exact ⟨earliest, rfl, (List.min?_eq_some_iff.1 hmin).2 _ hmem⟩

namespace Calendar

variable {c : Calendar L E A B} {old new : Store E} {label : L} {lastNow now : Int}

theorem ends_le_of_clean (hclean : c.dirtySince new.rows old.mutationSeq label = false) {r : Row E} (hr : r ∈ new.rows)
    (hn : old.mutationSeq < r.mutationSeq) {ends : Int} (hends : c.bucketEndOf label = some ends) :
    ends ≤ r.mutationMinTs := by
  obtain ⟨earliest, hmin, hle⟩ := changedMinTimestamp_le hr hn
  rw [dirtySince, hmin, hends] at hclean
  exact le_trans (not_lt.1 (of_decide_eq_false hclean)) hle

theorem lt_ends (hends : c.Ends) {rows : List (Row E)} {r : Row E} (hr : r ∈ c.members label now rows) :
    ∃ ends, c.bucketEndOf label = some ends ∧ r.entry.timestamp < ends := by
  obtain ⟨_, hwindow, _, hfolded⟩ := c.mem_members.1 hr
  rw [Builder.folded, Bool.and_eq_true] at hfolded
  exact hends label r.entry hwindow hfolded.2

variable (hends : c.Ends) (hev : Evolves old new) (hnow : lastNow ≤ now)
  (hclean : c.dirtySince new.rows old.mutationSeq label = false)
  (hrevealed : ∀ r ∈ c.members label now new.rows, r.mutationSeq ≤ old.mutationSeq → r.entry.timestamp ≤ lastNow)
include hends hev hnow hclean hrevealed

theorem members_of_clean : c.members label now new.rows = c.members label lastNow old.rows := by
  refine eq_of_sorted (c.members_sorted new) (c.members_sorted old) fun r => ⟨fun hr => ?_, fun hr => ?_⟩
  · obtain ⟨ends, hlabel, hlt⟩ := lt_ends hends hr
    obtain ⟨hnew, hwindow, _, hfolded⟩ := c.mem_members.1 hr
    rcases hev.origin r hnew with hold | hchanged
    · exact c.mem_members.2 ⟨hold, hwindow, hrevealed r hr (old.seq_le r hold), hfolded⟩
    · have hle := ends_le_of_clean hclean hnew hchanged hlabel
      have hts := new.minTs_le r hnew
      omega
  · obtain ⟨ends, hlabel, hlt⟩ := lt_ends hends hr
    obtain ⟨hold, hwindow, hle, hfolded⟩ := c.mem_members.1 hr
    obtain ⟨r', hnew, hid⟩ := hev.kept r hold
    rcases hev.origin r' hnew with hsame | hchanged
    · rw [← Store.eq_of_id hsame hold hid]
      rw [← Store.eq_of_id hsame hold hid] at hwindow hle hfolded
      exact c.mem_members.2 ⟨hnew, hwindow, le_trans hle hnow, hfolded⟩
    · have hends := ends_le_of_clean hclean hnew hchanged hlabel
      have hmin := hev.minTs r hold r' hnew hid
      have hts := old.minTs_le r hold
      omega

theorem scratch_of_clean : c.scratch label now new.rows = c.scratch label lastNow old.rows := by
  rw [Builder.scratch, Builder.scratch, members_of_clean hends hev hnow hclean hrevealed]

end Calendar

structure Rebuild (L E X : Type*) where
  edits : List (Edit E)
  now : Int
  labels : List L
  nodup : labels.Nodup
  current : L
  current_mem : current ∈ labels
  extra : X

def Rebuild.reads (t : Rebuild L E X) (store : Store E) : Store E := t.edits.foldl Store.edit store

def SlideForward : List (List L) → Prop
  | [] => True
  | w :: ws => (∀ label ∈ w, ws.Pairwise fun w' w'' => label ∈ w'' → label ∈ w') ∧ SlideForward ws

section
variable [DecidableEq L] [DecidableEq X] (cal : X → Calendar L E A B) (accumulates : Bool)

def Rebuild.run (s : GroupAState L A B X) (store : Store E) (t : Rebuild L E X) : List B × GroupAState L A B X :=
  (cal t.extra).buildCachedGroupA s (t.reads store) t.labels (some t.current) t.extra accumulates t.now

def builds : GroupAState L A B X → Store E → List (Rebuild L E X) → List (List B)
  | _, _, [] => []
  | s, store, t :: ts =>
    (t.run cal accumulates s store).1 :: builds (t.run cal accumulates s store).2 (t.reads store) ts

omit [DecidableEq L] [DecidableEq X] in
def fromScratch : Store E → List (Rebuild L E X) → List (List B)
  | _, [] => []
  | store, t :: ts =>
    t.labels.filterMap (fun label => (cal t.extra).scratch label t.now (t.reads store).rows) ::
      fromScratch (t.reads store) ts

/-- A warm tick at which no bucket served from the cache gains an entry by the clock alone, and
no entry of the running fold leaves the current bucket unseen. -/
structure Settled (s : GroupAState L A B X) (store : Store E) (lastNow : Int) (t : Rebuild L E X) : Prop where
  revealed : ∀ seen ∈ s.lastSeen, seen.extra = t.extra → ∀ label ∈ t.labels, label ≠ t.current →
    (cal t.extra).dirtySince (t.reads store).rows seen.maxSeq label = false → (s.cache.get? label).isSome = true →
      ∀ r ∈ (cal t.extra).members label t.now (t.reads store).rows,
        r.mutationSeq ≤ seen.maxSeq → r.entry.timestamp ≤ lastNow
  stays : accumulates = true → ∀ seen ∈ s.lastSeen, seen.extra = t.extra → ∀ p ∈ s.current,
    (cal t.extra).Stays store p t.current t.now (t.reads store)

def AllSettled : GroupAState L A B X → Store E → Int → List (Rebuild L E X) → Prop
  | _, _, _, [] => True
  | s, store, lastNow, t :: ts =>
    Settled cal accumulates s store lastNow t ∧
      AllSettled (t.run cal accumulates s store).2 (t.reads store) t.now ts

structure Remembers (s : GroupAState L A B X) (store : Store E) (lastNow : Int) (shown : List L) : Prop where
  seen : ∀ seen ∈ s.lastSeen, seen.maxId = maxId store.rows ∧ seen.maxSeq = store.mutationSeq
  shown : ∀ seen ∈ s.lastSeen, ∀ label ∈ shown,
    s.cache.get? label = (cal seen.extra).scratch label lastNow store.rows
  tracks : ∀ p ∈ s.current, accumulates = true ∧ ∃ seen ∈ s.lastSeen, (cal seen.extra).Tracks store p

end

/-! ## One tick -/

section
variable [DecidableEq L] [DecidableEq X] {cal : X → Calendar L E A B} {accumulates : Bool} {s : GroupAState L A B X}
  {store : Store E} {lastNow : Int} {shown : List L} {t : Rebuild L E X}

theorem Remembers.held_cases (h : Remembers cal accumulates s store lastNow shown) :
    (s.held t.extra (t.reads store) = s.toHeld ∧ ∃ seen ∈ s.lastSeen, seen.extra = t.extra ∧
      ∀ label, (cal t.extra).dirty s.lastSeen t.extra (t.reads store) label =
        (cal t.extra).dirtySince (t.reads store).rows seen.maxSeq label) ∨
    ((s.held t.extra (t.reads store)).current = none ∧
      (∀ label, ((s.held t.extra (t.reads store)).cache.get? label).isSome = true → (s.cache.get? label).isSome = true) ∧
      ∀ label, (cal t.extra).dirty s.lastSeen t.extra (t.reads store) label = true) := by
  have hev : Evolves store (t.reads store) := evolves_edits t.edits store
  cases hlast : s.lastSeen with
  | none =>
    right
    rw [GroupAState.held, hlast]
    refine ⟨?_, fun _ hsome => hsome, fun _ => rfl⟩
    cases hcurrent : s.current with
    | none => exact hcurrent
    | some p =>
      obtain ⟨_, seen, hseen, _⟩ := h.tracks p hcurrent
      rw [hlast] at hseen
      cases hseen
  | some seen =>
    obtain ⟨hid, hseq⟩ := h.seen seen hlast
    have hmax : maxId store.rows ≤ maxId (t.reads store).rows := maxId_le fun r hr => by
      obtain ⟨r', hr', hrid⟩ := hev.kept r hr
      rw [← hrid]
      exact le_maxId hr'
    have hfull : fullInvalidate (some seen) t.extra (t.reads store) = !decide (seen.extra = t.extra) := by
      rw [fullInvalidate, hid, hseq, decide_eq_false (not_lt.2 hmax), decide_eq_false (not_lt.2 hev.seq_le),
        Bool.or_false, Bool.or_false]
    by_cases hextra : seen.extra = t.extra
    · left
      rw [decide_eq_true hextra, Bool.not_true] at hfull
      rw [GroupAState.held, hlast, hfull]
      refine ⟨rfl, seen, rfl, hextra, fun label => ?_⟩
      rw [Calendar.dirty, hfull, Bool.false_or]
    · right
      rw [decide_eq_false hextra, Bool.not_false] at hfull
      rw [GroupAState.held, hlast, hfull]
      refine ⟨rfl, fun _ hsome => (nomatch hsome), fun label => ?_⟩
      rw [Calendar.dirty, hfull, Bool.true_or]

variable (hends : ∀ x, (cal x).Ends) (h : Remembers cal accumulates s store lastNow shown)
  (hnow : ∀ seen ∈ s.lastSeen, lastNow ≤ t.now) (hsettled : Settled cal accumulates s store lastNow t)
include h hsettled

theorem accumulate_tracks :
    ((cal t.extra).accumulateCurrentBucket (s.held t.extra (t.reads store)).current t.current t.now (t.reads store)).1 =
        (cal t.extra).scratch t.current t.now (t.reads store).rows ∧
      (cal t.extra).Tracks (t.reads store) ((cal t.extra).accumulateCurrentBucket
        (s.held t.extra (t.reads store)).current t.current t.now (t.reads store)).2 := by
  rcases h.held_cases (t := t) with ⟨hheld, seen, hlast, hextra, _⟩ | ⟨hcurrent, _⟩
  · rw [hheld]
    cases hcurrent : s.current with
    | none => exact ⟨rfl, Builder.cold_tracks⟩
    | some p =>
      obtain ⟨hacc, seen', hlast', htracks⟩ := h.tracks p hcurrent
      obtain rfl : seen = seen' := Option.some.inj (hlast.symm.trans hlast')
      rw [hextra] at htracks
      exact htracks.step (evolves_edits t.edits store) (hsettled.stays hacc seen hlast hextra p hcurrent)
  · rw [hcurrent]
    exact ⟨rfl, Builder.cold_tracks⟩

include hends hnow

theorem serves {label : L} (hmem : label ∈ t.labels) (hshown : (s.cache.get? label).isSome = true → label ∈ shown) :
    (cal t.extra).Serves
      ⟨t.reads store, t.now, some t.current, accumulates, (cal t.extra).dirty s.lastSeen t.extra (t.reads store)⟩
      (s.held t.extra (t.reads store)) label where
  accumulated hcurrent _ := by
    obtain rfl := Option.some.inj hcurrent
    exact (accumulate_tracks h hsettled).1
  cached hother hclean v hv := by
    rcases h.held_cases (t := t) with ⟨hheld, seen, hlast, hextra, hdirty⟩ | ⟨_, _, hdirty⟩
    · simp only at hclean
      rw [hdirty] at hclean
      rw [hheld] at hv
      have hsome : (s.cache.get? label).isSome = true := by rw [Option.mem_def.1 hv]; rfl
      have hserved := h.shown seen hlast label (hshown hsome)
      rw [Option.mem_def.1 hv, hextra] at hserved
      have hrevealed := hsettled.revealed seen hlast hextra label hmem (fun heq => hother (congrArg some heq.symm))
        hclean hsome
      rw [(h.seen seen hlast).2] at hrevealed hclean
      rw [hserved]
      exact Calendar.scratch_of_clean (hends t.extra) (evolves_edits t.edits store) (hnow seen hlast) hclean hrevealed
    · simp only at hclean
      rw [hdirty] at hclean
      cases hclean

/-- **One tick**: every label is served its value from scratch, and the builder remembers this state. -/
theorem rebuild_step (hshown : ∀ label ∈ t.labels, (s.cache.get? label).isSome = true → label ∈ shown) :
    (t.run cal accumulates s store).1 =
        t.labels.filterMap (fun label => (cal t.extra).scratch label t.now (t.reads store).rows) ∧
      Remembers cal accumulates (t.run cal accumulates s store).2 (t.reads store) t.now t.labels ∧
      ∀ label, ((t.run cal accumulates s store).2.cache.get? label).isSome = true →
        label ∈ t.labels ∨ (s.cache.get? label).isSome = true := by
  obtain ⟨hlist, hcache⟩ := Calendar.cachedBuckets_eq t.nodup fun label hmem =>
    serves hends h hnow hsettled hmem (hshown label hmem)
  refine ⟨hlist, ⟨fun seen hseen => ?_, fun seen hseen label hmem => ?_, fun p hp => ?_⟩, fun label hsome => ?_⟩
  · obtain rfl : _ = seen := Option.some.inj hseen
    exact ⟨rfl, rfl⟩
  · obtain rfl : _ = seen := Option.some.inj hseen
    exact (hcache label).trans (if_pos hmem)
  · have hcurrent := (Calendar.cachedBuckets_current t.nodup rfl t.current_mem).symm.trans hp
    simp only at hcurrent
    cases hacc : accumulates with
    | true =>
      rw [if_pos hacc] at hcurrent
      obtain rfl : _ = p := Option.some.inj hcurrent
      exact ⟨rfl, _, rfl, (accumulate_tracks h hsettled).2⟩
    | false =>
      rw [hacc, if_neg Bool.false_ne_true] at hcurrent
      rcases h.held_cases (t := t) with ⟨hheld, _⟩ | ⟨hnone, _⟩
      · rw [hheld] at hcurrent
        exact absurd (hacc.symm.trans (h.tracks p hcurrent).1) Bool.false_ne_true
      · rw [hnone] at hcurrent
        cases hcurrent
  · by_cases hmem : label ∈ t.labels
    · exact .inl hmem
    · right
      have hheld := (hcache label).trans (if_neg hmem)
      rw [Rebuild.run, Calendar.buildCachedGroupA] at hsome
      simp only at hsome
      rw [hheld] at hsome
      rcases h.held_cases (t := t) with ⟨hsame, _⟩ | ⟨_, hdropped, _⟩
      · rwa [hsame] at hsome
      · exact hdropped label hsome

end

section
variable [DecidableEq L] [DecidableEq X] {cal : X → Calendar L E A B} {accumulates : Bool}

theorem builds_of_remembers (hends : ∀ x, (cal x).Ends) {ts : List (Rebuild L E X)} {s : GroupAState L A B X}
    {store : Store E} {lastNow : Int} {shown : List L} (h : Remembers cal accumulates s store lastNow shown)
    (hnow : ∀ seen ∈ s.lastSeen, ∀ t ∈ ts, lastNow ≤ t.now) (hclock : ts.Pairwise fun t t' => t.now ≤ t'.now)
    (hheld : ∀ label, (s.cache.get? label).isSome = true →
      (shown :: ts.map (·.labels)).Pairwise fun w w' => label ∈ w' → label ∈ w)
    (hslide : SlideForward (ts.map (·.labels))) (hsettled : AllSettled cal accumulates s store lastNow ts) :
    builds cal accumulates s store ts = fromScratch cal store ts := by
  induction ts generalizing s store lastNow shown with
  | nil => rfl
  | cons t ts ih =>
    obtain ⟨hthis, hlater⟩ := hsettled
    obtain ⟨hclock, hclocks⟩ := List.pairwise_cons.1 hclock
    obtain ⟨hslide, hslides⟩ := hslide
    obtain ⟨hlist, hremembers, hcached⟩ := rebuild_step hends h (fun seen hseen => hnow seen hseen t List.mem_cons_self)
      hthis fun label hmem hsome => (List.pairwise_cons.1 (hheld label hsome)).1 t.labels List.mem_cons_self hmem
    rw [builds, fromScratch, hlist]
    refine congrArg _ (ih hremembers (fun _ _ t' ht' => hclock t' ht') hclocks (fun label hsome => ?_) hslides hlater)
    rcases hcached label hsome with hmem | hbefore
    · exact List.pairwise_cons.2 ⟨fun _ _ _ => hmem, hslide label hmem⟩
    · exact (List.pairwise_cons.1 (hheld label hbefore)).2

/-- **The cached list is the list from scratch at every tick**, rollovers and signature moves
included, under a clock and windows that only go forward, in every run of settled ticks. -/
theorem builds_eq_fromScratch (cal : X → Calendar L E A B) (accumulates : Bool) (hends : ∀ x, (cal x).Ends)
    (store : Store E) (start : Int) (ts : List (Rebuild L E X)) (hclock : ts.Pairwise fun t t' => t.now ≤ t'.now)
    (hslide : SlideForward (ts.map (·.labels))) (hsettled : AllSettled cal accumulates coldStart store start ts) :
    builds cal accumulates coldStart store ts = fromScratch cal store ts := by
  have hcold : Remembers cal accumulates coldStart store start [] := ⟨nofun, nofun, nofun⟩
  exact builds_of_remembers hends hcold nofun hclock nofun hslide hsettled

end

def decadeCalendar : Calendar Int Nat Nat Nat where
  toBuilder := Builder.decades
  bucketEndOf label := some (10 * label + 10)

theorem decadeCalendar_ends : decadeCalendar.Ends := by
  intro label e hwindow _
  refine ⟨10 * label + 10, rfl, ?_⟩
  have hlabel : e.timestamp / 10 = label := of_decide_eq_true hwindow
  omega

def atFifteen (edits : List (Edit Nat)) : Rebuild Int Nat Unit := ⟨edits, 15, [0, 1], by decide, 1, by decide, ()⟩

def atTwentyFive (edits : List (Edit Nat)) : Rebuild Int Nat Unit := ⟨edits, 25, [1, 2], by decide, 2, by decide, ()⟩

theorem builds_eq_fromScratch_late :
    builds (fun _ => decadeCalendar) true coldStart Builder.noEntries
        [atFifteen [.insert 0 ⟨12, "opus", 3⟩], atTwentyFive [.insert 0 ⟨11, "opus", 4⟩]] =
      fromScratch (fun _ => decadeCalendar) Builder.noEntries
        [atFifteen [.insert 0 ⟨12, "opus", 3⟩], atTwentyFive [.insert 0 ⟨11, "opus", 4⟩]] := by
  refine builds_eq_fromScratch _ _ (fun _ => decadeCalendar_ends) _ 0 _ (by decide) ?_ ?_
  · refine ⟨fun label _ => List.pairwise_singleton _ _, fun label _ => List.Pairwise.nil, trivial⟩
  · refine ⟨⟨nofun, nofun⟩, ⟨fun seen hseen _ label hmem hne hclean _ => ?_, fun _ seen _ _ p hp hlabel _ => ?_⟩, trivial⟩
    · obtain rfl : _ = seen := Option.some.inj hseen
      have hone : label = 1 := by
        rcases List.mem_cons.1 hmem with hone | hmem
        · exact hone
        · exact absurd (List.mem_singleton.1 hmem) hne
      subst hone
      exact absurd hclean (by decide +kernel)
    · obtain rfl : _ = p := Option.some.inj hp
      exact absurd hlabel (by decide +kernel)

/-- The entry at 18 is stored while the clock is at 15: it is in no list after the rollover. -/
theorem future_entry_stays_uncounted :
    builds (fun _ => decadeCalendar) true coldStart Builder.noEntries
        [atFifteen [.insert 0 ⟨12, "opus", 3⟩, .insert 0 ⟨18, "opus", 5⟩], atTwentyFive []] = [[3], [3]] ∧
      builds (fun _ => decadeCalendar) false coldStart Builder.noEntries
        [atFifteen [.insert 0 ⟨12, "opus", 3⟩, .insert 0 ⟨18, "opus", 5⟩], atTwentyFive []] = [[3], [3]] ∧
      fromScratch (fun _ => decadeCalendar) Builder.noEntries
        [atFifteen [.insert 0 ⟨12, "opus", 3⟩, .insert 0 ⟨18, "opus", 5⟩], atTwentyFive []] = [[3], [8]] := by
  decide +kernel

end Cctally.GroupA
