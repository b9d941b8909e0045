import Cctally.Dict
import Cctally.GroupA

/-!
# The running fold against the fold from scratch

Between two ticks the store only evolves: rows keep their ids, and what changed carries a
later sequence. The running fold is right as long as no entry it took leaves the bucket.
-/

namespace Cctally.GroupA

variable {L E A B : Type*}

/-! ## What edits do -/

structure Evolves (old new : Store E) : Prop where
  seq_le : old.mutationSeq ≤ new.mutationSeq
  kept : ∀ r ∈ old.rows, ∃ r' ∈ new.rows, r'.id = r.id
  origin : ∀ r' ∈ new.rows, r' ∈ old.rows ∨ old.mutationSeq < r'.mutationSeq
  ids : ∀ r' ∈ new.rows, (∃ r ∈ old.rows, r.id = r'.id) ∨ maxId old.rows < r'.id
  minTs : ∀ r ∈ old.rows, ∀ r' ∈ new.rows, r'.id = r.id → r'.mutationMinTs ≤ r.mutationMinTs

theorem Store.eq_of_id {s : Store E} {r r' : Row E} (hr : r ∈ s.rows) (hr' : r' ∈ s.rows) (h : r.id = r'.id) : r = r' :=
  List.inj_on_of_nodup_map s.nodup hr hr' h

theorem Evolves.refl (s : Store E) : Evolves s s where
  seq_le := le_refl _
  kept r hr := ⟨r, hr, rfl⟩
  origin _ hr := .inl hr
  ids r hr := .inl ⟨r, hr, rfl⟩
  minTs r hr r' hr' h := by rw [Store.eq_of_id hr' hr h]

theorem Evolves.trans {a b c : Store E} (hab : Evolves a b) (hbc : Evolves b c) : Evolves a c where
  seq_le := le_trans hab.seq_le hbc.seq_le
  kept r hr := by
    obtain ⟨r', hr', hid⟩ := hab.kept r hr
    obtain ⟨r'', hr'', hid'⟩ := hbc.kept r' hr'
    exact ⟨r'', hr'', hid'.trans hid⟩
  origin r hr := by
    rcases hbc.origin r hr with hmid | hlater
    · exact hab.origin r hmid
    · exact .inr (lt_of_le_of_lt hab.seq_le hlater)
  ids r hr := by
    have hmax : maxId a.rows ≤ maxId b.rows := maxId_le fun r hr => by
      obtain ⟨r', hr', hid⟩ := hab.kept r hr
      rw [← hid]
      exact le_maxId hr'
    rcases hbc.ids r hr with ⟨r', hr', hid⟩ | hlater
    · rw [← hid]
      exact hab.ids r' hr'
    · exact .inr (lt_of_le_of_lt hmax hlater)
  minTs r hr r'' hr'' h := by
    obtain ⟨r', hr', hid⟩ := hab.kept r hr
    exact le_trans (hbc.minTs r' hr' r'' hr'' (h.trans hid.symm)) (hab.minTs r hr r' hr' hid)

theorem evolves_insert (s : Store E) (skip : Nat) (entry : Entry E) : Evolves s (s.insert skip entry) where
  seq_le := Nat.le_succ _
  kept r hr := ⟨r, List.mem_append_left _ hr, rfl⟩
  origin r hr := by
    rcases List.mem_append.1 hr with hr | hr
    · exact .inl hr
    · rw [List.mem_singleton.1 hr]
      exact .inr (Nat.lt_succ_self _)
  ids r hr := by
    rcases List.mem_append.1 hr with hr | hr
    · exact .inl ⟨r, hr, rfl⟩
    · rw [List.mem_singleton.1 hr, inserted]
      right
      simp only
      omega
  minTs r hr r' hr' h := by
    rw [Store.eq_of_id hr' (List.mem_append_left _ hr) h]

theorem evolves_rewrite (s : Store E) (id : Nat) (entry : Entry E) : Evolves s (s.rewrite id entry) where
  seq_le := Nat.le_succ _
  kept r hr := ⟨_, List.mem_map_of_mem hr, rewritten_id s id entry r⟩
  origin r hr := by
    obtain ⟨r', hr', rfl⟩ := List.mem_map.1 hr
    unfold rewritten
    split
    · exact .inr (Nat.lt_succ_self _)
    · exact .inl hr'
  ids r hr := by
    obtain ⟨r', hr', rfl⟩ := List.mem_map.1 hr
    exact .inl ⟨r', hr', (rewritten_id s id entry r').symm⟩
  minTs r hr r' hr' h := by
    obtain ⟨r'', hr'', rfl⟩ := List.mem_map.1 hr'
    obtain rfl := Store.eq_of_id hr'' hr ((rewritten_id s id entry r'').symm.trans h)
    unfold rewritten
    split
    · exact min_le_left _ _
    · exact le_refl _

theorem evolves_edit (s : Store E) (e : Edit E) : Evolves s (s.edit e) := by
  cases e with
  | insert skip entry => exact evolves_insert s skip entry
  | rewrite id entry => exact evolves_rewrite s id entry

theorem evolves_edits (edits : List (Edit E)) (s : Store E) : Evolves s (edits.foldl Store.edit s) := by
  induction edits generalizing s with
  | nil => exact .refl s
  | cons e edits ih => exact (evolves_edit s e).trans (ih _)

namespace Builder

variable (b : Builder L E A B) {label : L} {now : Int}

theorem mem_fetchAll {rows : List (Row E)} {r : Row E} :
    r ∈ b.fetchAll label now rows ↔
      r ∈ rows ∧ b.inWindow label r.entry.timestamp = true ∧ r.entry.timestamp ≤ now := by
  simp [fetchAll, ordered]

theorem mem_members {rows : List (Row E)} {r : Row E} :
    r ∈ b.members label now rows ↔
      r ∈ rows ∧ b.inWindow label r.entry.timestamp = true ∧ r.entry.timestamp ≤ now ∧ b.folded label r = true := by
  simp [members, mem_fetchAll, and_assoc]

theorem ordered_sorted (s : Store E) : (ordered s.rows).Pairwise fun r r' => r.key < r'.key := by
  have hle : (ordered s.rows).Pairwise fun r r' => r.key ≤ r'.key := List.pairwise_insertionSort _ _
  have hne : (ordered s.rows).Pairwise fun r r' => r.key ≠ r'.key := by
    have hids : ((ordered s.rows).map (·.id)).Nodup :=
      ((List.perm_insertionSort _ s.rows).map _).nodup_iff.2 s.nodup
    exact (List.pairwise_map.1 hids).imp fun h hkey => h (congrArg (fun k => (ofLex k).2) hkey)
  exact (hle.and hne).imp fun h => lt_of_le_of_ne h.1 h.2

theorem members_sorted (s : Store E) : (b.members label now s.rows).Pairwise fun r r' => r.key < r'.key :=
  ((ordered_sorted s).filter _).filter _

theorem foldRows_append (acc : A) (rows rows' : List (Row E)) :
    b.foldRows acc (rows ++ rows') = b.foldRows (b.foldRows acc rows) rows' := List.foldl_append

theorem tailOf_append (tail : Option (Int ×ₗ Nat)) (rows rows' : List (Row E)) :
    tailOf tail (rows ++ rows') = tailOf (tailOf tail rows) rows' := List.foldl_append

theorem tailOf_none {rows : List (Row E)} (h : tailOf none rows = none) : rows = [] := by
  rcases rows.eq_nil_or_concat with rfl | ⟨init, r, rfl⟩
  · rfl
  · rw [List.concat_eq_append, tailOf_append] at h
    cases h

theorem le_tailOf {rows : List (Row E)} {t : Int ×ₗ Nat} (hsorted : rows.Pairwise fun r r' => r.key < r'.key)
    (h : tailOf none rows = some t) : ∀ r ∈ rows, r.key ≤ t := by
  rcases rows.eq_nil_or_concat with rfl | ⟨init, last, rfl⟩
  · cases h
  rw [List.concat_eq_append] at hsorted h ⊢
  rw [tailOf_append] at h
  have ht : last.key = t := Option.some.inj h
  intro r hr
  rw [← ht]
  rcases List.mem_append.1 hr with hr | hr
  · exact le_of_lt ((List.pairwise_append.1 hsorted).2.2 r hr last List.mem_cons_self)
  · rw [List.mem_singleton.1 hr]

end Builder

/-! ## One tick -/

namespace Builder

variable (b : Builder L E A B)

structure Tracks (store : Store E) (p : Accumulator L A) : Prop where
  acc : p.acc = b.foldRows b.newBucketAcc (b.members p.label p.lastNow store.rows)
  tail : p.tail = tailOf none (b.members p.label p.lastNow store.rows)
  lastSeenId : p.lastSeenId = maxId store.rows
  lastSeenSeq : p.lastSeenSeq = store.mutationSeq

def Stays (old : Store E) (p : Accumulator L A) (label : L) (now : Int) (new : Store E) : Prop :=
  p.label = label → p.lastNow ≤ now →
    refolds p (b.delta p label now new.rows) = true ∨
      ∀ r ∈ b.members p.label p.lastNow old.rows, r ∈ new.rows ∨ ∃ r' ∈ b.members label now new.rows, r'.id = r.id

variable {b} {old new : Store E} {p : Accumulator L A} {label : L} {now : Int}

theorem mem_delta {r : Row E} : r ∈ b.delta p label now new.rows ↔
    r ∈ b.members label now new.rows ∧ (p.lastSeenSeq < r.mutationSeq ∨ p.lastNow < r.entry.timestamp) := by
  simp only [delta, fetchDelta, members, List.mem_filter, Bool.or_eq_true, decide_eq_true_eq]
  tauto

theorem delta_sorted : (b.delta p label now new.rows).Pairwise fun r r' => r.key < r'.key :=
  (((ordered_sorted new).filter _).filter _).filter _

theorem cold_tracks : Tracks b new (b.cold label now new).2 := ⟨rfl, rfl, rfl, rfl⟩

theorem Tracks.members_eq (h : Tracks b old p) (hev : Evolves old new) (hlabel : p.label = label) (hnow : p.lastNow ≤ now)
    (hno : refolds p (b.delta p label now new.rows) = false) (hstays : Stays b old p label now new) :
    b.members label now new.rows = b.members p.label p.lastNow old.rows ++ b.delta p label now new.rows := by
  subst hlabel
  rw [refolds, Bool.or_eq_false_iff, List.any_eq_false] at hno
  obtain ⟨hfresh, htail⟩ := hno
  have hkept : ∀ r ∈ b.members p.label p.lastNow old.rows, r ∈ b.members p.label now new.rows := by
    intro r hr
    obtain ⟨hold, hwindow, hle, hfolded⟩ := b.mem_members.1 hr
    rcases hstays rfl hnow with hrefolds | hstays
    · rw [refolds, Bool.or_eq_true, List.any_eq_true] at hrefolds
      rcases hrefolds with ⟨r', hr', hid⟩ | hlate
      · exact absurd hid (hfresh r' hr')
      · rw [htail] at hlate
        cases hlate
    rcases hstays r hr with hnew | ⟨r', hr', hid⟩
    · exact b.mem_members.2 ⟨hnew, hwindow, le_trans hle hnow, hfolded⟩
    · rcases hev.origin r' (b.mem_members.1 hr').1 with hsame | hlater
      · rwa [← Store.eq_of_id hsame hold hid]
      · have hin : r' ∈ b.delta p p.label now new.rows := mem_delta.2 ⟨hr', .inl (h.lastSeenSeq ▸ hlater)⟩
        have hle := le_maxId hold
        rw [← hid, ← h.lastSeenId] at hle
        exact absurd (decide_eq_true hle) (hfresh r' hin)
  refine eq_of_sorted (b.members_sorted new) ?_ fun r => ?_
  · refine List.pairwise_append.2 ⟨b.members_sorted old, delta_sorted, fun r hr r' hr' => ?_⟩
    rw [h.tail] at htail
    cases ht : tailOf none (b.members p.label p.lastNow old.rows) with
    | none =>
      rw [tailOf_none ht] at hr
      cases hr
    | some t =>
      rw [ht] at htail
      have hlt := (List.any_eq_false.1 htail) r' hr'
      rw [decide_eq_true_eq, not_le] at hlt
      exact lt_of_le_of_lt (le_tailOf (b.members_sorted old) ht r hr) hlt
  · rw [List.mem_append]
    constructor
    · intro hr
      by_cases hdelta : p.lastSeenSeq < r.mutationSeq ∨ p.lastNow < r.entry.timestamp
      · exact .inr (mem_delta.2 ⟨hr, hdelta⟩)
      · push Not at hdelta
        obtain ⟨hnew, hwindow, _, hfolded⟩ := b.mem_members.1 hr
        rcases hev.origin r hnew with hold | hlater
        · exact .inl (b.mem_members.2 ⟨hold, hwindow, hdelta.2, hfolded⟩)
        · rw [← h.lastSeenSeq] at hlater
          exact absurd hlater (not_lt.2 hdelta.1)
    · rintro (hr | hr)
      · exact hkept r hr
      · exact (mem_delta.1 hr).1

variable [DecidableEq L]

theorem Tracks.step (h : Tracks b old p) (hev : Evolves old new) (hstays : Stays b old p label now new) :
    (b.accumulateCurrentBucket (some p) label now new).1 = b.scratch label now new.rows ∧
      Tracks b new (b.accumulateCurrentBucket (some p) label now new).2 := by
  rw [accumulateCurrentBucket]
  simp only
  split
  next => exact ⟨rfl, cold_tracks⟩
  next hwarm =>
    push Not at hwarm
    obtain ⟨hlabel, hnow⟩ := hwarm
    split
    next hempty =>
      have hnil := List.isEmpty_iff.1 hempty
      have hno : refolds p (b.delta p label now new.rows) = false := by
        rw [hnil, refolds]
        cases p.tail <;> rfl
      have hmembers := h.members_eq hev hlabel hnow hno hstays
      rw [hnil, List.append_nil] at hmembers
      refine ⟨?_, ?_, ?_, rfl, rfl⟩
      · rw [scratch, hmembers, h.acc, h.tail]
      · rw [hmembers]
        exact h.acc
      · rw [hmembers]
        exact h.tail
    next =>
      split
      next => exact ⟨rfl, cold_tracks⟩
      next hno =>
        rw [Bool.not_eq_true] at hno
        have hmembers := h.members_eq hev hlabel hnow hno hstays
        refine ⟨?_, ?_, ?_, rfl, rfl⟩
        · rw [scratch, hmembers, h.acc, h.tail, foldRows_append, tailOf_append]
        · rw [hmembers, foldRows_append, ← h.acc]
        · rw [hmembers, tailOf_append, ← h.tail]

end Builder

/-! ## Runs of ticks -/

structure Tick (L E : Type*) where
  edits : List (Edit E)
  now : Int
  label : L

structure State (L E A : Type*) where
  store : Store E
  prior : Option (Accumulator L A)

def Tick.reads (t : Tick L E) (store : Store E) : Store E := t.edits.foldl Store.edit store

namespace Builder

variable (b : Builder L E A B)

def scratches : Store E → List (Tick L E) → List (Option B)
  | _, [] => []
  | store, t :: ts => b.scratch t.label t.now (t.reads store).rows :: scratches (t.reads store) ts

variable [DecidableEq L]

def tick (s : State L E A) (t : Tick L E) : Option B × State L E A :=
  let out := b.accumulateCurrentBucket s.prior t.label t.now (t.reads s.store)
  (out.1, ⟨t.reads s.store, some out.2⟩)

def results : State L E A → List (Tick L E) → List (Option B)
  | _, [] => []
  | s, t :: ts => (b.tick s t).1 :: results (b.tick s t).2 ts

def AllStay : State L E A → List (Tick L E) → Prop
  | _, [] => True
  | s, t :: ts => (∀ p ∈ s.prior, b.Stays s.store p t.label t.now (t.reads s.store)) ∧ AllStay (b.tick s t).2 ts

variable {b}

theorem tick_tracks {s : State L E A} {t : Tick L E} (h : ∀ p ∈ s.prior, b.Tracks s.store p)
    (hstays : ∀ p ∈ s.prior, b.Stays s.store p t.label t.now (t.reads s.store)) :
    (b.tick s t).1 = b.scratch t.label t.now (t.reads s.store).rows ∧
      ∀ p ∈ (b.tick s t).2.prior, b.Tracks (t.reads s.store) p := by
  obtain ⟨store, prior⟩ := s
  cases prior with
  | none =>
    refine ⟨rfl, fun p hp => ?_⟩
    obtain rfl : _ = p := Option.some.inj hp
    exact cold_tracks
  | some p =>
    obtain ⟨hresult, htracks⟩ := (h p rfl).step (evolves_edits t.edits store) (hstays p rfl)
    refine ⟨hresult, fun p' hp' => ?_⟩
    obtain rfl : _ = p' := Option.some.inj hp'
    exact htracks

theorem results_of_tracks {s : State L E A} {ts : List (Tick L E)} (h : ∀ p ∈ s.prior, b.Tracks s.store p)
    (hstay : b.AllStay s ts) : b.results s ts = b.scratches s.store ts := by
  induction ts generalizing s with
  | nil => rfl
  | cons t ts ih =>
    obtain ⟨hnow, hlater⟩ := hstay
    obtain ⟨hresult, htracks⟩ := tick_tracks h hnow
    rw [results, scratches, hresult, ih htracks hlater]
    rfl

/-- **Every tick answers the fold from scratch**, whatever the clock and the labels do, as
long as no entry it took leaves the bucket in a tick that only appends. -/
theorem results_eq_scratches (b : Builder L E A B) (store : Store E) (ts : List (Tick L E))
    (hstay : b.AllStay ⟨store, none⟩ ts) : b.results ⟨store, none⟩ ts = b.scratches store ts :=
  results_of_tracks (fun _ h => nomatch h) hstay

def decades : Builder Int Nat Nat Nat where
  newBucketAcc := 0
  foldEntry total e := total + e.usage
  finalizeBucket _ total := total
  inWindow label at_ := decide (at_ / 10 = label)
  membership label e := decide (e.timestamp / 10 = label)

def noEntries : Store Nat := ⟨[], 0, List.nodup_nil, nofun, nofun⟩

def lateEntry : List (Tick Int Nat) :=
  [⟨[.insert 0 ⟨15, "opus", 5⟩], 20, 1⟩, ⟨[.insert 0 ⟨12, "opus", 3⟩], 20, 1⟩]

theorem results_eq_scratches_late :
    decades.AllStay ⟨noEntries, none⟩ lateEntry ∧
      decades.results ⟨noEntries, none⟩ lateEntry = decades.scratches noEntries lateEntry := by
  have hstay : decades.AllStay ⟨noEntries, none⟩ lateEntry := by
    refine ⟨nofun, fun p hp _ _ => .inl ?_, trivial⟩
    obtain rfl : _ = p := Option.some.inj hp
    decide +kernel
  exact ⟨hstay, decades.results_eq_scratches noEntries lateEntry hstay⟩

def movedEntry : List (Tick Int Nat) :=
  [⟨[.insert 0 ⟨15, "opus", 5⟩], 20, 1⟩, ⟨[.rewrite 1 ⟨5, "opus", 5⟩], 20, 1⟩]

theorem moved_entry_stays_counted :
    decades.results ⟨noEntries, none⟩ movedEntry = [some 5, some 5] ∧
      decades.scratches noEntries movedEntry = [some 5, none] := by
  decide +kernel

end Builder

end Cctally.GroupA
