import Cctally.JournalCandidates
import Cctally.Election

/-!
# Selection

Grouping keeps one provisional winner for each event id and revision and the
content hashes of each divergent group. What it keeps of one group depends on
the candidates of that group alone, and unless they are legacy arming records,
not on the order they are visited in.
-/

namespace Cctally

open Winner

def EffectiveEvent.position (c : EffectiveEvent) : Nat := c.sequence.getD 0

def EffectiveEvent.content (c : EffectiveEvent) : String × Status := (c.contentHash, c.status)

def EffectiveEvent.key (c : EffectiveEvent) : String × Nat := (c.eventId, c.rev)

def earlier (p c : EffectiveEvent) : EffectiveEvent := if precedes c p then c else p

/-! ## One group -/

abbrev KeyState := Scan EffectiveEvent String

def Grouping.group (g : Grouping) (key : String × Nat) : KeyState := ⟨g.byRevision.get? key, g.divergent.get? key⟩

def KeyState.scan (g : KeyState) (c : EffectiveEvent) : KeyState :=
  Scan.add EffectiveEvent.content EffectiveEvent.contentHash earlier g c

def KeyState.streams (g : KeyState) (c : EffectiveEvent) : Bool :=
  match g.rep with
  | some p => decide (p.content ≠ c.content) && isLegacyQuotaArmingState p && isLegacyQuotaArmingState c
  | none => false

def KeyState.add (g : KeyState) (c : EffectiveEvent) : KeyState := if g.streams c then ⟨some c, g.noted⟩ else g.scan c

theorem content_ne {p c : EffectiveEvent} :
    p.content ≠ c.content ↔ p.contentHash ≠ c.contentHash ∨ p.status ≠ c.status := by
  simp only [EffectiveEvent.content, ne_eq, Prod.mk.injEq, not_and_or]

theorem replaceIfEarlier_group (g : Grouping) (c p : EffectiveEvent) (key : String × Nat)
    (hp : g.byRevision.get? c.key = some p) : (g.replaceIfEarlier c.key c p).group key =
      if c.key = key then ⟨some (earlier p c), g.divergent.get? key⟩ else g.group key := by
  unfold Grouping.replaceIfEarlier Grouping.group earlier
  by_cases hk : c.key = key
  · subst hk
    split
    · simp
    · simp [hp]
  · split
    · simp [hk, Dict.get?_set_ne]
    · simp

theorem keyState_add_none {g : KeyState} (hp : g.rep = none) (c : EffectiveEvent) : g.add c = ⟨some c, g.noted⟩ := by
  simp [KeyState.add, KeyState.streams, hp, KeyState.scan, Scan.add_none hp]

theorem keyState_add_some {g : KeyState} {p : EffectiveEvent} (hp : g.rep = some p) (c : EffectiveEvent) :
    g.add c =
      if p.content ≠ c.content then
        if isLegacyQuotaArmingState p && isLegacyQuotaArmingState c then ⟨some c, g.noted⟩
        else ⟨some (earlier p c), some (g.noted.getD [] ++ [p.contentHash, c.contentHash])⟩
      else ⟨some (earlier p c), g.noted⟩ := by
  rw [KeyState.add, KeyState.streams, hp, KeyState.scan, Scan.add_some hp]
  by_cases hne : p.content = c.content
  · simp [hne]
  · simp [hne]

theorem grouping_add_none {g : Grouping} {c : EffectiveEvent} (hp : g.byRevision.get? c.key = none) :
    g.add c = { g with byRevision := g.byRevision.set c.key c } := by
  simp only [Grouping.add, show g.byRevision.get? (c.eventId, c.rev) = none from hp]
  rfl

theorem grouping_add_some {g : Grouping} {c p : EffectiveEvent} (hp : g.byRevision.get? c.key = some p) :
    g.add c =
      if p.content ≠ c.content then
        if isLegacyQuotaArmingState p && isLegacyQuotaArmingState c then
          { g with byRevision := g.byRevision.set c.key c }
        else
          let hashes := (g.divergent.get? c.key).getD [] ++ [p.contentHash, c.contentHash]
          Grouping.replaceIfEarlier { g with divergent := g.divergent.set c.key hashes } c.key c p
      else g.replaceIfEarlier c.key c p := by
  simp only [Grouping.add, show g.byRevision.get? (c.eventId, c.rev) = some p from hp, content_ne]
  rfl

theorem group_add (g : Grouping) (c : EffectiveEvent) (key : String × Nat) :
    (g.add c).group key = if c.key = key then (g.group key).add c else g.group key := by
  cases hp : g.byRevision.get? c.key with
  | none =>
    rw [grouping_add_none hp]
    by_cases hk : c.key = key
    · subst hk
      rw [if_pos rfl, keyState_add_none (show (g.group c.key).rep = none from hp)]
      simp [Grouping.group]
    · simp [Grouping.group, hk, Dict.get?_set_ne]
  | some p =>
    rw [grouping_add_some hp]
    by_cases hk : c.key = key
    · subst hk
      rw [if_pos rfl, keyState_add_some (show (g.group c.key).rep = some p from hp)]
      split
      · split
        · simp [Grouping.group]
        · rw [replaceIfEarlier_group _ _ _ _ (by exact hp), if_pos rfl]
          simp [Grouping.group]
      · rw [replaceIfEarlier_group _ _ _ _ hp, if_pos rfl]
        rfl
    · rw [if_neg hk]
      split
      · split
        · simp [Grouping.group, Dict.get?_set_ne, hk]
        · rw [replaceIfEarlier_group _ _ _ _ (by exact hp), if_neg hk]
          simp [Grouping.group, Dict.get?_set_ne, hk]
      · rw [replaceIfEarlier_group _ _ _ _ hp, if_neg hk]

theorem group_groupCandidates (l : List EffectiveEvent) (key : String × Nat) :
    (groupCandidates l).group key = (l.filter fun c => c.key = key).foldl KeyState.add Scan.start := by
  rw [groupCandidates, foldl_view (fun g : Grouping => g.group key) KeyState.add (fun c => c.key = key)]
  · rfl
  · intro g c
    simp only [group_add, decide_eq_true_eq]

/-! ## Walking one group -/

theorem earlier_eq (p c : EffectiveEvent) : earlier p c = p ∨ earlier p c = c := by
  unfold earlier
  split
  · exact Or.inr rfl
  · exact Or.inl rfl

theorem rep_add (g : KeyState) (c : EffectiveEvent) :
    ∃ p, (g.add c).rep = some p ∧ (g.rep = some p ∨ p = c) := by
  cases hg : g.rep with
  | none => rw [keyState_add_none hg]; exact ⟨c, rfl, Or.inr rfl⟩
  | some p =>
    have he : ∃ q, some (earlier p c) = some q ∧ (some p = some q ∨ q = c) :=
      ⟨_, rfl, (earlier_eq p c).imp (fun h => congrArg some h.symm) id⟩
    rw [keyState_add_some hg]
    split
    · split
      · exact ⟨c, rfl, Or.inr rfl⟩
      · exact he
    · exact he

theorem walk_rep : ∀ (l : List EffectiveEvent) (g : KeyState),
    ((l.foldl KeyState.add g).rep = none → g.rep = none ∧ l = []) ∧
    ∀ p, (l.foldl KeyState.add g).rep = some p → g.rep = some p ∨ p ∈ l
  | [], g => ⟨fun h => ⟨h, rfl⟩, fun p h => Or.inl h⟩
  | c :: l, g => by
    obtain ⟨ih₁, ih₂⟩ := walk_rep l (g.add c)
    obtain ⟨q, hq, hqc⟩ := rep_add g c
    refine ⟨fun h => ?_, fun p h => ?_⟩
    · have := (ih₁ h).1
      rw [hq] at this
      cases this
    · rcases ih₂ p h with h | h
      · obtain rfl := Option.some.inj (hq.symm.trans h)
        rcases hqc with hqc | rfl
        · exact Or.inl hqc
        · exact Or.inr (List.mem_cons_self ..)
      · exact Or.inr (List.mem_cons_of_mem _ h)

theorem walk_scan : ∀ {l : List EffectiveEvent} (g : KeyState), (∀ c ∈ l, isLegacyQuotaArmingState c = false) →
    l.foldl KeyState.add g = l.foldl KeyState.scan g
  | [], _, _ => rfl
  | c :: l, g, h => by
    have hs : g.streams c = false := by
      unfold KeyState.streams
      split
      · rw [h c (List.mem_cons_self ..), Bool.and_false]
      · rfl
    have hc : g.add c = g.scan c := by rw [KeyState.add, hs]; rfl
    rw [List.foldl_cons, List.foldl_cons, hc]
    exact walk_scan _ fun d hd => h d (List.mem_cons_of_mem _ hd)

theorem walk_saw {l : List EffectiveEvent} (h : ∀ c ∈ l, isLegacyQuotaArmingState c = false) :
    Scan.Saw EffectiveEvent.content EffectiveEvent.contentHash (l.foldl KeyState.add Scan.start) l := by
  rw [walk_scan _ h]
  refine Scan.Saw.foldl ?_ earlier_eq l Scan.Saw.start
  intro a b hab
  exact congrArg Prod.fst hab

theorem scan_rep : ∀ {l : List EffectiveEvent} {g : KeyState} {k : String × Nat},
    (∀ p, g.rep = some p → p.key = k ∧ p.sequence.isSome) → (∀ c ∈ l, c.key = k ∧ c.sequence.isSome) →
    (l.foldl KeyState.scan g).rep = l.foldl (champion EffectiveEvent.rev EffectiveEvent.position) g.rep
  | [], _, _, _, _ => rfl
  | c :: l, g, k, hg, hl => by
    obtain ⟨hck, hcs⟩ := hl c (List.mem_cons_self ..)
    have hstep : (g.scan c).rep = champion EffectiveEvent.rev EffectiveEvent.position g.rep c := by
      cases hp : g.rep with
      | none => rw [KeyState.scan, Scan.add_none hp]; rfl
      | some p =>
        obtain ⟨hpk, hps⟩ := hg p hp
        rw [KeyState.scan, Scan.add_some hp]
        obtain ⟨n, hn⟩ := Option.isSome_iff_exists.mp hcs
        obtain ⟨m, hm⟩ := Option.isSome_iff_exists.mp hps
        have hrev : c.rev = p.rev := congrArg Prod.snd (hck.trans hpk.symm)
        have hb : Beats EffectiveEvent.rev EffectiveEvent.position c p ↔ precedes c p = true := by
          simp [Beats, hrev, EffectiveEvent.position, precedes, hn, hm]
        simp only [champion, earlier, hb]
        split
        · rfl
        · rfl
    rw [List.foldl_cons, List.foldl_cons, ← hstep]
    refine scan_rep (k := k) (fun p hp => ?_) fun d hd => hl d (List.mem_cons_of_mem _ hd)
    rw [hstep] at hp
    cases hgr : g.rep with
    | none =>
      rw [hgr] at hp
      cases hp
      exact ⟨hck, hcs⟩
    | some q =>
      rw [hgr, champion] at hp
      split at hp
      · cases hp
        exact ⟨hck, hcs⟩
      · cases hp
        exact hg _ hgr

theorem walk_winner {l : List EffectiveEvent} {k : String × Nat} {w : EffectiveEvent}
    (hl : ∀ c ∈ l, c.key = k ∧ c.sequence.isSome) (h : ∀ c ∈ l, isLegacyQuotaArmingState c = false)
    (hw : (l.foldl KeyState.add Scan.start).rep = some w) :
    IsWinner EffectiveEvent.rev EffectiveEvent.position {c | c ∈ l} w := by
  rw [walk_scan _ h, scan_rep (fun p hp => by cases hp) hl] at hw
  rcases @foldl_champion_none _ _ _ _ _ EffectiveEvent.rev EffectiveEvent.position l with ⟨-, hn⟩ | ⟨w', hw', hwin⟩
  · rw [Scan.start, hn] at hw
    cases hw
  · rw [Scan.start, hw'] at hw
    cases hw
    exact hwin

theorem walk_stream : ∀ (l : List EffectiveEvent) (p : EffectiveEvent), isLegacyQuotaArmingState p = true →
    (∀ c ∈ l, isLegacyQuotaArmingState c = true) →
    ∃ w, l.foldl KeyState.add ⟨some p, none⟩ = ⟨some w, none⟩ ∧
      w.content = ((p :: l).getLast (List.cons_ne_nil p l)).content
  | [], p, _, _ => ⟨p, rfl, rfl⟩
  | c :: l, p, hp, hl => by
    have hc := hl c (List.mem_cons_self ..)
    have hl' : ∀ d ∈ l, isLegacyQuotaArmingState d = true := fun d hd => hl d (List.mem_cons_of_mem _ hd)
    rw [List.foldl_cons, keyState_add_some rfl, List.getLast_cons (List.cons_ne_nil c l)]
    split
    · simp only [hp, hc, Bool.and_self, if_true]
      exact walk_stream l c hc hl'
    · rename_i hpc
      rw [not_not] at hpc
      rcases earlier_eq p c with he | he
      · rw [he]
        obtain ⟨w, hw, hwc⟩ := walk_stream l p hp hl'
        refine ⟨w, hw, ?_⟩
        rw [hwc]
        cases l with
        | nil => exact hpc
        | cons d l => rfl
      · rw [he]
        exact walk_stream l c hc hl'

/-! ## Winners and conflicts -/

section
variable {l : List EffectiveEvent} {id : String}

theorem byRevision_eq (l : List EffectiveEvent) (key : String × Nat) : (groupCandidates l).byRevision.get? key =
    ((l.filter fun c => c.key = key).foldl KeyState.add Scan.start).rep :=
  congrArg Scan.rep (group_groupCandidates l key)

theorem byRevision_mem {key : String × Nat} {v : EffectiveEvent}
    (h : (groupCandidates l).byRevision.get? key = some v) : v ∈ l ∧ v.key = key := by
  rw [byRevision_eq] at h
  rcases (walk_rep _ _).2 v h with hv | hv
  · cases hv
  · simpa using hv

theorem byRevision_none {key : String × Nat} (h : (groupCandidates l).byRevision.get? key = none) :
    ∀ c ∈ l, c.key ≠ key := by
  rw [byRevision_eq] at h
  have := ((walk_rep _ _).1 h).2
  simpa using this

theorem winners_get? (l : List EffectiveEvent) (id : String) :
    ((groupCandidates l).winners.get? id = none ∧ ∀ c ∈ l, c.eventId ≠ id) ∨
    ∃ w, (groupCandidates l).winners.get? id = some w ∧
      (groupCandidates l).byRevision.get? (id, w.rev) = some w ∧ ∀ c ∈ l, c.eventId = id → c.rev ≤ w.rev := by
  have hview : (groupCandidates l).winners.get? id =
      ((groupCandidates l).byRevision.values.filter fun c => c.eventId = id).foldl
        (champion EffectiveEvent.rev fun _ => 0) none := by
    rw [Grouping.winners, foldl_view (fun d : Dict String EffectiveEvent => d.get? id)
      (champion EffectiveEvent.rev fun _ => 0) (fun c => c.eventId = id)]
    · rfl
    · intro d c
      simp only [decide_eq_true_eq]
      unfold takeHigherRevision
      by_cases hc : c.eventId = id
      · subst hc
        rw [if_pos rfl]
        cases hd : d.get? c.eventId with
        | none => simp [champion]
        | some p =>
          simp only [champion, Beats, lt_irrefl, and_false, or_false]
          split
          · simp
          · exact hd
      · rw [if_neg hc]
        split
        · rw [Dict.get?_set_ne _ _ hc]
        · split
          · rw [Dict.get?_set_ne _ _ hc]
          · rfl
  -- the values of one event id are one for each revision
  have hmem : ∀ v, v ∈ (groupCandidates l).byRevision.values.filter (fun c => c.eventId = id) ↔
      (groupCandidates l).byRevision.get? (id, v.rev) = some v := by
    intro v
    rw [List.mem_filter, Dict.mem_values, decide_eq_true_eq]
    refine ⟨fun h => ?_, fun h => ?_⟩
    · obtain ⟨⟨key, hk⟩, rfl⟩ := h
      rw [show (v.eventId, v.rev) = key from (byRevision_mem hk).2]
      exact hk
    · exact ⟨⟨_, h⟩, congrArg Prod.fst (byRevision_mem h).2⟩
  have hkeep : ∀ c ∈ l, c.eventId = id → ∃ v, (groupCandidates l).byRevision.get? (id, c.rev) = some v := by
    intro c hc hid
    cases hg : (groupCandidates l).byRevision.get? (id, c.rev) with
    | none => exact absurd (by rw [EffectiveEvent.key, hid]) (byRevision_none hg c hc)
    | some v => exact ⟨v, rfl⟩
  rw [hview]
  rcases @foldl_champion_none _ _ _ _ _ EffectiveEvent.rev (fun _ => 0)
    ((groupCandidates l).byRevision.values.filter fun c => c.eventId = id) with ⟨hnil, hn⟩ | ⟨w, hw, hwin⟩
  · refine Or.inl ⟨hn, fun c hc hid => ?_⟩
    obtain ⟨v, hv⟩ := hkeep c hc hid
    have hrev : v.rev = c.rev := congrArg Prod.snd (byRevision_mem hv).2
    have := (hmem v).mpr (hrev.symm ▸ hv)
    rw [hnil] at this
    cases this
  · refine Or.inr ⟨w, hw, (hmem w).mp hwin.1, fun c hc hid => ?_⟩
    obtain ⟨v, hv⟩ := hkeep c hc hid
    have hrev : v.rev = c.rev := congrArg Prod.snd (byRevision_mem hv).2
    have := hwin.rev_le ((hmem v).mpr (hrev.symm ▸ hv))
    rwa [hrev] at this

theorem winners_mem {w : EffectiveEvent} (h : (groupCandidates l).winners.get? id = some w) :
    w ∈ l ∧ w.eventId = id ∧ (groupCandidates l).byRevision.get? (id, w.rev) = some w ∧
      ∀ c ∈ l, c.eventId = id → c.rev ≤ w.rev := by
  rcases winners_get? l id with ⟨hn, -⟩ | ⟨w', hw', hb, hmax⟩
  · rw [hn] at h
    cases h
  · rw [hw'] at h
    cases h
    obtain ⟨hl, hkey⟩ := byRevision_mem hb
    exact ⟨hl, congrArg Prod.fst hkey, hb, hmax⟩

theorem mem_conflicts {k : EventConflict} : k ∈ (groupCandidates l).conflicts ↔
    ∃ w labels, (groupCandidates l).winners.get? k.eventId = some w ∧
      (groupCandidates l).divergent.get? (k.eventId, w.rev) = some labels ∧
      k = ⟨w.eventId, w.rev, sortedSet labels, w.contentHash⟩ := by
  unfold Grouping.conflicts
  rw [List.mem_filterMap]
  refine ⟨fun h => ?_, fun h => ?_⟩
  · obtain ⟨⟨key, labels⟩, hmem, hk⟩ := h
    rw [List.mem_insertionSort, ← Dict.get?_eq_some] at hmem
    simp only at hk
    split at hk
    · rename_i winner selected hw hs
      split at hk
      · rename_i hrev
        cases hk
        obtain ⟨-, hid, hb, -⟩ := winners_mem hw
        rw [hrev, show (key.1, key.2) = key from rfl, hs] at hb
        cases hb
        exact ⟨winner, labels, hw, by rw [hrev]; exact hmem, by rw [hid, hrev]⟩
      · cases hk
    · cases hk
  · obtain ⟨w, labels, hw, hd, hk⟩ := h
    refine ⟨((k.eventId, w.rev), labels), ?_, ?_⟩
    · rw [List.mem_insertionSort, ← Dict.get?_eq_some]
      exact hd
    · obtain ⟨-, hid, hb, -⟩ := winners_mem hw
      simp only [hw, hb, if_true]
      rw [hk, hid]

theorem nodup_conflicts : ((groupCandidates l).conflicts.map (·.eventId)).Nodup := by
  have hkeys : (((groupCandidates l).divergent.entries.insertionSort fun a b => toLex a.1 ≤ toLex b.1).map
      Prod.fst).Nodup :=
    ((List.perm_insertionSort _ _).map Prod.fst).nodup_iff.mpr (groupCandidates l).divergent.nodup
  rw [List.Nodup, List.pairwise_map, Grouping.conflicts, List.pairwise_filterMap]
  refine List.Pairwise.imp ?_ (List.pairwise_map.mp hkeys)
  intro a b hab k hk k' hk' he
  simp only at hk hk'
  split at hk
  · rename_i hwa _
    split at hk
    · rename_i hra
      cases hk
      split at hk'
      · rename_i hwb _
        split at hk'
        · rename_i hrb
          cases hk'
          have he : a.1.1 = b.1.1 := he
          rw [he, hwb] at hwa
          cases hwa
          exact hab (Prod.ext he (hra.symm.trans hrb))
        · cases hk'
      · cases hk'
    · cases hk
  · cases hk

end

end Cctally
