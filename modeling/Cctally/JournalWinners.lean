import Cctally.JournalSelect

/-!
# What a pass selects

The candidates of a pass are stated with no order. Of each event id the pass
keeps the highest revision, in it the lowest position, and reports a conflict
when the candidates of that revision differ; an id of legacy arming records
keeps the content visited last.
-/

namespace Cctally

open Winner

section
variable (cand : EffectiveEvent → Prop) (sel : EffectiveSelection) (id : String)

def Rivals (w c : EffectiveEvent) : Prop := cand c ∧ c.eventId = w.eventId ∧ c.rev = w.rev

structure ElectsFirst : Prop where
  winner : ∀ w, sel.byId.get? id = some w ↔ cand w ∧ w.eventId = id ∧
    ∀ c, cand c → c.eventId = id → c.rev < w.rev ∨ (c.rev = w.rev ∧ w.position ≤ c.position)
  conflict : ∀ w, sel.byId.get? id = some w →
    ((∃ k ∈ sel.conflicts, k.eventId = id) ↔ ∃ c d, Rivals cand w c ∧ Rivals cand w d ∧
      (c.contentHash ≠ d.contentHash ∨ c.status ≠ d.status))
  conflictHash : ∀ w, sel.byId.get? id = some w →
    (∀ c d, Rivals cand w c → Rivals cand w d → c.contentHash = d.contentHash → c.status = d.status) →
    ((∃ k ∈ sel.conflicts, k.eventId = id) ↔
      ∃ c d, Rivals cand w c ∧ Rivals cand w d ∧ c.contentHash ≠ d.contentHash)
  hashes : ∀ w, sel.byId.get? id = some w → ∀ k ∈ sel.conflicts, k.eventId = id →
    k.rev = w.rev ∧ k.selectedHash = w.contentHash ∧ k.contentHashes.Pairwise (· < ·) ∧
      ∀ x, x ∈ k.contentHashes ↔ ∃ c, Rivals cand w c ∧ c.contentHash = x

structure ElectsLast : Prop where
  silent : ∀ k ∈ sel.conflicts, k.eventId ≠ id
  winner : ∀ c, cand c → c.eventId = id → (∀ d, cand d → d.eventId = id → visitKey d ≤ visitKey c) →
    ∃ w, sel.byId.get? id = some w ∧ cand w ∧ w.eventId = id ∧ w.contentHash = c.contentHash ∧ w.status = c.status

def ListsActive : Prop :=
  ∃ ws : List EffectiveEvent, sel.active.map some = ws.map (·.record) ∧
    ws.Pairwise (fun a b => a.position < b.position) ∧
    ∀ w, w ∈ ws ↔ sel.byId.get? w.eventId = some w ∧ w.status = .active

structure Selects : Prop where
  byId : ∀ id, (∃ w, sel.byId.get? id = some w) ↔ ∃ c, cand c ∧ c.eventId = id
  first : ∀ id, (∀ c, cand c → c.eventId = id → isLegacyQuotaArmingState c = false) → ElectsFirst cand sel id
  last : ∀ id, (∀ c, cand c → c.eventId = id → isLegacyQuotaArmingState c = true ∧ c.rev = 0) →
    ElectsLast cand sel id
  conflicts : (sel.conflicts.map (·.eventId)).Nodup
  active : ListsActive sel

end

section
variable {l : List EffectiveEvent} {id : String}

theorem mem_group {w c : EffectiveEvent} (hid : w.eventId = id) :
    (c ∈ l.filter fun c => c.key = (id, w.rev)) ↔ Rivals (· ∈ l) w c := by
  simp only [List.mem_filter, EffectiveEvent.key, decide_eq_true_eq, Prod.mk.injEq, Rivals, hid]

section
variable (hseq : ∀ c ∈ l, c.sequence.isSome) (hnl : ∀ c ∈ l, c.eventId = id → isLegacyQuotaArmingState c = false)
include hnl

theorem group_first {w : EffectiveEvent} (hid : w.eventId = id) :
    Scan.Saw EffectiveEvent.content EffectiveEvent.contentHash ((groupCandidates l).group (id, w.rev))
      (l.filter fun c => c.key = (id, w.rev)) := by
  rw [group_groupCandidates]
  refine walk_saw fun c hc => ?_
  obtain ⟨hc, hcid, -⟩ := (mem_group hid).mp hc
  exact hnl c hc (hcid.trans hid)

include hseq in
theorem winners_isWinner {w : EffectiveEvent} (h : (groupCandidates l).winners.get? id = some w) :
    IsWinner EffectiveEvent.rev EffectiveEvent.position {c | c ∈ l ∧ c.eventId = id} w := by
  obtain ⟨hw, hid, hb, hmax⟩ := winners_mem h
  rw [byRevision_eq] at hb
  have hwin := walk_winner (k := (id, w.rev)) (fun c hc => ?_) (fun c hc => ?_) hb
  · refine hwin.mono (fun c hc => ?_) (fun c hc hn => ?_)
    · obtain ⟨hc, hcid, -⟩ := (mem_group hid).mp hc
      exact ⟨hc, hcid.trans hid⟩
    · refine not_beats.mpr (Or.inl (lt_of_le_of_ne (hmax c hc.1 hc.2) fun hr => hn ?_))
      exact (mem_group hid).mpr ⟨hc.1, hc.2.trans hid.symm, hr⟩
  · simp only [List.mem_filter, decide_eq_true_eq] at hc
    exact ⟨hc.2, hseq c hc.1⟩
  · obtain ⟨hc, hcid, -⟩ := (mem_group hid).mp hc
    exact hnl c hc (hcid.trans hid)

theorem conflict_iff {w : EffectiveEvent} (h : (groupCandidates l).winners.get? id = some w) :
    (∃ k ∈ (groupCandidates l).conflicts, k.eventId = id) ↔
      ∃ c d, Rivals (· ∈ l) w c ∧ Rivals (· ∈ l) w d ∧ (c.contentHash ≠ d.contentHash ∨ c.status ≠ d.status) := by
  obtain ⟨-, hid, -, -⟩ := winners_mem h
  have hsaw := group_first hnl hid
  refine ⟨fun hk => ?_, fun hcd => ?_⟩
  · obtain ⟨k, hk, rfl⟩ := hk
    obtain ⟨w', labels, hw', hd, -⟩ := mem_conflicts.mp hk
    obtain rfl := Option.some.inj (h.symm.trans hw')
    obtain ⟨⟨c, hc, d, hd, hne⟩, -⟩ := hsaw.noted labels hd
    exact ⟨c, d, (mem_group hid).mp hc, (mem_group hid).mp hd, content_ne.mp hne⟩
  · obtain ⟨c, d, hc, hd, hne⟩ := hcd
    cases hn : (groupCandidates l).divergent.get? (id, w.rev) with
    | none =>
      have := hsaw.agree hn c ((mem_group hid).mpr hc) d ((mem_group hid).mpr hd)
      exact absurd this (content_ne.mpr hne)
    | some labels =>
      refine ⟨⟨w.eventId, w.rev, sortedSet labels, w.contentHash⟩, mem_conflicts.mpr ⟨w, labels, ?_, ?_, rfl⟩, hid⟩
      · rw [hid]; exact h
      · rw [hid]; exact hn

theorem conflict_hashes {w : EffectiveEvent} (h : (groupCandidates l).winners.get? id = some w)
    {k : EventConflict} (hk : k ∈ (groupCandidates l).conflicts) (hkid : k.eventId = id) :
    k.rev = w.rev ∧ k.selectedHash = w.contentHash ∧ k.contentHashes.Pairwise (· < ·) ∧
      ∀ x, x ∈ k.contentHashes ↔ ∃ c, Rivals (· ∈ l) w c ∧ c.contentHash = x := by
  obtain ⟨-, hid, -, -⟩ := winners_mem h
  obtain ⟨w', labels, hw', hd, hk⟩ := mem_conflicts.mp hk
  subst hkid
  obtain rfl := Option.some.inj (h.symm.trans hw')
  obtain ⟨-, hlabels⟩ := (group_first hnl hid).noted labels hd
  have hs : k.contentHashes = sortedSet labels := by rw [hk]
  refine ⟨by rw [hk], by rw [hk], ?_, fun x => ?_⟩
  · rw [hs]
    exact ((pairwise_sortedSet labels).and (nodup_sortedSet labels)).imp fun h => lt_of_le_of_ne h.1 h.2
  · rw [hs, mem_sortedSet, hlabels]
    refine ⟨fun h => ?_, fun h => ?_⟩
    · obtain ⟨c, hc, hx⟩ := h
      exact ⟨c, (mem_group hid).mp hc, hx⟩
    · obtain ⟨c, hc, hx⟩ := h
      exact ⟨c, (mem_group hid).mpr hc, hx⟩

end

end

/-! ## Selection from the records -/

section
variable {rt : Runtime} {records : List Json} {rs : List Reading} {ids : List String} {fold : SelectorFold}
  (hrs : readEntries rt records 0 = .ok rs) (hR : Resolved rt (phaseOne rt rs) ids fold)
include hrs hR

theorem isSome_sequence : ∀ c ∈ fold.candidates, c.sequence.isSome := by
  intro c hc
  obtain ⟨n, hn⟩ := ((mem_candidates_iff hrs hR).mp hc).sequence
  rw [hn]; rfl

theorem eq_of_position {c d : EffectiveEvent} (hc : c ∈ fold.candidates) (hd : d ∈ fold.candidates)
    (h : c.position = d.position) : c = d := by
  have hc' := (mem_candidates_iff hrs hR).mp hc
  have hd' := (mem_candidates_iff hrs hR).mp hd
  obtain ⟨n, hn⟩ := hc'.sequence
  obtain ⟨m, hm⟩ := hd'.sequence
  refine hc'.eq_of_sequence hd' ?_
  simp only [EffectiveEvent.position, hn, hm, Option.getD_some] at h
  rw [hn, hm, h]

variable (acknowledged : Acknowledged)

theorem electsFirst {id : String} (hnl : ∀ c, IsCandidate rt records fold.completed c → c.eventId = id →
    isLegacyQuotaArmingState c = false) :
    ElectsFirst (IsCandidate rt records fold.completed) (fold.select rt acknowledged) id := by
  have hcand : IsCandidate rt records fold.completed = (· ∈ fold.candidates) :=
    funext fun c => propext (mem_candidates_iff hrs hR).symm
  rw [hcand] at hnl ⊢
  have hseq := isSome_sequence hrs hR
  refine ⟨fun w => ⟨fun h => ?_, fun h => ?_⟩, fun w h => conflict_iff hnl h, fun w h hsep => ?_,
    fun w h k hk hid => conflict_hashes hnl h hk hid⟩
  · have hwin := winners_isWinner hseq hnl h
    exact ⟨hwin.1.1, hwin.1.2, fun c hc hid => not_beats.mp (hwin.2 c ⟨hc, hid⟩)⟩
  · obtain ⟨hw, hid, hbest⟩ := h
    rcases winners_get? fold.candidates id with ⟨-, hnone⟩ | ⟨w', hw', -⟩
    · exact absurd hid (hnone w hw)
    · have hwin := winners_isWinner hseq hnl hw'
      have hwin' : IsWinner EffectiveEvent.rev EffectiveEvent.position
          {c | c ∈ fold.candidates ∧ c.eventId = id} w :=
        ⟨⟨hw, hid⟩, fun c hc => not_beats.mpr (hbest c hc.1 hc.2)⟩
      rw [hwin'.unique (fun a ha b hb _ hpos => eq_of_position hrs hR ha.1 hb.1 hpos) hwin]
      exact hw'
  · refine (conflict_iff hnl h).trans ⟨fun hcd => ?_, fun hcd => ?_⟩
    · obtain ⟨c, d, hc, hd, hne⟩ := hcd
      refine ⟨c, d, hc, hd, fun he => ?_⟩
      rcases hne with hne | hne
      · exact hne he
      · exact hne (hsep c d hc hd he)
    · obtain ⟨c, d, hc, hd, hne⟩ := hcd
      exact ⟨c, d, hc, hd, Or.inl hne⟩

theorem electsLast (hsorted : ids.Pairwise (· < ·)) {id : String}
    (hl : ∀ c, IsCandidate rt records fold.completed c → c.eventId = id →
      isLegacyQuotaArmingState c = true ∧ c.rev = 0) :
    ElectsLast (IsCandidate rt records fold.completed) (fold.select rt acknowledged) id := by
  have hcand : IsCandidate rt records fold.completed = (· ∈ fold.candidates) :=
    funext fun c => propext (mem_candidates_iff hrs hR).symm
  rw [hcand] at hl ⊢
  -- all candidates of the id are one group, walked in visiting order
  let group := fold.candidates.filter fun c => c.key = (id, 0)
  have hgroup : ∀ c, c ∈ group ↔ c ∈ fold.candidates ∧ c.eventId = id := by
    intro c
    simp only [group, List.mem_filter, EffectiveEvent.key, decide_eq_true_eq, Prod.mk.injEq]
    exact ⟨fun h => ⟨h.1, h.2.1⟩, fun h => ⟨h.1, h.2, (hl c h.1 h.2).2⟩⟩
  have hleg : ∀ c ∈ group, isLegacyQuotaArmingState c = true := by
    intro c hc
    obtain ⟨hc, hid⟩ := (hgroup c).mp hc
    exact (hl c hc hid).1
  have hvisit : group.Pairwise fun a b => visitKey a < visitKey b := (hR.pairwise_candidates hrs hsorted).filter _
  have hwalk : (groupCandidates fold.candidates).group (id, 0) = group.foldl KeyState.add Scan.start :=
    group_groupCandidates _ _
  cases hg : group with
  | nil =>
    have hnone : ∀ c ∈ fold.candidates, c.eventId ≠ id := by
      intro c hc hid
      have := (hgroup c).mpr ⟨hc, hid⟩
      rw [hg] at this
      cases this
    refine ⟨fun k hk hid => ?_, fun c hc hid => absurd hid (hnone c hc)⟩
    obtain ⟨w, labels, hw, -⟩ := mem_conflicts.mp hk
    obtain ⟨hwl, hwid, -⟩ := winners_mem hw
    exact hnone w hwl (hwid.trans hid)
  | cons p rest =>
    obtain ⟨w, hw, hcontent⟩ := walk_stream rest p (hleg p (hg ▸ List.mem_cons_self ..))
      fun c hc => hleg c (hg ▸ List.mem_cons_of_mem _ hc)
    rw [hg, List.foldl_cons, Scan.start, keyState_add_none rfl, hw] at hwalk
    have hwin : ∀ {v : EffectiveEvent}, (groupCandidates fold.candidates).winners.get? id = some v → v = w := by
      intro v hv
      obtain ⟨hvl, hvid, hvb, -⟩ := winners_mem hv
      rw [(hl v hvl hvid).2] at hvb
      exact Option.some.inj (hvb.symm.trans (congrArg Scan.rep hwalk))
    refine ⟨fun k hk hid => ?_, fun c hc hid hlast => ?_⟩
    · obtain ⟨v, labels, hv, hd, -⟩ := mem_conflicts.mp hk
      rw [hid] at hv hd
      obtain ⟨hvl, hvid, -⟩ := winners_mem hv
      rw [(hl v hvl hvid).2] at hd
      have := hd.symm.trans (congrArg Scan.noted hwalk)
      cases this
    · rcases winners_get? fold.candidates id with ⟨-, hnone⟩ | ⟨v, hv, -⟩
      · exact absurd hid (hnone c hc)
      · obtain rfl := hwin hv
        obtain ⟨hvl, hvid, -⟩ := winners_mem hv
        -- the greatest visit key is that of the last one walked
        have hlastc : (p :: rest).getLast (List.cons_ne_nil p rest) = c := by
          by_contra hne
          have hmem := List.getLast_mem (List.cons_ne_nil p rest)
          rw [hg] at hvisit hgroup
          obtain ⟨hml, hmid⟩ := (hgroup _).mp hmem
          have hle := hlast _ hml hmid
          have hcg := (hgroup c).mpr ⟨hc, hid⟩
          rw [← List.dropLast_append_getLast (List.cons_ne_nil p rest)] at hvisit hcg
          rcases List.mem_append.mp hcg with hcg | hcg
          · have := (List.pairwise_append.mp hvisit).2.2 c hcg _ (List.mem_singleton_self _)
            exact absurd this (not_lt_of_ge hle)
          · exact hne (List.mem_singleton.mp hcg).symm
        rw [hlastc] at hcontent
        exact ⟨v, hv, hvl, hvid, congrArg Prod.fst hcontent, congrArg Prod.snd hcontent⟩

theorem record_isSome {c : EffectiveEvent} (hc : c ∈ fold.candidates) (ha : c.status = .active) :
    ∃ record, c.record = some record := by
  obtain ⟨n, ⟨record, -, -, hcand⟩ | ⟨r, -, -, rfl⟩⟩ := (mem_candidates_iff hrs hR).mp hc
  · exact ⟨_, (candidateFromEvt_fields hcand).2.2.2.1⟩
  · unfold candidateFromCorrection at ha ⊢
    split
    · rename_i ht
      rw [ht] at ha
      cases ha
    · exact ⟨_, rfl⟩

theorem listsActive : ListsActive (fold.select rt acknowledged) := by
  let winners := (groupCandidates fold.candidates).winners
  have hmem : ∀ w, w ∈ winners.values ↔ winners.get? w.eventId = some w := by
    intro w
    rw [Dict.mem_values]
    refine ⟨fun h => ?_, fun h => ⟨_, h⟩⟩
    obtain ⟨id, h⟩ := h
    rwa [(winners_mem h).2.1]
  have hlist : ∀ w, w ∈ sortBySequence winners.values ↔ winners.get? w.eventId = some w := by
    intro w
    rw [sortBySequence, List.mem_insertionSort, hmem]
  have hnodup : winners.values.Nodup := by
    refine List.Nodup.map_on ?_ winners.nodup.of_map
    intro a ha b hb hab
    have ha' := (winners_mem (Dict.get?_eq_some.mpr ha)).2.1
    have hb' := (winners_mem (Dict.get?_eq_some.mpr hb)).2.1
    exact Prod.ext (ha'.symm.trans ((congrArg EffectiveEvent.eventId hab).trans hb')) hab
  have hsort : (sortBySequence winners.values).Pairwise fun a b => a.position < b.position := by
    have hle : (sortBySequence winners.values).Pairwise fun a b => a.position ≤ b.position :=
      have : Std.Total fun a b : EffectiveEvent => a.position ≤ b.position := ⟨fun a b => le_total _ _⟩
      have : IsTrans EffectiveEvent fun a b => a.position ≤ b.position := ⟨fun a b c => le_trans⟩
      List.pairwise_insertionSort _ _
    have hnd : (sortBySequence winners.values).Nodup := (List.perm_insertionSort _ _).nodup_iff.mpr hnodup
    refine List.Pairwise.imp_of_mem ?_ (hle.and hnd)
    intro a b ha hb h
    refine lt_of_le_of_ne h.1 fun he => h.2 ?_
    exact eq_of_position hrs hR (winners_mem ((hlist a).mp ha)).1 (winners_mem ((hlist b).mp hb)).1 he
  refine ⟨(sortBySequence winners.values).filter fun c => c.status = .active, ?_, hsort.filter _, fun w => ?_⟩
  · have hrec : ∀ c ∈ sortBySequence winners.values, c.status = .active → ∃ record, c.record = some record :=
      fun c hc ha => record_isSome hrs hR (winners_mem ((hlist c).mp hc)).1 ha
    show ((sortBySequence winners.values).filterMap fun c => if c.status = .active then c.record else none).map some = _
    generalize sortBySequence winners.values = ws at hrec
    induction ws with
    | nil => rfl
    | cons c ws ih =>
      have ih := ih fun d hd => hrec d (List.mem_cons_of_mem _ hd)
      by_cases ha : c.status = .active
      · obtain ⟨record, hr⟩ := hrec c (List.mem_cons_self ..) ha
        simp [ha, hr, ih]
      · simp [ha, ih]
  · rw [List.mem_filter, hlist, decide_eq_true_eq]
    rfl

end

section
variable {rt : Runtime} {records : List Json} {evidence : List PrefixEvidence} {sel : EffectiveSelection}
  {fold : SelectorFold}

theorem resolveEffectiveEvents_eq_ok :
    resolveEffectiveEvents rt records evidence = .ok (sel, fold) ↔ accumulate rt records = .ok fold ∧
      ∃ acknowledged, acknowledge rt fold evidence = .ok acknowledged ∧ sel = fold.select rt acknowledged := by
  simp only [resolveEffectiveEvents, Except.bind_eq_ok, Except.pure_eq_ok, Prod.mk.injEq]
  refine ⟨fun h => ?_, fun h => ?_⟩
  · obtain ⟨f, hf, acknowledged, ha, rfl, rfl⟩ := h
    exact ⟨hf, acknowledged, ha, rfl⟩
  · obtain ⟨hf, acknowledged, ha, rfl⟩ := h
    exact ⟨fold, hf, acknowledged, ha, rfl, rfl⟩

end

def armingPayload (state : Int) : Json := .obj [("kind", .str "quota_alert_arming"), ("state", .num state)]

/-- A revision-0 correction of the arming record `e`, then a later arming record `e`. -/
def revisedArming : List Json :=
  ((makeCorrectionBatch workedRuntime "A" "family" "t" [.obj [("action", .str "replace"), ("at", .str "t"),
    ("id", .str "e"), ("payload", armingPayload 1), ("rev", .num 0)]]).toOption.getD []) ++
  [.obj [("at", .str "u"), ("id", .str "e"), ("payload", armingPayload 2), ("t", .str "evt")]]

theorem arming_runs : (resolveEffectiveEvents workedRuntime revisedArming []).returns (fun r =>
    r.2.candidates.all (fun c => c.eventId == "e" && isLegacyQuotaArmingState c && c.rev == 0) &&
    r.2.candidates.any (fun c => r.2.candidates.all (fun d => decide (d.position ≤ c.position)) &&
      match r.1.byId.get? "e" with
      | some w => w.contentHash != c.contentHash
      | none => false)) = true := by
  decide +kernel

end Cctally
