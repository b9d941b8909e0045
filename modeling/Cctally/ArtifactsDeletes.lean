import Cctally.ArtifactsSound

/-!
# The plan

What the plan deletes, keeps and protects, and the rules it reports as unsatisfied.
-/

namespace Cctally.Artifacts

theorem get?_foldl_setdefault {k : String} {v : String} (reason : String) : ∀ (l : List String) (reasons : Dict String String),
    reasons.get? k = some v → (l.foldl (fun reasons id => reasons.setdefault id reason) reasons).get? k = some v
  | [], _, h => h
  | id :: l, reasons, h => by
    rw [List.foldl_cons]
    refine get?_foldl_setdefault reason l _ ?_
    rw [Dict.get?_setdefault, h]
    rfl

section
variable {g : Graph} (hg : Rooted g)
include hg

theorem reasons_addAll {picks : Picks} (hp : Pickable g picks) :
    ∀ p ∈ picks, (selectionOf g picks).reasons.get? p.1.id = some p.2 := by
  induction picks using List.reverseRecOn with
  | nil => nofun
  | append_singleton picks q ih =>
    intro p hm
    have hroot := hp.roots q (by simp)
    have hnew : q.1 ∉ picks.map Prod.fst := by
      intro hm
      have hn := hp.nodup_fst
      rw [List.map_append, List.nodup_append] at hn
      exact hn.2.2 _ hm _ List.mem_cons_self rfl
    obtain ⟨_, hadd, -⟩ := add_eq hg (tracks_addAll hg hp.left).1 hroot (hp.left.new hg hroot hnew) q.2
    rw [← selectionOf_append, hadd]
    refine get?_foldl_setdefault _ _ _ ?_
    obtain hm | hm := List.mem_append.1 hm
    · have hne : q.1.id ≠ p.1.id := by
        intro he
        rw [List.inj_on_of_nodup_map hg.nodup hroot (hp.left.roots p hm) he] at hnew
        exact hnew (List.mem_map_of_mem hm)
      rw [Dict.get?_set_ne _ _ hne]
      exact ih hp.left p hm
    · rw [List.mem_singleton.1 hm, Dict.get?_set, if_pos rfl]

end

theorem get?_foldl_set_ne {k : String} (reason : Root → String) : ∀ (l : List Root) (reasons : Dict String String),
    (∀ r ∈ l, r.id ≠ k) → (l.foldl (fun reasons r => reasons.set r.id (reason r)) reasons).get? k = reasons.get? k
  | [], _, _ => rfl
  | r :: l, reasons, h => by
    rw [List.foldl_cons, get?_foldl_set_ne reason l _ fun r' hr' => h r' (List.mem_cons_of_mem r hr'),
      Dict.get?_set_ne _ _ (h r List.mem_cons_self)]

section
variable {s : Selection} {floored : Finset String}

theorem keepRoot_ids : ∀ (l : List Root) (kept : List String × Dict String String),
    (l.foldl (keepRoot s floored) kept).1 =
      kept.1 ++ (l.filter fun r => r.id ∉ s.closed ∧ r.protectedReasons = []).map Root.id
  | [], kept => by simp
  | r :: l, kept => by
    rw [List.foldl_cons, keepRoot_ids l, keepRoot]
    by_cases hc : r.id ∈ s.closed ∨ r.protectedReasons ≠ []
    · have hno : ¬ (r.id ∉ s.closed ∧ r.protectedReasons = []) := by tauto
      rw [if_pos hc, List.filter_cons_of_neg (by simpa using hno)]
    · have hyes : r.id ∉ s.closed ∧ r.protectedReasons = [] := by tauto
      rw [if_neg hc, List.filter_cons_of_pos (by simpa using hyes)]
      split <;> simp

theorem get?_keepRoot {k : String} (hk : k ∈ s.closed) : ∀ (l : List Root) (kept : List String × Dict String String),
    (l.foldl (keepRoot s floored) kept).2.get? k = kept.2.get? k
  | [], _ => rfl
  | r :: l, kept => by
    rw [List.foldl_cons, get?_keepRoot hk l, keepRoot]
    split
    · rfl
    · rename_i hc
      have hne : r.id ≠ k := by
        rintro rfl
        exact hc (.inl hk)
      split
      · rw [Dict.get?_set_ne _ _ hne]
      · rw [Dict.get?_setdefault, if_neg hne, Option.or_none]

end

/-! ## The plan of a graph -/

def Eligible (state : RetentionState) (policy : RetentionPolicy) (root : Root) : Prop :=
  root ∈ state.graph.roots ∧ root.protectedReasons = [] ∧ root.id ∉ flooredIds state policy

section
variable {state : RetentionState} (policy : RetentionPolicy) (hg : Rooted state.graph)

theorem mem_selectable {r : Root} : r ∈ selectable state (flooredIds state policy) ↔ Eligible state policy r := by
  rw [selectable, List.mem_filter, decide_eq_true_eq, Eligible]

include hg

theorem mem_plan_unsatisfiedRules {bound : String} : bound ∈ (planArtifactRetention state policy).unsatisfiedRules ↔
    Unmet state policy (runSelection state policy ∅).closed bound := by
  obtain ⟨ph, hrun⟩ := exists_run policy ∅ hg
  have hs : Tracks state.graph (selectionOf state.graph ph.picks) := (tracks_addAll hg (hrun.pickable hg)).1
  rw [← hrun.run] at hs
  have hplan : (planArtifactRetention state policy).unsatisfiedRules =
      BOUND_ORDER.filter (· ∈ unsatisfiedRules state policy (runSelection state policy ∅)) := by
    simp only [planArtifactRetention]
    split
    · rename_i he
      rw [he]
    · rfl
  rw [hplan, List.mem_filter, decide_eq_true_eq, ← mem_unsatisfiedRules hs, and_iff_right_iff_imp]
  intro hb
  simp only [unsatisfiedRules, List.mem_append, mem_ite_singleton] at hb
  obtain ((⟨-, rfl⟩ | ⟨-, rfl⟩) | ⟨-, rfl⟩) | ⟨-, rfl⟩ := hb <;> decide

theorem root_placed {ph : Phases} (hrun : IsRun state policy (flooredIds state policy) ph) {r : Root}
    (hr : r ∈ state.graph.roots) :
    let plan := planArtifactRetention state policy
    (r.id ∈ plan.deleteIds ∧ r.id ∉ plan.keepIds ∧ r.id ∉ plan.protectedIds) ∨
      (r.id ∉ plan.deleteIds ∧ r.id ∈ plan.keepIds ∧ r.id ∉ plan.protectedIds) ∨
      (r.id ∉ plan.deleteIds ∧ r.id ∉ plan.keepIds ∧ r.id ∈ plan.protectedIds) := by
  have hids : Tracks state.graph (selectionOf state.graph ph.picks) ∧ _ := tracks_addAll hg (hrun.pickable hg)
  have hs := hids.1
  rw [← hrun.run] at hs
  have hinj : ∀ r' ∈ state.graph.roots, r'.id = r.id → r' = r := fun r' hr' => List.inj_on_of_nodup_map hg.nodup hr' hr
  have hdel : r.id ∈ (planArtifactRetention state policy).deleteIds ↔
      r.id ∈ (runSelection state policy (flooredIds state policy)).closed := by
    rw [← hs.order, List.mem_toFinset]
    rfl
  have hkeep : r.id ∈ (planArtifactRetention state policy).keepIds ↔
      r.id ∉ (runSelection state policy (flooredIds state policy)).closed ∧ r.protectedReasons = [] := by
    simp only [planArtifactRetention, keepRoot_ids, List.nil_append, List.mem_map, List.mem_filter, decide_eq_true_eq]
    constructor
    · rintro ⟨r', ⟨hr', hc⟩, he⟩
      rwa [hinj r' hr' he] at hc
    · exact fun hc => ⟨r, ⟨hr, hc⟩, rfl⟩
  have hprot : r.id ∈ (planArtifactRetention state policy).protectedIds ↔ r.protectedReasons ≠ [] := by
    simp only [planArtifactRetention, List.mem_map, List.mem_filter, decide_eq_true_eq]
    constructor
    · rintro ⟨r', ⟨hr', hc⟩, he⟩
      rwa [hinj r' hr' he] at hc
    · exact fun hc => ⟨r, ⟨hr, hc⟩, rfl⟩
  have hnot : r.id ∈ (runSelection state policy (flooredIds state policy)).closed → r.protectedReasons = [] := by
    intro hc
    rw [hs.closed, root_mem_deletionClosure hg hr, hrun.run, hids.2, List.mem_toFinset] at hc
    obtain ⟨p, hp, he⟩ := List.mem_map.1 hc
    have hcand := (hrun.perm hg).mem_iff.1 (List.mem_append_left _ (List.mem_map_of_mem hp))
    rw [hinj p.1 ((hrun.pickable hg).roots p hp) he] at hcand
    exact ((mem_selectable policy).1 hcand).2.1
  by_cases hc : r.id ∈ (runSelection state policy (flooredIds state policy)).closed
  · exact .inl ⟨hdel.2 hc, fun h => (hkeep.1 h).1 hc, fun h => hprot.1 h (hnot hc)⟩
  · by_cases hp : r.protectedReasons = []
    · exact .inr (.inl ⟨mt hdel.1 hc, hkeep.2 ⟨hc, hp⟩, fun h => hprot.1 h hp⟩)
    · exact .inr (.inr ⟨mt hdel.1 hc, fun h => hp (hkeep.1 h).2, hprot.2 hp⟩)

end

def idsOf (picks : Picks) : Finset String := (picks.map (·.1.id)).toFinset

/-- **The plan deletes the closure of an oldest-first selection.** -/
theorem plan_deletes_closure {members : List Member} {g : Graph} (hbuild : buildGraph members = .ok g) (nowEpoch : Rat)
    (freeDiskBytes : Option Int) (policy : RetentionPolicy) :
    let state : RetentionState := ⟨g, nowEpoch, freeDiskBytes⟩
    let plan := planArtifactRetention state policy
    (∀ picks, Pickable g picks →
      (selectionOf g picks).closed = deletionClosure g (idsOf picks) ∧
      (selectionOf g picks).bytes = ∑ id ∈ deletionClosure g (idsOf picks), bytesOf g id ∧
      ∀ f, (selectionOf g picks).survivingRootCounts.get? f =
        if survivors g (deletionClosure g (idsOf picks)) f = 0 then none
        else some (survivors g (deletionClosure g (idsOf picks)) f)) ∧
    ∃ picks, Pickable g picks ∧ runSelection state policy (flooredIds state policy) = selectionOf g picks ∧
      (plan.deleteIds.Nodup ∧ plan.deleteIds.toFinset = deletionClosure g (idsOf picks)) ∧
      (∀ r ∈ g.roots, (r.id ∈ plan.deleteIds ∧ r.id ∉ plan.keepIds ∧ r.id ∉ plan.protectedIds) ∨
        (r.id ∉ plan.deleteIds ∧ r.id ∈ plan.keepIds ∧ r.id ∉ plan.protectedIds) ∨
        (r.id ∉ plan.deleteIds ∧ r.id ∉ plan.keepIds ∧ r.id ∈ plan.protectedIds)) ∧
      (∀ r ∈ g.roots, r.protectedReasons ≠ [] ∨ r.id ∈ flooredIds state policy →
        ∀ x ∈ r.reachableIds, x ∉ plan.deleteIds) ∧
      (plan.beforeBytes = g.bytes ∧ plan.reclaimableBytes = ∑ id ∈ deletionClosure g (idsOf picks), bytesOf g id ∧
        plan.projectedBytes = plan.beforeBytes - plan.reclaimableBytes) ∧
      (∀ p ∈ picks, Eligible state policy p.1 ∧ plan.reasons.get? p.1.id = some p.2) ∧
      (∀ pre p post, picks = pre ++ p :: post →
        OverFor state policy (deletionClosure g (idsOf pre)) p.1 p.2 ∧
        Unmet state policy (deletionClosure g (idsOf pre)) p.2 ∧
        ∀ r, Eligible state policy r → r.age < p.1.age →
          OverFor state policy (deletionClosure g (idsOf pre)) r p.2 → r ∈ pre.map Prod.fst) ∧
      ∀ bound, Unmet state policy (deletionClosure g (idsOf picks)) bound →
        (bound ∈ plan.unsatisfiedRules ∨ ¬ Unmet state policy (runSelection state policy ∅).closed bound) ∧
        ∀ r, Eligible state policy r → OverFor state policy (deletionClosure g (idsOf picks)) r bound →
          r.id ∈ plan.deleteIds := by
  intro state plan
  have hg : Rooted state.graph := rooted_of_buildGraph hbuild
  have hclosed : ∀ picks, Pickable g picks → (selectionOf g picks).closed = deletionClosure g (idsOf picks) := by
    intro picks hp
    obtain ⟨hs, hids⟩ := tracks_addAll hg hp
    rw [hs.closed, hids]
    rfl
  refine ⟨fun picks hp => ⟨hclosed picks hp, ?_, fun f => ?_⟩, ?_⟩
  · rw [← hclosed picks hp]
    exact (tracks_addAll hg hp).1.bytes
  · rw [← hclosed picks hp]
    exact get?_survivingRootCounts (tracks_addAll hg hp).1 f
  obtain ⟨ph, hrun⟩ := exists_run policy (flooredIds state policy) hg
  have hp := hrun.pickable hg
  obtain ⟨hs, hids⟩ := tracks_addAll hg hp
  have horder : plan.deleteIds = (selectionOf g ph.picks).order := congrArg Selection.order hrun.run
  have hdel : plan.deleteIds.toFinset = deletionClosure g (idsOf ph.picks) := by
    rw [horder, hs.order, hclosed _ hp]
  have heligible : ∀ p ∈ ph.picks, Eligible state policy p.1 := fun p hm =>
    (mem_selectable policy).1 ((hrun.perm hg).mem_iff.1 (List.mem_append_left _ (List.mem_map_of_mem hm)))
  refine ⟨ph.picks, hp, hrun.run, ⟨horder ▸ hs.orderNodup, hdel⟩, fun r hr => root_placed policy hg hrun hr, ?_, ?_, ?_, ?_, ?_⟩
  · intro r hr hkept x hx hdeleted
    rw [← List.mem_toFinset, hdel, mem_deletionClosure hg] at hdeleted
    have hsel := hdeleted.2 ((root_mem_inboundOf hg hr).2 hx)
    obtain ⟨p, hm, he⟩ := List.mem_map.1 (List.mem_toFinset.1 hsel)
    have hel := heligible p hm
    rw [List.inj_on_of_nodup_map hg.nodup (hp.roots p hm) hr he] at hel
    exact hkept.elim (fun h => h hel.2.1) hel.2.2
  · have hbytes : plan.reclaimableBytes = (selectionOf g ph.picks).bytes := congrArg Selection.bytes hrun.run
    exact ⟨rfl, by rw [hbytes, hs.bytes, hclosed _ hp], rfl⟩
  · intro p hm
    refine ⟨heligible p hm, ?_⟩
    have hin : p.1.id ∈ (runSelection state policy (flooredIds state policy)).closed := by
      rw [hrun.run, hs.closed, root_mem_deletionClosure hg (hp.roots p hm), hids, List.mem_toFinset]
      exact List.mem_map_of_mem hm
    refine (get?_keepRoot hin _ _).trans ((get?_foldl_set_ne _ _ _ fun r hr he => ?_).trans ?_)
    · obtain ⟨hr, hprot⟩ := List.mem_filter.1 hr
      rw [List.inj_on_of_nodup_map hg.nodup hr (hp.roots p hm) he] at hprot
      exact of_decide_eq_true hprot (heligible p hm).2.1
    · rw [hrun.run]
      exact reasons_addAll hg hp p hm
  · intro pre p post hsplit
    have hpre : Pickable g pre := by
      rw [hsplit] at hp
      exact hp.left
    obtain ⟨hover, hold⟩ := hrun.turn hg hsplit
    rw [hclosed pre hpre] at hover hold
    refine ⟨hover, .inr ⟨p.1, hp.roots p (by rw [hsplit]; simp), fun hm => ?_, hover⟩,
      fun r hr => hold r ((mem_selectable policy).2 hr)⟩
    rw [root_mem_deletionClosure hg (hp.roots p (by rw [hsplit]; simp)), idsOf, List.mem_toFinset] at hm
    have hn := hp.nodup
    rw [hsplit, List.map_append, List.nodup_append] at hn
    exact hn.2.2 _ hm _ List.mem_cons_self rfl
  · intro bound _
    refine ⟨?_, fun r hr ho => ?_⟩
    · rw [mem_plan_unsatisfiedRules policy hg]
      exact em _
    · rw [← hclosed _ hp] at ho
      have hm := hrun.selected hg ((mem_selectable policy).2 hr) ho
      rw [← List.mem_toFinset, hdel, root_mem_deletionClosure hg hr.1, idsOf, List.mem_toFinset]
      obtain ⟨p, hp', rfl⟩ := List.mem_map.1 hm
      exact List.mem_map_of_mem hp'

def incident (id : String) (createdAtEpoch : Rat) (references : List String) (shapeToken : Option String) : Member :=
  ⟨id, "incident", "", createdAtEpoch, 1, references, false, true, true, true, some "high", shapeToken, true, false⟩

def byAge (maxAgeSeconds : Int) : RetentionPolicy := ⟨some maxAgeSeconds, none, none, none, 1⟩

theorem plan_deletes_closure_old :
    ∃ g, buildGraph [incident "a" 0 [] none] = .ok g ∧ ∃ picks, Pickable g picks ∧
      (planArtifactRetention ⟨g, 100, none⟩ (byAge 50)).deleteIds.toFinset = deletionClosure g (idsOf picks) := by
  refine ⟨_, rfl, ?_⟩
  obtain ⟨-, picks, hp, -, hdel, -⟩ := plan_deletes_closure (rfl : buildGraph [incident "a" 0 [] none] = .ok _) 100 none (byAge 50)
  exact ⟨picks, hp, hdel.2⟩

def LeavesYoung (members : List Member) (listed : Bool) : Prop :=
  ∃ g, buildGraph members = .ok g ∧
    let plan := planArtifactRetention ⟨g, 100, none⟩ (byAge 50)
    Unmet ⟨g, 100, none⟩ (byAge 50) plan.deleteIds.toFinset "max_age_seconds" ∧
    ("max_age_seconds" ∈ plan.unsatisfiedRules ↔ listed = true) ∧
    ∃ r, Eligible ⟨g, 100, none⟩ (byAge 50) r ∧ r.id ∉ plan.deleteIds

theorem leavesYoung_of {members : List Member} {listed : Bool} {g : Graph} (hbuild : buildGraph members = .ok g)
    (hlisted : decide ("max_age_seconds" ∈ (planArtifactRetention ⟨g, 100, none⟩ (byAge 50)).unsatisfiedRules) = listed)
    (hold : ∃ r ∈ g.roots, r.id ∉ (planArtifactRetention ⟨g, 100, none⟩ (byAge 50)).deleteIds.toFinset ∧
      overAge ⟨g, 100, none⟩ (byAge 50) r = true)
    (hyoung : ∃ r ∈ g.roots, (r.protectedReasons = [] ∧ r.id ∉ flooredIds ⟨g, 100, none⟩ (byAge 50)) ∧
      r.id ∉ (planArtifactRetention ⟨g, 100, none⟩ (byAge 50)).deleteIds) : LeavesYoung members listed := by
  obtain ⟨r, hr, hel, hdel⟩ := hyoung
  exact ⟨g, hbuild, .inr hold, by rw [← hlisted, decide_eq_true_eq], r, ⟨hr, hel⟩, hdel⟩

/-- The age bound is not met because of the shape floor, and then because of protection; neither time is the young
root selected. -/
theorem young_not_selected :
    LeavesYoung [incident "old" 0 [] (some "s"), incident "young" 100 [] none] false ∧
      LeavesYoung [incident "old" 0 ["lost"] none, incident "young" 100 [] none] true :=
  ⟨leavesYoung_of rfl (by decide +kernel) (by decide +kernel) (by decide +kernel),
    leavesYoung_of rfl (by decide +kernel) (by decide +kernel) (by decide +kernel)⟩

end Cctally.Artifacts
