import Cctally.ArtifactsDeletes

/-!
# Dangling references

When every member that refers to a selectable root is reached only by roots whose turn
is not later, and no member stands before a cycle that leads to it, what is deleted at
any point is referred to only from a cycle through it.
-/

namespace Cctally.Artifacts

abbrev Refers (g : Graph) : String → String → Prop :=
  Relation.ReflTransGen fun a b => b ∈ knownReferences g.members a

def NoDangling (g : Graph) (deleteIds : List String) : Prop :=
  (∀ pre post, deleteIds = pre ++ post → ∀ y ∈ known g.members, y ∉ pre →
    ∀ x ∈ knownReferences g.members y, x ∈ pre → ∃ z ∈ pre, Refers g y z ∧ Refers g z y) ∧
  ∀ y ∈ known g.members, y ∉ deleteIds → ∀ x ∈ knownReferences g.members y, x ∉ deleteIds

section
variable (state : RetentionState) (policy : RetentionPolicy)

def phaseOf (root : Root) : Nat :=
  if overAge state policy root then 0
  else if overRank policy state.graph (selectable state (flooredIds state policy)) root then 1 else 2

def turnOf (root : Root) : Nat ×ₗ (Rat ×ₗ String) := toLex (phaseOf state policy root, root.age)

def memberReferrers (g : Graph) (rootId : String) (l : List String) (id : String) : Finset String :=
  (referrers g l id).erase rootId

def wholeWalk (g : Graph) (root : Root) : List String := closureCandidates g root.id root.reachableIds

structure Clear : Prop where
  roots : ∀ x, Eligible state policy x → ∀ y ∈ known state.graph.members, x.id ∈ knownReferences state.graph.members y →
    ∀ z ∈ state.graph.roots, y ∈ z.reachableIds →
      z = x ∨ (Eligible state policy z ∧ turnOf state policy z < turnOf state policy x)
  cycles : ∀ r, Eligible state policy r → Topological.CyclesFirst
    (memberReferrers state.graph r.id (wholeWalk state.graph r)) (wholeWalk state.graph r)

end

/-! ## The walk of a group -/

section
variable {g : Graph} (hg : Rooted g) {r : Root} (hr : r ∈ g.roots)

theorem walk_root {rootId : String} {closure : Finset String} (h : rootId ∈ closure) :
    ∃ hq, closureCandidates g rootId closure =
      Reach.walk (insert rootId (known g.members)) (fun id => (knownReferences g.members id).reverse)
        (fun a b hb => Finset.mem_insert_of_mem (mem_known_of_knownReferences g.members a b (List.mem_reverse.1 hb)))
        (· ∉ closure) ((knownReferences g.members rootId).reverse.reverse ++ []) hq [rootId] := by
  refine ⟨?_, ?_⟩
  · intro c hc
    rw [List.append_nil, List.reverse_reverse] at hc
    exact Finset.mem_insert_of_mem (mem_known_of_knownReferences g.members rootId c hc)
  · rw [closureCandidates, Reach.walk, if_neg (by simp [h])]
    rfl

theorem closureCandidates_head {rootId : String} {closure : Finset String} (h : rootId ∈ closure) :
    ∃ rest, closureCandidates g rootId closure = rootId :: rest := by
  obtain ⟨hq, hw⟩ := walk_root (g := g) h
  obtain ⟨rest, hrest⟩ := Reach.prefix_walk _ hq [rootId]
  exact ⟨rest, by rw [hw, ← hrest]; rfl⟩

include hg hr

theorem reachable_of_refers {a b : String} (ha : a ∈ r.reachableIds) (hb : b ∈ knownReferences g.members a)
    (hroot : ∀ x ∈ g.roots, x.id = b → x = r) : b ∈ r.reachableIds := by
  by_cases hx : ∃ x ∈ g.roots, x.id = b
  · obtain ⟨x, hx, rfl⟩ := hx
    rw [hroot x hx rfl]
    exact self_reachable hg hr
  · refine (hg.reaches r hr b).2 (((hg.reaches r hr a).1 ha).tail ⟨hb, ?_⟩)
    rw [decide_eq_false_iff_not, List.mem_toFinset, List.mem_map]
    exact hx

theorem closure_of_reachable {selected : Finset String} {a b : String} (ha : a ∈ known g.members)
    (hb : b ∈ knownReferences g.members a) (hreach : b ∈ r.reachableIds) (hne : b ≠ r.id)
    (hc : b ∈ deletionClosure g selected) : a ∈ deletionClosure g selected := by
  refine closure_of_refers hg ha ⟨hb, ?_⟩ hc
  rw [decide_eq_false_iff_not, List.mem_toFinset, List.mem_map]
  rintro ⟨x, hx, rfl⟩
  exact hne (congrArg Root.id (eq_of_root_reachable hg hx hr hreach))

theorem closureCandidates_eq {selected : Finset String} (hsel : r.id ∈ selected)
    (hother : ∀ a ∈ r.reachableIds, ∀ x ∈ g.roots, x.id ∈ knownReferences g.members a → x.id ∈ selected → x = r) :
    closureCandidates g r.id (deletionClosure g selected) =
      (wholeWalk g r).filter (· ∈ deletionClosure g selected) := by
  have hself : r.id ∈ deletionClosure g selected := (root_mem_deletionClosure hg hr).2 hsel
  obtain ⟨hq, hw⟩ := walk_root (g := g) (self_reachable hg hr)
  obtain ⟨hq', hw'⟩ := walk_root (g := g) hself
  have hstop : ∀ a ∈ r.reachableIds, ∀ b ∈ (knownReferences g.members a).reverse,
      decide (b ∉ deletionClosure g selected) = true ↔
        decide (b ∉ r.reachableIds) = true ∨ decide (b ∈ deletionClosure g selected) = false := by
    intro a ha b hb
    rw [List.mem_reverse] at hb
    simp only [decide_eq_true_eq, decide_eq_false_iff_not]
    refine ⟨.inr, fun h => h.elim (fun hno hc => hno ?_) id⟩
    refine reachable_of_refers hg hr ha hb fun x hx he => ?_
    subst he
    exact hother a ha x hx hb ((root_mem_deletionClosure hg hx).1 hc)
  have hbase : [r.id] = [r.id].filter (· ∈ deletionClosure g selected) := by simp [hself]
  rw [wholeWalk, hw, hw']
  conv_lhs => rw [hbase]
  refine Reach.walk_filter [r.id] (fun a _ ha b hb => hstop a (by simpa using ha) b hb) (fun a hk ha b hb => ?_)
    _ hq [r.id] (fun b hb => hb) _ hq' (fun b hb => ?_) (.refl _ _)
  · rw [List.mem_reverse] at hb
    rw [decide_eq_false_iff_not, not_not] at ha
    rw [decide_eq_false_iff_not] at hk
    by_cases hbr : b = r.id
    · exact .inl (hbr ▸ List.mem_singleton_self _)
    · by_cases hreach : b ∈ r.reachableIds
      · refine .inr (.inr (decide_eq_false fun hc => hk ?_))
        exact closure_of_reachable hg hr (reachable_known hg hr ha) hb hreach hbr hc
      · exact .inr (.inl (decide_eq_true hreach))
  · rw [List.append_nil] at hb
    exact hstop r.id (self_reachable hg hr) b (by simpa using hb)

theorem candidate_known {closure : Finset String} {x : String} (hx : x ∈ closureCandidates g r.id closure) :
    x ∈ known g.members := by
  rw [mem_closureCandidates] at hx
  obtain ⟨-, hp⟩ := hx
  cases hp with
  | refl => exact hg.member r hr
  | tail _ hs => exact mem_known_of_knownReferences g.members _ _ hs.1

omit hg hr in
theorem candidate_refers {closure : Finset String} {x : String} (hx : x ∈ closureCandidates g r.id closure) :
    Refers g r.id x :=
  Relation.ReflTransGen.mono (fun _ _ h => h.1) _ _ ((mem_closureCandidates g).1 hx).2

omit hg hr in
theorem candidate_mem {closure : Finset String} {x : String} (hx : x ∈ closureCandidates g r.id closure) : x ∈ closure := by
  obtain ⟨hroot, hp⟩ := (mem_closureCandidates g).1 hx
  cases hp with
  | refl => exact hroot
  | tail _ hs => simpa using hs.2

theorem mem_referrers {closure : Finset String} {a b : String} :
    a ∈ referrers g (closureCandidates g r.id closure) b ↔
      a ∈ closureCandidates g r.id closure ∧ b ∈ closureCandidates g r.id closure ∧ b ≠ a ∧
        b ∈ knownReferences g.members a := by
  rw [referrers, List.mem_toFinset, List.mem_filter, decide_eq_true_eq]
  refine and_congr_right fun ha => and_congr_right fun hb => and_congr_right fun _ => ?_
  rw [knownReferences]
  cases g.members.get? a with
  | none => simp
  | some m => simp [candidate_known hg hr hb]

theorem exists_referrer (closure : Finset String) {q : String} (hq : q ∈ closureCandidates g r.id closure) (hne : q ≠ r.id) :
    ∃ a, a ∈ referrers g (closureCandidates g r.id closure) q := by
  obtain ⟨hroot, hp⟩ := (mem_closureCandidates g).1 hq
  clear hq
  induction hp with
  | refl => exact absurd rfl hne
  | @tail a q hp hs ih =>
    by_cases ha : a = q
    · subst ha
      exact ih hne
    · have hcand {x : String} (hx : Reach.Path (knownReferences g.members) (· ∉ closure) r.id x) :
          x ∈ closureCandidates g r.id closure := (mem_closureCandidates g).2 ⟨hroot, hx⟩
      exact ⟨a, (mem_referrers hg hr).2 ⟨hcand hp, hcand (hp.tail hs), Ne.symm ha, hs.1⟩⟩

theorem closureOrder_eq {closure : Finset String} (hroot : r.id ∈ closure) :
    ∃ rest, closureCandidates g r.id closure = r.id :: rest ∧ closureOrder g r.id closure =
      r.id :: Topological.emit (memberReferrers g r.id (closureCandidates g r.id closure)) rest {r.id} := by
  obtain ⟨rest, hrest⟩ := closureCandidates_head (g := g) hroot
  refine ⟨rest, hrest, ?_⟩
  have hn : (r.id :: rest).Nodup := hrest ▸ Reach.nodup_walk _ _ _ List.nodup_nil
  have hnone : ∀ q ∈ rest, ¬ referrers g (closureCandidates g r.id closure) q ⊆ ∅ := by
    intro q hq hsub
    obtain ⟨a, ha⟩ := exists_referrer hg hr closure (hrest ▸ List.mem_cons_of_mem _ hq)
      (by rintro rfl; exact (List.nodup_cons.1 hn).1 hq)
    exact Finset.notMem_empty a (hsub ha)
  have hchoose : Topological.choose (referrers g (closureCandidates g r.id closure)) (r.id :: rest) r.id ∅ = r.id := by
    have hfind : rest.find? (fun q => referrers g (closureCandidates g r.id closure) q ⊆ ∅) = none :=
      List.find?_eq_none.2 fun q hq => by simpa using hnone q hq
    rw [Topological.choose, List.find?_cons]
    split
    · rfl
    · rw [hfind]; rfl
  have hemit : Topological.emit (referrers g (closureCandidates g r.id closure)) rest {r.id} =
      Topological.emit (memberReferrers g r.id (closureCandidates g r.id closure)) rest {r.id} := by
    refine Topological.emit_congr _ _ fun p _ taken ht => ⟨(Finset.erase_subset _ _).trans, fun h a ha => ?_⟩
    by_cases har : a = r.id
    · exact har ▸ ht (Finset.mem_singleton_self _)
    · exact h (Finset.mem_erase.2 ⟨har, ha⟩)
  rw [closureOrder, ← hemit]
  generalize closureCandidates g r.id closure = candidates at *
  subst hrest
  rw [Topological.emit, hchoose, List.erase_cons_head]
  rfl

theorem memberReferrers_mono {selected : Finset String} {a b : String}
    (hsub : ∀ x ∈ closureCandidates g r.id (deletionClosure g selected), x ∈ wholeWalk g r)
    (h : a ∈ memberReferrers g r.id (closureCandidates g r.id (deletionClosure g selected)) b) :
    a ∈ memberReferrers g r.id (wholeWalk g r) b := by
  rw [memberReferrers, Finset.mem_erase, mem_referrers hg hr] at h
  rw [memberReferrers, Finset.mem_erase, wholeWalk, mem_referrers hg hr]
  exact ⟨h.1, hsub a h.2.1, hsub b h.2.2.1, h.2.2.2⟩

theorem leads_deletable {selected : Finset String}
    (heq : closureCandidates g r.id (deletionClosure g selected) =
      (wholeWalk g r).filter (· ∈ deletionClosure g selected)) {a c : String}
    (h : Topological.Leads (memberReferrers g r.id (wholeWalk g r)) a c) (hne : c ≠ r.id)
    (hc : c ∈ closureCandidates g r.id (deletionClosure g selected)) :
    Topological.Leads (memberReferrers g r.id (closureCandidates g r.id (deletionClosure g selected))) a c ∧
      (a ∈ closureCandidates g r.id (deletionClosure g selected) ∧ a ≠ r.id) := by
  induction h using Relation.ReflTransGen.head_induction_on with
  | refl => exact ⟨.refl, hc, hne⟩
  | @head a b hab _ ih =>
    obtain ⟨hbc, hb, hbne⟩ := ih
    rw [memberReferrers, Finset.mem_erase, wholeWalk, mem_referrers hg hr] at hab
    obtain ⟨hane, haw, hbw, hba, href⟩ := hab
    have ha : a ∈ closureCandidates g r.id (deletionClosure g selected) := by
      rw [heq, List.mem_filter, decide_eq_true_eq] at hb ⊢
      exact ⟨haw, closure_of_reachable hg hr (candidate_known hg hr haw) href (candidate_mem hbw) hbne hb.2⟩
    refine ⟨.head ?_ hbc, ha, hane⟩
    rw [memberReferrers, Finset.mem_erase, mem_referrers hg hr]
    exact ⟨hane, ha, hb, hba, href⟩

/-- **Within a group** a member goes after what refers to it, or is on a cycle with it. -/
theorem group_order {selected : Finset String} (hsel : r.id ∈ selected)
    (hother : ∀ a ∈ r.reachableIds, ∀ x ∈ g.roots, x.id ∈ knownReferences g.members a → x.id ∈ selected → x = r)
    (hcycles : Topological.CyclesFirst (memberReferrers g r.id (wholeWalk g r)) (wholeWalk g r))
    {l₁ l₂ : List String} {x y : String} (hl : closureOrder g r.id (deletionClosure g selected) = l₁ ++ x :: l₂)
    (hy : y ∈ closureCandidates g r.id (deletionClosure g selected)) (href : x ∈ knownReferences g.members y) (hne : x ≠ y) :
    y ∈ l₁ ∨ Refers g x y := by
  have hself : r.id ∈ deletionClosure g selected := (root_mem_deletionClosure hg hr).2 hsel
  have heq := closureCandidates_eq hg hr hsel hother
  obtain ⟨rest, hrest, horder⟩ := closureOrder_eq hg hr hself
  have hn : (r.id :: rest).Nodup := hrest ▸ Reach.nodup_walk _ _ _ List.nodup_nil
  rw [horder] at hl
  cases l₁ with
  | nil =>
    obtain ⟨rfl, -⟩ := List.cons.inj hl
    exact .inr (candidate_refers hy)
  | cons q l₁ =>
    obtain ⟨rfl, htail⟩ := List.cons.inj hl
    by_cases hyr : y = r.id
    · exact .inl (hyr ▸ List.mem_cons_self)
    have hx : x ∈ rest := by
      rw [← (Topological.perm_emit _ rest {r.id}).mem_iff, htail]
      exact List.mem_append_right _ List.mem_cons_self
    have hxc : x ∈ closureCandidates g r.id (deletionClosure g selected) := hrest ▸ List.mem_cons_of_mem _ hx
    have hyx : y ∈ memberReferrers g r.id (closureCandidates g r.id (deletionClosure g selected)) x := by
      rw [memberReferrers, Finset.mem_erase, mem_referrers hg hr]
      exact ⟨hyr, hy, hxc, hne, href⟩
    have hsub : ∀ x ∈ closureCandidates g r.id (deletionClosure g selected), x ∈ wholeWalk g r := by
      rw [heq]
      exact fun x hx => List.mem_of_mem_filter hx
    have hfirst : Topological.CyclesFirst
        (memberReferrers g r.id (closureCandidates g r.id (deletionClosure g selected))) rest := by
      intro p c hpc hcycle hcp
      have hmono := fun a b => memberReferrers_mono hg hr (a := a) (b := b) hsub
      have hsublist : [p, c].Sublist (wholeWalk g r) := by
        refine (hpc.trans ((List.sublist_cons_self r.id rest).trans ?_))
        rw [← hrest, heq]
        exact List.filter_sublist
      have hc : c ∈ rest := hpc.subset (by simp)
      have hcr : c ≠ r.id := by
        rintro rfl
        exact (List.nodup_cons.1 hn).1 hc
      refine (leads_deletable hg hr heq (hcycles p c hsublist ?_ ?_) hcr (hrest ▸ List.mem_cons_of_mem _ hc)).1
      · exact Relation.TransGen.mono hmono _ _ hcycle
      · exact Relation.ReflTransGen.mono hmono _ _ hcp
    have hfrom : ∀ p ∈ rest, ∀ q ∈ memberReferrers g r.id (closureCandidates g r.id (deletionClosure g selected)) p,
        q ∈ ({r.id} : Finset String) ∨ q ∈ rest := by
      intro p _ q hq
      rw [memberReferrers, Finset.mem_erase, mem_referrers hg hr, hrest] at hq
      exact .inr ((List.mem_cons.1 hq.2.1).resolve_left hq.1)
    obtain hq | hq | hq := Topological.emit_referrers rest {r.id} (List.nodup_cons.1 hn).2 hfirst hfrom htail hyx
    · exact absurd (Finset.mem_singleton.1 hq) hyr
    · exact .inl (List.mem_cons_of_mem _ hq)
    · refine .inr (Relation.ReflTransGen.mono (fun a b hab => ?_) _ _ hq)
      rw [memberReferrers, Finset.mem_erase, mem_referrers hg hr] at hab
      exact hab.2.2.2.2

end

end Cctally.Artifacts
