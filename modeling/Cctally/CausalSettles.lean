import Cctally.CausalDelta
import Cctally.Except
import Mathlib.Data.List.ReduceOption

/-!
# The causal plan settles

A round keeps every action that is no tombstone. It drops a tombstone only where a kept
milestone names it, and puts such a tombstone back only as the companion of another action.
-/

namespace Cctally.Rederive

open Json (field)
open Settling (Blocked Round)

theorem mem_actionIds {actions : List PlanAction} {id : String} : id ∈ actionIds actions ↔ ∃ a ∈ actions, a.eventId = id := by
  rw [actionIds, List.mem_toFinset, List.mem_map]

/-! ## What a closure adds -/

structure Grown (pool included out : List PlanAction) (p : PlanAction → Prop) : Prop where
  kept : ∀ a ∈ included, a ∈ out
  new : ∀ a ∈ out, a ∈ included ∨ a ∈ pool ∧ p a

section
variable {pool included mid out : List PlanAction} {p q : PlanAction → Prop}

theorem Grown.refl (included : List PlanAction) : Grown pool included included p := ⟨fun _ => id, fun _ => .inl⟩

theorem Grown.trans (h : Grown pool included mid p) (h' : Grown pool mid out p) : Grown pool included out p where
  kept a ha := h'.kept a (h.kept a ha)
  new a ha := (h'.new a ha).elim (h.new a) .inr

theorem Grown.mono {pool' : List PlanAction} (h : Grown pool included out p) (hp : ∀ a ∈ pool, p a → a ∈ pool' ∧ q a) :
    Grown pool' included out q :=
  ⟨h.kept, fun a ha => (h.new a ha).imp_right fun hnew => hp a hnew.1 hnew.2⟩

theorem Grown.within (h : Grown pool included out p) (hi : ∀ a ∈ included, a ∈ pool) : ∀ a ∈ out, a ∈ pool := fun a ha =>
  (h.new a ha).elim (hi a) And.left

theorem Grown.snoc {a : PlanAction} (h : a ∈ pool) (hp : p a) : Grown pool included (included ++ [a]) p where
  kept _ hb := List.mem_append_left _ hb
  new b hb := (List.mem_append.1 hb).imp_right fun hb => by
    rw [List.mem_singleton] at hb
    exact hb ▸ ⟨h, hp⟩

theorem appendMissing_grown {wanted : PlanAction → Py Bool} {candidates : List PlanAction}
    (h : appendMissing wanted included candidates = .ok out) :
    Grown candidates included out fun a => wanted a = .ok true := by
  refine Except.foldlM_keeps_mem (p := fun out => Grown candidates included out fun a => wanted a = .ok true)
    (fun a ha out out' hout hstep => ?_) (Grown.refl included) h
  split at hstep
  · rw [Except.pure_eq_ok] at hstep
    exact hstep ▸ hout
  · obtain ⟨b, hb, hstep⟩ := Except.bind_eq_ok.1 hstep
    split at hstep <;> rw [Except.pure_eq_ok] at hstep
    next hb' => exact hstep ▸ hout.trans (.snoc ha (by rw [hb, hb']))
    next => exact hstep ▸ hout

theorem appendMissing_ids {wanted : PlanAction → Py Bool} : ∀ {candidates included : List PlanAction},
    appendMissing wanted included candidates = .ok out →
      ∀ a ∈ candidates, wanted a = .ok true → a.eventId ∈ actionIds out
  | [], _, _, _, ha => fun _ => absurd ha List.not_mem_nil
  | c :: candidates, included, h, a, ha => fun hw => by
    obtain ⟨mid, hmid, hrest⟩ := Except.foldlM_cons.1 h
    obtain rfl | ha := List.mem_cons.1 ha
    · have hin : a.eventId ∈ actionIds mid := by
        split at hmid
        next hids =>
          rw [Except.pure_eq_ok] at hmid
          exact hmid ▸ hids
        next =>
          rw [hw, Except.ok_bind, if_pos rfl, Except.pure_eq_ok] at hmid
          exact hmid ▸ mem_actionIds.2 ⟨a, by simp, rfl⟩
      obtain ⟨b, hb, hid⟩ := mem_actionIds.1 hin
      exact mem_actionIds.2 ⟨b, (appendMissing_grown hrest).kept b hb, hid⟩
    · exact appendMissing_ids hrest a ha hw

end

section
variable {pool actions : List PlanAction} {a b : PlanAction}

theorem byId_some {id : String} (h : byId actions id = some a) : a ∈ actions ∧ a.eventId = id := by
  have hid := List.find?_some h
  exact ⟨List.mem_reverse.1 (List.mem_of_find?_eq_some h), by simpa using hid⟩

variable (hn : (pool.map PlanAction.eventId).Nodup)

include hn

theorem eq_of_eventId (ha : a ∈ pool) (hb : b ∈ pool) (h : a.eventId = b.eventId) : a = b :=
  List.inj_on_of_nodup_map hn ha hb h

theorem byId_of_mem (hsub : ∀ a ∈ actions, a ∈ pool) (ha : a ∈ actions) : byId actions a.eventId = some a := by
  cases h : byId actions a.eventId with
  | none =>
    have hnone := List.find?_eq_none.1 h a (List.mem_reverse.2 ha)
    simp at hnone
  | some b =>
    obtain ⟨hb, hid⟩ := byId_some h
    rw [eq_of_eventId hn (hsub b hb) (hsub a ha) hid]

end

section
variable {env : CausalEnv} {current : Current} {reviewed included out : List PlanAction}

theorem replacedBlockClosure_grown (h : replacedBlockClosure env current reviewed included = .ok out) :
    Grown reviewed included out fun _ => True := by
  unfold replacedBlockClosure at h
  obtain ⟨kept, -, h⟩ := Except.bind_eq_ok.1 h
  obtain ⟨roles, -, h⟩ := Except.bind_eq_ok.1 h
  obtain ⟨named, -, h⟩ := Except.bind_eq_ok.1 h
  dsimp only at h
  split at h
  · rw [Except.pure_eq_ok] at h
    exact h ▸ .refl _
  · exact (appendMissing_grown h).mono fun a ha _ => ⟨ha, trivial⟩

theorem mem_requiredIds {edges : List (String × String)} {seeds : List String} {id : String} (h : id ∈ seeds) :
    id ∈ requiredIds edges seeds :=
  (Reach.mem_search id seeds _ ∅ (fun a ha => absurd ha (Finset.notMem_empty a))).2 ⟨id, .inr ⟨h, rfl⟩, .refl⟩

theorem monetaryChainClosure_grown (hi : ∀ a ∈ included, a ∈ reviewed)
    (h : monetaryChainClosure env current reviewed included = .ok out) : Grown reviewed included out fun _ => True := by
  unfold monetaryChainClosure at h
  obtain ⟨moved, -, h⟩ := Except.bind_eq_ok.1 h
  dsimp only at h
  split at h
  · rw [Except.pure_eq_ok] at h
    exact h ▸ .refl _
  · obtain ⟨entering, -, h⟩ := Except.bind_eq_ok.1 h
    obtain ⟨leaving, -, h⟩ := Except.bind_eq_ok.1 h
    rw [Except.pure_eq_ok] at h
    subst h
    refine ⟨fun a ha => List.mem_filter.2 ⟨hi a ha, decide_eq_true (mem_requiredIds (List.mem_map_of_mem ha))⟩,
      fun a ha => .inr ⟨(List.mem_filter.1 ha).1, trivial⟩⟩

/-! ## Cancelled tombstones -/

def Loose (current : Current) (a : PlanAction) : Prop :=
  ∀ k ∈ SNAPSHOT_DEPENDENT_KINDS, kindIs (currentPayload current a.eventId) k = false

def Blocks (m x : PlanAction) : Prop :=
  ∃ d ∈ references m, field m.fields d.1 = .str x.eventId ∧ emptyReference (.str x.eventId) = .ok false

def Permanent (a : PlanAction) : Prop := a.isTombstone = false

theorem mem_referencePairs {actions : List PlanAction} {a : PlanAction} {d : String × String} :
    (a, d) ∈ referencePairs actions ↔ a ∈ actions ∧ d ∈ references a := by
  simp [referencePairs]

theorem permanent_of_references {a : PlanAction} {d : String × String} (h : d ∈ references a) : Permanent a := by
  rw [references] at h
  split at h
  next => cases h
  next hc => exact Bool.eq_false_iff.2 fun ht => hc (by rw [ht, Bool.true_or])

theorem expected_mem {a : PlanAction} {d : String × String} (h : d ∈ references a) :
    d.2 ∈ ["snapshot_accept", "weekly_cost_snapshot", "week_reset", "five_hour_credit"] := by
  rw [references] at h
  split at h
  next => cases h
  next =>
    simp only [milestoneDependencies, List.mem_cons, List.not_mem_nil, or_false] at h
    rcases h with rfl | rfl | rfl
    · simp
    · simp
    · split <;> simp

theorem kindIs_unique {payload : Json.Fields} {k k' : String} (h : kindIs payload k = true) (hne : k ≠ k') :
    kindIs payload k' = false := by
  rw [kindIs] at h ⊢
  split at h
  next s hs => simpa [of_decide_eq_true h] using hne
  next => cases h

theorem cancelled_eq {shielded : Finset String} {actions : List PlanAction} {a : PlanAction} {d : String × String}
    {target : String} (h : cancelled current shielded actions a d.1 d.2 = .ok (some target)) :
    field a.fields d.1 = .str target ∧ emptyReference (.str target) = .ok false ∧
      ∃ x, byId actions target = some x ∧ x.isTombstone = true ∧ kindIs (currentPayload current target) d.2 = true := by
  unfold cancelled at h
  obtain ⟨empty, hempty, h⟩ := Except.bind_eq_ok.1 h
  split at h
  · cases h
  rename_i hne
  rw [Bool.not_eq_true] at hne
  subst hne
  split at h
  next event hevent =>
    split at h
    next => cases h
    next x hx =>
      split at h
      next => cases h
      next htomb =>
        split at h
        next => cases h
        next =>
          split at h
          next => cases h
          next hkind =>
            rw [Except.pure_eq_ok, Option.some.injEq] at h
            subst h
            exact ⟨hevent, hevent ▸ hempty, x, hx, by simpa using htomb, by simpa using hkind⟩
  next => cases h

theorem cancelled_some {shielded : Finset String} {actions : List PlanAction} {a x : PlanAction} {d : String × String}
    {r : Option String} (h : cancelled current shielded actions a d.1 d.2 = .ok r)
    (hfield : field a.fields d.1 = .str x.eventId) (hempty : emptyReference (.str x.eventId) = .ok false)
    (hx : byId actions x.eventId = some x) (ht : x.isTombstone = true) : r = some x.eventId := by
  unfold cancelled at h
  dsimp only at h
  rw [hfield, hempty, Except.ok_bind, if_neg (by simp)] at h
  dsimp only at h
  rw [hx] at h
  dsimp only at h
  rw [ht, if_neg (by simp)] at h
  split at h
  next => cases h
  next =>
    split at h
    next => cases h
    next => exact Except.pure_eq_ok.1 h

theorem required_mem {target : Payloads} {a x : PlanAction} {d : String × String}
    (h : required reviewed target a d.1 d.2 = .ok (some x)) : x ∈ reviewed ∧ Permanent x ∧ x.kind = d.2 := by
  unfold required at h
  obtain ⟨empty, -, h⟩ := Except.bind_eq_ok.1 h
  dsimp only at h
  split at h
  · cases h
  split at h
  next event hevent =>
    split at h
    · cases h
    split at h
    next => cases h
    next dependency hdep =>
      split at h
      next => cases h
      next hc =>
        rw [Except.pure_eq_ok, Option.some.injEq] at h
        subst h
        refine ⟨(byId_some hdep).1, Bool.eq_false_iff.2 fun ht => hc (by rw [ht]; simp), ?_⟩
        by_contra hkind
        exact hc (by simp [hkind])
  next => cases h

theorem requireAll_mem {target target' : Payloads} {actions appended : List PlanAction}
    (h : requireAll reviewed target actions = .ok (appended, target')) :
    ∀ x ∈ appended, x ∈ reviewed ∧ Permanent x ∧ references x = [] := by
  refine Except.foldlM_keeps_mem
    (p := fun r : List PlanAction × Payloads => ∀ x ∈ r.1, x ∈ reviewed ∧ Permanent x ∧ references x = [])
    (fun p hp r r' hr hstep => ?_) (fun _ hx => absurd hx List.not_mem_nil) h
  obtain ⟨need, hneed, hstep⟩ := Except.bind_eq_ok.1 hstep
  split at hstep <;> rw [Except.pure_eq_ok] at hstep <;> subst hstep
  next => exact hr
  next x =>
    obtain ⟨hmem, hperm, hkind⟩ := required_mem hneed
    refine List.forall_mem_append.2 ⟨hr, List.forall_mem_singleton.2 ⟨hmem, hperm, if_pos ?_⟩⟩
    have hexpected := expected_mem (mem_referencePairs.1 hp).2
    rw [← hkind] at hexpected
    simp only [List.mem_cons, List.not_mem_nil, or_false] at hexpected
    rcases hexpected with h | h | h | h <;> simp [h, SNAPSHOT_DEPENDENT_KINDS]

theorem requireAll_appended {target target' : Payloads} {actions appended : List PlanAction}
    (h : requireAll reviewed target actions = .ok (appended, target')) :
    requireAll reviewed target' appended = .ok ([], target') := by
  have hpairs : referencePairs appended = [] := List.flatMap_eq_nil_iff.2 fun x hx => by
    rw [(requireAll_mem h x hx).2.2, List.map_nil]
  rw [requireAll, hpairs]
  rfl

structure Released (current : Current) (reviewed included out : List PlanAction) : Prop where
  dropped : ∀ x ∈ included, x ∉ out → ¬ Permanent x ∧ Loose current x ∧ ∃ m ∈ included, Permanent m ∧ Blocks m x
  clear : ∀ x ∈ out, ¬ Permanent x → ¬ ∃ m ∈ included, Permanent m ∧ Blocks m x
  within : ∀ x ∈ out, x ∈ reviewed

theorem causalSnapshotClosure_released {shielded : Finset String} (hn : (reviewed.map PlanAction.eventId).Nodup)
    (hi : ∀ a ∈ included, a ∈ reviewed) (h : causalSnapshotClosure current reviewed shielded included = .ok out) :
    Released current reviewed included out := by
  unfold causalSnapshotClosure at h
  obtain ⟨tombstones, htombstones, h⟩ := Except.bind_eq_ok.1 h
  obtain ⟨⟨appended, target⟩, happended, h⟩ := Except.bind_eq_ok.1 h
  dsimp only at h
  rw [requireAll_appended happended, Except.ok_bind, Except.pure_eq_ok, List.append_nil] at h
  subst h
  have hnew := requireAll_mem happended
  have hout : ∀ x, x ∈ (included.filter (·.eventId ∉ tombstones.reduceOption)) ++ appended →
      x ∈ included ∧ x.eventId ∉ tombstones.reduceOption ∨ x ∈ appended := by
    intro x hx
    rw [List.mem_append, List.mem_filter] at hx
    exact hx.imp_left fun hx => ⟨hx.1, of_decide_eq_true hx.2⟩
  constructor
  · intro x hx hdrop
    have htarget : some x.eventId ∈ tombstones := by
      by_contra hno
      refine hdrop (List.mem_append_left _ (List.mem_filter.2 ⟨hx, decide_eq_true ?_⟩))
      rwa [List.reduceOption_mem_iff]
    obtain ⟨⟨m, d⟩, hpair, hcancel⟩ := (Except.mem_of_mapM htombstones _).1 htarget
    obtain ⟨hm, hd⟩ := mem_referencePairs.1 hpair
    obtain ⟨hfield, hempty, y, hy, htomb, hkind⟩ := cancelled_eq hcancel
    rw [byId_of_mem hn hi hx, Option.some.injEq] at hy
    subst hy
    refine ⟨by rw [Permanent, htomb]; exact Bool.noConfusion, fun k hk => kindIs_unique hkind ?_,
      m, hm, permanent_of_references hd, d, hd, hfield, hempty⟩
    rintro rfl
    have := expected_mem hd
    revert hk this
    simp only [SNAPSHOT_DEPENDENT_KINDS, List.mem_cons, List.not_mem_nil, or_false]
    rintro (h | h) <;> simp [h]
  · rintro x hx hp ⟨m, hm, -, d, hd, hfield, hempty⟩
    rcases hout x hx with ⟨hx, hnot⟩ | hx
    · obtain ⟨r, hr, hcancel⟩ := Except.ok_of_mapM htombstones (m, d) (mem_referencePairs.2 ⟨hm, hd⟩)
      have hsome := cancelled_some hcancel hfield hempty (byId_of_mem hn hi hx) (by simpa [Permanent] using hp)
      exact hnot (List.reduceOption_mem_iff.2 (hsome ▸ hr))
    · exact hp (hnew x hx).2.1
  · intro x hx
    exact (hout x hx).elim (fun hx => hi x hx.1) fun hx => (hnew x hx).1

theorem inTexts_eq {texts : List String} {value : Json} (h : inTexts texts value = .ok true) : ∃ k ∈ texts, value = .str k := by
  unfold inTexts at h
  split at h
  next k => exact ⟨k, of_decide_eq_true (Except.ok.inj h), rfl⟩
  next => split at h <;> cases h

theorem not_loose_of_inTexts {a : PlanAction}
    (h : inTexts SNAPSHOT_DEPENDENT_KINDS (field (currentPayload current a.eventId) "kind") = .ok true) : ¬ Loose current a := by
  obtain ⟨k, hk, hkind⟩ := inTexts_eq h
  intro hl
  have := hl k hk
  rw [kindIs, hkind] at this
  simp at this

theorem retainedReferenceClosure_grown (h : retainedReferenceClosure env current reviewed included = .ok out) :
    Grown reviewed included out fun a => ¬ Loose current a := by
  unfold retainedReferenceClosure at h
  dsimp only at h
  split at h
  · exact Except.ok.inj h ▸ .refl _
  refine Except.foldlM_keeps (p := fun out => Grown reviewed included out fun a => ¬ Loose current a)
    (fun mid id out hmid hstep => ?_) (.refl _) h
  split at hstep
  · exact Except.pure_eq_ok.1 hstep ▸ hmid
  obtain ⟨dependent, hdependent, hstep⟩ := Except.bind_eq_ok.1 hstep
  split at hstep
  · exact Except.pure_eq_ok.1 hstep ▸ hmid
  rename_i hd
  rw [Bool.not_eq_true, Bool.not_eq_false'] at hd
  subst hd
  obtain ⟨names, -, hnames⟩ := Except.bind_eq_ok.1 hstep
  split at hnames
  · split at hnames
    next => cases hnames
    next a ha =>
      obtain ⟨hmem, rfl⟩ := byId_some ha
      exact Except.pure_eq_ok.1 hnames ▸ hmid.trans (.snoc hmem (not_loose_of_inTexts hdependent))
  · exact Except.pure_eq_ok.1 hnames ▸ hmid

/-! ## Parents and companions -/

def Pulls (env : CausalEnv) (current : Current) (t x : PlanAction) : Prop :=
  ∃ need, (∀ w, need ≠ .parent w) ∧ needed env current (.ok ∅) t = .ok (some need) ∧ offered env current x = .ok (some need)

theorem needed_congr {present present' : Py (Finset Window)} {a : PlanAction} {need : Need}
    (hneed : ∀ w, need ≠ .parent w) (h : needed env current present a = .ok (some need)) :
    needed env current present' a = .ok (some need) := by
  unfold needed at h ⊢
  dsimp only at h ⊢
  split at h
  · obtain ⟨windows, -, h⟩ := Except.bind_eq_ok.1 h
    obtain ⟨has, -, h⟩ := Except.bind_eq_ok.1 h
    split at h
    · cases h
    · obtain ⟨w, -, h⟩ := Except.bind_eq_ok.1 h
      exact absurd (Option.some.inj (Except.pure_eq_ok.1 h)) (hneed w)
  · rename_i hc
    rw [if_neg hc]
    exact h

theorem permanent_of_offered {x : PlanAction} {w : Option Window} (h : offered env current x = .ok (some (.parent w))) :
    Permanent x := by
  unfold offered at h
  dsimp only at h
  split at h
  · obtain ⟨window, -, h⟩ := Except.bind_eq_ok.1 h
    split at h
    next hc => simpa [Permanent] using hc
    next =>
      split at h
      · obtain ⟨key, -, h⟩ := Except.bind_eq_ok.1 h
        cases h
      · cases h
  · split at h
    · obtain ⟨key, -, h⟩ := Except.bind_eq_ok.1 h
      cases h
    · cases h

section
variable {offers : List (PlanAction × Option Need)} {present : Py (Finset Window)} {mid : List PlanAction} {t : PlanAction}
  (hoffers : ∀ x need, (x, need) ∈ offers ↔ x ∈ reviewed ∧ offered env current x = .ok need)

include hoffers

theorem bringNeeded_grown (ht : t ∈ included) (h : bringNeeded env current offers present mid t = .ok out) :
    Grown reviewed mid out fun x => Permanent x ∨ ∃ t ∈ included, Pulls env current t x := by
  unfold bringNeeded at h
  obtain ⟨need, hneed, h⟩ := Except.bind_eq_ok.1 h
  split at h
  · exact Except.pure_eq_ok.1 h ▸ .refl _
  next need =>
    refine (appendMissing_grown h).mono fun x hx _ => ?_
    obtain ⟨⟨y, given⟩, hy, rfl⟩ := List.mem_map.1 hx
    obtain ⟨hy, hgiven⟩ := List.mem_filter.1 hy
    obtain rfl : given = some need := of_decide_eq_true hgiven
    obtain ⟨hmem, hoffer⟩ := (hoffers _ _).1 hy
    refine ⟨hmem, ?_⟩
    by_cases hparent : ∃ w, need = .parent w
    · obtain ⟨w, rfl⟩ := hparent
      exact .inl (permanent_of_offered hoffer)
    · push Not at hparent
      exact .inr ⟨t, ht, need, hparent, needed_congr hparent hneed, hoffer⟩

theorem bringNeeded_ids {x : PlanAction} (hx : x ∈ reviewed) (hp : Pulls env current t x)
    (h : bringNeeded env current offers present mid t = .ok out) : x.eventId ∈ actionIds out := by
  obtain ⟨need, hparent, hneed, hoffer⟩ := hp
  unfold bringNeeded at h
  rw [needed_congr hparent hneed, Except.ok_bind] at h
  refine appendMissing_ids h x (List.mem_map.2 ⟨(x, some need), List.mem_filter.2 ⟨?_, decide_eq_true rfl⟩, rfl⟩) rfl
  exact (hoffers _ _).2 ⟨hx, hoffer⟩

theorem bringAll_ids {x : PlanAction} (hx : x ∈ reviewed) (hp : Pulls env current t x) : ∀ {l mid out : List PlanAction},
    t ∈ l → l.foldlM (bringNeeded env current offers present) mid = .ok out → x.eventId ∈ actionIds out
  | [], _, _, ht, _ => absurd ht List.not_mem_nil
  | a :: l, mid, out, ht, h => by
    obtain ⟨mid', hmid', hrest⟩ := Except.foldlM_cons.1 h
    obtain rfl | ht := List.mem_cons.1 ht
    · obtain ⟨y, hy, hid⟩ := mem_actionIds.1 (bringNeeded_ids hoffers hx hp hmid')
      have hgrown : Grown reviewed mid' out fun x => Permanent x ∨ ∃ t ∈ l, Pulls env current t x :=
        Except.foldlM_keeps_mem (p := fun out => Grown reviewed mid' out _)
          (fun a ha b b' hb hstep => hb.trans (bringNeeded_grown hoffers ha hstep)) (.refl _) hrest
      exact mem_actionIds.2 ⟨y, hgrown.kept y hy, hid⟩
    · exact bringAll_ids hx hp ht hrest

end

theorem offers_iff {offers : List (PlanAction × Option Need)}
    (h : (reviewed.mapM fun a => do return (a, ← offered env current a) : Py _) = .ok offers) (x : PlanAction)
    (need : Option Need) : (x, need) ∈ offers ↔ x ∈ reviewed ∧ offered env current x = .ok need := by
  rw [Except.mem_of_mapM h]
  simp only [Except.bind_eq_ok, Except.pure_eq_ok, Prod.mk.injEq]
  constructor
  · rintro ⟨a, ha, b, hb, rfl, rfl⟩
    exact ⟨ha, hb⟩
  · exact fun h => ⟨x, h.1, need, h.2, rfl, rfl⟩

theorem fiveHourParentClosure_grown {retired : Finset Window}
    (h : fiveHourParentClosure env current reviewed retired included = .ok out) :
    Grown reviewed included out (fun x => Permanent x ∨ ∃ t ∈ included, Pulls env current t x) ∧
      ∀ t ∈ included, ∀ x ∈ reviewed, Pulls env current t x → x.eventId ∈ actionIds out := by
  unfold fiveHourParentClosure at h
  obtain ⟨offers, hoffers, h⟩ := Except.bind_eq_ok.1 h
  dsimp only at h
  have hoffers := offers_iff hoffers
  exact ⟨Except.foldlM_keeps_mem (p := fun out => Grown reviewed included out _)
    (fun a ha b b' hb hstep => hb.trans (bringNeeded_grown hoffers ha hstep)) (.refl _) h,
    fun t ht x hx hp => bringAll_ids hoffers hx hp ht h⟩

theorem parentOf_lost {before after : Finset Window} {events : Payloads} {id : String}
    (h : parentOf env current before after events id = .ok .lost) :
    kindIs (currentPayload current id) "five_hour_milestone" = true := by
  unfold parentOf at h
  dsimp only at h
  split at h
  · cases h
  next hc => simpa using hc

theorem parentValidationCompletion_grown {retired : Finset Window}
    (h : parentValidationCompletion env current reviewed retired included = .ok out) :
    Grown reviewed included out fun a => ¬ Loose current a := by
  unfold parentValidationCompletion at h
  obtain ⟨⟨orphaned, lost⟩, hreport, h⟩ := Except.bind_eq_ok.1 h
  refine (appendMissing_grown h).mono fun a ha _ => ?_
  obtain ⟨id, hid, ha⟩ := List.mem_filterMap.1 ha
  obtain ⟨hmem, rfl⟩ := byId_some ha
  refine ⟨hmem, fun hl => ?_⟩
  unfold fiveHourParentReport at hreport
  obtain ⟨before, -, hreport⟩ := Except.bind_eq_ok.1 hreport
  dsimp only at hreport
  obtain ⟨after, -, hreport⟩ := Except.bind_eq_ok.1 hreport
  obtain ⟨verdicts, hverdicts, hreport⟩ := Except.bind_eq_ok.1 hreport
  obtain ⟨-, rfl⟩ := Prod.mk.inj (Except.pure_eq_ok.1 hreport)
  obtain ⟨⟨id, verdict⟩, hv, hid⟩ := List.mem_map.1 hid
  obtain ⟨hv, hlost⟩ := List.mem_filter.1 hv
  obtain ⟨id', -, hv⟩ := (Except.mem_of_mapM hverdicts _).1 hv
  obtain ⟨v, hv, heq⟩ := Except.bind_eq_ok.1 hv
  obtain ⟨rfl, rfl⟩ := Prod.mk.inj (Except.pure_eq_ok.1 heq)
  obtain rfl : verdict = .lost := of_decide_eq_true hlost
  dsimp only at hid
  subst hid
  exact Bool.noConfusion ((hl "five_hour_milestone" (by simp [SNAPSHOT_DEPENDENT_KINDS])).symm.trans (parentOf_lost hv))

end

/-! ## A round -/

section
variable {env : CausalEnv} {current : Current} {reviewed : RederivePlan} {included out : List PlanAction}

abbrev ClosureRound (env : CausalEnv) (current : Current) (pool : List PlanAction) :=
  Round Permanent (Loose current) Blocks (Pulls env current) pool.toFinset

theorem closureRound_round (hi : ∀ a ∈ included, a ∈ reviewed.actions)
    (h : closureRound env current reviewed included = .ok out) :
    (∀ a ∈ out, a ∈ reviewed.actions) ∧
      ∃ l settled, ClosureRound env current reviewed.actions included.toFinset l settled out.toFinset := by
  unfold closureRound at h
  obtain ⟨blocks, hblocks, h⟩ := Except.bind_eq_ok.1 h
  obtain ⟨chain, hchain, h⟩ := Except.bind_eq_ok.1 h
  obtain ⟨released, hreleased, h⟩ := Except.bind_eq_ok.1 h
  dsimp only at h
  obtain ⟨settled, hsettled, h⟩ : ∃ settled, (Grown reviewed.actions released settled fun a => ¬ Loose current a) ∧
      (fiveHourParentClosure env current reviewed.actions reviewed.retiredOpenings settled >>=
        parentValidationCompletion env current reviewed.actions reviewed.retiredOpenings) = .ok out := by
    split at h
    · exact ⟨released, .refl _, h⟩
    · obtain ⟨settled, hsettled, h⟩ := Except.bind_eq_ok.1 h
      exact ⟨settled, retainedReferenceClosure_grown hsettled, h⟩
  obtain ⟨parents, hparents, h⟩ := Except.bind_eq_ok.1 h
  have hblocks := replacedBlockClosure_grown hblocks
  have hchain := monetaryChainClosure_grown (hblocks.within hi) hchain
  have hentered := hblocks.trans hchain
  have hreleased := causalSnapshotClosure_released reviewed.once (hentered.within hi) hreleased
  obtain ⟨hparents, hpulled⟩ := fiveHourParentClosure_grown hparents
  have hvalid := parentValidationCompletion_grown h
  have hsettledIn := hsettled.within hreleased.within
  have hparentsIn := hparents.within hsettledIn
  have hblocked : ∀ x, Blocked Permanent Blocks chain.toFinset x ↔ ∃ m ∈ chain, Permanent m ∧ Blocks m x := fun x => by
    simp only [Blocked, List.mem_toFinset]
  refine ⟨hvalid.within hparentsIn, chain.toFinset, settled.toFinset, ?_, ?_, ?_, ?_, ?_, ?_, ?_⟩
  · exact fun x hx => List.mem_toFinset.2 (hentered.kept x (List.mem_toFinset.1 hx))
  · intro x hx hdrop
    rw [hblocked]
    refine hreleased.dropped x (List.mem_toFinset.1 hx) fun hr => hdrop (List.mem_toFinset.2 (hsettled.kept x hr))
  · intro x hx hp hl
    rw [hblocked]
    rcases hsettled.new x (List.mem_toFinset.1 hx) with hx | ⟨-, hnew⟩
    · exact hreleased.clear x hx hp
    · exact absurd hl hnew
  · exact fun x hx => List.mem_toFinset.2 (hvalid.kept x (hparents.kept x (List.mem_toFinset.1 hx)))
  · intro t ht x hx hp
    rw [List.mem_toFinset] at ht hx ⊢
    obtain ⟨y, hy, hid⟩ := mem_actionIds.1 (hpulled t ht x hx hp)
    exact hvalid.kept x (eq_of_eventId reviewed.once (hparentsIn y hy) hx hid ▸ hy)
  · intro x hx hs
    rw [List.mem_toFinset] at hx hs
    rcases hvalid.new x hx with hx | ⟨-, hnew⟩
    · rcases hparents.new x hx with hx | ⟨-, hp | ⟨t, ht, hpull⟩⟩
      · exact absurd hx hs
      · exact .inl hp
      · exact .inr (.inr ⟨t, List.mem_toFinset.2 ht, hpull⟩)
    · exact .inr (.inl hnew)
  · exact fun x hx => List.mem_toFinset.2 (hvalid.within hparentsIn x (List.mem_toFinset.1 hx))

theorem actionIds_congr {actions actions' : List PlanAction} (h : actions.toFinset = actions'.toFinset) :
    actionIds actions = actionIds actions' := by
  ext id
  simp only [mem_actionIds, ← List.mem_toFinset (l := actions), ← List.mem_toFinset (l := actions'), h]

theorem closed_settles (hi : ∀ a ∈ included, a ∈ reviewed.actions) :
    closed env current reviewed (4 * reviewed.actions.length + 3) included ≠ none := by
  rw [← List.toFinset_card_of_nodup reviewed.once.of_map]
  exact Settling.settles List.toFinset (fun included => ∀ a ∈ included, a ∈ reviewed.actions)
    (fun _ _ h => actionIds_congr h) (fun _ _ hi h => (closureRound_round hi h).1)
    (fun _ _ hi h => (closureRound_round hi h).2) hi

/-- **The loop of the causal plan ends.** Within so many rounds, linear in the reviewed actions,
one raises or leaves the same events acted on, from whatever it starts; more rounds allowed
change nothing. -/
theorem causalDeltaPlan_settles (env : CausalEnv) (current : Current) (authorized : Finset Json.Scalar)
    (baseline reviewed : RederivePlan) :
    (∀ included, (∀ a ∈ included, a ∈ reviewed.actions) → ∃ result : Py (List PlanAction),
      (∀ k, closed env current reviewed (4 * reviewed.actions.length + 3 + k) included = some result) ∧
      ∀ out, result = .ok out →
        ∃ before, closureRound env current reviewed before = .ok out ∧ actionIds out = actionIds before) ∧
    ∃ result, ∀ k,
      causalDeltaPlan env current authorized baseline reviewed (4 * reviewed.actions.length + 3 + k) = some result := by
  have hclosed : ∀ included, (∀ a ∈ included, a ∈ reviewed.actions) → ∃ result, ∀ k,
      closed env current reviewed (4 * reviewed.actions.length + 3 + k) included = some result := fun included hi => by
    obtain ⟨result, h⟩ := Option.ne_none_iff_exists'.1 (@closed_settles env current reviewed included hi)
    exact ⟨result, Settling.settle_add h⟩
  refine ⟨fun included hi => ?_, ?_⟩
  · obtain ⟨result, h⟩ := hclosed included hi
    exact ⟨result, h, fun out hout => Settling.settle_eq_ok (hout ▸ h 0)⟩
  · unfold causalDeltaPlan
    split
    · exact ⟨_, fun _ => rfl⟩
    cases hcaused : reviewed.actions.filterM (caused env authorized baseline reviewed) with
    | error e => exact ⟨_, fun _ => rfl⟩
    | ok included =>
      obtain ⟨result, h⟩ := hclosed included (Except.mem_of_filterM hcaused)
      exact ⟨_, fun k => by dsimp only; rw [h k]; rfl⟩

end

end Cctally.Rederive
