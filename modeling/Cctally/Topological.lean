import Mathlib.Data.Finset.Card
import Mathlib.Data.Finset.Lattice.Basic
import Mathlib.Data.List.Find
import Mathlib.Data.List.Nodup
import Mathlib.Logic.Relation
import Mathlib.Order.WellFounded
import Mathlib.Data.Set.Finite.Basic

/-!
# Topological order with cycles

The pending nodes are taken one by one: the first whose referrers were all taken, and
where there is none the first. An edge then points backwards only along a cycle, as
long as no node stands before a cycle that leads to it.
-/

namespace Cctally.Topological

variable {α : Type*} [DecidableEq α] (referrers : α → Finset α)

def choose (pending : List α) (p : α) (emitted : Finset α) : α :=
  (pending.find? fun q => referrers q ⊆ emitted).getD p

theorem choose_mem (p : α) (rest : List α) (emitted : Finset α) : choose referrers (p :: rest) p emitted ∈ p :: rest := by
  unfold choose
  cases h : (p :: rest).find? fun q => referrers q ⊆ emitted with
  | none => exact List.mem_cons_self
  | some q => exact List.mem_of_find?_eq_some h

def emit (pending : List α) (emitted : Finset α) : List α :=
  match pending with
  | [] => []
  | p :: rest =>
    choose referrers (p :: rest) p emitted ::
      emit ((p :: rest).erase (choose referrers (p :: rest) p emitted))
        (insert (choose referrers (p :: rest) p emitted) emitted)
termination_by pending.length
decreasing_by
  rw [List.length_erase_of_mem (choose_mem referrers _ _ _)]
  simp

theorem perm_emit (pending : List α) (emitted : Finset α) : (emit referrers pending emitted).Perm pending := by
  fun_induction emit referrers pending emitted with
  | case1 emitted => exact .nil
  | case2 emitted p rest ih => exact (ih.cons _).trans (List.perm_cons_erase (choose_mem referrers _ _ _)).symm

theorem emit_congr {referrers referrers' : α → Finset α} (pending : List α) (emitted : Finset α)
    (h : ∀ p ∈ pending, ∀ taken, emitted ⊆ taken → (referrers p ⊆ taken ↔ referrers' p ⊆ taken)) :
    emit referrers pending emitted = emit referrers' pending emitted := by
  fun_induction emit referrers pending emitted with
  | case1 emitted => rw [emit]
  | case2 emitted p rest ih =>
    have hfind : (p :: rest).find? (fun q => referrers q ⊆ emitted) = (p :: rest).find? fun q => referrers' q ⊆ emitted :=
      List.find?_congr fun q hq => decide_eq_decide.2 (h q hq emitted (Finset.Subset.refl _))
    have hchoose : choose referrers (p :: rest) p emitted = choose referrers' (p :: rest) p emitted := by
      rw [choose, choose, hfind]
    rw [emit.eq_2 referrers', ← hchoose, ih fun q hq taken ht =>
      h q (List.mem_of_mem_erase hq) taken ((Finset.subset_insert _ _).trans ht)]

/-- `a` refers to `b`, in any number of steps. -/
abbrev Leads : α → α → Prop := Relation.ReflTransGen fun a b => a ∈ referrers b

abbrev OnCycle (a : α) : Prop := Relation.TransGen (fun a b => a ∈ referrers b) a a

omit [DecidableEq α] in
theorem exists_cycle (blocked : Finset α) (h : ∀ b ∈ blocked, ∃ a ∈ blocked, a ∈ referrers b) {p : α} (hp : p ∈ blocked) :
    ∃ c ∈ blocked, OnCycle referrers c ∧ Leads referrers c p := by
  by_contra hno
  push Not at hno
  have hwf : WellFounded fun a b : {a // a ∈ blocked ∧ Leads referrers a p} =>
      Relation.TransGen (fun a b => a ∈ referrers b) a.1 b.1 := by
    have : Finite {a // a ∈ blocked ∧ Leads referrers a p} :=
      Finite.of_injective (fun a => (⟨a.1, a.2.1⟩ : {a // a ∈ blocked})) fun a b hab => Subtype.ext (Subtype.mk.inj hab)
    have : IsTrans {a // a ∈ blocked ∧ Leads referrers a p} fun a b =>
      Relation.TransGen (fun a b => a ∈ referrers b) a.1 b.1 := ⟨fun _ _ _ => .trans⟩
    have : Std.Irrefl fun a b : {a // a ∈ blocked ∧ Leads referrers a p} =>
      Relation.TransGen (fun a b => a ∈ referrers b) a.1 b.1 := ⟨fun a ha => hno a.1 a.2.1 ha a.2.2⟩
    exact Finite.wellFounded_of_trans_of_irrefl _
  obtain ⟨⟨b, hb, hbp⟩, -, hmin⟩ := hwf.has_min Set.univ ⟨⟨p, hp, .refl⟩, trivial⟩
  obtain ⟨a, ha, hab⟩ := h b hb
  exact hmin ⟨a, ha, .head hab hbp⟩ trivial (.single hab)

variable {referrers}

def CyclesFirst (referrers : α → Finset α) (l : List α) : Prop :=
  ∀ p c, [p, c].Sublist l → OnCycle referrers c → Leads referrers c p → Leads referrers p c

omit [DecidableEq α] in
theorem CyclesFirst.sublist {l l' : List α} (h : CyclesFirst referrers l) (hs : l'.Sublist l) : CyclesFirst referrers l' :=
  fun p c hpc => h p c (hpc.trans hs)

theorem leads_of_blocked {p q : α} {rest : List α} (h : CyclesFirst referrers (p :: rest))
    (hblocked : ∀ b ∈ p :: rest, ∃ a ∈ p :: rest, a ∈ referrers b) (hq : q ∈ p :: rest) (hqp : q ∈ referrers p) :
    Leads referrers p q := by
  obtain ⟨c, hc, hcycle, hcq⟩ := exists_cycle referrers (p :: rest).toFinset
    (fun b hb => by simpa only [List.mem_toFinset] using hblocked b (List.mem_toFinset.1 hb)) (List.mem_toFinset.2 hq)
  obtain rfl | hc := List.mem_cons.1 (List.mem_toFinset.1 hc)
  · exact hcq
  · have hpc : [p, c].Sublist (p :: rest) := (List.singleton_sublist.2 hc).cons_cons p
    exact (h p c hpc hcycle (hcq.tail hqp)).trans hcq

/-- **Every referrer first**: what refers to a node is taken before it, or is on a cycle with it. -/
theorem emit_referrers (pending : List α) (emitted : Finset α) (hn : pending.Nodup) (hc : CyclesFirst referrers pending)
    (hr : ∀ p ∈ pending, ∀ q ∈ referrers p, q ∈ emitted ∨ q ∈ pending) {pre post : List α} {p : α}
    (h : emit referrers pending emitted = pre ++ p :: post) {q : α} (hq : q ∈ referrers p) :
    q ∈ emitted ∨ q ∈ pre ∨ Leads referrers p q := by
  fun_induction emit referrers pending emitted generalizing pre with
  | case1 emitted => simp at h
  | case2 emitted p₀ rest ih =>
    have hmem := choose_mem referrers p₀ rest emitted
    cases pre with
    | nil =>
      obtain ⟨hp, -⟩ := List.cons.inj h
      cases hf : (p₀ :: rest).find? fun q => referrers q ⊆ emitted with
      | some r =>
        have hr : choose referrers (p₀ :: rest) p₀ emitted = r := by rw [choose, hf]; rfl
        rw [hr] at hp
        subst hp
        have hready := List.find?_some hf
        rw [decide_eq_true_eq] at hready
        exact .inl (hready hq)
      | none =>
        have hp₀ : choose referrers (p₀ :: rest) p₀ emitted = p₀ := by rw [choose, hf]; rfl
        rw [hp₀] at hp
        subst hp
        obtain hq' | hq' := hr p₀ List.mem_cons_self q hq
        · exact .inl hq'
        · refine .inr (.inr (leads_of_blocked hc (fun b hb => ?_) hq' hq))
          have hb' := List.find?_eq_none.1 hf b hb
          rw [decide_eq_true_eq, Finset.not_subset] at hb'
          obtain ⟨a, ha, hae⟩ := hb'
          exact ⟨a, (hr b hb a ha).resolve_left hae, ha⟩
    | cons a pre =>
      obtain ⟨ha, htail⟩ := List.cons.inj h
      have := ih (hn.erase _) (hc.sublist List.erase_sublist) (fun p' hp' q' hq' => ?_) htail
      · rw [Finset.mem_insert] at this
        obtain (rfl | hq) | hq | hq := this
        · exact .inr (.inl (ha ▸ List.mem_cons_self))
        · exact .inl hq
        · exact .inr (.inl (List.mem_cons_of_mem a hq))
        · exact .inr (.inr hq)
      · rw [hn.mem_erase_iff, Finset.mem_insert]
        obtain hq' | hq' := hr p' (List.mem_of_mem_erase hp') q' hq'
        · exact .inl (.inr hq')
        · by_cases he : q' = choose referrers (p₀ :: rest) p₀ emitted
          · exact .inl (.inl he)
          · exact .inr ⟨he, hq'⟩

end Cctally.Topological
