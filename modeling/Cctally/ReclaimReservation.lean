import Cctally.ReclaimPlan
import Mathlib.Data.Finset.Card
import Mathlib.Order.Bounds.Basic

/-!
# The reservation of a longer chunk

As a chunk grows its end moves down, and a page that was named by its number may
only be counted. Each reference that stops to name a page is counted once itself,
so the account of a longer chunk covers that of every shorter one.
-/

namespace Cctally.Reclaim

open Survey (Weighed)

section
variable {usable pageSize : Nat}

theorem skipSpecial_le (usable pageSize : Nat) : ∀ page, skipSpecial usable pageSize page ≤ page
  | 0 => le_rfl
  | page + 1 => by
    unfold skipSpecial
    split
    · exact (skipSpecial_le usable pageSize page).trans (Nat.le_succ page)
    · exact le_rfl

theorem tailStepsFrom_cases {n last free : Nat} {steps : List TailStep}
    (h : tailStepsFrom usable pageSize (n + 1) last free = .ok steps) :
    steps = [] ∨ ∃ st rest, steps = st :: rest ∧ 1 < last ∧ st.newEnd < last ∧
      (st.page = some last ∧ 0 < free ∧ tailStepsFrom usable pageSize n st.newEnd (free - 1) = .ok rest ∨
        st.page = none ∧ tailStepsFrom usable pageSize n st.newEnd free = .ok rest) := by
  unfold tailStepsFrom at h
  split at h
  · exact .inl (Except.pure_eq_ok.mp h)
  rename_i hgo
  obtain ⟨hfree, hlast⟩ := not_or.mp hgo
  dsimp only at h
  split at h
  · rw [refuse_bind, refuse_eq_ok] at h
    exact h.elim
  obtain ⟨nFin, -, h⟩ := Except.bind_eq_ok.mp h
  have hend : skipSpecial usable pageSize (last - 1) < last := by
    have := skipSpecial_le usable pageSize (last - 1)
    omega
  split at h
  · obtain ⟨rest, hrest, h⟩ := Except.bind_eq_ok.mp h
    exact .inr ⟨_, rest, Except.pure_eq_ok.mp h, not_le.mp hlast, hend,
      .inl ⟨rfl, Nat.pos_of_ne_zero hfree, hrest⟩⟩
  split at h
  · exact .inl (Except.pure_eq_ok.mp h)
  · obtain ⟨rest, hrest, h⟩ := Except.bind_eq_ok.mp h
    exact .inr ⟨_, rest, Except.pure_eq_ok.mp h, not_le.mp hlast, hend, .inr ⟨rfl, hrest⟩⟩

structure Descends (last free : Nat) (steps : List TailStep) : Prop where
  falling : steps.Pairwise fun a b => b.newEnd < a.newEnd
  below : ∀ st ∈ steps, st.newEnd < last
  pages : ∀ st ∈ steps, ∀ q, st.page = some q → 2 ≤ q ∧ q ≤ last
  moved : (steps.filterMap TailStep.page).length ≤ free

theorem descends_nil (last free : Nat) : Descends last free [] where
  falling := List.Pairwise.nil
  below _ h := absurd h List.not_mem_nil
  pages _ h := absurd h List.not_mem_nil
  moved := Nat.zero_le _

theorem Descends.cons {last free free' : Nat} {st : TailStep} {rest : List TailStep} (h : Descends st.newEnd free' rest)
    (hlast : 1 < last) (hend : st.newEnd < last) (hpage : ∀ q, st.page = some q → q = last)
    (hfree : st.page.toList.length + free' ≤ free) : Descends last free (st :: rest) where
  falling := List.pairwise_cons.mpr ⟨fun b hb => h.below b hb, h.falling⟩
  below := List.forall_mem_cons.mpr ⟨hend, fun b hb => (h.below b hb).trans hend⟩
  pages := by
    refine List.forall_mem_cons.mpr ⟨fun q hq => ?_, fun b hb q hq => ?_⟩
    · have := hpage q hq
      omega
    · have := h.pages b hb q hq
      omega
  moved := by
    have hmoved := h.moved
    cases hst : st.page with
    | none =>
      rw [List.filterMap_cons_none hst]
      simp only [hst, Option.toList_none, List.length_nil] at hfree
      omega
    | some q =>
      rw [List.filterMap_cons_some hst, List.length_cons]
      simp only [hst, Option.toList_some, List.length_singleton] at hfree
      omega

theorem descends_of_tailStepsFrom : ∀ {n last free : Nat} {steps : List TailStep},
    tailStepsFrom usable pageSize n last free = .ok steps → Descends last free steps
  | 0, last, free, steps, h => by
    cases h
    exact descends_nil last free
  | n + 1, last, free, steps, h => by
    rcases tailStepsFrom_cases h with rfl | ⟨st, rest, rfl, hlast, hend, ⟨hp, hfree, hrest⟩ | ⟨hp, hrest⟩⟩
    · exact descends_nil last free
    · refine (descends_of_tailStepsFrom hrest).cons hlast hend (fun q hq => ?_) ?_
      · exact (Option.some.inj (hp ▸ hq)).symm
      · rw [hp, Option.toList_some, List.length_singleton]
        omega
    · refine (descends_of_tailStepsFrom hrest).cons hlast hend (fun q hq => ?_) ?_
      · rw [hp] at hq
        cases hq
      · rw [hp, Option.toList_none, List.length_nil]
        omega

end

/-! ## Accounts that name and count -/

def Covers (v w : Weighed) : Prop := (v.identified \ w.identified).card + v.unidentified ≤ w.unidentified

theorem Covers.refl (w : Weighed) : Covers w w := by
  rw [Covers, Finset.sdiff_self, Finset.card_empty, Nat.zero_add]

theorem Covers.total {v w : Weighed} (h : Covers v w) :
    v.identified.card + v.unidentified ≤ w.identified.card + w.unidentified := by
  have hsplit := Finset.card_le_card_sdiff_add_card (s := v.identified) (t := w.identified)
  unfold Covers at h
  omega

theorem Covers.insert {v w v' w' : Weighed} (h : Covers v w) (page k : Nat)
    (hv : v'.identified = Insert.insert page v.identified) (hw : w'.identified = Insert.insert page w.identified)
    (hv' : v'.unidentified = v.unidentified + k) (hw' : w'.unidentified = w.unidentified + k) : Covers v' w' := by
  have hsub : Insert.insert page v.identified \ Insert.insert page w.identified ⊆ v.identified \ w.identified := by
    intro x hx
    simp only [Finset.mem_sdiff, Finset.mem_insert, not_or] at hx ⊢
    exact ⟨hx.1.resolve_left hx.2.1, hx.2.2⟩
  have hcard := Finset.card_le_card hsub
  unfold Covers at h ⊢
  rw [hv, hw, hv', hw']
  omega

theorem Covers.mono {v w w' : Weighed} (h : Covers v w) (hid : w.identified ⊆ w'.identified)
    (hun : w.unidentified ≤ w'.unidentified) : Covers v w' :=
  (Nat.add_le_add_right (Finset.card_le_card (Finset.sdiff_subset_sdiff le_rfl hid)) _).trans (h.trans hun)

theorem Covers.refer {v w : Weighed} (h : Covers v w) {e e' : Nat} (he : e' ≤ e) (page target : Nat) :
    Covers (v.refer e page target) (w.refer e' page target) := by
  unfold Weighed.refer
  by_cases hpage : page ≤ e'
  · rw [if_pos (hpage.trans he), if_pos hpage]
    exact h.insert target 0 rfl rfl rfl rfl
  · rw [if_neg hpage]
    split
    · have hsub : Insert.insert target v.identified \ w.identified ⊆
          Insert.insert target (v.identified \ w.identified) := by
        intro x hx
        simp only [Finset.mem_sdiff, Finset.mem_insert] at hx ⊢
        exact hx.1.imp id fun hv => ⟨hv, hx.2⟩
      have hcard := (Finset.card_le_card hsub).trans (Finset.card_insert_le _ _)
      unfold Covers at h ⊢
      dsimp only
      omega
    · unfold Covers at h ⊢
      dsimp only
      omega

theorem Covers.refers {v w : Weighed} (h : Covers v w) {e e' : Nat} (he : e' ≤ e) (target : Nat → Nat) (pages : List Nat) :
    Covers (pages.foldl (fun v page => v.refer e page (target page)) v)
      (pages.foldl (fun w page => w.refer e' page (target page)) w) := by
  induction pages generalizing v w with
  | nil => exact h
  | cons page pages ih => exact ih (h.refer he page (target page))

namespace Survey
variable (s : Survey)

theorem refer_changed (w : Weighed) (e page target : Nat) : (w.refer e page target).changed = w.changed := by
  unfold Weighed.refer
  split <;> rfl

theorem foldl_refer_changed (e : Nat) (target : Nat → Nat) : ∀ (pages : List Nat) (w : Weighed),
    (pages.foldl (fun w page => w.refer e page (target page)) w).changed = w.changed
  | [], _ => rfl
  | page :: pages, w => (foldl_refer_changed e target pages _).trans (refer_changed w e page (target page))

structure Grows (w w' : Weighed) : Prop where
  identified : w.identified ⊆ w'.identified
  unidentified : w.unidentified ≤ w'.unidentified

theorem Grows.trans {u v w : Weighed} (h : Grows u v) (h' : Grows v w) : Grows u w :=
  ⟨h.identified.trans h'.identified, h.unidentified.trans h'.unidentified⟩

theorem grows_refer (w : Weighed) (e page target : Nat) : Grows w (w.refer e page target) := by
  unfold Weighed.refer
  split
  · exact ⟨Finset.subset_insert _ _, le_rfl⟩
  · exact ⟨le_rfl, Nat.le_succ _⟩

theorem grows_refers (e : Nat) (target : Nat → Nat) : ∀ (pages : List Nat) (w : Weighed),
    Grows w (pages.foldl (fun w page => w.refer e page (target page)) w)
  | [], _ => ⟨le_rfl, le_rfl⟩
  | page :: pages, w => (grows_refer w e page (target page)).trans (grows_refers e target pages _)

theorem grows_weighStep {e : Nat} {w w' : Weighed} {step : TailStep} (h : s.weighStep e w step = .ok w') : Grows w w' := by
  unfold weighStep at h
  split at h
  · cases h
    exact ⟨le_rfl, le_rfl⟩
  · obtain ⟨entry, -, h⟩ := Except.bind_eq_ok.mp h
    split at h
    · cases h
      unfold weighFree
      split
      · exact ⟨Finset.subset_insert _ _, le_rfl⟩
      · split <;> exact ⟨le_rfl, Nat.le_add_right _ _⟩
    · obtain ⟨refs, -, h⟩ := Except.bind_eq_ok.mp h
      cases h
      have hfour : Grows w { w with unidentified := w.unidentified + 4, changed := true } :=
        ⟨le_rfl, Nat.le_add_right _ _⟩
      have hall := (hfour.trans (grows_refer _ e entry.2 entry.2)).trans
        (grows_refers e (ptrmapPageno s.usable s.pageSize) (refs.children ++ refs.heads) _)
      exact ⟨hall.identified, hall.unidentified⟩

theorem covers_weighStep {e e' : Nat} (he : e' ≤ e) {v w v' w' : Weighed} {step : TailStep}
    (hv : s.weighStep e v step = .ok v') (hw : s.weighStep e' w step = .ok w')
    (hc : Covers v w) (hch : v.changed = w.changed) : Covers v' w' ∧ v'.changed = w'.changed := by
  unfold weighStep at hv hw
  cases hp : step.page with
  | none =>
    rw [hp] at hv hw
    cases hv
    cases hw
    exact ⟨hc, hch⟩
  | some page =>
    rw [hp] at hv hw
    obtain ⟨entry, hentry, hv⟩ := Except.bind_eq_ok.mp hv
    obtain ⟨entry', hentry', hw⟩ := Except.bind_eq_ok.mp hw
    cases hentry.symm.trans hentry'
    by_cases hfree : entry.1 = .freePage
    · rw [if_pos hfree] at hv hw
      cases hv
      cases hw
      unfold weighFree
      rw [hch]
      cases w.changed <;> cases s.leafOf.get? page <;> cases s.trunks.get? page <;>
        first
        | exact ⟨hc.insert _ 0 rfl rfl rfl rfl, rfl⟩
        | exact ⟨by unfold Covers at hc ⊢; dsimp only; omega, rfl⟩
    · rw [if_neg hfree] at hv hw
      obtain ⟨refs, hrefs, hv⟩ := Except.bind_eq_ok.mp hv
      obtain ⟨refs', hrefs', hw⟩ := Except.bind_eq_ok.mp hw
      cases hrefs.symm.trans hrefs'
      cases hv
      cases hw
      have hfour : Covers { v with unidentified := v.unidentified + 4, changed := true }
          { w with unidentified := w.unidentified + 4, changed := true } := by
        unfold Covers at hc ⊢
        dsimp only
        omega
      have hall := (hfour.refer he entry.2 entry.2).refers he (ptrmapPageno s.usable s.pageSize)
        (refs.children ++ refs.heads)
      refine ⟨hall, ?_⟩
      unfold weighMoved
      dsimp only
      rw [foldl_refer_changed, foldl_refer_changed, refer_changed, refer_changed]

theorem covers_foldlM {e e' : Nat} (he : e' ≤ e) : ∀ {steps : List TailStep} {v w v' w' : Weighed},
    steps.foldlM (s.weighStep e) v = .ok v' → steps.foldlM (s.weighStep e') w = .ok w' →
    Covers v w → v.changed = w.changed → Covers v' w'
  | [], v, w, v', w', hv, hw, hc, _ => by
    cases hv
    cases hw
    exact hc
  | step :: steps, v, w, v', w', hv, hw, hc, hch => by
    obtain ⟨v₁, hv₁, hv⟩ := Except.foldlM_cons.mp hv
    obtain ⟨w₁, hw₁, hw⟩ := Except.foldlM_cons.mp hw
    obtain ⟨hc₁, hch₁⟩ := s.covers_weighStep he hv₁ hw₁ hc hch
    exact covers_foldlM he hv hw hc₁ hch₁

theorem grows_foldlM {e : Nat} : ∀ {steps : List TailStep} {w w' : Weighed},
    steps.foldlM (s.weighStep e) w = .ok w' → Grows w w'
  | [], w, w', h => by
    cases h
    exact ⟨le_rfl, le_rfl⟩
  | step :: steps, w, w', h => by
    obtain ⟨w₁, h₁, h⟩ := Except.foldlM_cons.mp h
    exact (s.grows_weighStep h₁).trans (grows_foldlM h)

theorem covers_prefixPlan {e e' : Nat} (he : e' ≤ e) {steps more : List TailStep} {v w : Weighed}
    (hv : s.prefixPlan steps e = .ok v) (hw : s.prefixPlan (steps ++ more) e' = .ok w) : Covers v w := by
  unfold prefixPlan at hv hw
  rw [List.foldlM_append] at hw
  obtain ⟨w₁, hw₁, hw⟩ := Except.bind_eq_ok.mp hw
  have hgrows := s.grows_foldlM hw
  exact (s.covers_foldlM he hv hw₁ (Covers.refl _) rfl).mono hgrows.identified hgrows.unidentified

end Survey

end Cctally.Reclaim
