import Cctally.ReclaimFreelistExact
import Cctally.ReclaimReservation

/-!
# The longest affordable prefix

What a survey that returns has checked, what follows for each prefix of its
steps, and which prefix the growth of a chunk stops at.
-/

namespace Cctally.Reclaim

open Survey (Weighed)

structure Surveyed (s : Survey) : Prop where
  descends : Descends s.pageCount s.freelistCount s.steps
  nonempty : s.steps ≠ []
  entries : ∀ st ∈ s.steps, ∀ q, st.page = some q → ∃ entry, s.entries.get? q = some entry
  refs : ∀ q entry, s.entries.get? q = some entry → entry.1 ≠ .freePage → entry.1 ≠ .rootPage →
    ∃ refs, s.refs.get? q = some refs
  parents : ∀ q entry refs, s.entries.get? q = some entry → s.refs.get? q = some refs → 1 ≤ entry.2
  targets : ∀ q refs, s.refs.get? q = some refs → ∀ x ∈ refs.children ++ refs.heads, 2 ≤ x
  trunks : ∀ leaf t, s.leafOf.get? leaf = some t → 2 ≤ t ∧ t ≤ s.pageCount

section
variable {α β : Type} {f : α → Attempt (Option β)} {key : α → Nat}

theorem collect_step {d d' : Dict Nat β} {x : α}
    (h : (do
      match ← f x with
      | some v => return d.set (key x) v
      | none => return d : Attempt (Dict Nat β)) = .ok d') :
    (∃ v, f x = .ok (some v) ∧ d' = d.set (key x) v) ∨ f x = .ok none ∧ d' = d := by
  obtain ⟨r, hr, h⟩ := Except.bind_eq_ok.mp h
  cases r with
  | none => exact .inr ⟨hr, (Except.pure_eq_ok.mp h)⟩
  | some v => exact .inl ⟨v, hr, Except.pure_eq_ok.mp h⟩

theorem collect_spec {xs : List α} {d : Dict Nat β} (h : collect f key xs = .ok d) :
    (∀ k v, d.get? k = some v → ∃ x ∈ xs, key x = k ∧ f x = .ok (some v)) ∧
      ∀ x ∈ xs, f x ≠ .ok none → ∃ v, d.get? (key x) = some v := by
  suffices hgen : ∀ {xs : List α} {d₀ d : Dict Nat β}, xs.foldlM (fun (d : Dict Nat β) x => do
      match ← f x with
      | some v => return d.set (key x) v
      | none => return d) d₀ = .ok d →
      (∀ k v, d.get? k = some v → d₀.get? k = some v ∨ ∃ x ∈ xs, key x = k ∧ f x = .ok (some v)) ∧
        (∀ k, (∃ v, d₀.get? k = some v) → ∃ v, d.get? k = some v) ∧
        ∀ x ∈ xs, f x ≠ .ok none → ∃ v, d.get? (key x) = some v by
    obtain ⟨hfound, -, hall⟩ := hgen h
    exact ⟨fun k v hk => (hfound k v hk).resolve_left (by simp), hall⟩
  intro xs
  induction xs with
  | nil =>
    intro d₀ d h
    cases h
    exact ⟨fun _ _ hk => .inl hk, fun _ hk => hk, fun _ hx => absurd hx List.not_mem_nil⟩
  | cons x xs ih =>
    intro d₀ d h
    obtain ⟨d₁, hstep, h⟩ := Except.foldlM_cons.mp h
    obtain ⟨hfound, hkeeps, hall⟩ := ih h
    rcases collect_step hstep with ⟨u, hu, rfl⟩ | ⟨hu, rfl⟩
    · refine ⟨fun k v hk => ?_, fun k hk => hkeeps k ?_, List.forall_mem_cons.mpr ⟨fun _ => hkeeps _ ?_, hall⟩⟩
      · rcases hfound k v hk with hk | ⟨y, hy, hkey, hf⟩
        · rw [Dict.get?_set] at hk
          split at hk
          · rename_i hx
            cases hk
            exact .inr ⟨x, List.mem_cons_self, hx, hu⟩
          · exact .inl hk
        · exact .inr ⟨y, List.mem_cons_of_mem _ hy, hkey, hf⟩
      · rw [Dict.get?_set]
        split
        · exact ⟨u, rfl⟩
        · exact hk
      · exact ⟨u, Dict.get?_set_self _ _ _⟩
    · refine ⟨fun k v hk => ?_, hkeeps, List.forall_mem_cons.mpr ⟨fun hne => absurd hu hne, hall⟩⟩
      rcases hfound k v hk with hk | ⟨y, hy, hf⟩
      · exact .inl hk
      · exact .inr ⟨y, List.mem_cons_of_mem _ hy, hf⟩

end

/-! ## What a survey has checked -/

section
variable {readPage : Nat → Attempt Bytes}

theorem tailEntry_parent {usable pageSize pageCount page : Nat} {entry : PtrmapType × Nat}
    (h : tailEntry readPage usable pageSize pageCount page = .ok entry) (hfree : entry.1 ≠ .freePage)
    (hroot : entry.1 ≠ .rootPage) : 1 ≤ entry.2 := by
  obtain ⟨found, -, h⟩ := Except.bind_eq_ok.mp h
  split at h
  · exact absurd h (by simp)
  · split at h
    · exact absurd h (by simp)
    · rename_i hcheck
      cases h
      by_contra hparent
      exact hcheck ⟨hfree, hroot, fun hin => hparent hin.1⟩

theorem pageRefs_spec {usable pageCount page : Nat} {leafOf : Dict Nat Nat} {trunks : Dict Nat (Nat × Nat)}
    {kind : PtrmapType} {r : Option Refs} (h : pageRefs readPage usable pageCount leafOf trunks page kind = .ok r) :
    (r = none ↔ kind = .freePage ∨ kind = .rootPage) ∧
      ∀ refs, r = some refs → ∀ x ∈ refs.children ++ refs.heads, 2 ≤ x := by
  have hlink : ∀ {r : Option Refs}, (do
      let following ← unpack 4 (← readPage page) 0
      if following ≠ 0 ∧ ¬ (2 ≤ following ∧ following ≤ pageCount) then refuse .malformedPage "overflow link"
      return some ⟨.overflow, if following = 0 then [] else [following], []⟩ : Attempt (Option Refs)) = .ok r →
      r ≠ none ∧ ∀ refs, r = some refs → ∀ x ∈ refs.children ++ refs.heads, 2 ≤ x := by
    intro r h
    obtain ⟨image, -, h⟩ := Except.bind_eq_ok.mp h
    obtain ⟨following, -, h⟩ := Except.bind_eq_ok.mp h
    dsimp only at h
    split at h
    · rw [refuse_bind, refuse_eq_ok] at h
      exact h.elim
    · rename_i hcheck
      cases h
      refine ⟨Option.some_ne_none _, fun refs hrefs x hx => ?_⟩
      cases hrefs
      rw [List.append_nil] at hx
      split at hx
      · exact absurd hx List.not_mem_nil
      · rename_i h0
        rw [List.mem_singleton.mp hx]
        by_contra hlt
        exact hcheck ⟨h0, fun hin => hlt hin.1⟩
  cases kind with
  | rootPage =>
    simp only [pageRefs, Except.pure_eq_ok] at h
    subst h
    exact ⟨by simp, fun _ h => by cases h⟩
  | freePage =>
    simp only [pageRefs] at h
    split at h
    · exact absurd h (by simp)
    · cases h
      exact ⟨by simp, fun _ h => by cases h⟩
  | btree =>
    simp only [pageRefs] at h
    obtain ⟨image, -, h⟩ := Except.bind_eq_ok.mp h
    obtain ⟨found, hfound, h⟩ := Except.bind_eq_ok.mp h
    cases h
    refine ⟨by simp, fun refs hrefs x hx => ?_⟩
    cases hrefs
    exact (refs_of_btreeRefs usable hfound x hx).1
  | overflow1 =>
    simp only [pageRefs] at h
    exact ⟨iff_of_false (hlink h).1 (by simp), (hlink h).2⟩
  | overflow2 =>
    simp only [pageRefs] at h
    exact ⟨iff_of_false (hlink h).1 (by simp), (hlink h).2⟩

theorem trunk_of_scanFreelist {freelistCount pageCount usable firstTrunk : Nat} {tail : Finset Nat}
    {kept : Dict Nat Nat × Dict Nat (Nat × Nat)}
    (h : scanFreelist readPage freelistCount pageCount usable tail firstTrunk = .ok kept) :
    ∀ leaf t, kept.1.get? leaf = some t → 2 ≤ t ∧ t ≤ pageCount := by
  obtain ⟨w, hw, h⟩ := Except.bind_eq_ok.mp h
  split at h
  · exact absurd h (by simp)
  · obtain ⟨chain, hchain, hbound, -, rfl⟩ := Walk.chain_of_run _ _ _ _ _ hw
    cases h
    intro leaf t ht
    rcases Walk.leafOf_after tail hchain.eq_headOf ht with h0 | ⟨-, listed, hm, -⟩
    · exact absurd h0 (by simp [Walk.start])
    · exact hbound.trunks _ hm

theorem surveyed_of_survey {pageSize : Nat} {maxSteps : Int} {s : Survey}
    (h : survey readPage pageSize maxSteps = .ok s) : Surveyed s := by
  obtain ⟨header, -, h⟩ := Except.bind_eq_ok.mp h
  obtain ⟨steps, hsteps, h⟩ := Except.bind_eq_ok.mp h
  dsimp only at h
  split at h
  · rw [refuse_bind, refuse_eq_ok] at h
    exact h.elim
  rename_i hne
  obtain ⟨entries, hentries, h⟩ := Except.bind_eq_ok.mp h
  obtain ⟨freelist, hfreelist, h⟩ := Except.bind_eq_ok.mp h
  obtain ⟨refs, hrefs, h⟩ := Except.bind_eq_ok.mp h
  cases h
  have hdesc : Descends header.1 header.2.2 steps := by
    unfold tailSteps at hsteps
    obtain ⟨-, hsteps⟩ := Except.guard_eq_ok.mp hsteps
    exact descends_of_tailStepsFrom hsteps
  have hchecked : ∀ q entry, entries.get? q = some entry →
      tailEntry readPage pageSize pageSize header.1 q = .ok entry := by
    intro q entry hq
    obtain ⟨page, -, rfl, hf⟩ := (collect_spec hentries).1 q entry hq
    obtain ⟨_, he, hsome⟩ := Except.map_eq_ok.mp hf
    cases hsome
    exact he
  have hmoved : ∀ q found, refs.get? q = some found → ∃ entry : PtrmapType × Nat, entries.get? q = some entry ∧
      pageRefs readPage pageSize header.1 freelist.1 freelist.2 q entry.1 = .ok (some found) := by
    intro q found hq
    obtain ⟨e, he, rfl, hf⟩ := (collect_spec hrefs).1 q found hq
    exact ⟨e.2, Dict.get?_eq_some.mpr he, hf⟩
  refine ⟨hdesc, hne, ?_, ?_, ?_, ?_, trunk_of_scanFreelist hfreelist⟩
  · intro st hst q hq
    refine (collect_spec hentries).2 q ?_ fun hf => ?_
    · rw [tailPages, Finset.mem_sort, List.mem_toFinset]
      exact List.mem_filterMap.mpr ⟨st, hst, hq⟩
    · obtain ⟨_, -, hsome⟩ := Except.map_eq_ok.mp hf
      cases hsome
  · intro q entry hq hfree hroot
    refine (collect_spec hrefs).2 (q, entry) (Dict.get?_eq_some.mp hq) fun hf => ?_
    rcases (pageRefs_spec hf).1.mp rfl with h | h
    · exact hfree h
    · exact hroot h
  · intro q entry found hq hfound
    obtain ⟨entry', hq', hf⟩ := hmoved q found hfound
    cases hq.symm.trans hq'
    have hkind : ¬ (entry.1 = .freePage ∨ entry.1 = .rootPage) := fun hk =>
      absurd ((pageRefs_spec hf).1.mpr hk) (by simp)
    exact tailEntry_parent (hchecked q entry hq) (fun h => hkind (.inl h)) fun h => hkind (.inr h)
  · intro q found hfound
    obtain ⟨entry, -, hf⟩ := hmoved q found hfound
    exact (pageRefs_spec hf).2 found rfl

end

/-! ## One prefix -/

namespace Survey
variable {s : Survey}

def Kinds.total (k : Kinds) : Nat := k.free + k.overflow + k.leaf + k.interior

theorem ptrmapPageno_pos {usable pageSize x : Nat} (h : 2 ≤ x) : 1 ≤ ptrmapPageno usable pageSize x := by
  unfold ptrmapPageno
  rw [if_neg (by omega)]
  dsimp only
  split <;> omega

theorem ptrmapPageno_le {usable pageSize x : Nat} : ptrmapPageno usable pageSize x ≤ x + 1 := by
  unfold ptrmapPageno
  split
  · exact Nat.zero_le _
  · have hdiv := Nat.div_mul_le_self (x - 2) (usable / 5 + 1)
    dsimp only
    split <;> omega

def InFile (s : Survey) (w : Weighed) : Prop := ∀ q ∈ w.identified, 1 ≤ q ∧ q ≤ s.pageCount

theorem inFile_refer {w : Weighed} {e page target : Nat} (h : InFile s w)
    (htarget : page ≤ e → 1 ≤ target ∧ target ≤ s.pageCount) : InFile s (w.refer e page target) := by
  unfold Weighed.refer
  split
  · rename_i hpage
    intro q hq
    rcases Finset.mem_insert.mp hq with rfl | hq
    · exact htarget hpage
    · exact h q hq
  · exact h

theorem inFile_refers {e : Nat} (he : e < s.pageCount) {pages : List Nat} {w : Weighed} (hpages : ∀ x ∈ pages, 2 ≤ x)
    (h : InFile s w) :
    InFile s (pages.foldl (fun w page => w.refer e page (ptrmapPageno s.usable s.pageSize page)) w) := by
  induction pages generalizing w with
  | nil => exact h
  | cons page pages ih =>
    obtain ⟨hpage, hpages⟩ := List.forall_mem_cons.mp hpages
    refine ih hpages (inFile_refer h fun hin => ⟨ptrmapPageno_pos hpage, ?_⟩)
    exact ptrmapPageno_le.trans (by omega)

theorem kinds_foldl_refer (e : Nat) (target : Nat → Nat) (pages : List Nat) (w : Weighed) :
    (pages.foldl (fun w page => w.refer e page (target page)) w).kinds = w.kinds := by
  induction pages generalizing w with
  | nil => rfl
  | cons page pages ih =>
    rw [List.foldl_cons, ih, Weighed.refer]
    split <;> rfl

theorem weighStep_spec (hs : Surveyed s) {e : Nat} (he : e < s.pageCount) {w w' : Weighed} {st : TailStep}
    (h : s.weighStep e w st = .ok w') :
    Kinds.total w'.kinds = Kinds.total w.kinds + st.page.toList.length ∧ (InFile s w → InFile s w') := by
  unfold weighStep at h
  cases hp : st.page with
  | none =>
    rw [hp] at h
    cases h
    exact ⟨rfl, id⟩
  | some page =>
    rw [hp] at h
    obtain ⟨entry, hentry, h⟩ := Except.bind_eq_ok.mp h
    have hentry : s.entries.get? page = some entry := lookup_eq_ok.mp hentry
    split at h
    · cases h
      have hfree : Kinds.total w.kinds.addFree = Kinds.total w.kinds + 1 := by
        simp only [Kinds.total, Kinds.addFree]
        omega
      unfold weighFree
      split
      · rename_i trunk _ htrunk
        refine ⟨hfree, fun hin q hq => ?_⟩
        rcases Finset.mem_insert.mp hq with rfl | hq
        · have := hs.trunks _ _ htrunk
          omega
        · exact hin q hq
      · split <;> exact ⟨hfree, id⟩
    · obtain ⟨refs, hrefs, h⟩ := Except.bind_eq_ok.mp h
      have hrefs : s.refs.get? page = some refs := lookup_eq_ok.mp hrefs
      cases h
      refine ⟨?_, fun hin => ?_⟩
      · unfold weighMoved
        dsimp only
        rw [kinds_foldl_refer]
        unfold Weighed.refer
        split <;> cases refs.label <;> simp only [Kinds.total, Kinds.add, Option.toList_some, List.length_singleton] <;>
          omega
      · have hparent := hs.parents page entry refs hentry hrefs
        have hfour : InFile s { w with unidentified := w.unidentified + 4, changed := true } := hin
        exact inFile_refers he (hs.targets page refs hrefs)
          (inFile_refer hfour fun hle => ⟨hparent, hle.trans he.le⟩)

theorem foldlM_weighStep_spec (hs : Surveyed s) {e : Nat} (he : e < s.pageCount) {steps : List TailStep} {w w' : Weighed}
    (h : steps.foldlM (s.weighStep e) w = .ok w') :
    Kinds.total w'.kinds = Kinds.total w.kinds + (steps.filterMap TailStep.page).length ∧ (InFile s w → InFile s w') := by
  induction steps generalizing w with
  | nil =>
    cases h
    exact ⟨rfl, id⟩
  | cons st steps ih =>
    obtain ⟨w₁, h₁, h⟩ := Except.foldlM_cons.mp h
    obtain ⟨hkinds, hin⟩ := weighStep_spec hs he h₁
    obtain ⟨hkinds', hin'⟩ := ih h
    refine ⟨?_, fun hw => hin' (hin hw)⟩
    rw [hkinds', hkinds]
    cases hp : st.page with
    | none => rw [List.filterMap_cons_none hp]; simp
    | some q => rw [List.filterMap_cons_some hp]; simp only [Option.toList_some, List.length_cons, List.length_nil]; omega

theorem prefixPlan_returns (hs : Surveyed s) {k : Nat} (hroot : s.rootInTail k = false) (e : Nat) :
    ∃ w, s.prefixPlan (s.steps.take k) e = .ok w := by
  have hstep : ∀ st ∈ s.steps.take k, ∀ w, ∃ w', s.weighStep e w st = .ok w' := by
    intro st hst w
    unfold weighStep
    cases hp : st.page with
    | none => exact ⟨_, rfl⟩
    | some page =>
      obtain ⟨entry, hentry⟩ := hs.entries st (List.mem_of_mem_take hst) page hp
      have hne : entry.1 ≠ .rootPage := by
        intro he
        have := List.any_eq_false.mp hroot st hst
        simp [hp, hentry, he] at this
      dsimp only
      rw [lookup_eq_ok.mpr hentry, Except.ok_bind]
      split
      · exact ⟨_, rfl⟩
      · rename_i hfree
        obtain ⟨refs, hrefs⟩ := hs.refs page entry hentry hfree hne
        rw [lookup_eq_ok.mpr hrefs]
        exact ⟨_, rfl⟩
  exact Except.foldlM_returns hstep

theorem endAfter_le (hs : Surveyed s) {j k : Nat} (hj : 1 ≤ j) (hjk : j ≤ k) (hk : k ≤ s.steps.length) :
    s.endAfter k ≤ s.endAfter j := by
  have hat : ∀ i, 1 ≤ i → (hi : i ≤ s.steps.length) → s.endAfter i = (s.steps.get ⟨i - 1, by omega⟩).newEnd := by
    intro i hi hlen
    unfold endAfter
    rw [List.getLast?_take, if_neg (by omega), List.getElem?_eq_getElem (by omega)]
    rfl
  rw [hat j hj (hjk.trans hk), hat k (hj.trans hjk) hk]
  rcases Nat.eq_or_lt_of_le hjk with rfl | hlt
  · exact le_rfl
  · exact (List.pairwise_iff_getElem.mp hs.descends.falling (j - 1) (k - 1) (by omega) (by omega) (by omega)).le

theorem endAfter_lt (hs : Surveyed s) {k : Nat} (hk : 1 ≤ k) (hlen : k ≤ s.steps.length) : s.endAfter k < s.pageCount := by
  unfold endAfter
  rw [List.getLast?_take, if_neg (by omega), List.getElem?_eq_getElem (by omega)]
  exact hs.descends.below _ (List.getElem_mem _)

theorem take_of_le {j k : Nat} (hjk : j ≤ k) : s.steps.take j = (s.steps.take k).take j := by
  rw [List.take_take, min_eq_left hjk]

theorem rootInTail_mono {j k : Nat} (hjk : j ≤ k) (h : s.rootInTail k = false) : s.rootInTail j = false := by
  unfold rootInTail at h ⊢
  rw [List.any_eq_false] at h ⊢
  rw [take_of_le hjk]
  exact fun st hst => h st (List.mem_of_mem_take hst)

theorem reservation_mono (hs : Surveyed s) (fixedBytes : Int) {j k : Nat} (hj : 1 ≤ j) (hjk : j ≤ k)
    (hk : k ≤ s.steps.length) (hacc : s.accepted k = true) :
    ∃ v w, s.prefixPlan (s.steps.take j) (s.endAfter j) = .ok v ∧ s.prefixPlan (s.steps.take k) (s.endAfter k) = .ok w ∧
      s.reservation fixedBytes v ≤ s.reservation fixedBytes w := by
  have hroot : s.rootInTail k = false := by
    unfold accepted at hacc
    simpa using (Bool.and_eq_true_iff.mp hacc).1
  obtain ⟨v, hv⟩ := prefixPlan_returns hs (rootInTail_mono hjk hroot) (s.endAfter j)
  obtain ⟨w, hw⟩ := prefixPlan_returns hs hroot (s.endAfter k)
  refine ⟨v, w, hv, hw, ?_⟩
  have hsplit : s.steps.take k = s.steps.take j ++ (s.steps.take k).drop j := by
    rw [take_of_le hjk, List.take_append_drop]
  have hcovers := s.covers_prefixPlan (endAfter_le hs hj hjk hk) hv (hsplit ▸ hw)
  have htotal : v.identified.card + v.unidentified + 1 ≤ w.identified.card + w.unidentified + 1 :=
    Nat.add_le_add_right hcovers.total 1
  unfold reservation reservationBytes
  have := Nat.mul_le_mul_right (pageFrameBytes s.pageSize) htotal
  omega

/-! ## The growth -/

def Fits (s : Survey) (budgetBytes fixedBytes : Int) (k : Nat) : Prop :=
  s.accepted k = true ∧ (k = 1 ∨
    ∃ w, s.prefixPlan (s.steps.take k) (s.endAfter k) = .ok w ∧ s.reservation fixedBytes w ≤ budgetBytes)

theorem grow_spec {budgetBytes fixedBytes : Int} {turns k m : Nat} {best : Option (Nat × Weighed)} {w : Weighed}
    (hk : 1 ≤ k) (h : s.grow budgetBytes fixedBytes turns k best = .ok (some (m, w))) :
    (best = some (m, w) ∧ (turns = 0 ∨ ¬ Fits s budgetBytes fixedBytes k)) ∨
      k ≤ m ∧ m < k + turns ∧ (∀ j, k ≤ j → j ≤ m → Fits s budgetBytes fixedBytes j) ∧
      s.prefixPlan (s.steps.take m) (s.endAfter m) = .ok w ∧
      (m + 1 = k + turns ∨ ¬ Fits s budgetBytes fixedBytes (m + 1)) := by
  induction turns generalizing k best with
  | zero => exact .inl ⟨Except.pure_eq_ok.mp h |>.symm, .inl rfl⟩
  | succ turns ih =>
    unfold grow at h
    split at h
    · rename_i hacc
      obtain ⟨candidate, hc, h⟩ := Except.bind_eq_ok.mp h
      split at h
      · rename_i hover
        refine .inl ⟨Except.pure_eq_ok.mp h |>.symm, .inr fun hfits => ?_⟩
        rcases hfits.2 with rfl | ⟨w', hw', hle⟩
        · exact absurd hover.1 (lt_irrefl 1)
        · cases hc.symm.trans hw'
          exact absurd hover.2 (not_lt.mpr hle)
      · rename_i hunder
        have hfits : Fits s budgetBytes fixedBytes k := by
          refine ⟨hacc, (Nat.eq_or_lt_of_le hk).imp Eq.symm fun hlt => ⟨candidate, hc, ?_⟩⟩
          exact not_lt.mp fun hover => hunder ⟨hlt, hover⟩
        right
        rcases ih (Nat.le_succ_of_le hk) h with ⟨hbest, hstop⟩ | ⟨hle, hlt, hall, hplan, hstop⟩
        · cases hbest
          refine ⟨le_rfl, by omega, fun j hj hj' => ?_, hc, hstop.imp (by omega) id⟩
          exact (Nat.le_antisymm hj hj') ▸ hfits
        · refine ⟨by omega, by omega, fun j hj hj' => ?_, hplan, hstop.imp (by omega) id⟩
          rcases Nat.eq_or_lt_of_le hj with rfl | hj
          · exact hfits
          · exact hall j hj hj'
    · rename_i hacc
      split at h
      · exact absurd h (by simp)
      · exact .inl ⟨Except.pure_eq_ok.mp h |>.symm, .inr fun hfits => hacc hfits.1⟩

end Survey

/-- **The reservation of a prefix never falls as it grows, and a plan takes the longest prefix that is
affordable; it names pages of the file only and moves or frees no more pages than the freelist has.** -/
theorem planChunk_longest {readPage : Nat → Attempt Bytes} {pageSize : Nat} {maxSteps budgetBytes fixedBytes : Int}
    {p : ReclaimPlan} (h : planChunk readPage pageSize maxSteps budgetBytes fixedBytes = .ok p) :
    ∃ s, survey readPage pageSize maxSteps = .ok s ∧
      (∀ j k, 1 ≤ j → j ≤ k → k ≤ s.steps.length → s.accepted k = true →
        ∃ v w, s.prefixPlan (s.steps.take j) (s.endAfter j) = .ok v ∧
          s.prefixPlan (s.steps.take k) (s.endAfter k) = .ok w ∧
          s.reservation fixedBytes v ≤ s.reservation fixedBytes w) ∧
      IsGreatest { k | 1 ≤ k ∧ k ≤ s.steps.length ∧ (∀ j, 1 ≤ j → j ≤ k → s.accepted j = true) ∧
        (k = 1 ∨ ∃ w, s.prefixPlan (s.steps.take k) (s.endAfter k) = .ok w ∧
          s.reservation fixedBytes w ≤ budgetBytes) } p.steps ∧
      (∃ w, s.prefixPlan (s.steps.take p.steps) (s.endAfter p.steps) = .ok w ∧ p = s.plan fixedBytes p.steps w) ∧
      (∀ q ∈ p.identified, 1 ≤ q ∧ q ≤ p.pageCount) ∧
      p.kinds.free + p.kinds.overflow + p.kinds.leaf + p.kinds.interior =
        ((s.steps.take p.steps).filterMap TailStep.page).length ∧
      ((s.steps.take p.steps).filterMap TailStep.page).length ≤ p.freelistCount := by
  obtain ⟨s, hsurvey, h⟩ := Except.bind_eq_ok.mp h
  obtain ⟨best, hgrow, h⟩ := Except.bind_eq_ok.mp h
  cases best with
  | none => exact absurd h (by simp)
  | some best =>
    obtain ⟨m, w⟩ := best
    cases h
    have hs := surveyed_of_survey hsurvey
    rcases Survey.grow_spec le_rfl hgrow with ⟨h0, -⟩ | ⟨hm, hlt, hfits, hplan, hstop⟩
    · cases h0
    have hlen : m ≤ s.steps.length := by omega
    obtain ⟨hkinds, hfile⟩ := Survey.foldlM_weighStep_spec hs (Survey.endAfter_lt hs hm hlen) hplan
    refine ⟨s, hsurvey, fun j k hj hjk hk hacc => Survey.reservation_mono hs fixedBytes hj hjk hk hacc,
      ⟨⟨hm, hlen, fun j hj hj' => (hfits j hj hj').1, (hfits m hm le_rfl).2⟩, fun k hk => ?_⟩, ⟨w, hplan, rfl⟩,
      fun q hq => ?_, ?_, ?_⟩
    · obtain ⟨hk, hklen, hacc, haff⟩ := hk
      by_contra hlong
      have hlong : m < k := not_le.mp hlong
      have hnext : Survey.Fits s budgetBytes fixedBytes (m + 1) := by
        refine ⟨hacc (m + 1) (by omega) hlong, .inr ?_⟩
        obtain ⟨v, w', hv, hw', hle⟩ :=
          Survey.reservation_mono hs fixedBytes (by omega : 1 ≤ m + 1) hlong hklen (hacc k hk le_rfl)
        rcases haff with rfl | ⟨w'', hw'', hbudget⟩
        · omega
        · cases hw'.symm.trans hw''
          exact ⟨v, hv, hle.trans hbudget⟩
      rcases hstop with hstop | hstop
      · omega
      · exact hstop hnext
    · refine hfile (fun q hq => ?_) q ((Finset.mem_sort _).mp hq)
      rw [Finset.mem_singleton.mp hq]
      have := Survey.endAfter_lt hs hm hlen
      omega
    · exact hkinds.trans (Nat.zero_add _)
    · exact ((List.take_sublist m s.steps).filterMap TailStep.page).length_le.trans hs.descends.moved

def freedTrunk : Nat → Attempt Bytes
  | 1 => .ok (MAGIC ++ [0, 80] ++ List.replicate 10 0 ++ [0, 0, 0, 3] ++ [0, 0, 0, 3] ++ [0, 0, 0, 1] ++
      List.replicate 12 0 ++ [0, 0, 0, 3] ++ List.replicate 8 0 ++ [0, 0, 0, 1] ++ List.replicate 12 0)
  | 2 => .ok (2 :: List.replicate 79 0)
  | _ => .ok (List.replicate 80 0)

theorem planChunk_longest_freedTrunk : ∃ p s, planChunk freedTrunk 80 4 1000 0 = .ok p ∧
    survey freedTrunk 80 4 = .ok s ∧ ((s.steps.take p.steps).filterMap TailStep.page).length ≤ p.freelistCount := by
  have h : planChunk freedTrunk 80 4 1000 0 =
      .ok ⟨1, [1], 2, 1, 80, 80, 3, 1, 0, 736, ⟨1, 0, 0, 0⟩, [.freeTrunk 3 0 false]⟩ := by
    decide +kernel
  obtain ⟨s, hs, -, -, -, -, -, hfree⟩ := planChunk_longest h
  exact ⟨_, s, h, hs, hfree⟩

end Cctally.Reclaim
