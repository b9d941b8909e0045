import Cctally.Quota
import Mathlib.Logic.Equiv.Defs

/-!
# Adoption by the only account of a window

An unattributed observation is adopted exactly when one identified account is seen for
its window. The rule reads the observations as a set, and adopting adds no account to a
window, so it does not depend on their order and changes nothing a second time.
-/

namespace Cctally.Quota

def OnlyAccount (values : List QuotaObservation) (window : WindowKey) (account : Name) : Prop :=
  account ≠ UNATTRIBUTED ∧
    (∃ o ∈ values, physicalWindowKey o = window ∧ o.identity.accountKey = account) ∧
    ∀ o ∈ values, physicalWindowKey o = window → o.identity.accountKey ≠ UNATTRIBUTED → o.identity.accountKey = account

section
variable {values : List QuotaObservation} {o : QuotaObservation} {a b : Name} {w : WindowKey}

theorem OnlyAccount.unique (ha : OnlyAccount values w a) (hb : OnlyAccount values w b) : a = b := by
  obtain ⟨hne, ⟨o, ho, hw, rfl⟩, -⟩ := ha
  exact hb.2.2 o ho hw hne

theorem mem_identified {c : Name} :
    c ∈ ((identifiedByWindow values).get? w).getD [] ↔
      c ≠ UNATTRIBUTED ∧ ∃ o ∈ values, physicalWindowKey o = w ∧ o.identity.accountKey = c := by
  rw [identifiedByWindow, (Dict.get?_group _ _ _ _).2]
  constructor
  · intro ⟨o, ho, hw, hc⟩
    obtain ⟨ho, hne⟩ := List.mem_filter.1 ho
    subst hc
    exact ⟨of_decide_eq_true hne, o, ho, hw, rfl⟩
  · intro ⟨hne, o, ho, hw, hc⟩
    subst hc
    exact ⟨o, List.mem_filter.2 ⟨ho, decide_eq_true hne⟩, hw, rfl⟩

theorem identified_singleton : (identifiedByWindow values).get? w = some [a] ↔ OnlyAccount values w a := by
  have hmem : ∀ c, c ∈ ((identifiedByWindow values).get? w).getD [] ↔ _ := fun c => mem_identified
  constructor
  · intro h
    rw [h, Option.getD_some] at hmem
    obtain ⟨hne, hex⟩ := (hmem a).1 (List.mem_singleton.2 rfl)
    refine ⟨hne, hex, ?_⟩
    intro o ho hw hne'
    exact List.mem_singleton.1 ((hmem _).2 ⟨hne', o, ho, hw, rfl⟩)
  · intro ⟨hne, hex, honly⟩
    have hin := (hmem a).2 ⟨hne, hex⟩
    have hnodup := (Dict.get?_group physicalWindowKey (·.identity.accountKey)
      (values.filter (·.identity.accountKey ≠ UNATTRIBUTED)) w).1
    change (((identifiedByWindow values).get? w).getD []).Nodup at hnodup
    cases hget : (identifiedByWindow values).get? w with
    | none => simp [hget] at hin
    | some l =>
      rw [hget, Option.getD_some] at hin hnodup hmem
      have hall : ∀ c ∈ l, c = a := by
        intro c hc
        obtain ⟨hc', o, ho, hw, hoc⟩ := (hmem c).1 hc
        subst hoc
        exact honly o ho hw hc'
      have hrep := List.eq_replicate_of_mem hall
      rw [hrep] at hnodup hin ⊢
      have hlen : l.length ≤ 1 := List.nodup_replicate.1 hnodup
      have hpos : l.length ≠ 0 := fun h0 => by simp [h0] at hin
      rw [show l.length = 1 by omega]
      rfl

theorem adoptOne_identified (h : o.identity.accountKey ≠ UNATTRIBUTED) :
    adoptOne (identifiedByWindow values) o = o := by rw [adoptOne, if_pos h]

theorem adoptOne_only (h : o.identity.accountKey = UNATTRIBUTED) (ha : OnlyAccount values (physicalWindowKey o) a) :
    adoptOne (identifiedByWindow values) o = o.adoptedBy a := by
  rw [adoptOne, if_neg (not_not.2 h), identified_singleton.2 ha]

theorem adoptOne_none (h : ∀ a, ¬ OnlyAccount values (physicalWindowKey o) a) :
    adoptOne (identifiedByWindow values) o = o := by
  unfold adoptOne
  by_cases hid : o.identity.accountKey ≠ UNATTRIBUTED
  · rw [if_pos hid]
  · rw [if_neg hid]
    split
    · next adopted hget => exact absurd (identified_singleton.1 hget) (h adopted)
    · rfl

theorem window_adoptedBy : physicalWindowKey (o.adoptedBy a) = physicalWindowKey o := rfl

theorem adoptOne_account (h : o.identity.accountKey = UNATTRIBUTED) :
    adoptOne (identifiedByWindow values) o =
        o.adoptedBy (adoptOne (identifiedByWindow values) o).identity.accountKey ∧
      ∀ a, a ≠ UNATTRIBUTED →
        ((adoptOne (identifiedByWindow values) o).identity.accountKey = a ↔ OnlyAccount values (physicalWindowKey o) a) := by
  by_cases hex : ∃ a, OnlyAccount values (physicalWindowKey o) a
  · obtain ⟨a, ha⟩ := hex
    rw [adoptOne_only h ha]
    refine ⟨rfl, ?_⟩
    intro b _
    constructor
    · intro hb
      exact hb ▸ ha
    · intro hb
      exact ha.unique hb
  · rw [adoptOne_none (not_exists.1 hex)]
    refine ⟨rfl, ?_⟩
    intro b hb
    constructor
    · intro hob
      exact absurd (hob.symm.trans h) hb
    · intro honly
      exact absurd ⟨b, honly⟩ hex

theorem window_adoptOne : physicalWindowKey (adoptOne (identifiedByWindow values) o) = physicalWindowKey o := by
  by_cases hid : o.identity.accountKey = UNATTRIBUTED
  · rw [(adoptOne_account hid).1, window_adoptedBy]
  · rw [adoptOne_identified hid]

theorem onlyAccount_adopt :
    OnlyAccount (adoptUnidentifiedObservations values) w a ↔ OnlyAccount values w a := by
  have hkeep : ∀ o ∈ values, o.identity.accountKey ≠ UNATTRIBUTED → o ∈ adoptUnidentifiedObservations values :=
    fun o ho hid => List.mem_map.2 ⟨o, ho, adoptOne_identified hid⟩
  constructor
  · intro ⟨hne, ⟨o', ho', hw, hacc⟩, honly⟩
    obtain ⟨o, ho, rfl⟩ := List.mem_map.1 ho'
    rw [window_adoptOne] at hw
    by_cases hid : o.identity.accountKey = UNATTRIBUTED
    · rw [← hw]
      exact ((adoptOne_account hid).2 a hne).1 hacc
    · rw [adoptOne_identified hid] at hacc
      exact ⟨hne, ⟨o, ho, hw, hacc⟩, fun p hp hpw hpid => honly p (hkeep p hp hpid) hpw hpid⟩
  · intro h
    have h' := h
    obtain ⟨hne, ⟨o, ho, hw, hacc⟩, honly⟩ := h'
    refine ⟨hne, ⟨o, hkeep o ho (hacc ▸ hne), hw, hacc⟩, ?_⟩
    intro p' hp' hpw hpid
    obtain ⟨p, hp, rfl⟩ := List.mem_map.1 hp'
    rw [window_adoptOne] at hpw
    by_cases hid : p.identity.accountKey = UNATTRIBUTED
    · have hp : OnlyAccount values _ _ := ((adoptOne_account hid).2 _ hpid).1 rfl
      rw [hpw] at hp
      exact hp.unique h
    · rw [adoptOne_identified hid]
      exact honly p hp hpw hid

theorem adoptOne_congr {values' : List QuotaObservation}
    (h : ∀ a, OnlyAccount values (physicalWindowKey o) a ↔ OnlyAccount values' (physicalWindowKey o) a) :
    adoptOne (identifiedByWindow values) o = adoptOne (identifiedByWindow values') o := by
  by_cases hid : o.identity.accountKey = UNATTRIBUTED
  · by_cases hex : ∃ a, OnlyAccount values (physicalWindowKey o) a
    · obtain ⟨a, ha⟩ := hex
      rw [adoptOne_only hid ha, adoptOne_only hid ((h a).1 ha)]
    · rw [adoptOne_none (not_exists.1 hex), adoptOne_none fun a ha => hex ⟨a, (h a).2 ha⟩]
  · rw [adoptOne_identified hid, adoptOne_identified hid]

theorem adopt_idem :
    adoptUnidentifiedObservations (adoptUnidentifiedObservations values) = adoptUnidentifiedObservations values := by
  refine (List.map_congr_left fun o' ho' => ?_).trans (List.map_id _)
  rw [adoptOne_congr fun a => onlyAccount_adopt]
  obtain ⟨o, ho, rfl⟩ := List.mem_map.1 ho'
  by_cases hid : o.identity.accountKey = UNATTRIBUTED
  · by_cases hex : ∃ a, OnlyAccount values (physicalWindowKey o) a
    · obtain ⟨a, ha⟩ := hex
      rw [adoptOne_only hid ha, adoptOne_identified (o := o.adoptedBy a) ha.1]
      rfl
    · rw [adoptOne_none (not_exists.1 hex), adoptOne_none (not_exists.1 hex)]
      rfl
  · rw [adoptOne_identified hid, adoptOne_identified hid]
    rfl

theorem onlyAccount_congr {values' : List QuotaObservation} (h : ∀ o, o ∈ values ↔ o ∈ values') :
    OnlyAccount values w a ↔ OnlyAccount values' w a := by
  unfold OnlyAccount
  simp only [h]

end

/-- **Adoption** only re-stamps unattributed observations with the only account of their window, changes nothing a
second time, and follows every permutation of its input. -/
theorem adoption_sound (values : List QuotaObservation) :
    (∃ adopt : QuotaObservation → QuotaObservation, adoptUnidentifiedObservations values = values.map adopt ∧
      ∀ o ∈ values, (o.identity.accountKey ≠ UNATTRIBUTED → adopt o = o) ∧
        (o.identity.accountKey = UNATTRIBUTED → adopt o = o.adoptedBy (adopt o).identity.accountKey ∧
          ∀ a, a ≠ UNATTRIBUTED →
            ((adopt o).identity.accountKey = a ↔ OnlyAccount values (physicalWindowKey o) a))) ∧
      adoptUnidentifiedObservations (adoptUnidentifiedObservations values) = adoptUnidentifiedObservations values ∧
      ∀ σ : Equiv.Perm (Fin values.length), adoptUnidentifiedObservations (List.ofFn fun i => values.get (σ i)) =
        List.ofFn fun i => (adoptUnidentifiedObservations values).get ((σ i).cast (List.length_map _).symm) := by
  refine ⟨⟨_, rfl, fun o _ => ⟨adoptOne_identified, adoptOne_account⟩⟩, adopt_idem, ?_⟩
  intro σ
  have hmem : ∀ o, o ∈ List.ofFn (fun i => values.get (σ i)) ↔ o ∈ values := by
    intro o
    rw [List.mem_ofFn]
    constructor
    · intro ⟨i, hi⟩
      exact hi ▸ List.get_mem _ _
    · intro ho
      obtain ⟨i, hi⟩ := List.mem_iff_get.1 ho
      exact ⟨σ.symm i, by simpa using hi⟩
  have hsame : ∀ o, adoptOne (identifiedByWindow (List.ofFn fun i => values.get (σ i))) o =
      adoptOne (identifiedByWindow values) o := fun o => adoptOne_congr fun a => onlyAccount_congr hmem
  rw [adoptUnidentifiedObservations, List.map_congr_left fun o _ => hsame o, List.map_ofFn]
  refine congrArg List.ofFn (funext fun i => ?_)
  simp [adoptUnidentifiedObservations]

end Cctally.Quota
