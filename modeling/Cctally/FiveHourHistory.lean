import Cctally.FiveHourWalk

/-!
# A certain history

The occurrences of an id with no uncertainty code: every revision is there, they
take effect in revision order, and the first of each is the link the walk reads.
-/

namespace Cctally.FiveHour

open Json (field without)

section
variable {env : Env}

theorem eq_of_usable {v : Json} (h : usableAmount env v = true) : Json.eq env.fl v v = true := by
  cases v with
  | num n => exact Json.eq_refl_of_scalar env.fl rfl
  | float r =>
    obtain ⟨q, hq⟩ := Option.isSome_iff_exists.1 h
    exact Json.eq_refl_of_scalar env.fl (s := .number q) (by simp only [Json.scalar, hq])
  | _ => cases h

theorem field_of_without {d d' : Json.Fields} {keys : List String} (h : without d' keys = without d keys) {key : String}
    (hkey : key ∉ keys) : field d' key = field d key := by
  rw [← Json.field_without hkey, h, Json.field_without hkey]

theorem sortedSet_eq_nil {l : List String} : sortedSet l = [] ↔ l = [] := by
  rw [List.eq_nil_iff_forall_not_mem, List.eq_nil_iff_forall_not_mem]
  simp only [mem_sortedSet]

theorem historyUncertainty_eq_nil {items : List Occurrence} {hidden invalid close : Bool} {selected : Option (Nat × String)} :
    historyUncertainty items hidden invalid selected close = [] ↔
      hidden = false ∧ invalid = false ∧ hasGap items selected = false ∧ diverges close items = false ∧
        inverted items = false ∧ mismatched items selected = false := by
  unfold historyUncertainty
  rw [sortedSet_eq_nil]
  simp only [List.append_eq_nil_iff, ite_eq_right_iff, List.cons_ne_self, imp_false, Bool.not_eq_true, and_assoc]

theorem le_topRevision {items : List Occurrence} {o : Occurrence} (h : o ∈ items) : o.rev ≤ topRevision items :=
  le_foldr_max (List.mem_map_of_mem h)

theorem topRevision_append (items : List Occurrence) {o : Occurrence} (h : topRevision items ≤ o.rev) :
    topRevision (items ++ [o]) = o.rev := by
  apply le_antisymm
  · rcases foldr_max_mem 0 ((items ++ [o]).map (·.rev)) with h0 | hmem
    · exact h0.le.trans (Nat.zero_le _)
    · obtain ⟨o', ho', heq⟩ := List.mem_map.1 hmem
      unfold topRevision
      rw [← heq]
      rcases List.mem_append.1 ho' with hold | hnew
      · exact (le_topRevision hold).trans h
      · rw [List.mem_singleton.1 hnew]
  · exact le_topRevision (List.mem_append_right _ List.mem_cons_self)

theorem mem_ofRevision {items : List Occurrence} {o : Occurrence} {rev : Nat} :
    o ∈ ofRevision items rev ↔ o ∈ items ∧ o.rev = rev := by
  simp [ofRevision]

theorem exists_of_noGap {items : List Occurrence} {selected : Option (Nat × String)} (h : hasGap items selected = false)
    {rev : Nat} (hrev : rev ≤ topRevision items) : ∃ o ∈ items, o.rev = rev := by
  unfold hasGap at h
  simp only [List.any_eq_false, List.mem_range, List.isEmpty_iff] at h
  have hne := h rev (Nat.lt_succ_of_le (hrev.trans (le_max_left _ _)))
  obtain ⟨o, ho⟩ := List.exists_mem_of_ne_nil _ hne
  exact ⟨o, mem_ofRevision.1 ho⟩

theorem sortKey_total : Std.Total fun a b : Occurrence => sortKey a ≤ sortKey b := ⟨fun a b => le_total (sortKey a) (sortKey b)⟩

theorem sortKey_trans : IsTrans Occurrence fun a b => sortKey a ≤ sortKey b := ⟨fun _ _ _ => le_trans⟩

def Sorted (items : List Occurrence) : Prop := items.Pairwise fun a b => sortKey a ≤ sortKey b

theorem sorted_sortOccurrences (items : List Occurrence) : Sorted (sortOccurrences items) :=
  have := sortKey_total
  have := sortKey_trans
  List.pairwise_insertionSort _ items

theorem sortOccurrences_of_sorted {items : List Occurrence} (h : Sorted items) : sortOccurrences items = items :=
  List.Pairwise.insertionSort_eq h

theorem sortKey_lt {a b : Occurrence} (h : a.rev < b.rev) : sortKey a ≤ sortKey b :=
  (Prod.Lex.toLex_le_toLex.2 (.inl h))

theorem availableAt_le_of_sortKey {a b : Occurrence} (hrev : a.rev = b.rev) (h : sortKey a ≤ sortKey b) :
    a.availableAt ≤ b.availableAt := by
  rcases Prod.Lex.toLex_le_toLex.1 h with hlt | ⟨-, hrest⟩
  · exact absurd hrev hlt.ne
  · rcases Prod.Lex.toLex_le_toLex.1 hrest with hlt | ⟨heq, -⟩
    · exact hlt.le
    · exact heq.le

theorem link_earliest : ∀ {items : List Occurrence}, Sorted items → ∀ {o : Occurrence}, o ∈ items →
    link (firstPerRevision items) o.rev ∈ items ∧ (link (firstPerRevision items) o.rev).rev = o.rev ∧
      (link (firstPerRevision items) o.rev).availableAt ≤ o.availableAt := by
  intro items h o ho
  unfold link
  rw [get?_firstPerRevision]
  cases hfind : items.find? (·.rev = o.rev) with
  | none => exact absurd (decide_eq_true rfl) (List.find?_eq_none.1 hfind o ho)
  | some first =>
    have hrev : first.rev = o.rev := by simpa using List.find?_some hfind
    refine ⟨List.mem_of_find?_eq_some hfind, hrev, ?_⟩
    obtain ⟨-, before, after, rfl, hbefore⟩ := List.find?_eq_some_iff_append.1 hfind
    rcases List.mem_append.1 ho with hmem | hmem
    · have hno := hbefore o hmem
      simp at hno
    · rcases List.mem_cons.1 hmem with rfl | hmem
      · exact le_refl _
      · have hafter := (List.pairwise_append.1 h).2.1
        exact availableAt_le_of_sortKey hrev ((List.pairwise_cons.1 hafter).1 o hmem)

theorem sorted_append {items : List Occurrence} (h : Sorted items) {o : Occurrence} (ho : ∀ o' ∈ items, o'.rev < o.rev) :
    Sorted (items ++ [o]) := by
  refine List.pairwise_append.2 ⟨h, List.pairwise_singleton _ _, fun a ha b hb => ?_⟩
  rw [List.mem_singleton.1 hb]
  exact sortKey_lt (ho a ha)

theorem link_append {items : List Occurrence} {o : Occurrence} {rev : Nat} (h : rev ≠ o.rev) :
    link (firstPerRevision (items ++ [o])) rev = link (firstPerRevision items) rev := by
  unfold link
  rw [firstPerRevision_snoc, Dict.get?_setdefault, if_neg (Ne.symm h), Option.or_none]

theorem link_append_self {items : List Occurrence} {o : Occurrence} (h : ∀ o' ∈ items, o'.rev ≠ o.rev) :
    link (firstPerRevision (items ++ [o])) o.rev = o := by
  have hnone : items.find? (·.rev = o.rev) = none := by
    refine List.find?_eq_none.2 fun o' ho' heq => h o' ho' (of_decide_eq_true heq)
  unfold link
  rw [firstPerRevision_snoc, Dict.get?_setdefault, get?_firstPerRevision, hnone, if_pos rfl]
  rfl

theorem earliest_of_mem {items : List Occurrence} {o : Occurrence} (h : o ∈ items) :
    ∃ m, earliest items o.rev = some m ∧ m ≤ o.availableAt ∧ ∃ o' ∈ items, o'.rev = o.rev ∧ o'.availableAt = m := by
  have hmem : o.availableAt ∈ (ofRevision items o.rev).map (·.availableAt) :=
    List.mem_map_of_mem (mem_ofRevision.2 ⟨h, rfl⟩)
  cases hmin : ((ofRevision items o.rev).map (·.availableAt)).min? with
  | none => rw [List.min?_eq_none_iff.1 hmin] at hmem; cases hmem
  | some m =>
    obtain ⟨hm, hle⟩ := List.min?_eq_some_iff.1 hmin
    obtain ⟨o', ho', heq⟩ := List.mem_map.1 hm
    obtain ⟨hin, hrev⟩ := mem_ofRevision.1 ho'
    exact ⟨m, hmin, hle _ hmem, o', hin, hrev, heq⟩

theorem inOrder_of_certain {items : List Occurrence} (hsorted : Sorted items) {selected : Option (Nat × String)}
    (hgap : hasGap items selected = false) (hinv : inverted items = false) (tail : Nat) :
    InOrder (firstPerRevision items) tail (topRevision items) := by
  intro rev _ hrev
  obtain ⟨before, hbefore, hrevbefore⟩ := exists_of_noGap hgap (Nat.le_of_lt hrev)
  obtain ⟨after, hafter, hrevafter⟩ := exists_of_noGap hgap (Nat.succ_le_of_lt hrev)
  obtain ⟨hin, hinrev, -⟩ := link_earliest hsorted hafter
  rw [hrevafter] at hin hinrev
  obtain ⟨late, hlate, hlatele, -⟩ := earliest_of_mem hin
  obtain ⟨early, hearly, -, first, hfirst, hfirstrev, hfirstat⟩ := earliest_of_mem hbefore
  rw [hinrev] at hlate
  rw [hrevbefore] at hearly hfirstrev
  have hcheck := List.any_eq_false.1 hinv _ hin
  rw [hinrev, hlate, if_neg (Nat.succ_ne_zero rev), Nat.succ_sub_one, hearly] at hcheck
  have hle : early ≤ late := by simpa using hcheck
  obtain ⟨-, -, hlink⟩ := link_earliest hsorted hfirst
  rw [hfirstrev, hfirstat] at hlink
  exact hlink.trans (hle.trans hlatele)

end

end Cctally.FiveHour
