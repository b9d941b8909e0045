import Mathlib.Data.Finset.Card
import Mathlib.Algebra.BigOperators.Group.Finset.Basic
import Mathlib.Logic.Relation

/-!
# Searching a finite graph

A stack of nodes to visit and the set of nodes seen. A node that was seen, or that
the search stops at, is dropped; any other is seen and its successors are pushed. The
search ends with the nodes that a path reaches without meeting a stop.
-/

namespace Cctally.Reach

variable {α : Type*}

def Step (next : α → List α) (stop : α → Bool) (a b : α) : Prop := b ∈ next a ∧ stop b = false

abbrev Path (next : α → List α) (stop : α → Bool) : α → α → Prop := Relation.ReflTransGen (Step next stop)

section
variable [DecidableEq α] (known : Finset α) (next : α → List α) (hnext : ∀ a, ∀ b ∈ next a, b ∈ known) (stop : α → Bool)

def left (queue : List α) (seen : Finset α) : Nat := queue.length + ∑ n ∈ known \ seen, (next n).length

theorem left_insert {c : α} {queue : List α} {seen : Finset α} (hc : c ∈ known) (hs : c ∉ seen) :
    left known next ((next c).reverse ++ queue) (insert c seen) < left known next (c :: queue) seen := by
  have hsplit : known \ seen = insert c (known \ insert c seen) := by
    ext x
    by_cases hx : x = c
    · subst hx; simp [hc, hs]
    · simp [hx]
  have hnot : c ∉ known \ insert c seen := by simp
  rw [left, left, hsplit, Finset.sum_insert hnot]
  simp only [List.length_append, List.length_reverse, List.length_cons]
  omega

def search (queue : List α) (hq : ∀ c ∈ queue, c ∈ known) (seen : Finset α) : Finset α :=
  match queue with
  | [] => seen
  | c :: queue =>
    if c ∈ seen ∨ stop c = true then search queue (fun d hd => hq d (List.mem_cons_of_mem c hd)) seen
    else
      search ((next c).reverse ++ queue)
        (fun d hd => (List.mem_append.1 hd).elim (fun h => hnext c d (List.mem_reverse.1 h))
          (fun h => hq d (List.mem_cons_of_mem c h)))
        (insert c seen)
termination_by left known next queue seen
decreasing_by
  · simp only [left, List.length_cons]
    omega
  · rename_i h
    exact left_insert known next (hq c List.mem_cons_self) (fun hs => h (.inl hs))

variable {known next hnext stop}

def Pending (next : α → List α) (stop : α → Bool) (queue : List α) (seen : Finset α) : Prop :=
  ∀ a ∈ seen, ∀ b ∈ next a, b ∈ seen ∨ stop b = true ∨ b ∈ queue

omit [DecidableEq α] in
theorem Pending.drop {c : α} {queue : List α} {seen : Finset α} (h : Pending next stop (c :: queue) seen)
    (hc : c ∈ seen ∨ stop c = true) : Pending next stop queue seen := by
  intro a ha b hb
  obtain hs | hs | hs := h a ha b hb
  · exact .inl hs
  · exact .inr (.inl hs)
  · obtain rfl | hs := List.mem_cons.1 hs
    · exact hc.imp_right .inl
    · exact .inr (.inr hs)

theorem Pending.visit {c : α} {queue : List α} {seen : Finset α} (h : Pending next stop (c :: queue) seen) :
    Pending next stop ((next c).reverse ++ queue) (insert c seen) := by
  intro a ha b hb
  obtain rfl | ha := Finset.mem_insert.1 ha
  · exact .inr (.inr (List.mem_append_left _ (List.mem_reverse.2 hb)))
  · obtain hs | hs | hs := h a ha b hb
    · exact .inl (Finset.mem_insert_of_mem hs)
    · exact .inr (.inl hs)
    · obtain rfl | hs := List.mem_cons.1 hs
      · exact .inl (Finset.mem_insert_self b seen)
      · exact .inr (.inr (List.mem_append_right _ hs))

/-- **The nodes that a path reaches**, from a node seen or from one on the stack that is no stop. -/
theorem mem_search (x : α) (queue : List α) (hq : ∀ c ∈ queue, c ∈ known) (seen : Finset α)
    (h : Pending next stop queue seen) :
    x ∈ search known next hnext stop queue hq seen ↔
      ∃ a, (a ∈ seen ∨ (a ∈ queue ∧ stop a = false)) ∧ Path next stop a x := by
  fun_induction search known next hnext stop queue hq seen with
  | case1 seen hq =>
    constructor
    · exact fun hx => ⟨x, .inl hx, .refl⟩
    · rintro ⟨a, ha | ⟨ha, -⟩, hp⟩
      · induction hp with
        | refl => exact ha
        | tail _ hs ih =>
          obtain hb | hb | hb := h _ ih _ hs.1
          · exact hb
          · rw [hs.2] at hb; cases hb
          · cases hb
      · cases ha
  | case2 seen c queue _ hc _ ih =>
    rw [ih (h.drop hc)]
    constructor
    · rintro ⟨a, ha, hp⟩
      exact ⟨a, ha.imp_right fun ha => ⟨List.mem_cons_of_mem c ha.1, ha.2⟩, hp⟩
    · rintro ⟨a, ha | ⟨ha, hs⟩, hp⟩
      · exact ⟨a, .inl ha, hp⟩
      · obtain rfl | ha := List.mem_cons.1 ha
        · obtain hc | hc := hc
          · exact ⟨a, .inl hc, hp⟩
          · rw [hs] at hc; cases hc
        · exact ⟨a, .inr ⟨ha, hs⟩, hp⟩
  | case3 seen c queue _ hc _ ih =>
    rw [not_or, Bool.not_eq_true] at hc
    rw [ih h.visit]
    constructor
    · rintro ⟨a, ha | ⟨ha, hs⟩, hp⟩
      · obtain rfl | ha := Finset.mem_insert.1 ha
        · exact ⟨a, .inr ⟨List.mem_cons_self, hc.2⟩, hp⟩
        · exact ⟨a, .inl ha, hp⟩
      · obtain ha | ha := List.mem_append.1 ha
        · exact ⟨c, .inr ⟨List.mem_cons_self, hc.2⟩, .head ⟨List.mem_reverse.1 ha, hs⟩ hp⟩
        · exact ⟨a, .inr ⟨List.mem_cons_of_mem c ha, hs⟩, hp⟩
    · rintro ⟨a, ha | ⟨ha, hs⟩, hp⟩
      · exact ⟨a, .inl (Finset.mem_insert_of_mem ha), hp⟩
      · obtain rfl | ha := List.mem_cons.1 ha
        · exact ⟨a, .inl (Finset.mem_insert_self a seen), hp⟩
        · exact ⟨a, .inr ⟨List.mem_append_right _ ha, hs⟩, hp⟩

variable (known next hnext stop)

def walk (queue : List α) (hq : ∀ c ∈ queue, c ∈ known) (order : List α) : List α :=
  match queue with
  | [] => order
  | c :: queue =>
    if c ∈ order ∨ stop c = true then walk queue (fun d hd => hq d (List.mem_cons_of_mem c hd)) order
    else
      walk ((next c).reverse ++ queue)
        (fun d hd => (List.mem_append.1 hd).elim (fun h => hnext c d (List.mem_reverse.1 h))
          (fun h => hq d (List.mem_cons_of_mem c h)))
        (order ++ [c])
termination_by left known next queue order.toFinset
decreasing_by
  · simp only [left, List.length_cons]
    omega
  · rename_i h
    rw [show (order ++ [c]).toFinset = insert c order.toFinset by ext x; simp]
    exact left_insert known next (hq c List.mem_cons_self) (fun hs => h (.inl (List.mem_toFinset.1 hs)))

variable {known next hnext stop}

theorem toFinset_walk (queue : List α) (hq : ∀ c ∈ queue, c ∈ known) (order : List α) :
    (walk known next hnext stop queue hq order).toFinset = search known next hnext stop queue hq order.toFinset := by
  fun_induction walk known next hnext stop queue hq order with
  | case1 order hq => rw [search]
  | case2 order c queue _ hc _ ih => rw [ih, search, if_pos (by rwa [List.mem_toFinset])]
  | case3 order c queue _ hc _ ih =>
    rw [ih, search.eq_2, if_neg (by rwa [List.mem_toFinset])]
    congr 1
    ext x
    simp

theorem nodup_walk (queue : List α) (hq : ∀ c ∈ queue, c ∈ known) (order : List α) (h : order.Nodup) :
    (walk known next hnext stop queue hq order).Nodup := by
  fun_induction walk known next hnext stop queue hq order with
  | case1 order hq => exact h
  | case2 order c queue _ hc _ ih => exact ih h
  | case3 order c queue _ hc _ ih =>
    refine ih (List.nodup_append.2 ⟨h, List.nodup_singleton c, fun a ha b hb => ?_⟩)
    rintro rfl
    rw [List.mem_singleton] at hb
    exact hc (.inl (hb ▸ ha))

theorem prefix_walk (queue : List α) (hq : ∀ c ∈ queue, c ∈ known) (order : List α) :
    order <+: walk known next hnext stop queue hq order := by
  fun_induction walk known next hnext stop queue hq order with
  | case1 order hq => exact List.prefix_rfl
  | case2 order c queue _ hc _ ih => exact ih
  | case3 order c queue _ hc _ ih => exact (List.prefix_append order [c]).trans ih

inductive Thin (dead : α → Prop) : List α → List α → Prop
  | nil : Thin dead [] []
  | same (c : α) {l l' : List α} (h : Thin dead l l') : Thin dead (c :: l) (c :: l')
  | skip {c : α} {l l' : List α} (hc : dead c) (h : Thin dead l l') : Thin dead (c :: l) l'

omit [DecidableEq α] in
theorem Thin.refl (dead : α → Prop) : ∀ l : List α, Thin dead l l
  | [] => .nil
  | c :: l => .same c (.refl dead l)

omit [DecidableEq α] in
theorem Thin.mono {dead dead' : α → Prop} (hd : ∀ a, dead a → dead' a) {l l' : List α} (h : Thin dead l l') :
    Thin dead' l l' := by
  induction h with
  | nil => exact .nil
  | same c _ ih => exact .same c ih
  | skip hc _ ih => exact .skip (hd _ hc) ih

omit [DecidableEq α] in
theorem Thin.append_same {dead : α → Prop} {l l' : List α} (h : Thin dead l l') : ∀ m : List α, Thin dead (m ++ l) (m ++ l')
  | [] => h
  | c :: m => .same c (h.append_same m)

omit [DecidableEq α] in
theorem Thin.append_skip {dead : α → Prop} {l l' : List α} (h : Thin dead l l') : ∀ m : List α, (∀ c ∈ m, dead c) →
    Thin dead (m ++ l) l'
  | [], _ => h
  | c :: m, hm => .skip (hm c List.mem_cons_self) (h.append_skip m fun d hd => hm d (List.mem_cons_of_mem c hd))

def Dead (keep stop : α → Bool) (order : List α) (b : α) : Prop := b ∈ order ∨ stop b = true ∨ keep b = false

section
variable {keep stop' : α → Bool} (base : List α)
  (hkept : ∀ a, keep a = true → stop a = false → ∀ b ∈ next a, stop' b = true ↔ stop b = true ∨ keep b = false)
  (hleft : ∀ a, keep a = false → stop a = false → ∀ b ∈ next a, Dead keep stop base b)
include hkept hleft

/-- **The walk that stops at more nodes** sees the kept ones in the same order, when what is not kept leads to none
that is. -/
theorem walk_filter (queue : List α) (hq : ∀ c ∈ queue, c ∈ known) (order : List α) (hbase : ∀ b ∈ base, b ∈ order)
    (queue' : List α) (hq' : ∀ c ∈ queue', c ∈ known)
    (hstop : ∀ b ∈ queue', stop' b = true ↔ stop b = true ∨ keep b = false)
    (hthin : Thin (Dead keep stop order) queue queue') :
    walk known next hnext stop' queue' hq' (order.filter keep) =
      (walk known next hnext stop queue hq order).filter keep := by
  fun_induction walk known next hnext stop queue hq order generalizing queue' with
  | case1 order hq =>
    cases hthin
    rw [walk]
  | case2 order c queue _ hc _ ih =>
    cases hthin with
    | skip _ hthin => exact ih hbase queue' hq' hstop hthin
    | same _ hthin =>
      rw [walk, if_pos]
      · exact ih hbase _ _ (fun b hb => hstop b (List.mem_cons_of_mem c hb)) hthin
      · rw [hstop c List.mem_cons_self, List.mem_filter]
        by_cases hk : keep c
        · exact hc.imp (fun h => ⟨h, hk⟩) .inl
        · exact .inr (.inr (by simpa using hk))
  | case3 order c queue _ hc _ ih =>
    rw [not_or, Bool.not_eq_true] at hc
    have hmono : ∀ b, Dead keep stop order b → Dead keep stop (order ++ [c]) b :=
      fun b h => h.imp_left (List.mem_append_left _)
    have hbase' : ∀ b ∈ base, b ∈ order ++ [c] := fun b hb => List.mem_append_left _ (hbase b hb)
    by_cases hk : keep c = true
    · cases hthin with
      | skip hdead _ => simp [Dead, hc.1, hc.2, hk] at hdead
      | @same _ _ queue' hthin =>
        have hno : ¬ (c ∈ order.filter keep ∨ stop' c = true) := by
          rw [hstop c List.mem_cons_self, List.mem_filter]
          simp [hc.1, hc.2, hk]
        rw [walk.eq_2, if_neg hno]
        have hkeep : order.filter keep ++ [c] = (order ++ [c]).filter keep := by simp [hk]
        simp only [hkeep]
        refine ih hbase' _ _ (fun b hb => ?_) ((hthin.mono hmono).append_same _)
        obtain hb | hb := List.mem_append.1 hb
        · exact hkept c hk hc.2 b (List.mem_reverse.1 hb)
        · exact hstop b (List.mem_cons_of_mem c hb)
    · have hk' : keep c = false := by simpa using hk
      have hkeep : order.filter keep = (order ++ [c]).filter keep := by simp [hk]
      have hpushed : ∀ d ∈ (next c).reverse, Dead keep stop (order ++ [c]) d := fun d hd =>
        (hleft c hk' hc.2 d (List.mem_reverse.1 hd)).imp_left (hbase' d)
      cases hthin with
      | skip _ hthin =>
        rw [hkeep]
        exact ih hbase' queue' hq' hstop ((hthin.mono hmono).append_skip _ hpushed)
      | @same _ _ queue' hthin =>
        rw [walk.eq_2, if_pos (.inr ((hstop c List.mem_cons_self).2 (.inr hk'))), hkeep]
        exact ih hbase' _ _ (fun b hb => hstop b (List.mem_cons_of_mem c hb)) ((hthin.mono hmono).append_skip _ hpushed)

end

end

end Cctally.Reach
