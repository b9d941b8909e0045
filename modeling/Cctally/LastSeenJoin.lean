import Cctally.SegmentSummaries

/-!
# Last seen is a join

An accumulator holds for each account, and for each provider's unstamped records, the
latest time. Observing a record and merging a partial both join to that, so a segment's
contribution is the same wherever it is merged.
-/

namespace Cctally.SegmentSummaries.LastSeen

open Maxima (bot held later raise bot_later held_raise held_foldl_raise)

export Maxima (Joins)

inductive Slot
  | account (key : String)
  | legacy (provider : Provider)

def seen (s : LastSeen) : Slot → WithBot String
  | .account key => held s.stamped key
  | .legacy .claude => bot s.legacyClaudeAt
  | .legacy .codex => bot s.legacyCodexAt

section
variable (s : LastSeen)

theorem seen_empty : empty.seen = ⊥ := by
  funext slot
  rcases slot with key | (_ | _) <;> rfl

theorem seen_bump (key at_ : String) : (s.bump key at_).seen = s.seen ⊔ (empty.bump key at_).seen := by
  funext slot
  rcases slot with k | (_ | _)
  · show held (raise s.stamped key at_) k = held s.stamped k ⊔ held (raise Dict.empty key at_) k
    have hempty : held (Dict.empty : Dict String String) k = ⊥ := rfl
    rw [held_raise, held_raise, hempty, bot_sup_eq]
  · exact (sup_bot_eq _).symm
  · exact (sup_bot_eq _).symm

theorem seen_claude (at_ : String) :
    seen { s with legacyClaudeAt := later s.legacyClaudeAt at_ } =
      s.seen ⊔ seen { empty with legacyClaudeAt := later none at_ } := by
  funext slot
  rcases slot with k | (_ | _)
  · exact (sup_bot_eq _).symm
  · exact bot_later s.legacyClaudeAt at_
  · exact (sup_bot_eq _).symm

theorem seen_codex (at_ : String) :
    seen { s with legacyCodexAt := later s.legacyCodexAt at_ } =
      s.seen ⊔ seen { empty with legacyCodexAt := later none at_ } := by
  funext slot
  rcases slot with k | (_ | _)
  · exact (sup_bot_eq _).symm
  · exact (sup_bot_eq _).symm
  · exact bot_later s.legacyCodexAt at_

theorem seen_observe {R : Type} (d : Decoder R) (r : R) : (s.observe d r).seen = s.seen ⊔ (empty.observe d r).seen := by
  have hsame : s.seen = s.seen ⊔ empty.seen := by rw [seen_empty, sup_bot_eq]
  unfold observe
  cases text (d.at_ r) with
  | none => exact hsame
  | some at_ =>
    cases text (d.account r) with
    | some account => exact seen_bump s account at_
    | none =>
      by_cases hop : d.t r = "op"
      · simp only [if_pos hop]
        cases text (d.payloadAccountKey r) with
        | none => exact hsame
        | some key =>
          by_cases hkind : d.payloadKind r = some "account_observe"
          · simp only [if_pos hkind]
            exact seen_bump s key at_
          · simp only [if_neg hkind]
            exact hsame
      · simp only [if_neg hop]
        by_cases hobs : d.t r = "obs"
        · simp only [if_pos hobs]
          rcases d.providerOfLegacy r with _ | _ | _
          · exact hsame
          · exact seen_claude s at_
          · exact seen_codex s at_
        · simp only [if_neg hobs]
          exact hsame

theorem observes {R : Type} (d : Decoder R) : Joins seen empty fun s r => s.observe d r :=
  ⟨seen_empty, fun s r => seen_observe s d r⟩

def take (s : LastSeen) (p : String × String) : LastSeen := if p.1 ≠ "" ∧ p.2 ≠ "" then s.bump p.1 p.2 else s

theorem takes : Joins seen empty take := by
  refine ⟨seen_empty, fun s p => ?_⟩
  by_cases h : p.1 ≠ "" ∧ p.2 ≠ ""
  · rw [take, take, if_pos h, if_pos h]
    exact seen_bump s p.1 p.2
  · rw [take, take, if_neg h, if_neg h, seen_empty, sup_bot_eq]

theorem foldl_take (entries : List (String × String)) :
    (entries.foldl take s).legacyClaudeAt = s.legacyClaudeAt ∧ (entries.foldl take s).legacyCodexAt = s.legacyCodexAt := by
  induction entries generalizing s with
  | nil => exact ⟨rfl, rfl⟩
  | cons p entries ih =>
    have hstep : (s.take p).legacyClaudeAt = s.legacyClaudeAt ∧ (s.take p).legacyCodexAt = s.legacyCodexAt := by
      rw [take]
      split
      next => exact ⟨rfl, rfl⟩
      next => exact ⟨rfl, rfl⟩
    rw [List.foldl_cons]
    exact ⟨(ih _).1.trans hstep.1, (ih _).2.trans hstep.2⟩

theorem bot_mergeAt (previous at_ : Option String) : bot (mergeAt previous at_) = bot previous ⊔ bot at_ := by
  cases at_ with
  | none => exact (sup_bot_eq _).symm
  | some at_ => exact bot_later previous at_

theorem seen_merge (stamped : Dict String String) (claude codex : Option String) :
    (s.merge stamped claude codex).seen = s.seen ⊔ (empty.merge stamped claude codex).seen := by
  have hentries := takes.foldl s stamped.entries
  have hs := foldl_take s stamped.entries
  have hempty := foldl_take empty stamped.entries
  funext slot
  rcases slot with k | (_ | _)
  · exact congrFun hentries (.account k)
  · show bot (mergeAt (stamped.entries.foldl take s).legacyClaudeAt claude) =
      bot s.legacyClaudeAt ⊔ bot (mergeAt (stamped.entries.foldl take empty).legacyClaudeAt claude)
    rw [hs.1, hempty.1, bot_mergeAt, bot_mergeAt]
    exact congrArg _ (bot_sup_eq _).symm
  · show bot (mergeAt (stamped.entries.foldl take s).legacyCodexAt codex) =
      bot s.legacyCodexAt ⊔ bot (mergeAt (stamped.entries.foldl take empty).legacyCodexAt codex)
    rw [hs.2, hempty.2, bot_mergeAt, bot_mergeAt]
    exact congrArg _ (bot_sup_eq _).symm

def Proper (s : LastSeen) : Prop := ∀ key at_, s.stamped.get? key = some at_ → key ≠ "" ∧ at_ ≠ ""

variable {s}

theorem ne_of_text {value : Option String} {v : String} (h : text value = some v) : v ≠ "" := by
  cases value with
  | none => cases h
  | some w =>
    rw [text, Option.filter_eq_some_iff] at h
    exact of_decide_eq_true h.2

theorem Proper.bump (h : Proper s) {key at_ : String} (hkey : key ≠ "") (hat : at_ ≠ "") : Proper (s.bump key at_) := by
  intro k a hget
  have hget' : (raise s.stamped key at_).get? k = some a := hget
  rw [Maxima.get?_raise] at hget'
  split at hget'
  next heq =>
    subst heq
    refine ⟨hkey, ?_⟩
    rcases Maxima.later_eq_some hget' with rfl | hprev
    · exact hat
    · exact (h _ _ hprev).2
  next => exact h k a hget'

theorem Proper.observe {R : Type} {d : Decoder R} (h : Proper s) (r : R) : Proper (s.observe d r) := by
  unfold LastSeen.observe
  cases hat : text (d.at_ r) with
  | none => exact h
  | some at_ =>
    cases haccount : text (d.account r) with
    | some account => exact h.bump (ne_of_text haccount) (ne_of_text hat)
    | none =>
      simp only
      split
      next =>
        cases hkey : text (d.payloadAccountKey r) with
        | none => exact h
        | some key =>
          simp only
          split
          next => exact h.bump (ne_of_text hkey) (ne_of_text hat)
          next => exact h
      next =>
        split
        next =>
          rcases d.providerOfLegacy r with _ | _ | _
          · exact h
          · exact h
          · exact h
        next => exact h

theorem proper_foldl {R : Type} (d : Decoder R) (records : List R) (h : Proper s) :
    Proper (records.foldl (fun s r => s.observe d r) s) := by
  induction records generalizing s with
  | nil => exact h
  | cons r records ih => exact ih (h.observe r)

theorem proper_empty : Proper empty := fun _ _ h => nomatch h

theorem foldl_take_stamped {entries : List (String × String)} (h : ∀ p ∈ entries, p.1 ≠ "" ∧ p.2 ≠ "") (t : LastSeen) :
    (entries.foldl take t).stamped = entries.foldl (fun d p => raise d p.1 p.2) t.stamped := by
  induction entries generalizing t with
  | nil => rfl
  | cons p entries ih =>
    have hstep : t.take p = t.bump p.1 p.2 := if_pos (h p List.mem_cons_self)
    rw [List.foldl_cons, List.foldl_cons, ih (fun q hq => h q (List.mem_cons_of_mem _ hq)), hstep]
    rfl

theorem Proper.merge_empty (h : Proper s) : (empty.merge s.stamped s.legacyClaudeAt s.legacyCodexAt).seen = s.seen := by
  have hentries : ∀ p ∈ s.stamped.entries, p.1 ≠ "" ∧ p.2 ≠ "" := fun p hp => h p.1 p.2 (Dict.get?_eq_some.2 hp)
  have hkept := foldl_take empty s.stamped.entries
  funext slot
  rcases slot with k | (_ | _)
  · show held (s.stamped.entries.foldl take empty).stamped k = bot (Dict.find k s.stamped.entries)
    rw [foldl_take_stamped hentries, held_foldl_raise _ _ _ s.stamped.nodup]
    exact bot_sup_eq _
  · show bot (mergeAt (s.stamped.entries.foldl take empty).legacyClaudeAt s.legacyClaudeAt) = bot s.legacyClaudeAt
    rw [hkept.1, bot_mergeAt]
    exact bot_sup_eq _
  · show bot (mergeAt (s.stamped.entries.foldl take empty).legacyCodexAt s.legacyCodexAt) = bot s.legacyCodexAt
    rw [hkept.2, bot_mergeAt]
    exact bot_sup_eq _

theorem merge_foldl {R : Type} (d : Decoder R) (records : List R) (t : LastSeen) :
    let p := records.foldl (fun s r => s.observe d r) empty
    (t.merge p.stamped p.legacyClaudeAt p.legacyCodexAt).seen = (records.foldl (fun s r => s.observe d r) t).seen := by
  intro p
  rw [seen_merge, (proper_foldl d records proper_empty).merge_empty, (observes d).foldl t]

end

end Cctally.SegmentSummaries.LastSeen
