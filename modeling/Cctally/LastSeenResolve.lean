import Cctally.LastSeenJoin

/-!
# Last seen, folded in pieces

Partial states are observed into and merged in any shape and any order. What they resolve
to is, for each account, the latest time of the records that contribute to it.
-/

namespace Cctally.SegmentSummaries.LastSeen

open Maxima (bot raise bot_eq_coe bot_inj)

def resolve (s : LastSeen) (cutoverClaude unattributed : String) : Dict String String :=
  let out := match s.legacyClaudeAt with
    | none => s.stamped
    | some at_ => raise s.stamped cutoverClaude at_
  match s.legacyCodexAt with
  | none => out
  | some at_ => raise out unattributed at_

inductive Assembly (R : Type)
  | empty
  | observe (state : Assembly R) (records : List R)
  | merge (state other : Assembly R)

section
variable {R : Type}

def Assembly.records : Assembly R → List R
  | .empty => []
  | .observe state records => state.records ++ records
  | .merge state other => state.records ++ other.records

variable (d : Decoder R)

def Assembly.eval : Assembly R → LastSeen
  | .empty => LastSeen.empty
  | .observe state records => records.foldl (fun s r => s.observe d r) state.eval
  | .merge state other =>
    state.eval.merge other.eval.stamped other.eval.legacyClaudeAt other.eval.legacyCodexAt

theorem Proper.merge {s : LastSeen} (h : Proper s) (stamped : Dict String String) (claude codex : Option String) :
    Proper (s.merge stamped claude codex) := by
  have htake : ∀ (entries : List (String × String)) {t : LastSeen}, Proper t → Proper (entries.foldl take t) := by
    intro entries
    induction entries with
    | nil => exact fun ht => ht
    | cons p entries ih =>
      refine fun {t} ht => ih ?_
      rw [take]
      split
      next hp => exact ht.bump hp.1 hp.2
      next => exact ht
  exact htake stamped.entries h

theorem Assembly.proper : ∀ a : Assembly R, Proper (a.eval d)
  | .empty => proper_empty
  | .observe state records => proper_foldl d records state.proper
  | .merge state _ => state.proper.merge _ _ _

theorem Assembly.seen_eval : ∀ a : Assembly R,
    (a.eval d).seen = (a.records.foldl (fun s r => s.observe d r) LastSeen.empty).seen
  | .empty => rfl
  | .observe state records => by
    rw [Assembly.records, (observes d).append, ← state.seen_eval]
    exact (observes d).foldl _ _
  | .merge state other => by
    rw [Assembly.records, (observes d).append, ← state.seen_eval, ← other.seen_eval]
    show ((state.eval d).merge _ _ _).seen = _
    rw [seen_merge, (other.proper d).merge_empty]

/-! ## Resolving -/

variable (cutoverClaude unattributed key : String)

def resolved (view : Slot → WithBot String) : WithBot String :=
  view (.account key) ⊔ (if cutoverClaude = key then view (.legacy .claude) else ⊥) ⊔
    if unattributed = key then view (.legacy .codex) else ⊥

theorem bot_raise (stamped : Dict String String) (account : String) (at_ : String) :
    bot ((raise stamped account at_).get? key) = bot (stamped.get? key) ⊔ if account = key then (at_ : WithBot String) else ⊥ :=
  Maxima.held_raise stamped account at_ key

theorem bot_resolve (s : LastSeen) :
    bot ((s.resolve cutoverClaude unattributed).get? key) = resolved cutoverClaude unattributed key s.seen := by
  have hraise : ∀ (stamped : Dict String String) (account : String) (at_ : Option String),
      bot ((match at_ with
        | none => stamped
        | some at_ => raise stamped account at_).get? key) =
        bot (stamped.get? key) ⊔ if account = key then bot at_ else ⊥ := by
    intro stamped account at_
    cases at_ with
    | none => exact (sup_eq_left.2 (by split <;> exact bot_le)).symm
    | some at_ => exact bot_raise key stamped account at_
  rw [resolve, hraise, hraise]
  rfl

theorem resolved_bot : resolved cutoverClaude unattributed key ⊥ = ⊥ := by
  rw [resolved]
  split <;> split <;> simp

theorem resolved_sup (a b : Slot → WithBot String) :
    resolved cutoverClaude unattributed key (a ⊔ b) =
      resolved cutoverClaude unattributed key a ⊔ resolved cutoverClaude unattributed key b := by
  rw [resolved, resolved, resolved]
  split <;> split <;> simp only [Pi.sup_apply, sup_bot_eq] <;> ac_rfl

def contribution (r : R) : Option (String × String) :=
  (text (d.at_ r)).bind fun at_ =>
    match text (d.account r) with
    | some account => some (account, at_)
    | none =>
      if d.t r = "op" then
        if d.payloadKind r = some "account_observe" then (text (d.payloadAccountKey r)).map (·, at_) else none
      else if d.t r = "obs" then
        (d.providerOfLegacy r).map fun
          | .claude => (cutoverClaude, at_)
          | .codex => (unattributed, at_)
      else none

def timeFor (r : R) : Option String :=
  (contribution d cutoverClaude unattributed r).bind fun p => if p.1 = key then some p.2 else none

variable {d cutoverClaude unattributed key} in
theorem timeFor_eq_some {r : R} {at_ : String} : timeFor d cutoverClaude unattributed key r = some at_ ↔
    contribution d cutoverClaude unattributed r = some (key, at_) := by
  rw [timeFor, Option.bind_eq_some_iff]
  constructor
  · rintro ⟨p, hp, hsome⟩
    split at hsome
    next hkey =>
      obtain rfl := Option.some.inj hsome
      rw [hp, ← hkey]
    next => cases hsome
  · exact fun h => ⟨(key, at_), h, if_pos rfl⟩

theorem resolved_observe (r : R) : resolved cutoverClaude unattributed key (LastSeen.empty.observe d r).seen =
    bot (timeFor d cutoverClaude unattributed key r) := by
  have hnone : resolved cutoverClaude unattributed key LastSeen.empty.seen = bot none := by
    rw [seen_empty, resolved_bot]
    rfl
  have hstamp : ∀ account at_ : String, resolved cutoverClaude unattributed key (LastSeen.empty.bump account at_).seen =
      bot (if account = key then some at_ else none) := by
    intro account at_
    rw [← bot_resolve]
    show bot ((raise Dict.empty account at_).get? key) = _
    rw [bot_raise]
    split <;> exact bot_sup_eq _
  rw [timeFor, contribution, observe]
  cases text (d.at_ r) with
  | none => exact hnone
  | some at_ =>
    cases text (d.account r) with
    | some account => exact hstamp account at_
    | none =>
      by_cases hop : d.t r = "op"
      · simp only [if_pos hop]
        by_cases hkind : d.payloadKind r = some "account_observe"
        · simp only [if_pos hkind]
          cases text (d.payloadAccountKey r) with
          | none => exact hnone
          | some account => exact hstamp account at_
        · simp only [if_neg hkind]
          cases text (d.payloadAccountKey r) with
          | none => exact hnone
          | some account => exact hnone
      · simp only [if_neg hop]
        by_cases hobs : d.t r = "obs"
        · simp only [if_pos hobs]
          -- a legacy bucket is resolved to the key it stands for
          rcases d.providerOfLegacy r with _ | _ | _
          · exact hnone
          · show ⊥ ⊔ (if cutoverClaude = key then (at_ : WithBot String) else ⊥) ⊔ (if unattributed = key then ⊥ else ⊥) =
              bot (if cutoverClaude = key then some at_ else none)
            rw [ite_self, sup_bot_eq, bot_sup_eq]
            split <;> rfl
          · show ⊥ ⊔ (if cutoverClaude = key then ⊥ else ⊥) ⊔ (if unattributed = key then (at_ : WithBot String) else ⊥) =
              bot (if unattributed = key then some at_ else none)
            rw [ite_self, bot_sup_eq, bot_sup_eq]
            split <;> rfl
        · simp only [if_neg hobs]
          exact hnone

theorem joins_resolved : Maxima.Joins (resolved cutoverClaude unattributed key ∘ seen) LastSeen.empty fun s r => s.observe d r :=
  (observes d).comp (resolved_bot _ _ _) (resolved_sup _ _ _)

/-- **Last seen is folded in any pieces and in any order**: it resolves to what one pass does,
and that is the latest time of each account. -/
theorem resolve_homomorphic (records : List R) (cutoverClaude unattributed : String) :
    (∀ a : Assembly R, a.records.Perm records → ∀ key, ((a.eval d).resolve cutoverClaude unattributed).get? key =
      ((records.foldl (fun s r => s.observe d r) LastSeen.empty).resolve cutoverClaude unattributed).get? key) ∧
    ∀ key m, ((records.foldl (fun s r => s.observe d r) LastSeen.empty).resolve cutoverClaude unattributed).get? key =
      some m ↔ IsGreatest {at_ | ∃ r ∈ records, contribution d cutoverClaude unattributed r = some (key, at_)} m := by
  refine ⟨fun a ha key => ?_, fun key m => ?_⟩
  · rw [← bot_inj, bot_resolve, bot_resolve, a.seen_eval, (observes d).perm ha]
  · rw [← bot_eq_coe, bot_resolve]
    have hgreatest := (joins_resolved d cutoverClaude unattributed key).isGreatest
      (resolved_observe d cutoverClaude unattributed key) records m
    have hset : {at_ | ∃ r ∈ records, timeFor d cutoverClaude unattributed key r = some at_} =
        {at_ | ∃ r ∈ records, contribution d cutoverClaude unattributed r = some (key, at_)} := by
      ext at_
      exact exists_congr fun r => and_congr_right fun _ => timeFor_eq_some
    rwa [hset] at hgreatest

end

end Cctally.SegmentSummaries.LastSeen
