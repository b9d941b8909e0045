import Cctally.CodexGap

/-!
# Cumulative totals of a rollout

Producers repeat their token counts and restart their counters. An accepted
cumulative total exceeds the accepted one before it, or begins a generation
behind a lifecycle record; a total that is repeated before that is left out.
-/

namespace Cctally.CodexIter

open Json (field)

section
variable (env : Env) (path : String) (sourceRootKey : Option String)

def infoOf (obj : Json.Fields) : Json.Fields := dictOrEmpty (field (dictOrEmpty (field obj "payload")) "info")

def cumulativeOf (obj : Json.Fields) : Option Int :=
  match field (infoOf obj) "total_token_usage" with
  | .obj usage => some (intOrZero env (field usage "total_tokens"))
  | _ => none

def lastTurnTotal (obj : Json.Fields) : Int :=
  intOrZero env (field (dictOrEmpty (field (infoOf obj) "last_token_usage")) "total_tokens")

abbrev Row := Json.Fields × Option CodexEntry

def accepted (hist : List Row) : List CodexEntry := hist.filterMap Prod.snd

def fuse : List (Nat × Json.Fields) → CodexIterState × Locals → Option (List Row × (CodexIterState × Locals))
  | [], s => some ([], s)
  | (offset, obj) :: objs, s =>
    match record env path sourceRootKey offset obj s.1 s.2 with
    | (s, .ok e) => (fuse objs s).map fun r => ((obj, e.accounting) :: r.1, r.2)
    | (_, .error _) => none

def fileStart (sessionId model : Option String) : CodexIterState × Locals :=
  start ⟨sessionId, model, 0⟩ (.fresh, ⟨0, false⟩)

def totals (hist : List Row) : List Int :=
  hist.filterMap fun row => if row.2.isSome then cumulativeOf env row.1 else none

def lastTotal (hist : List Row) : Int := (totals env hist).getLast?.getD 0

def Restart (hist : List Row) (row : Row) : Prop :=
  row.2.isSome = true ∧ ∃ c, cumulativeOf env row.1 = some c ∧ c ≤ lastTotal env hist

def NoRestart (hist rows : List Row) : Prop := ∀ p row q, rows = p ++ row :: q → ¬ Restart env (hist ++ p) row

end

def LifecycleSince (hist : List Row) : Prop :=
  ∃ p q, hist = p ++ q ∧ (∀ row ∈ q, row.2 = none) ∧ ∃ row ∈ q, lifecycle row.1 = true

section
variable {env : Env} {path : String} {sourceRootKey : Option String}

theorem accepted_append (a b : List Row) : accepted (a ++ b) = accepted a ++ accepted b := List.filterMap_append ..

theorem mem_accepted {hist : List Row} {e : CodexEntry} : e ∈ accepted hist ↔ ∃ obj, (obj, some e) ∈ hist := by
  simp [accepted, List.mem_filterMap]

theorem totals_append (a b : List Row) : totals env (a ++ b) = totals env a ++ totals env b :=
  List.filterMap_append ..

theorem lastTotal_snoc_none (hist : List Row) {row : Row} (h : row.2 = none ∨ cumulativeOf env row.1 = none) :
    lastTotal env (hist ++ [row]) = lastTotal env hist := by
  have hnil : totals env [row] = [] := by
    rcases h with h | h
    · simp [totals, h]
    · cases hs : row.2.isSome <;> simp [totals, hs, h]
  rw [lastTotal, totals_append, hnil, List.append_nil, lastTotal]

theorem lastTotal_snoc (hist : List Row) {row : Row} {c : Int} (hrow : row.2.isSome = true)
    (hc : cumulativeOf env row.1 = some c) : lastTotal env (hist ++ [row]) = c := by
  have hone : totals env [row] = [c] := by simp [totals, hrow, hc]
  rw [lastTotal, totals_append, hone, List.getLast?_concat, Option.getD_some]

theorem lastTotal_le : ∀ {rows hist : List Row}, NoRestart env hist rows →
    lastTotal env hist ≤ lastTotal env (hist ++ rows)
  | [], hist, _ => by rw [List.append_nil]
  | row :: rows, hist, h => by
    have hrest : NoRestart env (hist ++ [row]) rows := by
      intro p r q heq
      have := h (row :: p) r q (by rw [heq, List.cons_append])
      rwa [List.append_assoc, List.singleton_append]
    have hle := lastTotal_le hrest
    rw [List.append_assoc, List.singleton_append] at hle
    refine le_trans ?_ hle
    have hrow := h [] row rows rfl
    rw [List.append_nil] at hrow
    cases hs : row.2.isSome with
    | false => rw [lastTotal_snoc_none hist (Or.inl (Option.not_isSome_iff_eq_none.mp (by rw [hs]; nofun)))]
    | true =>
      cases hc : cumulativeOf env row.1 with
      | none => rw [lastTotal_snoc_none hist (Or.inr hc)]
      | some c =>
        rw [lastTotal_snoc hist hs hc]
        exact le_of_lt (not_le.mp fun hle => hrow ⟨hs, c, hc, hle⟩)

/-! ## One record -/

/-- A `token_count` with its usage, its instant and its cumulative total. -/
structure TokenCount (env : Env) (obj usage : Json.Fields) (timestamp : Int) : Prop where
  type : field obj "type" = .str "event_msg"
  payloadType : field (dictOrEmpty (field obj "payload")) "type" = .str "token_count"
  info : field (dictOrEmpty (field obj "payload")) "info" = .obj (infoOf obj)
  usage : field (infoOf obj) "last_token_usage" = .obj usage
  timestamp : parseCodexTimestamp env (field obj "timestamp") = some timestamp

theorem TokenCount.lastTurnTotal_eq {obj usage : Json.Fields} {timestamp : Int}
    (h : TokenCount env obj usage timestamp) :
    lastTurnTotal env obj = intOrZero env (field usage "total_tokens") := by
  rw [lastTurnTotal, h.usage]
  rfl

def weigh (env : Env) (path : String) (usage : Json.Fields) (timestamp lastUsageTotal : Int) (cumulative : Option Int)
    (state : CodexIterState) (locals : Locals) : Option CodexEntry × CodexIterState × Locals :=
  match cumulative with
  | some c =>
    if c ≤ locals.lastTotalTokens ∧ ¬startsGeneration state locals.lastTotalTokens c lastUsageTotal timestamp then
      (none, state, locals)
    else accept env path usage timestamp (some c) state locals
  | none => accept env path usage timestamp none state locals

theorem accounting_of_tokenCount {obj usage : Json.Fields} {timestamp : Int} (h : TokenCount env obj usage timestamp)
    (state : CodexIterState) (locals : Locals) :
    accountingFromRecord env path obj (dictOrEmpty (field obj "payload")) state locals =
      if state.model = none ∧ (state.thread.bind CodexThreadMetadata.parentThreadId).isSome = true then
        (none, state, locals)
      else weigh env path usage timestamp (lastTurnTotal env obj) (cumulativeOf env obj) state locals := by
  rw [h.lastTurnTotal_eq]
  unfold accountingFromRecord
  rw [if_neg (not_not.mpr ⟨h.type, h.payloadType⟩), h.info]
  simp only [h.usage, h.timestamp]
  split
  · rfl
  · rw [cumulativeOf]
    cases field (infoOf obj) "total_token_usage" <;> rfl

theorem accounting_otherwise {obj : Json.Fields} (h : ∀ usage timestamp, ¬TokenCount env obj usage timestamp)
    (state : CodexIterState) (locals : Locals) :
    (accountingFromRecord env path obj (dictOrEmpty (field obj "payload")) state locals).1 = none ∧
      (accountingFromRecord env path obj (dictOrEmpty (field obj "payload")) state locals).2.2 = locals ∧
      ((accountingFromRecord env path obj (dictOrEmpty (field obj "payload")) state locals).2.1 = state ∨
        ∃ reason, (accountingFromRecord env path obj (dictOrEmpty (field obj "payload")) state locals).2.1 =
          state.skip reason) := by
  unfold accountingFromRecord
  split
  · exact ⟨rfl, rfl, Or.inl rfl⟩
  · rename_i htype
    rw [not_not] at htype
    split
    · exact ⟨rfl, rfl, Or.inl rfl⟩
    · rename_i info hinfo
      have hinfo' : infoOf obj = info := by rw [infoOf, hinfo]; rfl
      split
      · rename_i usage husage
        split
        · exact ⟨rfl, rfl, Or.inl rfl⟩
        · split
          · exact ⟨rfl, rfl, Or.inr ⟨_, rfl⟩⟩
          · rename_i timestamp htime
            exact absurd ⟨htype.1, htype.2, by rw [hinfo', hinfo], by rw [hinfo', husage], htime⟩ (h usage timestamp)
      · exact ⟨rfl, rfl, Or.inr ⟨_, rfl⟩⟩
    · exact ⟨rfl, rfl, Or.inr ⟨_, rfl⟩⟩

theorem accept_none {usage : Json.Fields} {timestamp : Int} {cumulative : Option Int} {state : CodexIterState}
    {locals : Locals} (h : (accept env path usage timestamp cumulative state locals).1 = none) :
    (accept env path usage timestamp cumulative state locals).2.2 = locals ∧
      (accept env path usage timestamp cumulative state locals).2.1.lastAccountingTimestamp =
        state.lastAccountingTimestamp := by
  unfold accept at h ⊢
  cases hs : state.sessionId.or (env.filenameUuid path) with
  | none => exact ⟨rfl, rfl⟩
  | some sessionId => rw [hs] at h; cases h

theorem accept_some {usage : Json.Fields} {timestamp : Int} {cumulative : Option Int} {state : CodexIterState}
    {locals : Locals} {entry : CodexEntry} (h : (accept env path usage timestamp cumulative state locals).1 = some entry) :
    entry.timestamp = timestamp ∧
      (accept env path usage timestamp cumulative state locals).2.2.lastTotalTokens =
        cumulative.getD locals.lastTotalTokens ∧
      ∃ last, (accept env path usage timestamp cumulative state locals).2.1.lastAccountingTimestamp = some last ∧
        timestamp ≤ last ∧ ∀ t ∈ state.lastAccountingTimestamp, t ≤ last := by
  unfold accept at h ⊢
  cases hs : state.sessionId.or (env.filenameUuid path) with
  | none => rw [hs] at h; cases h
  | some sessionId =>
    rw [hs] at h
    cases h
    refine ⟨rfl, rfl, _, rfl, ?_⟩
    cases state.lastAccountingTimestamp with
    | none => exact ⟨le_rfl, nofun⟩
    | some t =>
      dsimp only
      split
      · rename_i hlt
        refine ⟨le_rfl, ?_⟩
        rintro _ ⟨⟩
        exact hlt.le
      · rename_i hle
        refine ⟨not_lt.mp hle, ?_⟩
        rintro _ ⟨⟩
        exact le_rfl

structure Step (env : Env) (row : Row) (s s' : CodexIterState × Locals) : Prop where
  rejected : row.2 = none → s'.2.lastTotalTokens = s.2.lastTotalTokens ∧
    s'.1.lastAccountingTimestamp = s.1.lastAccountingTimestamp
  accepted : ∀ entry, row.2 = some entry → (∃ usage, TokenCount env row.1 usage entry.timestamp) ∧
    s'.2.lastTotalTokens = (cumulativeOf env row.1).getD s.2.lastTotalTokens ∧
    (∀ c, cumulativeOf env row.1 = some c → s.2.lastTotalTokens < c ∨
      (s.1.generationTransitionPending = true ∧ c = lastTurnTotal env row.1 ∧
        ∃ last ∈ s.1.lastAccountingTimestamp, last < entry.timestamp)) ∧
    ∃ last, s'.1.lastAccountingTimestamp = some last ∧ entry.timestamp ≤ last ∧
      ∀ t ∈ s.1.lastAccountingTimestamp, t ≤ last
  pending : s'.1.generationTransitionPending =
    if row.2.isSome then false else s.1.generationTransitionPending || lifecycle row.1

theorem weigh_some {usage : Json.Fields} {timestamp lastUsageTotal : Int} {cumulative : Option Int}
    {state : CodexIterState} {locals : Locals} {entry : CodexEntry}
    (h : (weigh env path usage timestamp lastUsageTotal cumulative state locals).1 = some entry) :
    weigh env path usage timestamp lastUsageTotal cumulative state locals =
        accept env path usage timestamp cumulative state locals ∧
      ∀ c, cumulative = some c → locals.lastTotalTokens < c ∨
        startsGeneration state locals.lastTotalTokens c lastUsageTotal timestamp = true := by
  unfold weigh at h ⊢
  cases cumulative with
  | none => exact ⟨rfl, nofun⟩
  | some c =>
    dsimp only at h ⊢
    split at h
    · cases h
    · rename_i hpass
      rw [if_neg hpass]
      refine ⟨rfl, ?_⟩
      rintro _ ⟨⟩
      rcases lt_or_ge locals.lastTotalTokens c with hlt | hge
      · exact Or.inl hlt
      · exact Or.inr (by_contra fun hstarts => hpass ⟨hge, hstarts⟩)

theorem weigh_none {usage : Json.Fields} {timestamp lastUsageTotal : Int} {cumulative : Option Int}
    {state : CodexIterState} {locals : Locals}
    (h : (weigh env path usage timestamp lastUsageTotal cumulative state locals).1 = none) :
    (weigh env path usage timestamp lastUsageTotal cumulative state locals).2.2 = locals ∧
      (weigh env path usage timestamp lastUsageTotal cumulative state locals).2.1.lastAccountingTimestamp =
        state.lastAccountingTimestamp := by
  unfold weigh at h ⊢
  cases cumulative with
  | none => exact accept_none h
  | some c =>
    dsimp only at h ⊢
    split
    · exact ⟨rfl, rfl⟩
    · rename_i hpass
      rw [if_neg hpass] at h
      exact accept_none h

theorem observe_locals {obj payload : Json.Fields} {state : CodexIterState} :
    (observe env path sourceRootKey obj payload state).1.lastAccountingTimestamp = state.lastAccountingTimestamp := by
  unfold observe
  dsimp only
  split
  · split <;> rfl
  · split
    · rfl
    · split <;> rfl

theorem not_lifecycle {obj usage : Json.Fields} {timestamp : Int} (h : TokenCount env obj usage timestamp) :
    lifecycle obj = false := by
  simp [lifecycle, h.type, h.payloadType]

theorem record_step {offset : Nat} {obj : Json.Fields} {s s' : CodexIterState × Locals} {e : CodexFusedEmission}
    (h : record env path sourceRootKey offset obj s.1 s.2 = (s', .ok e)) : Step env (obj, e.accounting) s s' := by
  have hpending := record_pending h
  unfold record at h
  dsimp only at h
  split at h
  · cases h
  · rename_i state thread hobserve
    have hmark := observe_pending hobserve
    have htime : state.lastAccountingTimestamp = s.1.lastAccountingTimestamp := by
      have := @observe_locals env path sourceRootKey obj (dictOrEmpty (field obj "payload")) s.1
      rwa [hobserve] at this
    split at h
    · cases h
    · split at h
      · cases h
      · cases h
        by_cases hcount : ∃ usage timestamp, TokenCount env obj usage timestamp
        · obtain ⟨usage, timestamp, hcount⟩ := hcount
          rw [not_lifecycle hcount, Bool.or_false] at hmark
          refine ⟨fun hnone => ?_, fun entry hsome => ?_, hpending⟩
          · dsimp only at hnone ⊢
            rw [accounting_of_tokenCount hcount] at hnone ⊢
            split
            · exact ⟨rfl, htime⟩
            · rename_i hmodel
              rw [if_neg hmodel] at hnone
              obtain ⟨hl, ht⟩ := weigh_none hnone
              exact ⟨by rw [hl], by rw [ht, htime]⟩
          · dsimp only at hsome ⊢
            rw [accounting_of_tokenCount hcount] at hsome ⊢
            split at hsome
            · cases hsome
            · rename_i hmodel
              rw [if_neg hmodel]
              obtain ⟨heq, hrise⟩ := weigh_some hsome
              rw [heq] at hsome ⊢
              obtain ⟨hstamp, hlast, last, hlatest, hle, hmax⟩ := accept_some hsome
              refine ⟨⟨usage, hstamp ▸ hcount⟩, hlast, fun c hc => (hrise c hc).imp_right fun hstarts => ?_, last, hlatest,
                hstamp ▸ hle, fun t ht => hmax t (htime.symm ▸ ht)⟩
              simp only [startsGeneration, decide_eq_true_eq] at hstarts
              obtain ⟨hpend, -, -, hturn, t, ht, hlt⟩ := hstarts
              exact ⟨hmark.symm.trans hpend, hturn, t, htime ▸ ht, hstamp ▸ hlt⟩
        · have hnot : ∀ usage timestamp, ¬TokenCount env obj usage timestamp :=
            fun usage timestamp hc => hcount ⟨usage, timestamp, hc⟩
          obtain ⟨hnone, hlocals, hstate⟩ := @accounting_otherwise env path obj hnot state s.2
          refine ⟨fun _ => ⟨by rw [hlocals], ?_⟩, fun entry hsome => ?_, hpending⟩
          · rcases hstate with hstate | ⟨reason, hstate⟩
            · rw [hstate, htime]
            · rw [hstate, ← htime]; rfl
          · dsimp only at hsome
            rw [hnone] at hsome
            cases hsome

/-! ## Histories -/

structure Recalls (env : Env) (hist : List Row) (s : CodexIterState × Locals) : Prop where
  last : s.2.lastTotalTokens = lastTotal env hist
  latest : ∀ e ∈ accepted hist, ∃ t, s.1.lastAccountingTimestamp = some t ∧ e.timestamp ≤ t
  since : s.1.generationTransitionPending = true → LifecycleSince hist
  counts : ∀ obj entry, (obj, some entry) ∈ hist → ∃ usage, TokenCount env obj usage entry.timestamp

theorem recalls_fileStart (sessionId model : Option String) : Recalls env [] (fileStart sessionId model) := by
  refine ⟨rfl, nofun, ?_, nofun⟩
  intro h
  cases h

theorem lifecycleSince_snoc {hist : List Row} {row : Row} (hrow : row.2 = none)
    (h : LifecycleSince hist ∨ lifecycle row.1 = true) : LifecycleSince (hist ++ [row]) := by
  rcases h with ⟨p, q, rfl, hnone, r, hr, hl⟩ | hl
  · refine ⟨p, q ++ [row], List.append_assoc .., fun x hx => ?_, r, List.mem_append_left _ hr, hl⟩
    rcases List.mem_append.mp hx with hx | hx
    · exact hnone x hx
    · rw [List.mem_singleton.mp hx, hrow]
  · refine ⟨hist, [row], rfl, fun x hx => ?_, row, List.mem_singleton_self _, hl⟩
    rw [List.mem_singleton.mp hx, hrow]

theorem Recalls.step {hist : List Row} {row : Row} {s s' : CodexIterState × Locals} (h : Recalls env hist s)
    (hstep : Step env row s s') : Recalls env (hist ++ [row]) s' := by
  have hpending := hstep.pending
  obtain ⟨obj, acc⟩ := row
  cases acc with
  | none =>
    obtain ⟨hlast, hlatest⟩ := hstep.rejected rfl
    refine ⟨?_, fun e he => ?_, fun hp => lifecycleSince_snoc rfl ?_, fun obj' entry hmem => ?_⟩
    · rw [hlast, h.last, lastTotal_snoc_none hist (Or.inl rfl)]
    · rw [hlatest]
      rw [accepted_append] at he
      rcases List.mem_append.mp he with he | he
      · exact h.latest e he
      · cases he
    · rw [hpending] at hp
      simp only [Option.isSome_none, Bool.false_eq_true, if_false, Bool.or_eq_true] at hp
      exact hp.imp_left h.since
    · rcases List.mem_append.mp hmem with hmem | hmem
      · exact h.counts obj' entry hmem
      · cases List.mem_singleton.mp hmem
  | some entry =>
    obtain ⟨⟨usage, hcount⟩, hlast, -, t, hlatest, hle, hmax⟩ := hstep.accepted entry rfl
    refine ⟨?_, fun e he => ⟨t, hlatest, ?_⟩, fun hp => ?_, fun obj' entry' hmem => ?_⟩
    · rw [hlast]
      cases hc : cumulativeOf env obj with
      | none => rw [Option.getD_none, h.last, lastTotal_snoc_none hist (Or.inr hc)]
      | some c => rw [Option.getD_some, lastTotal_snoc hist rfl hc]
    · rw [accepted_append] at he
      rcases List.mem_append.mp he with he | he
      · obtain ⟨t', ht', hle'⟩ := h.latest e he
        exact hle'.trans (hmax t' ht')
      · obtain rfl : e = entry := by simpa [CodexIter.accepted] using he
        exact hle
    · rw [hpending] at hp
      cases hp
    · rcases List.mem_append.mp hmem with hmem | hmem
      · exact h.counts obj' entry' hmem
      · cases List.mem_singleton.mp hmem
        exact ⟨usage, hcount⟩

theorem fuse_cons {offset : Nat} {obj : Json.Fields} {objs : List (Nat × Json.Fields)}
    {s t : CodexIterState × Locals} {hist : List Row} :
    fuse env path sourceRootKey ((offset, obj) :: objs) s = some (hist, t) ↔
      ∃ s' e rest, record env path sourceRootKey offset obj s.1 s.2 = (s', .ok e) ∧
        fuse env path sourceRootKey objs s' = some (rest, t) ∧ hist = (obj, e.accounting) :: rest := by
  rw [fuse]
  split
  · rename_i s' e hrecord
    rw [Option.map_eq_some_iff]
    constructor
    · rintro ⟨⟨rest, t'⟩, hfuse, heq⟩
      cases heq
      exact ⟨s', e, rest, hrecord, hfuse, rfl⟩
    · rintro ⟨s'', e', rest, hr, hfuse, rfl⟩
      rw [hrecord] at hr
      cases hr
      exact ⟨(rest, t), hfuse, rfl⟩
  · rename_i s' x hrecord
    constructor
    · intro h; cases h
    · rintro ⟨s'', e', rest, hr, -, -⟩
      rw [hrecord] at hr
      cases hr

theorem fuse_append : ∀ {objs : List (Nat × Json.Fields)} {s t : CodexIterState × Locals} {a b : List Row},
    fuse env path sourceRootKey objs s = some (a ++ b, t) →
    ∃ xs ys s', objs = xs ++ ys ∧ fuse env path sourceRootKey xs s = some (a, s') ∧
      fuse env path sourceRootKey ys s' = some (b, t)
  | objs, s, t, [], b, h => ⟨[], objs, s, rfl, rfl, h⟩
  | [], s, t, r :: a, b, h => by cases h
  | (offset, obj) :: objs, s, t, r :: a, b, h => by
    obtain ⟨s', e, rest, hrecord, hfuse, heq⟩ := fuse_cons.mp h
    obtain ⟨rfl, rfl⟩ := List.cons.inj heq
    obtain ⟨xs, ys, s'', rfl, hxs, hys⟩ := fuse_append hfuse
    exact ⟨(offset, obj) :: xs, ys, s'', rfl, fuse_cons.mpr ⟨s', e, a, hrecord, hxs, rfl⟩, hys⟩

theorem fuse_join : ∀ {xs ys : List (Nat × Json.Fields)} {s s' t : CodexIterState × Locals} {a b : List Row},
    fuse env path sourceRootKey xs s = some (a, s') → fuse env path sourceRootKey ys s' = some (b, t) →
    fuse env path sourceRootKey (xs ++ ys) s = some (a ++ b, t)
  | [], ys, s, s', t, a, b, ha, hb => by cases ha; exact hb
  | (offset, obj) :: xs, ys, s, s', t, a, b, ha, hb => by
    obtain ⟨s₁, e, rest, hrecord, hfuse, rfl⟩ := fuse_cons.mp ha
    exact fuse_cons.mpr ⟨s₁, e, rest ++ b, hrecord, fuse_join hfuse hb, rfl⟩

theorem recalls_fuse : ∀ {objs : List (Nat × Json.Fields)} {s t : CodexIterState × Locals} {hist rows : List Row},
    Recalls env hist s → fuse env path sourceRootKey objs s = some (rows, t) → Recalls env (hist ++ rows) t
  | [], s, t, hist, rows, h, hfuse => by
    cases hfuse
    rwa [List.append_nil]
  | (offset, obj) :: objs, s, t, hist, rows, h, hfuse => by
    obtain ⟨s', e, rest, hrecord, hrest, rfl⟩ := fuse_cons.mp hfuse
    have := recalls_fuse (h.step (record_step hrecord)) hrest
    rwa [List.append_assoc, List.singleton_append] at this

theorem event_ok {obj : Json.Fields} {offset : Nat} {thread : Option CodexThreadMetadata} {event : CodexPhysicalEvent}
    (h : eventFromRecord env path sourceRootKey obj offset thread = .ok event) (offset' : Nat)
    (thread' : Option CodexThreadMetadata) :
    ∃ event', eventFromRecord env path sourceRootKey obj offset' thread' = .ok event' := by
  unfold eventFromRecord at h ⊢
  dsimp only at h ⊢
  cases hparse : parseCodexTimestamp env (field obj "timestamp") with
  | none => exact ⟨_, rfl⟩
  | some timestamp =>
    rw [hparse] at h
    dsimp only at h
    obtain ⟨timestampUtc, htime, -⟩ := Except.bind_eq_ok.mp h
    exact ⟨_, Except.bind_eq_ok.mpr ⟨timestampUtc, htime, rfl⟩⟩

theorem observation_ok {direct fallback : Json.Fields} {capturedAt : Int} {offset : Nat} {model : Option String}
    {slot : String} {out : Option CodexQuotaObservation}
    (h : observationOf env path sourceRootKey direct fallback capturedAt offset model slot = .ok out) (offset' : Nat)
    (model' : Option String) :
    ∃ out', observationOf env path sourceRootKey direct fallback capturedAt offset' model' slot = .ok out' := by
  unfold observationOf at h ⊢
  dsimp only at h ⊢
  obtain ⟨resets, hresets, h⟩ := Except.bind_eq_ok.mp h
  rw [hresets, Except.ok_bind]
  split at h
  · obtain ⟨capturedAtUtc, hcaptured, -⟩ := Except.bind_eq_ok.mp h
    exact ⟨_, Except.bind_eq_ok.mpr ⟨capturedAtUtc, hcaptured, rfl⟩⟩
  · exact ⟨_, rfl⟩

theorem quotas_ok {obj payload : Json.Fields} {offset : Nat} {model : Option String} {out : List CodexQuotaObservation}
    (h : codexQuotaObservations env path sourceRootKey obj payload offset model = .ok out) (offset' : Nat)
    (model' : Option String) :
    ∃ out', codexQuotaObservations env path sourceRootKey obj payload offset' model' = .ok out' := by
  unfold codexQuotaObservations at h ⊢
  split
  · exact ⟨_, rfl⟩
  · rename_i capturedAt hcaptured
    rw [hcaptured] at h
    dsimp only at h ⊢
    split
    · exact ⟨_, rfl⟩
    · rename_i hwindows
      rw [if_neg hwindows] at h
      obtain ⟨observations, hmap, -⟩ := Except.bind_eq_ok.mp h
      obtain ⟨observations', hmap'⟩ := Except.mapM_returns fun slot hslot => by
        obtain ⟨out, -, hout⟩ := Except.ok_of_mapM hmap slot hslot
        exact observation_ok hout offset' model'
      exact ⟨_, Except.bind_eq_ok.mpr ⟨observations', hmap', rfl⟩⟩

theorem observe_tokenCount {obj usage : Json.Fields} {timestamp : Int} (h : TokenCount env obj usage timestamp)
    (state : CodexIterState) :
    observe env path sourceRootKey obj (dictOrEmpty (field obj "payload")) state = (state, .ok none) := by
  simp [observe, h.type, h.payloadType]

theorem record_repeat {obj usage : Json.Fields} {timestamp c t : Int} {offset : Nat} {s s' s₂ : CodexIterState × Locals}
    {e : CodexFusedEmission} (hcount : TokenCount env obj usage timestamp)
    (hrecord : record env path sourceRootKey offset obj s.1 s.2 = (s', .ok e)) (hc : cumulativeOf env obj = some c)
    (hlast : c ≤ s₂.2.lastTotalTokens) (hlatest : s₂.1.lastAccountingTimestamp = some t) (hle : timestamp ≤ t)
    (offset' : Nat) : ∃ e', record env path sourceRootKey offset' obj s₂.1 s₂.2 = (s₂, .ok e') ∧ e'.accounting = none := by
  have hstarts : startsGeneration s₂.1 s₂.2.lastTotalTokens c (lastTurnTotal env obj) timestamp = false := by
    simp only [startsGeneration, decide_eq_false_iff_not]
    rintro ⟨-, -, -, -, last, hmem, hlt⟩
    rw [hlatest] at hmem
    cases hmem
    exact absurd hle (not_le.mpr hlt)
  have hnone : accountingFromRecord env path obj (dictOrEmpty (field obj "payload")) s₂.1 s₂.2 = (none, s₂.1, s₂.2) := by
    rw [accounting_of_tokenCount hcount, hc]
    split
    · rfl
    · rw [weigh]
      exact if_pos ⟨hlast, by rw [hstarts]; exact Bool.false_ne_true⟩
  unfold record at hrecord
  dsimp only at hrecord
  rw [observe_tokenCount hcount] at hrecord
  dsimp only at hrecord
  split at hrecord
  · cases hrecord
  · rename_i event hevent
    split at hrecord
    · cases hrecord
    · rename_i quotas hquotas
      obtain ⟨event', hevent'⟩ := event_ok hevent offset' s₂.1.thread
      obtain ⟨quotas', hquotas'⟩ := quotas_ok hquotas offset' s₂.1.model
      refine ⟨⟨offset', event', none, quotas', none⟩, ?_, rfl⟩
      unfold record
      dsimp only
      rw [observe_tokenCount hcount]
      dsimp only
      rw [hevent']
      dsimp only
      rw [hnone]
      dsimp only
      rw [hquotas']

/-! ## Runs -/

theorem restart_of_step {hist : List Row} {row : Row} {s s' : CodexIterState × Locals} (hstep : Step env row s s')
    (h : Recalls env hist s) {entry : CodexEntry} (hrow : row.2 = some entry) (hrestart : Restart env hist row) :
    LifecycleSince hist ∧ (∀ e ∈ accepted hist, e.timestamp < entry.timestamp) ∧
      cumulativeOf env row.1 = some (lastTurnTotal env row.1) := by
  obtain ⟨-, c, hc, hle⟩ := hrestart
  obtain ⟨-, -, hrise, -⟩ := hstep.accepted entry hrow
  rcases hrise c hc with hlt | ⟨hpending, hturn, last, hmem, hlt⟩
  · rw [h.last] at hlt
    exact absurd hle (not_le.mpr hlt)
  · refine ⟨h.since hpending, fun e he => ?_, hturn ▸ hc⟩
    obtain ⟨t, ht, het⟩ := h.latest e he
    rw [ht] at hmem
    cases hmem
    exact lt_of_le_of_lt het hlt

theorem totals_rise {pre mid : List Row} {x y : Row} {cx cy : Int} (hx : x.2.isSome = true)
    (hcx : cumulativeOf env x.1 = some cx) (hy : y.2.isSome = true) (hcy : cumulativeOf env y.1 = some cy)
    (h : NoRestart env (pre ++ [x]) (mid ++ [y])) : cx < cy := by
  have hmid : NoRestart env (pre ++ [x]) mid := fun p r q heq => h p r (q ++ [y]) (by rw [heq]; simp)
  have hle := lastTotal_le hmid
  rw [lastTotal_snoc pre hx hcx] at hle
  have hlast := h mid y [] rfl
  exact lt_of_le_of_lt hle (not_le.mp fun hge => hlast ⟨hy, cy, hcy, hge⟩)

/-- **Totals rise within a generation; a restart stands behind a lifecycle record, at a later
instant than every accepted row and with its own last turn's total; and an accepted record with
a total, read again before the next restart, changes nothing.** -/
theorem codex_totals (env : Env) (path : String) (sourceRootKey sessionId model : Option String)
    (objs : List (Nat × Json.Fields)) (hist : List Row) (t : CodexIterState × Locals)
    (hrun : fuse env path sourceRootKey objs (fileStart sessionId model) = some (hist, t)) :
    (∀ pre x mid y post cx cy, hist = pre ++ x :: mid ++ y :: post → x.2.isSome = true →
      cumulativeOf env x.1 = some cx → y.2.isSome = true → cumulativeOf env y.1 = some cy →
      NoRestart env (pre ++ [x]) (mid ++ [y]) → cx < cy) ∧
    (∀ pre obj entry post, hist = pre ++ (obj, some entry) :: post → Restart env pre (obj, some entry) →
      LifecycleSince pre ∧ (∀ e ∈ accepted pre, e.timestamp < entry.timestamp) ∧
        cumulativeOf env obj = some (lastTurnTotal env obj)) ∧
    (∀ pre obj entry mid post offset, hist = pre ++ (obj, some entry) :: mid ++ post →
      (cumulativeOf env obj).isSome = true → NoRestart env (pre ++ [(obj, some entry)]) mid →
      ∃ xs ys, objs = xs ++ ys ∧ fuse env path sourceRootKey (xs ++ (offset, obj) :: ys) (fileStart sessionId model) =
        some (pre ++ (obj, some entry) :: mid ++ (obj, none) :: post, t)) := by
  have hstart : Recalls env [] (fileStart sessionId model) := recalls_fileStart sessionId model
  refine ⟨fun pre x mid y post cx cy _ hx hcx hy hcy hno => totals_rise hx hcx hy hcy hno, ?_, ?_⟩
  · intro pre obj entry post hsplit hrestart
    rw [hsplit] at hrun
    obtain ⟨xs, ys, s, rfl, hxs, hys⟩ := fuse_append hrun
    have hpre := recalls_fuse hstart hxs
    rw [List.nil_append] at hpre
    cases ys with
    | nil => cases hys
    | cons y ys =>
      obtain ⟨s', e, rest, hrecord, -, heq⟩ := fuse_cons.mp hys
      obtain ⟨hrow, -⟩ := List.cons.inj heq
      have hstep := record_step hrecord
      obtain ⟨rfl, hacc⟩ := Prod.mk.inj hrow
      rw [← hacc] at hstep
      exact restart_of_step hstep hpre rfl hrestart
  · intro pre obj entry mid post offset hsplit hsome hno
    rw [hsplit] at hrun
    obtain ⟨xs, ys, s₂, rfl, hxs, hys⟩ := fuse_append hrun
    have hall := recalls_fuse hstart hxs
    rw [List.nil_append] at hall
    obtain ⟨c, hc⟩ := Option.isSome_iff_exists.mp hsome
    have hle := lastTotal_le hno
    rw [lastTotal_snoc pre rfl hc, List.append_assoc, List.singleton_append, ← hall.last] at hle
    -- the accepted row is known to the state the record meets again
    have hmem : (obj, some entry) ∈ pre ++ (obj, some entry) :: mid :=
      List.mem_append_right _ (List.mem_cons_self ..)
    obtain ⟨usage, hcount⟩ := hall.counts obj entry hmem
    obtain ⟨latest, hlatest, hearlier⟩ := hall.latest entry (mem_accepted.mpr ⟨obj, hmem⟩)
    obtain ⟨ps, qs, s₁, rfl, hps, hqs⟩ := fuse_append hxs
    cases qs with
    | nil => cases hqs
    | cons q qs =>
      obtain ⟨s', e, rest, hrecord, -, heq⟩ := fuse_cons.mp hqs
      obtain ⟨hrow, -⟩ := List.cons.inj heq
      obtain ⟨rfl, -⟩ := Prod.mk.inj hrow
      obtain ⟨e', hrepeat, hnone⟩ := record_repeat hcount hrecord hc hle hlatest hearlier offset
      refine ⟨_, ys, rfl, fuse_join hxs (fuse_cons.mpr ⟨s₂, e', post, hrepeat, hys, ?_⟩)⟩
      rw [hnone]

end

def tokenRecord (info : Json.Fields) : Json.Fields :=
  [("payload", .obj [("info", .obj info), ("type", .str "token_count")]), ("timestamp", .str "2026-01-01T00:00:00Z"),
    ("type", .str "event_msg")]

def countedRecord : Json.Fields :=
  tokenRecord [("last_token_usage", .obj []), ("total_token_usage", .obj [("total_tokens", .num 5)])]

def uncountedRecord : Json.Fields := tokenRecord [("last_token_usage", .obj [])]

def gapRows (objs : List (Nat × Json.Fields)) : Option (List Row × (CodexIterState × Locals)) :=
  fuse gapEnv "rollout.jsonl" none objs (fileStart (some "session") (some "gpt"))

def acceptances (rows : Option (List Row × (CodexIterState × Locals))) : Option (List Bool) :=
  rows.map fun r => r.1.map fun row => row.2.isSome

theorem codex_totals_counted : ∃ xs ys rows t, [(0, countedRecord)] = xs ++ ys ∧
    gapRows (xs ++ (120, countedRecord) :: ys) = some (rows, t) ∧ rows.map (fun row => row.2.isSome) = [true, false] := by
  have hone : acceptances (gapRows [(0, countedRecord)]) = some [true] := by decide +kernel
  obtain ⟨⟨hist, t⟩, hrun, hmap⟩ := Option.map_eq_some_iff.mp hone
  obtain ⟨s', e, rest, -, hrest, rfl⟩ := fuse_cons.mp hrun
  cases hrest
  cases hacc : e.accounting with
  | none => rw [hacc] at hmap; cases hmap
  | some entry =>
    rw [hacc] at hrun
    obtain ⟨xs, ys, hsplit, hagain⟩ := (codex_totals gapEnv "rollout.jsonl" none (some "session") (some "gpt") _ _ _
      hrun).2.2 [] countedRecord entry [] [] 120 rfl (by decide +kernel) (fun p r q heq => by cases p <;> cases heq)
    exact ⟨xs, ys, _, _, hsplit, hagain, rfl⟩

/-- A record without `total_token_usage` is accepted as often as it is written. -/
theorem uncounted_again : acceptances (gapRows [(0, uncountedRecord)]) = some [true] ∧
    acceptances (gapRows [(0, uncountedRecord), (120, uncountedRecord)]) = some [true, true] := by
  decide +kernel

end Cctally.CodexIter
