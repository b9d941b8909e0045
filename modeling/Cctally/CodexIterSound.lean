import Cctally.CodexIter
import Cctally.QuotaLedgerGroups

/-!
# Interrupted reading equals one pass

A run takes up from the iterator state what the run before it had in its locals,
except for the warning it has printed, which no emission depends on. So the runs
of one state read what one run reads.
-/

namespace Cctally.CodexIter

open Json (field)

section
variable (env : Env) (path : String)

theorem accept_warned (usage : Json.Fields) (timestamp : Int) (cumulative : Option Int) (state : CodexIterState)
    (t : Int) (w w' : Bool) :
    (accept env path usage timestamp cumulative state ⟨t, w⟩).1 =
        (accept env path usage timestamp cumulative state ⟨t, w'⟩).1 ∧
      (accept env path usage timestamp cumulative state ⟨t, w⟩).2.1 =
        (accept env path usage timestamp cumulative state ⟨t, w'⟩).2.1 ∧
      (accept env path usage timestamp cumulative state ⟨t, w⟩).2.2.lastTotalTokens =
        (accept env path usage timestamp cumulative state ⟨t, w'⟩).2.2.lastTotalTokens := by
  unfold accept
  cases state.sessionId.or (env.filenameUuid path) with
  | none => exact ⟨rfl, rfl, rfl⟩
  | some sessionId => exact ⟨rfl, rfl, rfl⟩

theorem accounting_cases (obj payload : Json.Fields) (state : CodexIterState) (t : Int) :
    (∃ state', (∀ w, accountingFromRecord env path obj payload state ⟨t, w⟩ = (none, state', ⟨t, w⟩)) ∧
      (state' = state ∨ ∃ reason, state' = state.skip reason)) ∨
    ∃ usage timestamp cumulative, (∀ w, accountingFromRecord env path obj payload state ⟨t, w⟩ =
      accept env path usage timestamp cumulative state ⟨t, w⟩) ∧ ∀ c ∈ cumulative, t < c ∨ 0 < c := by
  unfold accountingFromRecord
  by_cases htype : field obj "type" = .str "event_msg" ∧ field payload "type" = .str "token_count"
  case neg => exact Or.inl ⟨state, fun w => if_pos htype, Or.inl rfl⟩
  simp only [htype, and_self, not_true, if_false]
  have hskip : ∀ reason, (∃ state', (∀ w : Bool, ((none : Option CodexEntry), state.skip reason, Locals.mk t w) =
      (none, state', ⟨t, w⟩)) ∧ (state' = state ∨ ∃ reason, state' = state.skip reason)) :=
    fun reason => ⟨state.skip reason, fun _ => rfl, Or.inr ⟨reason, rfl⟩⟩
  cases field payload "info" with
  | null => exact Or.inl ⟨state, fun _ => rfl, Or.inl rfl⟩
  | bool _ => exact Or.inl (hskip _)
  | num _ => exact Or.inl (hskip _)
  | float _ => exact Or.inl (hskip _)
  | str _ => exact Or.inl (hskip _)
  | arr _ => exact Or.inl (hskip _)
  | obj info =>
    dsimp only
    cases field info "last_token_usage" with
    | null => exact Or.inl (hskip _)
    | bool _ => exact Or.inl (hskip _)
    | num _ => exact Or.inl (hskip _)
    | float _ => exact Or.inl (hskip _)
    | str _ => exact Or.inl (hskip _)
    | arr _ => exact Or.inl (hskip _)
    | obj usage =>
      dsimp only
      by_cases hfork : state.model = none ∧ (state.thread.bind CodexThreadMetadata.parentThreadId).isSome
      · exact Or.inl ⟨state, fun _ => if_pos hfork, Or.inl rfl⟩
      simp only [if_neg hfork]
      cases parseCodexTimestamp env (field obj "timestamp") with
      | none => exact Or.inl (hskip _)
      | some timestamp =>
        dsimp only
        cases field info "total_token_usage" with
        | null => exact Or.inr ⟨usage, timestamp, none, fun _ => rfl, fun _ h => nomatch h⟩
        | bool _ => exact Or.inr ⟨usage, timestamp, none, fun _ => rfl, fun _ h => nomatch h⟩
        | num _ => exact Or.inr ⟨usage, timestamp, none, fun _ => rfl, fun _ h => nomatch h⟩
        | float _ => exact Or.inr ⟨usage, timestamp, none, fun _ => rfl, fun _ h => nomatch h⟩
        | str _ => exact Or.inr ⟨usage, timestamp, none, fun _ => rfl, fun _ h => nomatch h⟩
        | arr _ => exact Or.inr ⟨usage, timestamp, none, fun _ => rfl, fun _ h => nomatch h⟩
        | obj total =>
          dsimp only
          by_cases hold : intOrZero env (field total "total_tokens") ≤ t ∧
              ¬startsGeneration state t (intOrZero env (field total "total_tokens"))
                (intOrZero env (field usage "total_tokens")) timestamp
          · exact Or.inl ⟨state, fun _ => if_pos hold, Or.inl rfl⟩
          · refine Or.inr ⟨usage, timestamp, some (intOrZero env (field total "total_tokens")),
              fun _ => if_neg hold, fun c hc => ?_⟩
            obtain rfl := Option.some.inj hc
            rcases not_and_or.1 hold with hnew | hgen
            · exact Or.inl (not_le.1 hnew)
            · have hgen := of_decide_eq_true (not_not.1 hgen)
              exact Or.inr hgen.2.2.1

structure Later (state state' : CodexIterState) : Prop where
  sessionId : state'.sessionId = none → state.sessionId = none
  model : state'.model = none → state.model = none
  total : 0 ≤ state.totalTokens → state'.totalTokens = state.totalTokens ∨ 0 < state'.totalTokens

theorem Later.refl (state : CodexIterState) : Later state state := ⟨id, id, fun _ => Or.inl rfl⟩

theorem Later.trans {a b c : CodexIterState} (h : Later a b) (h' : Later b c) : Later a c := by
  refine ⟨fun hc => h.sessionId (h'.sessionId hc), fun hc => h.model (h'.model hc), fun ha => ?_⟩
  have hb := h.total ha
  rcases h'.total (by omega) with he | hpos
  · rw [he]
    exact hb
  · exact Or.inr hpos

variable (sourceRootKey : Option String)

theorem observe_later (obj payload : Json.Fields) (state : CodexIterState) :
    Later state (observe env path sourceRootKey obj payload state).1 ∧
      (observe env path sourceRootKey obj payload state).1.totalTokens = state.totalTokens := by
  have hor : ∀ {a b : Option String}, a.or b = none → b = none := fun h => (Option.or_eq_none_iff.1 h).2
  unfold observe
  split
  · dsimp only
    cases threadMetadataFromSessionMeta env path sourceRootKey payload with
    | error e => exact ⟨⟨hor, hor, fun _ => Or.inl rfl⟩, rfl⟩
    | ok thread => exact ⟨⟨hor, hor, fun _ => Or.inl rfl⟩, rfl⟩
  split
  · exact ⟨⟨id, hor, fun _ => Or.inl rfl⟩, rfl⟩
  split
  · exact ⟨⟨id, id, fun _ => Or.inl rfl⟩, rfl⟩
  · exact ⟨Later.refl state, rfl⟩

theorem accept_later {usage : Json.Fields} {timestamp : Int} {cumulative : Option Int} {state : CodexIterState}
    {locals : Locals} (hlast : locals.lastTotalTokens = state.totalTokens) (h : 0 ≤ state.totalTokens → ∀ c ∈ cumulative, 0 < c) :
    Later state (accept env path usage timestamp cumulative state locals).2.1 ∧
      (accept env path usage timestamp cumulative state locals).2.2.lastTotalTokens =
        (accept env path usage timestamp cumulative state locals).2.1.totalTokens := by
  unfold accept
  cases state.sessionId.or (env.filenameUuid path) with
  | none => exact ⟨⟨id, id, fun _ => Or.inl rfl⟩, hlast⟩
  | some sessionId =>
    cases cumulative with
    | none => exact ⟨⟨id, id, fun _ => Or.inl rfl⟩, hlast⟩
    | some c => exact ⟨⟨id, id, fun hn => Or.inr (h hn c rfl)⟩, rfl⟩

theorem accounting_later {obj payload : Json.Fields} {state : CodexIterState} {locals : Locals}
    (hlast : locals.lastTotalTokens = state.totalTokens) :
    Later state (accountingFromRecord env path obj payload state locals).2.1 ∧
      (accountingFromRecord env path obj payload state locals).2.2.lastTotalTokens =
        (accountingFromRecord env path obj payload state locals).2.1.totalTokens := by
  obtain ⟨t, w⟩ := locals
  rcases accounting_cases env path obj payload state t with ⟨state', heq, hstate⟩ | ⟨usage, timestamp, cumulative, heq, hc⟩
  · rw [heq w]
    rcases hstate with rfl | ⟨reason, rfl⟩
    · exact ⟨Later.refl _, hlast⟩
    · exact ⟨⟨id, id, fun _ => Or.inl rfl⟩, hlast⟩
  · rw [heq w]
    dsimp only at hlast
    exact accept_later env path hlast fun hn c hmem => (hc c hmem).elim (fun hlt => by omega) id

theorem accounting_warned (obj payload : Json.Fields) (state : CodexIterState) (t : Int) (w w' : Bool) :
    (accountingFromRecord env path obj payload state ⟨t, w⟩).1 =
        (accountingFromRecord env path obj payload state ⟨t, w'⟩).1 ∧
      (accountingFromRecord env path obj payload state ⟨t, w⟩).2.1 =
        (accountingFromRecord env path obj payload state ⟨t, w'⟩).2.1 ∧
      (accountingFromRecord env path obj payload state ⟨t, w⟩).2.2.lastTotalTokens =
        (accountingFromRecord env path obj payload state ⟨t, w'⟩).2.2.lastTotalTokens := by
  rcases accounting_cases env path obj payload state t with ⟨state', heq, -⟩ | ⟨usage, timestamp, cumulative, heq, -⟩
  · rw [heq w, heq w']
    exact ⟨rfl, rfl, rfl⟩
  · rw [heq w, heq w']
    exact accept_warned env path usage timestamp cumulative state t w w'

theorem record_later (lineOffset : Nat) {obj : Json.Fields} {state : CodexIterState} {locals : Locals}
    (hlast : locals.lastTotalTokens = state.totalTokens) :
    Later state (record env path sourceRootKey lineOffset obj state locals).1.1 ∧
      (record env path sourceRootKey lineOffset obj state locals).1.2.lastTotalTokens =
        (record env path sourceRootKey lineOffset obj state locals).1.1.totalTokens := by
  obtain ⟨hlater, htotal⟩ := observe_later env path sourceRootKey obj (dictOrEmpty (field obj "payload")) state
  unfold record
  dsimp only
  rcases hobs : observe env path sourceRootKey obj (dictOrEmpty (field obj "payload")) state with ⟨seen, e | thread⟩ <;>
    rw [hobs] at hlater htotal <;> dsimp only at hlater htotal ⊢
  · exact ⟨hlater, hlast.trans htotal.symm⟩
  cases eventFromRecord env path sourceRootKey obj lineOffset seen.thread with
  | error e => exact ⟨hlater, hlast.trans htotal.symm⟩
  | ok event =>
    have hacc : Later seen (accountingFromRecord env path obj (dictOrEmpty (field obj "payload")) seen locals).2.1 ∧ _ :=
      accounting_later env path (hlast.trans htotal.symm)
    dsimp only
    cases codexQuotaObservations env path sourceRootKey obj (dictOrEmpty (field obj "payload")) lineOffset
      (accountingFromRecord env path obj (dictOrEmpty (field obj "payload")) seen locals).2.1.model with
    | error e => exact ⟨hlater.trans hacc.1, hacc.2⟩
    | ok quotas => exact ⟨hlater.trans hacc.1, hacc.2⟩

def seen (s : CodexIterState × Locals) : CodexIterState × Int := (s.1, s.2.lastTotalTokens)

theorem record_warned (lineOffset : Nat) (obj : Json.Fields) (state : CodexIterState) (t : Int) (w w' : Bool) :
    (record env path sourceRootKey lineOffset obj state ⟨t, w⟩).2 =
        (record env path sourceRootKey lineOffset obj state ⟨t, w'⟩).2 ∧
      seen (record env path sourceRootKey lineOffset obj state ⟨t, w⟩).1 =
        seen (record env path sourceRootKey lineOffset obj state ⟨t, w'⟩).1 := by
  unfold record
  dsimp only
  rcases observe env path sourceRootKey obj (dictOrEmpty (field obj "payload")) state with ⟨state, e | thread⟩
  · exact ⟨rfl, rfl⟩
  dsimp only
  cases eventFromRecord env path sourceRootKey obj lineOffset state.thread with
  | error e => exact ⟨rfl, rfl⟩
  | ok event =>
    obtain ⟨hentry, hstate, hlast⟩ :=
      accounting_warned env path obj (dictOrEmpty (field obj "payload")) state t w w'
    dsimp only
    rw [hentry, hstate]
    cases codexQuotaObservations env path sourceRootKey obj (dictOrEmpty (field obj "payload")) lineOffset
      (accountingFromRecord env path obj (dictOrEmpty (field obj "payload")) state ⟨t, w'⟩).2.1.model with
    | error e => exact ⟨rfl, Prod.ext rfl hlast⟩
    | ok quotas => exact ⟨rfl, Prod.ext rfl hlast⟩

theorem consume_warned (o : Nat) (line : List UInt8) (s t : CodexIterState × Locals) (h : seen s = seen t) :
    (consume env path sourceRootKey o line s).2 = (consume env path sourceRootKey o line t).2 ∧
      seen (consume env path sourceRootKey o line s).1 = seen (consume env path sourceRootKey o line t).1 := by
  obtain ⟨state, total, w⟩ := s
  obtain ⟨state', total', w'⟩ := t
  obtain ⟨rfl, rfl⟩ := Prod.mk.inj h
  unfold consume
  cases decode line with
  | none => exact ⟨rfl, rfl⟩
  | some text =>
    dsimp only
    split
    · exact ⟨rfl, rfl⟩
    split
    case h_1 obj hloads =>
      split
      · obtain ⟨hout, hseen⟩ := record_warned env path sourceRootKey o obj
          { state with linesSeen := state.linesSeen + 1 } total w w'
        exact ⟨congrArg some hout, hseen⟩
      · exact ⟨rfl, rfl⟩
    case h_2 => exact ⟨rfl, rfl⟩

theorem lineOffset_consume (o : Nat) (line : List UInt8) (s s' : CodexIterState × Locals) (e : CodexFusedEmission)
    (h : consume env path sourceRootKey o line s = (s', some (.ok e))) : e.lineOffset = o := by
  unfold consume at h
  split at h
  · cases h
  dsimp only at h
  split at h
  · cases h
  split at h
  · split at h
    · have hout := congrArg Prod.snd h
      unfold record at hout
      dsimp only at hout
      split at hout
      · cases hout
      · split at hout
        · cases hout
        · split at hout
          · cases hout
          · obtain rfl := Except.ok.inj (Option.some.inj hout)
            rfl
    · cases h
  · cases h

/-! ## Runs -/

structure Ready (initial : Initial) (s : CodexIterState × Locals) : Prop where
  sessionId : s.1.sessionId = none → initial.sessionId = none
  model : s.1.model = none → initial.model = none
  total : s.1.totalTokens = 0 → initial.totalTokens = 0
  nonneg : initial.totalTokens = 0 ∨ 0 ≤ s.1.totalTokens
  last : s.2.lastTotalTokens = s.1.totalTokens

variable {initial : Initial}

theorem Ready.later {s s' : CodexIterState × Locals} (h : Ready initial s) (hl : Later s.1 s'.1)
    (hlast : s'.2.lastTotalTokens = s'.1.totalTokens) : Ready initial s' := by
  refine ⟨fun hs => h.sessionId (hl.sessionId hs), fun hm => h.model (hl.model hm), fun ht => ?_, ?_, hlast⟩
  · rcases h.nonneg with h0 | hn
    · exact h0
    · rcases hl.total hn with he | hpos
      · exact h.total (he.symm.trans ht)
      · omega
  · refine h.nonneg.imp_right fun hn => ?_
    have hs := hl.total hn
    omega

variable (initial) in
theorem consume_ready (o : Nat) (line : List UInt8) (s : CodexIterState × Locals) (h : Ready initial s) :
    Ready initial (consume env path sourceRootKey o line s).1 := by
  have hmalformed : Ready initial (malformed s.1, s.2) := h.later ⟨id, id, fun _ => Or.inl rfl⟩ h.last
  unfold consume
  split
  · exact hmalformed
  dsimp only
  split
  · exact h
  split
  · split
    · have hcount : Ready initial ({ s.1 with linesSeen := s.1.linesSeen + 1 }, s.2) :=
        h.later ⟨id, id, fun _ => Or.inl rfl⟩ h.last
      obtain ⟨hlater, hlast⟩ := record_later env path sourceRootKey o hcount.last
      exact hcount.later hlater hlast
    · exact hmalformed
  · exact hmalformed

variable (initial) in
theorem start_ready (s : CodexIterState × Locals) (h : Ready initial s) :
    Ready initial (start initial s) ∧ seen (start initial s) = seen s := by
  have hseed : seed initial s.1 = s.1 := by
    obtain ⟨⟨sessionId, model, total, _, _, _, _, _, _, _⟩, _⟩ := s
    have hs : sessionId.or initial.sessionId = sessionId := by
      cases sessionId with
      | none => exact h.sessionId rfl
      | some _ => rfl
    have hm : model.or initial.model = model := by
      cases model with
      | none => exact h.model rfl
      | some _ => rfl
    have ht : (if total = 0 then initial.totalTokens else total) = total := by
      split
      case isTrue h0 => exact (h.total h0).trans h0.symm
      case isFalse => rfl
    unfold seed
    dsimp only
    rw [hs, hm, ht]
  unfold start
  rw [hseed]
  exact ⟨⟨h.sessionId, h.model, h.total, h.nonneg, rfl⟩, Prod.ext rfl h.last.symm⟩

variable (initial) in
theorem ready_start (s : CodexIterState × Locals)
    (h : initial.totalTokens = 0 ∨ 0 ≤ s.1.totalTokens ∧ 0 ≤ initial.totalTokens) : Ready initial (start initial s) := by
  have hor : ∀ {a b : Option String}, a.or b = none → b = none := fun h => (Option.or_eq_none_iff.1 h).2
  refine ⟨hor, hor, fun h0 => ?_, h.imp_right fun hn => ?_, rfl⟩
  · change (if s.1.totalTokens = 0 then initial.totalTokens else s.1.totalTokens) = 0 at h0
    split at h0
    · exact h0
    · contradiction
  · change 0 ≤ if s.1.totalTokens = 0 then initial.totalTokens else s.1.totalTokens
    split
    · exact hn.2
    · exact hn.1

open LineReader in
/-- **Interrupted reading equals one pass.** However the runs of one state are stopped and the
file grows between their reads, they emit the beginning of what one run over the final bytes
emits; once no complete line is left they have emitted all of it and left the same state. One
run ends behind the last newline and reads nothing past it. -/
theorem interrupted_eq_one_pass (file : List UInt8) (sessions : List Session) (offset : Nat) (state : CodexIterState)
    (hsome : sessions ≠ [])
    (htotal : initial.totalTokens = 0 ∨ 0 ≤ state.totalTokens ∧ 0 ≤ initial.totalTokens) :
    let runs := iterCodexFusedRecordsWithOffsets env path sourceRootKey initial
    let r := runs file sessions offset state
    let one := runs file [whole file] offset state
    ((r.raised = none → newline ∉ file.drop r.offset) →
      r.emitted = one.emitted ∧ r.offset = one.offset ∧ r.state.1 = one.state.1 ∧ r.raised = one.raised) ∧
    r.emitted <+: one.emitted ∧
    ((one.emitted.map CodexFusedEmission.lineOffset).Pairwise (· < ·) ∧
      ∀ e ∈ one.emitted, offset ≤ e.lineOffset ∧ e.lineOffset < one.offset) ∧
    (one.raised = none → newline ∉ file.drop one.offset) ∧
    (one.offset = offset ∨ ∃ p, file.take one.offset = p ++ [newline]) ∧
    runs (file.take one.offset) [whole (file.take one.offset)] offset state = one := by
  have hready := ready_start initial (state, ⟨0, false⟩) htotal
  have hwarned := consume_warned env path sourceRootKey
  have hkeeps := consume_ready env path sourceRootKey initial
  have hstart := start_ready initial
  have hone : ∀ bytes : List UInt8, iterCodexFusedRecordsWithOffsets env path sourceRootKey initial bytes [whole bytes]
      offset state = pass newline (consume env path sourceRootKey) bytes offset (start initial (state, ⟨0, false⟩)) :=
    fun bytes => resume_one newline (consume env path sourceRootKey) (start initial) bytes (whole bytes) offset _
  dsimp only
  rw [hone, hone]
  refine ⟨fun hend => ?_, resume_prefix hwarned hkeeps hstart sessions offset _ hready,
    pairwise_drain (whole file) (lineOffset_consume env path sourceRootKey) _ offset _,
    pass_end (file.length + 1) offset _ (by omega), boundary_drain (whole file) _ offset _,
    pass_take (file.length + 1) offset _ (by omega) (le_refl _)⟩
  have hmap := resume_done hwarned hkeeps hstart (Or.inr hsome) hready hend
  obtain ⟨hemitted, hoffset, hseen, hraised⟩ := Run.mk.inj hmap
  have hleft := congrArg Prod.fst hseen
  exact ⟨hemitted, hoffset, hleft, hraised⟩

end

def emptyObject : String := "\x7b\x7d"

theorem workedJson_ne (fields : Json.Fields) : QuotaLedger.workedJson (.obj fields) ≠ emptyObject := by
  unfold QuotaLedger.workedJson
  cases hfind : QuotaLedger.workedKeys.find? fun p => p.1 = .obj fields with
  | some p =>
    have hall : ∀ p ∈ QuotaLedger.workedKeys, p.2 ≠ emptyObject := by decide
    exact hall p (List.mem_of_find?_eq_some hfind)
  | none =>
    intro heq
    have hbrace : '\x7b' ∈ emptyObject.toList := by decide
    rw [← heq] at hbrace
    dsimp only at hbrace
    rw [String.toList_ofList] at hbrace
    exact absurd (List.eq_of_mem_replicate hbrace) (by decide)

def emptyTexts : QuotaLedger.Texts where
  canonicalJson v := if v = .obj [] then emptyObject else QuotaLedger.workedJson v
  loads s := if s = emptyObject then some (.obj []) else QuotaLedger.workedLoads s
  instant _ := none
  normalized := String.toLower
  loads_canonicalJson := by
    intro fields hsorted hplain
    by_cases hnil : fields = []
    · rw [hnil, if_pos rfl, if_pos rfl]
    · rw [if_neg fun h => hnil (Json.obj.inj h), if_neg (workedJson_ne fields)]
      exact QuotaLedger.workedTexts.loads_canonicalJson fields hsorted hplain

def isSpace (c : Char) : Bool := c = ' ' ∨ c = '\n'

def workedEnv : Env where
  texts := emptyTexts
  strip s := String.ofList ((s.toList.dropWhile isSpace).reverse.dropWhile isSpace).reverse
  loads s := if s = emptyObject then some (.obj []) else none
  fromisoformat _ := none
  isoformatZ _ := ""
  fromtimestamp _ := none
  float
    | .num n => some n
    | _ => none
  trunc _ := 0
  int _ := none
  encodeIdentity _ := ""
  filenameUuid _ := none

def workedFile : List UInt8 := [123, 125, 10, 123, 125, 10, 123]

def workedSessions : List LineReader.Session :=
  [⟨fun offset => offset ≠ 0, fun _ => 7⟩, ⟨fun _ => false, fun _ => 5⟩, LineReader.whole workedFile]

def workedInitial : Initial := ⟨none, none, 0⟩

theorem interrupted_eq_one_pass_worked :
    let runs := iterCodexFusedRecordsWithOffsets workedEnv "rollout.jsonl" none workedInitial
    let r := runs workedFile workedSessions 0 .fresh
    let one := runs workedFile [LineReader.whole workedFile] 0 .fresh
    r.emitted = one.emitted ∧ one.emitted.map CodexFusedEmission.lineOffset = [0, 3] := by
  have hend : newline ∉ workedFile.drop (iterCodexFusedRecordsWithOffsets workedEnv "rollout.jsonl" none workedInitial
      workedFile workedSessions 0 .fresh).offset := by decide +kernel
  exact ⟨((interrupted_eq_one_pass workedEnv "rollout.jsonl" none workedFile workedSessions 0 .fresh (by decide)
    (Or.inl rfl)).1 fun _ => hend).1, by decide +kernel⟩

end Cctally.CodexIter
