import Cctally.CodexIter
import Cctally.CodexIterSound

/-!
# The generation mark of a gap

Between the last accepted accounting row and a resume cursor a second reader
looks for a lifecycle record, to set the mark the interrupted parser had.
-/

namespace Cctally.CodexIter

open Json (field)

def lifecycle (obj : Json.Fields) : Bool :=
  field obj "type" = .str "turn_context" ∨
    (field obj "type" = .str "event_msg" ∧ field (dictOrEmpty (field obj "payload")) "type" = .str "task_started")

section
variable (env : Env)

def lifecycleText (text : String) : Bool :=
  match env.loads text with
  | some (.obj obj) => jsonValueIsFinite (.obj obj) && lifecycle obj
  | _ => false

def lifecycleLine (line : List UInt8) : Bool :=
  match decode line with
  | some text => lifecycleText env text
  | none => false

def scanGap (file : List UInt8) (beforeOffset : Nat) : Nat → Nat → Bool
  | 0, _ => false
  | fuel + 1, offset =>
    if offset < beforeOffset then
      let line := LineReader.readline newline (file.drop offset)
      if ¬LineReader.Complete newline line then false
      else if beforeOffset < offset + line.length then false
      else if lifecycleLine env line then true
      else scanGap file beforeOffset fuel (offset + line.length)
    else false

/-- `_codex_generation_transition_between`; a stream that cannot be read is `none`. -/
def codexGenerationTransitionBetween (stream : Option (List UInt8)) (afterOffset beforeOffset : Int) : Bool :=
  if afterOffset < 0 ∨ beforeOffset ≤ afterOffset then false
  else
    match stream with
    | none => false
    | some file =>
      let retained := LineReader.readline newline (file.drop afterOffset.toNat)
      scanGap env file beforeOffset.toNat (file.length + 1) (afterOffset.toNat + retained.length)

def lifecycleStripped (line : List UInt8) : Bool :=
  match decode line with
  | some text => env.strip text ≠ "" && lifecycleText env (env.strip text)
  | none => false

end

section
variable {env : Env} {path : String} {sourceRootKey : Option String}

/-! ## The mark and one line -/

theorem observe_pending {obj : Json.Fields} {state state' : CodexIterState} {thread : Option CodexThreadMetadata}
    (h : observe env path sourceRootKey obj (dictOrEmpty (field obj "payload")) state = (state', .ok thread)) :
    state'.generationTransitionPending = (state.generationTransitionPending || lifecycle obj) := by
  unfold observe at h
  dsimp only at h
  split at h
  · rename_i hmeta
    split at h
    · cases h
    · cases h
      simp [lifecycle, hmeta]
  · split at h
    · rename_i hturn
      cases h
      simp [lifecycle, hturn]
    · split at h
      · rename_i htask
        cases h
        simp [lifecycle, htask]
      · rename_i hmeta hturn htask
        cases h
        simp [lifecycle, hturn, htask]

theorem accept_pending (usage : Json.Fields) (timestamp : Int) (cumulative : Option Int) (state : CodexIterState)
    (locals : Locals) : (accept env path usage timestamp cumulative state locals).2.1.generationTransitionPending =
      if (accept env path usage timestamp cumulative state locals).1.isSome then false
      else state.generationTransitionPending := by
  unfold accept
  cases state.sessionId.or (env.filenameUuid path) with
  | none => rfl
  | some sessionId => rfl

theorem accounting_pending (obj payload : Json.Fields) (state : CodexIterState) (locals : Locals) :
    (accountingFromRecord env path obj payload state locals).2.1.generationTransitionPending =
      if (accountingFromRecord env path obj payload state locals).1.isSome then false
      else state.generationTransitionPending := by
  obtain ⟨t, w⟩ := locals
  rcases accounting_cases env path obj payload state t with ⟨state', hout, hstate⟩ | ⟨usage, timestamp, cumulative, hout, -⟩
  · rw [hout w]
    rcases hstate with rfl | ⟨reason, rfl⟩
    · rfl
    · rfl
  · rw [hout w]
    exact accept_pending usage timestamp cumulative state ⟨t, w⟩

theorem record_pending {lineOffset : Nat} {obj : Json.Fields} {state : CodexIterState} {locals : Locals}
    {s : CodexIterState × Locals} {e : CodexFusedEmission}
    (h : record env path sourceRootKey lineOffset obj state locals = (s, .ok e)) :
    s.1.generationTransitionPending =
      if e.accounting.isSome then false else state.generationTransitionPending || lifecycle obj := by
  unfold record at h
  dsimp only at h
  split at h
  · cases h
  · rename_i hobserve
    split at h
    · cases h
    · split at h
      · cases h
      · cases h
        rw [← observe_pending hobserve]
        exact accounting_pending obj _ _ locals

theorem consume_quiet {o : Nat} {line : List UInt8} {s s' : CodexIterState × Locals}
    (h : consume env path sourceRootKey o line s = (s', none)) :
    s'.1.generationTransitionPending = s.1.generationTransitionPending ∧ lifecycleStripped env line = false := by
  unfold consume at h
  unfold lifecycleStripped
  split at h
  · rename_i hdecode
    cases h
    simp only [hdecode]
    exact ⟨rfl, trivial⟩
  · rename_i text hdecode
    simp only [hdecode]
    dsimp only at h
    split at h
    · rename_i hblank
      cases h
      exact ⟨rfl, by simp [hblank]⟩
    · split at h
      · rename_i obj hloads
        split at h
        · cases h
        · rename_i hfinite
          cases h
          refine ⟨rfl, ?_⟩
          rw [lifecycleText, hloads]
          simp [hfinite]
      · rename_i hloads
        cases h
        refine ⟨rfl, ?_⟩
        rw [lifecycleText]
        split
        · rename_i obj hobj; exact absurd hobj (hloads obj)
        · simp

theorem consume_emit {o : Nat} {line : List UInt8} {s s' : CodexIterState × Locals} {e : CodexFusedEmission}
    (h : consume env path sourceRootKey o line s = (s', some (.ok e))) :
    s'.1.generationTransitionPending =
      if e.accounting.isSome then false else s.1.generationTransitionPending || lifecycleStripped env line := by
  unfold consume at h
  unfold lifecycleStripped
  split at h
  · cases h
  · rename_i text hdecode
    simp only [hdecode]
    dsimp only at h
    split at h
    · cases h
    · rename_i hblank
      split at h
      · rename_i obj hloads
        split at h
        · rename_i hfinite
          rcases hr : record env path sourceRootKey o obj { s.1 with linesSeen := s.1.linesSeen + 1 } s.2 with ⟨s₁, out⟩
          rw [hr] at h
          cases h
          rw [record_pending hr, lifecycleText, hloads]
          simp [hblank, hfinite]
        · cases h
      · cases h

abbrev ReadsCodex (env : Env) (path : String) (sourceRootKey : Option String) (file : List UInt8) :=
  LineReader.Reads newline (consume env path sourceRootKey) file

variable {file : List UInt8} {o b : Nat} {s t : CodexIterState × Locals} {lines : List (List UInt8)}
  {es : List CodexFusedEmission}

theorem reads_pending (h : ReadsCodex env path sourceRootKey file o s lines es b t)
    (hnone : ∀ e ∈ es, e.accounting = none) :
    t.1.generationTransitionPending =
      (s.1.generationTransitionPending || lines.any (lifecycleStripped env)) := by
  induction h with
  | stop o s => simp
  | quiet _ hconsumed _ ih =>
    obtain ⟨hpending, hline⟩ := consume_quiet hconsumed
    rw [ih hnone, hpending, List.any_cons, hline, Bool.false_or]
  | emit _ hconsumed _ ih =>
    have he := hnone _ (List.mem_cons_self ..)
    rw [ih fun e he => hnone e (List.mem_cons_of_mem _ he), consume_emit hconsumed, he,
      Option.isSome_none, if_neg Bool.false_ne_true, List.any_cons, Bool.or_assoc]

theorem reads_ge (h : ReadsCodex env path sourceRootKey file o s lines es b t) : ∀ e ∈ es, o ≤ e.lineOffset := by
  induction h with
  | stop o s => exact fun e he => by cases he
  | quiet _ _ _ ih => exact fun e he => (Nat.le_add_right _ _).trans (ih e he)
  | emit _ hconsumed _ ih =>
    intro e he
    rcases List.mem_cons.mp he with rfl | he
    · exact le_of_eq (lineOffset_consume env path sourceRootKey _ _ _ _ _ hconsumed).symm
    · exact (Nat.le_add_right _ _).trans (ih e he)

theorem reads_after (h : ReadsCodex env path sourceRootKey file o s lines es b t) {after : Nat}
    (haccepted : ∃ e ∈ es, e.lineOffset = after ∧ e.accounting.isSome = true)
    (hlast : ∀ e ∈ es, after < e.lineOffset → e.accounting = none) :
    LineReader.Complete newline (LineReader.readline newline (file.drop after)) ∧
      ∃ rest es' s', ReadsCodex env path sourceRootKey file
        (after + (LineReader.readline newline (file.drop after)).length) s' rest es' b t ∧
        s'.1.generationTransitionPending = false ∧ ∀ e ∈ es', e.accounting = none := by
  induction h with
  | stop o s =>
    obtain ⟨e, he, -⟩ := haccepted
    cases he
  | quiet _ _ _ ih => exact ih haccepted hlast
  | @emit o s s' e₀ lines es b t hline hconsumed hrest ih =>
    have hat := lineOffset_consume env path sourceRootKey _ _ _ _ _ hconsumed
    have hpos := LineReader.readline_pos hline
    have hge := reads_ge hrest
    obtain ⟨e, he, heat, hesome⟩ := haccepted
    rcases List.mem_cons.mp he with rfl | he
    · obtain rfl : o = after := hat.symm.trans heat
      refine ⟨hline, lines, es, s', hrest, ?_, fun e' he' => hlast e' (List.mem_cons_of_mem _ he') ?_⟩
      · rw [consume_emit hconsumed, if_pos hesome]
      · have := hge e' he'
        omega
    · exact ih ⟨e, he, heat, hesome⟩ fun e' he' => hlast e' (List.mem_cons_of_mem _ he')

theorem scanGap_eq (h : ReadsCodex env path sourceRootKey file o s lines es b t) : ∀ n, file.length < n + o →
    scanGap env file b n o = lines.any (lifecycleLine env) := by
  have hstop : ∀ n o, scanGap env file o n o = false := by
    intro n o
    cases n with
    | zero => rfl
    | succ n => rw [scanGap, if_neg (lt_irrefl o)]
  have hstep : ∀ {o b n : Nat} {lines : List (List UInt8)},
      LineReader.Complete newline (LineReader.readline newline (file.drop o)) →
      o + (LineReader.readline newline (file.drop o)).length ≤ b → file.length < n + o →
      (∀ m, file.length < m + (o + (LineReader.readline newline (file.drop o)).length) →
        scanGap env file b m (o + (LineReader.readline newline (file.drop o)).length) =
          lines.any (lifecycleLine env)) →
      scanGap env file b n o = (LineReader.readline newline (file.drop o) :: lines).any (lifecycleLine env) := by
    intro o b n lines hline hle hn ih
    have hpos := LineReader.readline_pos hline
    have hin : (LineReader.readline newline (file.drop o)).length ≤ file.length - o := by
      rw [← List.length_drop]
      exact (LineReader.prefix_readline newline _).length_le
    cases n with
    | zero => omega
    | succ n =>
      simp only [scanGap]
      rw [if_pos (by omega), if_neg (not_not.mpr hline), if_neg (by omega), ih n (by omega), List.any_cons]
      cases lifecycleLine env (LineReader.readline newline (file.drop o)) <;> rfl
  induction h with
  | stop o s => exact fun n _ => hstop n o
  | quiet hline _ hrest ih => exact fun n hn => hstep hline hrest.le hn ih
  | emit hline _ hrest ih => exact fun n hn => hstep hline hrest.le hn ih

end

def Spells (env : Env) : Prop :=
  ∀ text value, env.loads text = some value → env.strip text ≠ "" ∧ env.loads (env.strip text) = some value

theorem lifecycleStripped_of_line {env : Env} (h : Spells env) {line : List UInt8} (hline : lifecycleLine env line = true) :
    lifecycleStripped env line = true := by
  unfold lifecycleLine at hline
  unfold lifecycleStripped
  split at hline
  · rename_i text hdecode
    unfold lifecycleText at hline
    split at hline
    · rename_i obj hloads
      obtain ⟨hne, hstripped⟩ := h text _ hloads
      simp [hne, lifecycleText, hstripped, hline]
    · cases hline
  · cases hline

/-- **The mark the gap reader finds is the parser's exactly when a lifecycle record behind the
accepted row, if there is one, is not only there with white space around it that JSON does not know.** -/
theorem codexGenerationTransitionBetween_iff (env : Env) (hspells : Spells env) (path : String)
    (sourceRootKey : Option String) (initial : Initial) (file : List UInt8) (session : LineReader.Session) (offset : Nat)
    (state : CodexIterState) (after before : Nat)
    (hraised : (iterCodexFusedRecordsWithOffsets env path sourceRootKey initial file [session] offset state).raised = none)
    (hbefore : (iterCodexFusedRecordsWithOffsets env path sourceRootKey initial file [session] offset state).offset = before)
    (haccepted : ∃ e ∈ (iterCodexFusedRecordsWithOffsets env path sourceRootKey initial file [session] offset
      state).emitted, e.lineOffset = after ∧ e.accounting.isSome = true)
    (hlast : ∀ e ∈ (iterCodexFusedRecordsWithOffsets env path sourceRootKey initial file [session] offset
      state).emitted, after < e.lineOffset → e.accounting = none) :
    codexGenerationTransitionBetween env (some file) after before =
        (iterCodexFusedRecordsWithOffsets env path sourceRootKey initial file [session] offset
          state).state.1.generationTransitionPending ↔
      ((∃ line ∈ LineReader.linesBetween newline file after before, lifecycleStripped env line = true) →
        ∃ line ∈ LineReader.linesBetween newline file after before, lifecycleLine env line = true) := by
  unfold iterCodexFusedRecordsWithOffsets at *
  rw [LineReader.resume_one] at *
  obtain ⟨lines, hreads⟩ := LineReader.reads_of_drain session _ _ _ hraised
  rw [LineReader.read] at hbefore haccepted hlast ⊢
  rw [hbefore] at hreads
  obtain ⟨hline, rest, es, s', hrest, hfalse, hnone⟩ := reads_after hreads haccepted hlast
  have hpos := LineReader.readline_pos hline
  have hle := hrest.le
  have hbetween : LineReader.linesBetween newline file after before = rest := by
    rw [LineReader.linesBetween, LineReader.linesFrom, if_pos (by omega), List.tail_cons]
    exact hrest.linesFrom _ (by omega)
  have hgap : codexGenerationTransitionBetween env (some file) after before = rest.any (lifecycleLine env) := by
    have hguard : ¬((after : Int) < 0 ∨ (before : Int) ≤ after) := by omega
    rw [codexGenerationTransitionBetween, if_neg hguard]
    exact scanGap_eq hrest _ (by omega)
  rw [hbetween, hgap, reads_pending hrest hnone, hfalse, Bool.false_or]
  constructor
  · rintro heq ⟨line, hmem, hseen⟩
    have hany : rest.any (lifecycleLine env) = true := heq.trans (List.any_eq_true.mpr ⟨line, hmem, hseen⟩)
    exact List.any_eq_true.mp hany
  · intro h
    rw [Bool.eq_iff_iff, List.any_eq_true, List.any_eq_true]
    refine ⟨fun hline => ?_, h⟩
    obtain ⟨line, hmem, hseen⟩ := hline
    exact ⟨line, hmem, lifecycleStripped_of_line hspells hseen⟩

/-! ## A worked gap -/

def acceptedText : String :=
  "\x7b\"type\":\"event_msg\",\"timestamp\":\"2026-01-01T00:00:00Z\",\"payload\":\x7b\"type\":\"token_count\"," ++
    "\"info\":\x7b\"last_token_usage\":\x7b\x7d\x7d\x7d\x7d"

def turnText : String := "\x7b\"type\":\"turn_context\"\x7d"

def stripBy (space : List Char) (s : String) : String :=
  String.ofList ((s.toList.dropWhile (· ∈ space)).reverse.dropWhile (· ∈ space)).reverse

def jsonSpace : List Char := [' ', '\t', '\n', '\r']

def textSpace : List Char := ['\x0b', '\x0c', '\u0085', '\u00a0'] ++ jsonSpace

def gapEnv : Env where
  texts := emptyTexts
  strip := stripBy textSpace
  loads s :=
    if stripBy jsonSpace s = stripBy textSpace s then
      if stripBy textSpace s = acceptedText then
        some (.obj [("payload", .obj [("info", .obj [("last_token_usage", .obj [])]), ("type", .str "token_count")]),
          ("timestamp", .str "2026-01-01T00:00:00Z"), ("type", .str "event_msg")])
      else if stripBy textSpace s = turnText then some (.obj [("type", .str "turn_context")])
      else none
    else none
  fromisoformat s := if s = "2026-01-01T00:00:00+00:00" then some 1767225600000000 else none
  isoformatZ _ := "2026-01-01T00:00:00Z"
  fromtimestamp _ := none
  float
    | .num n => some n
    | _ => none
  trunc _ := 0
  int _ := none
  encodeIdentity _ := ""
  filenameUuid _ := none

theorem spells_gapEnv : Spells gapEnv := by
  intro text value h
  have hstrip : gapEnv.strip text = stripBy textSpace text := rfl
  rw [hstrip]
  unfold gapEnv at h ⊢
  dsimp only at h
  split at h
  · split at h
    · rename_i htext
      rw [htext]
      cases h
      exact ⟨by decide +kernel, by decide +kernel⟩
    · split at h
      · rename_i htext
        rw [htext]
        cases h
        exact ⟨by decide, by decide⟩
      · cases h
  · cases h

def gapFile (line : String) : List UInt8 := (acceptedText ++ "\n" ++ line ++ "\n").toUTF8.data.toList

def gapRun (line : String) : LineReader.Run (CodexIterState × Locals) CodexFusedEmission Raised :=
  iterCodexFusedRecordsWithOffsets gapEnv "rollout.jsonl" none ⟨some "session", some "gpt", 0⟩ (gapFile line)
    [LineReader.whole (gapFile line)] 0 .fresh

def gapSummary (r : LineReader.Run (CodexIterState × Locals) CodexFusedEmission Raised) :
    Option Raised × Nat × List (Nat × Bool) × Bool :=
  (r.raised, r.offset, r.emitted.map fun e => (e.lineOffset, e.accounting.isSome),
    r.state.1.generationTransitionPending)

theorem gapRun_turn : gapSummary (gapRun turnText) = (none, 144, [(0, true), (120, false)], true) := by
  decide +kernel

theorem gapRun_formFeed :
    gapSummary (gapRun ("\x0c" ++ turnText)) = (none, 145, [(0, true), (120, false)], true) := by
  decide +kernel

theorem of_gapSummary {r : LineReader.Run (CodexIterState × Locals) CodexFusedEmission Raised} {before : Nat}
    {mark : Bool} (h : gapSummary r = (none, before, [(0, true), (120, false)], mark)) :
    r.raised = none ∧ r.offset = before ∧ (∃ e ∈ r.emitted, e.lineOffset = 0 ∧ e.accounting.isSome = true) ∧
      (∀ e ∈ r.emitted, 0 < e.lineOffset → e.accounting = none) ∧ r.state.1.generationTransitionPending = mark := by
  simp only [gapSummary, Prod.mk.injEq] at h
  obtain ⟨hraised, hoffset, hrows, hmark⟩ := h
  refine ⟨hraised, hoffset, ?_, fun e he hpos => ?_, hmark⟩
  · have hmem : (0, true) ∈ r.emitted.map fun e => (e.lineOffset, e.accounting.isSome) := by
      rw [hrows]; exact List.mem_cons_self ..
    obtain ⟨e, he, heq⟩ := List.mem_map.mp hmem
    obtain ⟨hat, hsome⟩ := Prod.mk.inj heq
    exact ⟨e, he, hat, hsome⟩
  · have hmem := List.mem_map_of_mem (f := fun e : CodexFusedEmission => (e.lineOffset, e.accounting.isSome)) he
    rw [hrows] at hmem
    simp only [List.mem_cons, List.not_mem_nil, or_false, Prod.mk.injEq] at hmem
    rcases hmem with ⟨hat, -⟩ | ⟨-, hnone⟩
    · omega
    · exact Option.not_isSome_iff_eq_none.mp (by rw [hnone]; exact Bool.false_ne_true)

theorem codexGenerationTransitionBetween_turn :
    codexGenerationTransitionBetween gapEnv (some (gapFile turnText)) (0 : Nat) (144 : Nat) =
      (gapRun turnText).state.1.generationTransitionPending := by
  have hrun := gapRun_turn
  unfold gapRun at hrun ⊢
  obtain ⟨hraised, hoffset, haccepted, hlast, -⟩ := of_gapSummary hrun
  have hiff := codexGenerationTransitionBetween_iff gapEnv spells_gapEnv "rollout.jsonl" none
    ⟨some "session", some "gpt", 0⟩ (gapFile turnText) (LineReader.whole (gapFile turnText)) 0 .fresh 0 144 hraised
    hoffset haccepted hlast
  exact hiff.mpr fun _ => List.any_eq_true.mp (by decide +kernel)

/-- A `turn_context` behind a form feed sets the parser's mark, and the gap reader does not see it. -/
theorem codexGenerationTransitionBetween_formFeed :
    gapSummary (gapRun ("\x0c" ++ turnText)) = (none, 145, [(0, true), (120, false)], true) ∧
      codexGenerationTransitionBetween gapEnv (some (gapFile ("\x0c" ++ turnText))) 0 145 = false :=
  ⟨gapRun_formFeed, by decide +kernel⟩

end Cctally.CodexIter
