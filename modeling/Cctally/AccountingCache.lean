import Cctally.AccountingLedger

/-!
# The accounting population

The entries of a range are loaded once, and then only those of the paths that the ledger
marks, that the moving upper bound reveals or that are forced. Whatever cannot be told
apart so is loaded whole. Each population that is not the one before it has a new token.
-/

namespace Cctally.Accounting

def MAX_DIRTY_PATHS : Nat := 300

/-- What the caller passes: how a row loads, and what is read of a loaded entry. The order
of two entries is settled by their identity, which is the row's own. -/
structure Callbacks (X T V E K I : Type) where
  render : X → Row T V → E
  pathOf : E → Key
  accountOf : E → String
  orderKey : E → K
  identityOf : E → I
  path_render : ∀ x r, pathOf (render x r) = r.key
  identity_render : ∀ x r r', identityOf (render x r) = identityOf (render x r') → r.id = r'.id
  identity_order : ∀ e e', orderKey e = orderKey e' → identityOf e = identityOf e'

structure Signature (X T : Type) where
  database : String
  seq : Nat
  generation : Nat
  start : T
  extra : X
  attributionRevision : Option String

/-- `_CODEX_ACCOUNTING_CACHE_STATE`, when it is not empty. -/
structure State (X T E : Type) where
  entries : List E
  seq : Nat
  start : T
  end_ : T
  extra : X
  generation : Nat
  signature : Option (Signature X T)
  token : Nat
  forced : List Key

/-- The state, `codex_requalify_all`, and the tokens: the next one and the last consumed. -/
structure Process (X T E : Type) where
  state : Option (State X T E)
  requalifyAll : Bool
  nextToken : Nat
  consumed : Option Nat

structure Request (X T : Type) where
  start : T
  end_ : T
  extra : X
  database : Option String
  attributionRevision : Option String
  noLedger : Bool
  changesFail : Bool
  revealFails : Bool
  loadFails : Bool

structure Result (X T E : Type) where
  entries : List E
  dirtyPaths : List Key
  dirtyAccounts : List String
  cold : Bool
  changedOld : List E
  changedNew : List E
  signature : Option (Signature X T)
  token : Nat
  baseSignature : Option (Signature X T)
  baseToken : Option Nat

section
variable {X T V E K I : Type} [LinearOrder T]

def inRange (start end_ : T) (r : Row T V) : Bool := start ≤ r.timestamp && r.timestamp < end_

def loadAll (c : Callbacks X T V E K I) (s : Store T V) (extra : X) (start end_ : T) : List E :=
  (s.rows.filter (inRange start end_)).map (c.render extra)

def loadPaths (c : Callbacks X T V E K I) (s : Store T V) (extra : X) (start end_ : T) (paths : List Key) : List E :=
  (s.rows.filter fun r => inRange start end_ r && decide (r.key ∈ paths)).map (c.render extra)

def sortEntries [LinearOrder K] (c : Callbacks X T V E K I) (entries : List E) : List E :=
  entries.insertionSort fun e e' => c.orderKey e ≤ c.orderKey e'

def currentSeq (s : Store T V) (q : Request X T) : Option Nat := if q.noLedger then none else some s.mutationSeq

def retained [DecidableEq X] (s : Store T V) (p : Process X T E) (q : Request X T) : Option (State X T E × Nat) :=
  match currentSeq s q, p.state with
  | some current, some st =>
    if p.requalifyAll || st.extra ≠ q.extra || st.start ≠ q.start || q.end_ < st.end_ || current < st.seq then none
    else some (st, current)
  | _, _ => none

def marked (s : Store T V) (q : Request X T) (st : State X T E) (current : Nat) : Option (List Key) :=
  if st.seq < current then
    if q.changesFail then none
    else
      let changes := s.log.filter fun m => st.seq < m.mutationSeq
      match changes.head?, changes.getLast? with
      | some first, some last =>
        if st.seq + 1 < first.mutationSeq || last.mutationSeq ≠ current || changes.any (·.key.isNone) then none
        else some (changes.filterMap (·.key))
      | _, _ => none
  else some []

def revealed (s : Store T V) (q : Request X T) (st : State X T E) : Option (List Key) :=
  if st.end_ < q.end_ then
    if q.revealFails then none else some ((s.rows.filter (inRange st.end_ q.end_)).map (·.key))
  else some []

def dirty [DecidableEq X] (s : Store T V) (p : Process X T E) (q : Request X T) : Option (State X T E × Nat × List Key) :=
  match retained s p q with
  | none => none
  | some (st, current) =>
    match marked s q st current, revealed s q st with
    | some fromLedger, some fromBound =>
      let paths := sortedSet (fromLedger ++ fromBound ++ st.forced)
      if MAX_DIRTY_PATHS < paths.length then none else some (st, current, paths)
    | _, _ => none

/-! ## Building -/

def signatureOf (q : Request X T) (seq : Option Nat) (generation : Nat) : Option (Signature X T) :=
  match seq, q.database with
  | some seq, some database => some ⟨database, seq, generation, q.start, q.extra, q.attributionRevision⟩
  | _, _ => none

def changed [DecidableEq E] [DecidableEq I] (c : Callbacks X T V E K I) (these those : List E) : List E :=
  let other := Dict.ofList (those.map fun e => (c.identityOf e, e))
  ((Dict.ofList (these.map fun e => (c.identityOf e, e))).entries.filter fun p => other.get? p.1 ≠ some p.2).map Prod.snd

section
variable [DecidableEq X] [DecidableEq E] [DecidableEq I] [LinearOrder K]

/-- `build_cached_codex_accounting`, without `finalize_entries`; no result is a raise. -/
def build (c : Callbacks X T V E K I) (s : Store T V) (p : Process X T E) (q : Request X T) :
    Process X T E × Option (Result X T E) :=
  if q.end_ ≤ q.start then (p, none)
  else
    match dirty s p q with
    | none =>
      if q.loadFails then (p, none)
      else
        let prior := (p.state.map (·.entries)).getD []
        let entries := sortEntries c (loadAll c s q.extra q.start q.end_)
        let generation := (p.state.map (·.generation)).getD 0 + 1
        let signature := signatureOf q (currentSeq s q) generation
        ({ state := some
            { entries := entries
              seq := (currentSeq s q).getD 0
              start := q.start
              end_ := q.end_
              extra := q.extra
              generation := generation
              signature := signature
              token := p.nextToken
              forced := [] }
           requalifyAll := false
           nextToken := p.nextToken + 1
           consumed := some p.nextToken },
          some
            { entries := entries
              dirtyPaths := []
              dirtyAccounts := sortedSet ((prior ++ entries).map c.accountOf)
              cold := true
              changedOld := prior
              changedNew := entries
              signature := signature
              token := p.nextToken
              baseSignature := none
              baseToken := none })
    | some (st, current, []) =>
      -- a ledger that moved without a path is a population renamed
      let token := if current = st.seq then st.token else p.nextToken
      let signature := signatureOf q (some current) st.generation
      ({ p with
          state := some
            { st with
              seq := current
              end_ := q.end_
              signature := signature
              token := token }
          nextToken := if current = st.seq then p.nextToken else p.nextToken + 1
          consumed := some token },
        some
          { entries := st.entries
            dirtyPaths := []
            dirtyAccounts := []
            cold := false
            changedOld := []
            changedNew := []
            signature := signature
            token := token
            baseSignature := st.signature
            baseToken := some st.token })
    | some (st, current, paths) =>
      if q.loadFails then (p, none)
      else
        let priorDirty := st.entries.filter fun e => decide (c.pathOf e ∈ paths)
        let replacements := loadPaths c s q.extra q.start q.end_ paths
        let entries := sortEntries c ((st.entries.filter fun e => decide (c.pathOf e ∉ paths)) ++ replacements)
        let changedOld := changed c priorDirty replacements
        let changedNew := changed c replacements priorDirty
        let generation := st.generation + 1
        let signature := signatureOf q (some current) generation
        ({ p with
            state := some
              { st with
                entries := entries
                seq := current
                end_ := q.end_
                generation := generation
                signature := signature
                token := p.nextToken
                forced := [] }
            nextToken := p.nextToken + 1
            consumed := some p.nextToken },
          some
            { entries := entries
              dirtyPaths := paths
              dirtyAccounts := sortedSet ((changedOld ++ changedNew).map c.accountOf)
              cold := false
              changedOld := changedOld
              changedNew := changedNew
              signature := signature
              token := p.nextToken
              baseSignature := st.signature
              baseToken := some st.token })

end

/-- `reset_codex_accounting_cache_state`: forced paths that are discarded are remembered as all. -/
def reset (p : Process X T E) : Process X T E :=
  { p with
    state := none
    requalifyAll := p.requalifyAll || p.state.any fun st => st.forced ≠ [] }

def force (c : Callbacks X T V E K I) (p : Process X T E) (select : E → Bool) : Process X T E :=
  { p with state := p.state.map fun st =>
      { st with forced := (st.forced ++ (st.entries.filter select).map c.pathOf).dedup } }

/-- `restore_codex_accounting_cache_state`; an empty checkpoint is an empty state. -/
def restore (p : Process X T E) (checkpoint : Option (State X T E)) : Process X T E := { p with state := checkpoint }

inductive Event (X T V E : Type)
  | statement (statement : Statement T V)
  | prune (retainSequences : Nat) (maxRows : Option Nat)
  | capture (request : Request X T)
  | force (select : E → Bool)
  | checkpoint
  | restore (index : Nat)
  | reset

structure Call (X T V E : Type) where
  store : Store T V
  request : Request X T
  before : Process X T E
  after : Process X T E
  result : Option (Result X T E)

structure World (X T V E : Type) where
  store : Store T V
  process : Process X T E
  checkpoints : List (Option (State X T E))
  calls : List (Call X T V E)

def World.start : World X T V E := ⟨.empty, ⟨none, false, 1, none⟩, [], []⟩

variable [DecidableEq X] [DecidableEq V] [DecidableEq E] [DecidableEq I] [LinearOrder K]

def World.step (c : Callbacks X T V E K I) (w : World X T V E) : Event X T V E → World X T V E
  | .statement statement => { w with store := w.store.run statement }
  | .prune retainSequences maxRows => { w with store := w.store.prune retainSequences maxRows }
  | .capture q =>
    let built := build c w.store w.process q
    { w with
      process := built.1
      calls := ⟨w.store, q, w.process, built.1, built.2⟩ :: w.calls }
  | .force select => { w with process := force c w.process select }
  | .checkpoint => { w with checkpoints := w.checkpoints ++ [w.process.state] }
  | .restore index =>
    match w.checkpoints[index]? with
    | none => w
    | some checkpoint => { w with process := restore w.process checkpoint }
  | .reset => { w with process := reset w.process }

def World.run (c : Callbacks X T V E K I) (w : World X T V E) (events : List (Event X T V E)) : World X T V E :=
  events.foldl (World.step c) w

end

end Cctally.Accounting
