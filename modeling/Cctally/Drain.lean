import Cctally.Dict
import Mathlib.Data.String.Basic

/-!
# The startup drain

The evaluator behind the admission hold: it hears every accounting tick and
every completed conversation pass, and names the first pass that ends the
startup. The counts a status record shows are not part of it.
-/

namespace Cctally.Drain

structure Target where
  generation : Option String
  completeLineEnd : Option Int
  acceptedGeneration : Option String
  acceptedEnd : Option Int
  state : Option String
  reason : Option String

structure KeyFacts where
  required : Option Int
  certificate : Option Int
  published : Option Int
  repair : Option Int

structure RawFacts where
  target : Option Target
  membership : List String
  keys : Dict String KeyFacts

structure Anchor where
  generation : Option String
  lineEnd : Int
  required : List (String × Int)
  deriving DecidableEq

def bindRequired (facts : Dict String KeyFacts) (key : String) : Option (String × Int) := do
  let found ← facts.get? key
  let revision ← found.required
  return (key, revision)

def resolveAnchor (keys : List String) (raw : RawFacts) : Option Anchor := do
  let target ← raw.target
  let lineEnd ← target.completeLineEnd
  if target.acceptedGeneration ≠ target.generation then none
  else
    let required ← (sortedSet (keys ++ raw.membership)).mapM (bindRequired raw.keys)
    return ⟨target.generation, lineEnd, required⟩

def cap (value : Option Int) (limit : Int) : Option Int := value.map (min · limit)

inductive Clipped where
  | resolved (same : Bool) (state reason : Option String) (accepted : Option Int)
      (perKey : List (String × Option Int × Option Int × Option Int))
  | unresolved (generation state reason : Option String) (complete : Bool) (acceptedGeneration : Option String)
      (keys : List String)
  deriving DecidableEq

def acceptedEnd (anchor : Anchor) (target : Target) : Option Int :=
  if target.generation = anchor.generation ∧ target.acceptedGeneration = anchor.generation then
    target.acceptedEnd.map (min · anchor.lineEnd)
  else none

def keyProgress (facts : Dict String KeyFacts) (required : String × Int) :
    String × Option Int × Option Int × Option Int :=
  let found := (facts.get? required.1).getD ⟨none, none, none, none⟩
  (required.1, cap found.certificate required.2, cap found.published required.2, cap found.repair required.2)

def clippedFacts (keys : List String) (anchor : Option Anchor) (raw : Option RawFacts) : Clipped :=
  let target := raw.bind RawFacts.target
  match anchor with
  | some anchor =>
    let facts := (raw.map RawFacts.keys).getD Dict.empty
    .resolved (target.any fun t => t.generation = anchor.generation) (target.bind Target.state)
      (target.bind Target.reason) (target.bind (acceptedEnd anchor)) (anchor.required.map (keyProgress facts))
  | none =>
    match target with
    | none => .unresolved none none none false none (sortedSet keys)
    | some t => .unresolved t.generation t.state t.reason t.completeLineEnd.isSome t.acceptedGeneration
        (sortedSet (keys ++ ((raw.map RawFacts.membership).getD [])))

def publishedAt (facts : Dict String KeyFacts) (required : String × Int) : Bool :=
  match (facts.get? required.1).bind KeyFacts.published with
  | none => false
  | some published => required.2 ≤ published

def discharged (anchor : Option Anchor) (raw : Option RawFacts) : Bool :=
  match anchor, raw with
  | some anchor, some raw => !anchor.required.isEmpty && anchor.required.all (publishedAt raw.keys)
  | _, _ => false

/-! ## Residuals -/

section
variable (ν : Type)

abbrev Residual := List (String × ν)

inductive Part where
  | provider (residual : Residual ν)
  | accounting (residuals : List (String × Residual ν))

structure Digest where
  parts : List (String × Part ν)
  facts : List (String × Clipped)

structure Deferral where
  identity : Option String
  covered : Bool
  keys : List String

structure ProviderEntry where
  mode : Option String
  residual : Option (Residual ν)

structure PassInfo where
  counted : Bool
  censusComplete : Bool
  certifiable : Bool
  providers : Dict String (ProviderEntry ν)
  deferrals : Option (Dict String Deferral)
  facts : Dict String RawFacts

structure StartupDrain where
  firstCompleteEndNs : Option Int
  accounting : Dict String (Residual ν)
  accountingSeen : Bool
  chainBroken : Bool
  components : Dict String (Residual ν)
  deferrals : Dict String Deferral
  tracked : Dict String (Option String × List String)
  anchors : Dict String Anchor
  obligations : List String
  previousDigest : Option (Digest ν)
  digest : Digest ν

inductive Verdict where
  | drained
  | settled
  deriving DecidableEq

inductive Call where
  | accounting (endedNs : Int) (censusComplete : Bool) (residuals : Dict String (Option (Residual ν)))
  | pass (info : PassInfo ν)

end

variable {ν : Type}

deriving instance DecidableEq for Part
deriving instance DecidableEq for Digest

def Part.isEmpty : Part ν → Bool
  | .provider residual => residual.isEmpty
  | .accounting residuals => residuals.isEmpty

def residualDigest (providerResults : Dict String (Part ν)) (deferralFacts : Dict String Clipped) : Digest ν :=
  ⟨(providerResults.entries.filter fun p => !p.2.isEmpty).insertionSort fun a b => a.1 ≤ b.1,
    deferralFacts.entries.insertionSort fun a b => a.1 ≤ b.1⟩

namespace StartupDrain

def fresh : StartupDrain ν :=
  ⟨none, Dict.empty, false, false, Dict.empty, Dict.empty, Dict.empty, Dict.empty, [], none, ⟨[], []⟩⟩

def carry (known : Dict String (Residual ν)) (p : String × Option (Residual ν)) : Dict String (Residual ν) :=
  match p.2 with
  | some residual => known.set p.1 residual
  | none => known

def observeAccounting [DecidableEq ν] (s : StartupDrain ν) (endedNs : Int) (censusComplete : Bool)
    (residuals : Dict String (Option (Residual ν))) : StartupDrain ν :=
  let merged := residuals.entries.foldl carry s.accounting
  -- the merged entries keep the places of the known ones, so equal dictionaries have equal entries
  { s with
    chainBroken := s.chainBroken || (s.accountingSeen && (!censusComplete || merged.entries ≠ s.accounting.entries))
    accountingSeen := true
    accounting := merged
    firstCompleteEndNs := if censusComplete && s.firstCompleteEndNs.isNone then some endedNs else s.firstCompleteEndNs }

def track (tracked : Dict String (Option String × List String)) (p : String × Deferral) :
    Dict String (Option String × List String) :=
  tracked.set p.1 (p.2.identity, p.2.keys ∪ ((tracked.get? p.1).map Prod.snd).getD [])

def owe (obligations : List String) (p : String × Deferral) : List String :=
  if p.2.covered && !p.2.keys.isEmpty then obligations.insert p.1 else obligations

def updateDeferrals (s : StartupDrain ν) (deferrals : Dict String Deferral) : StartupDrain ν :=
  let tracked := deferrals.entries.foldl track s.tracked
  let obligations := deferrals.entries.foldl owe s.obligations
  let dropped := fun path => path ∈ tracked.keys ∧ path ∉ deferrals.keys ∧ path ∉ obligations
  { s with
    deferrals := deferrals
    obligations := obligations
    tracked := tracked.filter fun path _ => ¬ dropped path
    anchors := s.anchors.filter fun path _ => ¬ dropped path }

def component (components : Dict String (Residual ν)) (p : String × ProviderEntry ν) : Dict String (Residual ν) :=
  match p.2.residual with
  | none => components
  | some residual => if p.2.mode = some "caught_up" then components else components.set p.1 residual

def absorb (s : StartupDrain ν) (info : PassInfo ν) : StartupDrain ν :=
  let s := { s with components := info.providers.entries.foldl component s.components }
  match info.deferrals with
  | none => s
  | some deferrals => s.updateDeferrals deferrals

def anchor (facts : Dict String RawFacts) (anchors : Dict String Anchor)
    (p : String × Option String × List String) : Dict String Anchor :=
  match anchors.get? p.1, (facts.get? p.1).bind (resolveAnchor p.2.2) with
  | none, some a => anchors.set p.1 a
  | _, _ => anchors

def discharge (s : StartupDrain ν) (facts : Dict String RawFacts) : StartupDrain ν :=
  let anchors := s.tracked.entries.foldl (anchor facts) s.anchors
  { s with
    anchors := anchors
    obligations := s.obligations.filter fun path => !discharged (anchors.get? path) (facts.get? path) }

def clipped (s : StartupDrain ν) (facts : Dict String RawFacts) (path : String) : Clipped :=
  clippedFacts (((s.tracked.get? path).map Prod.snd).getD []) (s.anchors.get? path) (facts.get? path)

def residual (s : StartupDrain ν) (facts : Dict String RawFacts) : Digest ν :=
  let unpublished := sortedSet (s.deferrals.keys ++ s.obligations)
  let accounting := (s.accounting.entries.filter fun p => !p.2.isEmpty).insertionSort fun a b => a.1 ≤ b.1
  residualDigest ((s.components.mapValues Part.provider).set "accounting" (.accounting accounting))
    (Dict.ofList (unpublished.map fun path => (path, s.clipped facts path)))

def worked (s : StartupDrain ν) (info : PassInfo ν) : StartupDrain ν :=
  let s := s.absorb info
  if info.counted then s.discharge info.facts else s

def judged (s : StartupDrain ν) (info : PassInfo ν) : StartupDrain ν :=
  let s := s.worked info
  { s with
    digest := s.residual info.facts
    previousDigest := if s.chainBroken then none else s.previousDigest
    chainBroken := false }

def observe [DecidableEq ν] (s : StartupDrain ν) (info : PassInfo ν) : StartupDrain ν × Option Verdict :=
  let s := s.judged info
  if !info.counted || !info.censusComplete then ({ s with previousDigest := none }, none)
  else if info.certifiable && s.obligations.isEmpty && s.accounting.values.all List.isEmpty then (s, some .drained)
  else if s.digest ≠ ⟨[], []⟩ ∧ some s.digest = s.previousDigest then (s, some .settled)
  else ({ s with previousDigest := some s.digest }, none)

def step [DecidableEq ν] (s : StartupDrain ν) : Call ν → StartupDrain ν × Option Verdict
  | .accounting endedNs censusComplete residuals => (s.observeAccounting endedNs censusComplete residuals, none)
  | .pass info => s.observe info

def after [DecidableEq ν] (calls : List (Call ν)) : StartupDrain ν := calls.foldl (fun s c => (s.step c).1) fresh

end StartupDrain

end Cctally.Drain
