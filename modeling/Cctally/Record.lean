import Cctally.FiveHourLineage

/-!
# Records and payloads

An event record as the planner reads it, with the payload it holds. Two records
are one decision when their id, their time and their payload agree.
-/

namespace Cctally.Rederive

open Json (field fieldD setField)

/-- What the planner takes from outside, beside what the lineage does: `str(value)`, `json.dumps(value,
sort_keys=True)` in its wide and its compact spelling, the UTC spelling of a text that names an instant with its
offset, `int(text)`, the difference of two amounts, and the text blocks are sorted by. -/
structure Env extends FiveHour.Env where
  str : Json → String
  dumps : Json → String
  compact : Json → String
  instant : String → Option String
  int? : String → Option Int
  minus : Json → Json → Json
  repr : Json.Scalar × Json.Scalar → String

/-- A record whose payload is a dictionary, or empty or missing and read as `{}`. -/
structure Record where
  fields : Json.Fields
  payload : Json.Fields
  ordered : Json.InOrder fields
  reads : field fields "payload" = .obj payload ∨ (field fields "payload").truthy = false ∧ payload = []

namespace Record

def id (r : Record) : Json := field r.fields "id"

def at_ (r : Record) : Json := field r.fields "at"

def kind (r : Record) : Json := field r.payload "kind"

def withPayload (r : Record) (payload : Json.Fields) : Record :=
  ⟨setField "payload" (.obj payload) r.fields, payload, Json.inOrder_setField _ _ r.ordered,
    .inl (Json.field_setField_self ..)⟩

@[simp] theorem withPayload_payload (r : Record) (payload : Json.Fields) : (r.withPayload payload).payload = payload :=
  rfl

@[simp] theorem withPayload_id (r : Record) (payload : Json.Fields) : (r.withPayload payload).id = r.id :=
  Json.field_setField_ne (by decide) _ _

@[simp] theorem withPayload_at (r : Record) (payload : Json.Fields) : (r.withPayload payload).at_ = r.at_ :=
  Json.field_setField_ne (by decide) _ _

def isKind (r : Record) (kind : String) : Bool :=
  match r.kind with
  | .str k => k = kind
  | _ => false

def isClosed (r : Record) : Bool := (field r.payload "is_closed").eqInt 1

end Record

def semanticEvent (r : Record) : Json := .obj [("at", r.at_), ("id", r.id), ("payload", .obj r.payload)]

abbrev BlockKey := Json.Scalar × Json.Scalar

instance lawfulBlockKey : LawfulBEq BlockKey := inferInstance

section
variable (env : Env)

def sameEvent (a b : Record) : Bool := Json.same env.fl (semanticEvent a) (semanticEvent b)

theorem sameEvent_refl (r : Record) : sameEvent env r r = true := Json.same_refl env.fl _

/-- `_hashable_block`: what a set of blocks knows a payload's block by. -/
def hashableBlock (payload : Json.Fields) : Option BlockKey :=
  match Json.key env.fl (field payload "account_key"), Json.key env.fl (field payload "five_hour_window_key") with
  | some account, some window => some (account, window)
  | _, _ => none

def Record.block (r : Record) : Option BlockKey := hashableBlock env r.payload

def fiveHourBlock (payload : Json.Fields) : Py BlockKey :=
  match hashableBlock env payload with
  | some block => .ok block
  | none => .error .type

end

/-- What `for item in value` visits. -/
def items : Json → Py (List Json)
  | .arr xs => .ok xs
  | .obj fields => .ok (fields.map fun p => .str p.1)
  | .str s => .ok (s.toList.map fun c => .str (String.singleton c))
  | _ => .error .type

def asDict : Json → Py Json.Fields
  | .obj fields => .ok fields
  | _ => .error .type

def dictOr (value : Json) : Py Json.Fields := if value.truthy then asDict value else .ok []

def itemsOr (value : Json) : Py (List Json) := if value.truthy then items value else .ok []

section
variable (env : Env)

def hashed (value : Json) : Py Json.Scalar :=
  match Json.key env.fl value with
  | some k => .ok k
  | none => .error .type

def hashedSet (values : List Json) : Py (Finset Json.Scalar) := return (← values.mapM (hashed env)).toFinset

def positiveInt (value : Json) : Py Bool :=
  if !value.truthy then .ok false
  else
    match value with
    | .num n => .ok (decide (0 < n))
    | .bool b => .ok b
    | .float r =>
      match env.fl.value r with
      | some q => .ok (decide (1 ≤ q))
      | none => .error (.value "cannot convert float to integer")
    | .str s =>
      match env.int? s with
      | some n => .ok (decide (0 < n))
      | none => .error (.value "invalid literal for int()")
    | _ => .error .type

def contains (value item : Json) : Py Bool :=
  if !value.truthy then .ok false
  else
    match value with
    | .arr xs => .ok (xs.any fun x => Json.same env.fl x item)
    | .obj fields => do
      let k ← hashed env item
      return fields.any fun p => k = .str p.1
    | .str text =>
      match item with
      | .str s => .ok (text.toList.tails.any s.toList.isPrefixOf)
      | _ => .error .type
    | _ => .error .type

def totalMoves (before after : Record) : Bool :=
  FiveHour.usableAmount env.toEnv (field before.payload "total_cost_usd") &&
    FiveHour.usableAmount env.toEnv (field after.payload "total_cost_usd") &&
    env.fl.drifts (field before.payload "total_cost_usd") (field after.payload "total_cost_usd")

end

end Cctally.Rederive
