import Cctally.Json
import Mathlib

/-!
# The canonical text of a value

`json.dumps` with sorted keys and no blanks. A list is its elements joined by
single commas, a dictionary its keys and values, so the length of either is a
sum over its parts.
-/

namespace Json

def escape (c : Char) : String :=
  match c.toNat with
  | 0x08 => "\\b"
  | 0x09 => "\\t"
  | 0x0a => "\\n"
  | 0x0c => "\\f"
  | 0x0d => "\\r"
  | 0x22 => "\\\""
  | 0x5c => "\\\\"
  | n =>
    if n < 0x20 then "\\u00" ++ String.ofList [Nat.digitChar (n / 16), Nat.digitChar (n % 16)] else String.singleton c

def quoted (s : String) : String := "\"" ++ String.join (s.toList.map escape) ++ "\""

mutual

def canonicalJson : Json → String
  | .null => "null"
  | .bool b => if b then "true" else "false"
  | .num n => toString n
  | .float r => r
  | .str s => quoted s
  | .arr items => "[" ++ commaItems items ++ "]"
  | .obj fields => "\x7b" ++ commaFields fields ++ "\x7d"

def commaItems : List Json → String
  | [] => ""
  | [x] => canonicalJson x
  | x :: y :: rest => canonicalJson x ++ "," ++ commaItems (y :: rest)

def commaFields : List (String × Json) → String
  | [] => ""
  | [(k, v)] => quoted k ++ ":" ++ canonicalJson v
  | (k, v) :: p :: rest => quoted k ++ ":" ++ canonicalJson v ++ "," ++ commaFields (p :: rest)

end

def encodeLine (record : Json) : List UInt8 := (canonicalJson record).toUTF8.data.toList ++ [10]

def jsonLen (value : Json) : Nat := (canonicalJson value).utf8ByteSize

theorem length_encodeLine (record : Json) : (encodeLine record).length = jsonLen record + 1 := by
  rw [encodeLine, List.length_append, List.length_singleton]
  rfl

def itemsLen (items : List Json) : Nat := (items.map fun x => jsonLen x + 1).sum

theorem itemsLen_append (xs ys : List Json) : itemsLen (xs ++ ys) = itemsLen xs + itemsLen ys := by
  rw [itemsLen, List.map_append, List.sum_append]
  rfl

theorem size_commaItems : ∀ {items : List Json}, items ≠ [] → (commaItems items).utf8ByteSize + 1 = itemsLen items
  | [], h => absurd rfl h
  | [x], _ => by simp only [commaItems, itemsLen, jsonLen, List.map_cons, List.map_nil, List.sum_cons, List.sum_nil,
      Nat.add_zero]
  | x :: y :: rest, _ => by
    have ih := size_commaItems (List.cons_ne_nil y rest)
    have hcomma : ",".utf8ByteSize = 1 := by decide
    rw [commaItems, String.utf8ByteSize_append, String.utf8ByteSize_append, hcomma, Nat.add_assoc, ih]
    rfl

theorem jsonLen_arr {items : List Json} (h : items ≠ []) : jsonLen (.arr items) = 1 + itemsLen items := by
  have hsize := size_commaItems h
  have hopen : "[".utf8ByteSize = 1 := by decide
  have hclose : "]".utf8ByteSize = 1 := by decide
  rw [jsonLen, canonicalJson, String.utf8ByteSize_append, String.utf8ByteSize_append, hopen, hclose]
  omega

def fieldLen (p : String × Json) : Nat := (quoted p.1).utf8ByteSize + 1 + jsonLen p.2 + 1

def fieldsLen (d : Fields) : Nat := (d.map fieldLen).sum

theorem size_field (k : String) (v : Json) : (quoted k ++ ":" ++ canonicalJson v).utf8ByteSize + 1 = fieldLen (k, v) := by
  have hcolon : ":".utf8ByteSize = 1 := by decide
  rw [String.utf8ByteSize_append, String.utf8ByteSize_append, hcolon]
  rfl

theorem size_commaFields : ∀ {d : Fields}, d ≠ [] → (commaFields d).utf8ByteSize + 1 = fieldsLen d
  | [], h => absurd rfl h
  | [(k, v)], _ => by
    rw [commaFields, size_field, fieldsLen, List.map_singleton, List.sum_singleton]
  | (k, v) :: p :: rest, _ => by
    have ih := size_commaFields (d := p :: rest) (List.cons_ne_nil _ _)
    have hfield := size_field k v
    have hcomma : ",".utf8ByteSize = 1 := by decide
    have hsum : fieldsLen ((k, v) :: p :: rest) = fieldLen (k, v) + fieldsLen (p :: rest) := rfl
    rw [commaFields, String.utf8ByteSize_append, String.utf8ByteSize_append (t := ","), hcomma]
    omega

theorem jsonLen_obj {d : Fields} (h : d ≠ []) : jsonLen (.obj d) = 1 + fieldsLen d := by
  have hsize := size_commaFields h
  have hopen : "\x7b".utf8ByteSize = 1 := by decide
  have hclose : "\x7d".utf8ByteSize = 1 := by decide
  rw [jsonLen, canonicalJson, String.utf8ByteSize_append, String.utf8ByteSize_append, hopen, hclose]
  omega

theorem setField_ne_nil (key : String) (value : Json) (d : Fields) : setField key value d ≠ [] := by
  cases d with
  | nil => exact List.cons_ne_nil _ _
  | cons p rest =>
    rw [setField]
    split
    · exact List.cons_ne_nil _ _
    · split <;> exact List.cons_ne_nil _ _

theorem fieldsLen_setField {key : String} (value : Json) : ∀ {d : Fields}, Dict.find key d = none →
    fieldsLen (setField key value d) = fieldsLen d + fieldLen (key, value)
  | [], _ => by simp [setField, fieldsLen]
  | (k, v) :: rest, h => by
    have hcons : ∀ (p : String × Json) (l : Fields), fieldsLen (p :: l) = fieldLen p + fieldsLen l := fun p l => rfl
    rw [Dict.find] at h
    split at h
    · cases h
    · rename_i hne
      have ih := fieldsLen_setField value h
      rw [setField, if_neg hne]
      split
      · rw [hcons, hcons]
        omega
      · rw [hcons, hcons, ih]
        omega

end Json
