import CopperTidy.Json.Basic

/-! # Decoding JSON

How records and variants are told from JSON. A record is an object with its fields in any order, or
a list of them in their own order; other members of the object are ignored, and a field that is
there twice is refused. A variant is an object whose only key is its name; one without content may
be just the name.
-/

namespace CopperTidy.Json
set_option autoImplicit false

def asBool? : Json → Option Bool
  | .bool value => some value
  | _ => none

def asString? : Json → Option String
  | .str value => value
  | _ => none

/-- An integer from `low` to `high`, both included. -/
def asInt? (low high : Int) : Json → Option Int
  | .int n => if low ≤ n && n ≤ high then some n else none
  | _ => none

def asNat? (limit : Nat) (v : Json) : Option Nat := (v.asInt? 0 (limit - 1)).map Int.toNat

def asInt64? (v : Json) : Option Int64 :=
  (v.asInt? Int64.minValue.toInt Int64.maxValue.toInt).map Int64.ofInt

def asUInt32? (v : Json) : Option UInt32 := (v.asNat? UInt32.size).map UInt32.ofNat

def asUInt8? (v : Json) : Option UInt8 := (v.asNat? UInt8.size).map UInt8.ofNat

/-- The items of a list, each decoded. -/
def asList? {α : Type} (decode : Json → Option α) : Json → Option (List α)
  | .arr items => items.mapM decode
  | _ => none

/-! ## Records -/

/-- Members with all keys readable. -/
def keyed? (members : List (Option String × Json)) : Option (List (String × Json)) :=
  members.mapM fun m => m.1.map fun key => (key, m.2)

/-- The values of a key. -/
def valuesOf (key : String) (members : List (String × Json)) : List Json :=
  (members.filter fun m => m.1 == key).map (·.2)

/-- The value of each named field, missing ones left open, if no field is there twice. -/
def fieldsOf? (names : List String) (members : List (String × Json)) :
    Option (List (Option Json)) :=
  names.mapM fun name =>
    match valuesOf name members with
    | [] => some none
    | [v] => some (some v)
    | _ => none

/-- The fields of a record that may miss some. A list may be shorter than the record, but not
longer. -/
def looseRecord? (names : List String) : Json → Option (List (Option Json))
  | .obj members => (keyed? members).bind (fieldsOf? names)
  | .arr items =>
    if items.length ≤ names.length then
      some (items.map some ++ List.replicate (names.length - items.length) none)
    else none
  | _ => none

/-- The fields of a record, all of them. -/
def record? (names : List String) (v : Json) : Option (List Json) :=
  (v.looseRecord? names).bind fun fields => fields.mapM fun field => field

/-! ## Variants -/

/-- The name of a variant and its content. A name alone has no content. -/
def variant? : Json → Option (String × Option Json)
  | .str (some name) => some (name, none)
  | .obj [(some name, content)] => some (name, some content)
  | _ => none

/-- The name of a variant without content; as an object it holds `null`. -/
def unitVariant? (v : Json) : Option String :=
  match v.variant? with
  | some (name, none) => some name
  | some (name, some .null) => some name
  | _ => none

end CopperTidy.Json
