import CopperTidy.Json.Token

/-! # Reading JSON

`Json.read?` accepts a text that holds exactly one value. The tokens run through a machine whose
state holds the lists and objects that are still open.
-/

namespace CopperTidy.Json
set_option autoImplicit false

/-- A list or object that is still open; what it holds so far is newest first. In an object the
value of `name` is being read. -/
inductive Frame
  | list (items : List Json)
  | object (members : List (Option String × Json)) (name : Option String)

/-- What may come next. -/
inductive State
  | value (frames : List Frame)
  /-- A value or the end of an empty list. -/
  | firstItem (frames : List Frame)
  /-- A key or the end of an empty object. -/
  | firstKey (frames : List Frame)
  | key (members : List (Option String × Json)) (frames : List Frame)
  | colon (members : List (Option String × Json)) (name : Option String) (frames : List Frame)
  /-- A value is complete. -/
  | complete (value : Json) (frames : List Frame)

namespace State

/-- A token where a value is due. -/
def readValue (frames : List Frame) : Token → Option State
  | .openList => some (.firstItem frames)
  | .openObject => some (.firstKey frames)
  | .string s => some (.complete (.str s) frames)
  | .scalar v => some (.complete v frames)
  | _ => none

/-- A token after a complete value. -/
def readAfter (v : Json) : List Frame → Token → Option State
  | .list items :: outer, .comma => some (.value (.list (v :: items) :: outer))
  | .list items :: outer, .closeList => some (.complete (.arr (v :: items).reverse) outer)
  | .object members name :: outer, .comma => some (.key ((name, v) :: members) outer)
  | .object members name :: outer, .closeObject =>
    some (.complete (.obj ((name, v) :: members).reverse) outer)
  | _, _ => none

def step : State → Token → Option State
  | .value frames, token => readValue frames token
  | .firstItem frames, .closeList => some (.complete (.arr []) frames)
  | .firstItem frames, token => readValue (.list [] :: frames) token
  | .firstKey frames, .closeObject => some (.complete (.obj []) frames)
  | .firstKey frames, .string name => some (.colon [] name frames)
  | .firstKey _, _ => none
  | .key members frames, .string name => some (.colon members name frames)
  | .key _ _, _ => none
  | .colon members name frames, .colon => some (.value (.object members name :: frames))
  | .colon _ _ _, _ => none
  | .complete v frames, token => readAfter v frames token

/-- The value of a machine that has read everything. -/
def result? : State → Option Json
  | .complete v [] => some v
  | _ => none

end State

/-- The one value that a list of tokens spells. -/
def ofTokens? (tokens : List Token) : Option Json :=
  (tokens.foldlM State.step (.value [])).bind State.result?

/-- The one value that a text spells. -/
def read? (text : String) : Option Json := (Token.scan text.toList).bind ofTokens?

end CopperTidy.Json
