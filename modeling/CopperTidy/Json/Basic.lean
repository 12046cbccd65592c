import CopperTidy.Decimal.Text

/-! # JSON values

Objects keep the order of their members and may hold a key twice. A string of a JSON text can hold
escapes for half of a surrogate pair; it then is no text, and `str none` stands for it. Numbers with
a fraction or an exponent keep their spelling.
-/

namespace CopperTidy
set_option autoImplicit false

inductive Json
  | null
  | bool (value : Bool)
  | int (value : Int)
  /-- A number that is not written as an integer. -/
  | decimal (spelling : String)
  | str (value : Option String)
  | arr (items : List Json)
  | obj (members : List (Option String × Json))
  deriving Repr, Inhabited

namespace Json

def text (s : String) : Json := .str (some s)

def nat (n : Nat) : Json := .int n

/-- An object with its members in the given order. -/
def object (members : List (String × Json)) : Json :=
  .obj (members.map fun m => (some m.1, m.2))

/-- A value that may be missing. -/
def optional {α : Type} (encode : α → Json) : Option α → Json
  | none => .null
  | some x => encode x

def list {α : Type} (encode : α → Json) (items : List α) : Json := .arr (items.map encode)

/-- A float; what is not a finite number is `null`. -/
def float (x : Float) : Json :=
  if Decimal.isFinite x then .decimal (String.ofList (Decimal.Style.json.write x)) else .null

/-! ## Order of keys -/

mutual

/-- The value with the members of every object in ascending order of their keys. -/
def sorted : Json → Json
  | .arr items => .arr (sortedItems items)
  | .obj members =>
    .obj ((sortedMembers members).mergeSort fun m n => m.1.getD "" ≤ n.1.getD "")
  | other => other

def sortedItems : List Json → List Json
  | [] => []
  | v :: rest => v.sorted :: sortedItems rest

def sortedMembers : List (Option String × Json) → List (Option String × Json)
  | [] => []
  | (key, v) :: rest => (key, v.sorted) :: sortedMembers rest

end

end Json
end CopperTidy
