import CopperTidy.Json.Basic

/-! # Writing JSON

`write` gives the compact text, `writePretty` one with a line for each item and two blanks of
indentation. Strings escape the quote, the backslash and control characters; all other characters
are written as they are.
-/

namespace CopperTidy.Json
set_option autoImplicit false

/-! ## Strings -/

def hexDigit (n : Nat) : Char := Nat.digitChar n

/-- A character between quotes. -/
def escape (c : Char) : List Char :=
  if c = '"' then ['\\', '"']
  else if c = '\\' then ['\\', '\\']
  else if c = '\x08' then ['\\', 'b']
  else if c = '\x0c' then ['\\', 'f']
  else if c = '\n' then ['\\', 'n']
  else if c = '\r' then ['\\', 'r']
  else if c = '\t' then ['\\', 't']
  else if c.toNat < 32 then
    ['\\', 'u', '0', '0', hexDigit (c.toNat / 16), hexDigit (c.toNat % 16)]
  else [c]

/-- A string in quotes. What is no text is written as half of a surrogate pair. -/
def quote : Option String → List Char
  | some s => '"' :: s.toList.flatMap escape ++ ['"']
  | none => "\"\\ud800\"".toList

/-! ## Compact -/

mutual

def chars : Json → List Char
  | .null => "null".toList
  | .bool value => if value then "true".toList else "false".toList
  | .int value => Text.integer value
  | .decimal spelling => spelling.toList
  | .str value => quote value
  | .arr items => '[' :: itemChars items ++ [']']
  | .obj members => '{' :: memberChars members ++ ['}']

def itemChars : List Json → List Char
  | [] => []
  | [v] => chars v
  | v :: rest => chars v ++ ',' :: itemChars rest

def memberChars : List (Option String × Json) → List Char
  | [] => []
  | [(key, v)] => quote key ++ ':' :: chars v
  | (key, v) :: rest => quote key ++ ':' :: chars v ++ ',' :: memberChars rest

end

def write (v : Json) : String := String.ofList v.chars

/-! ## Indented -/

/-- A line break with the indentation of `depth`. -/
def lineBreak (depth : Nat) : List Char := '\n' :: List.replicate (2 * depth) ' '

mutual

def prettyAt (depth : Nat) : Json → List Char
  | .arr [] => ['[', ']']
  | .arr (v :: rest) =>
    '[' :: prettyItems (depth + 1) (v :: rest) ++ lineBreak depth ++ [']']
  | .obj [] => ['{', '}']
  | .obj (m :: rest) =>
    '{' :: prettyMembers (depth + 1) (m :: rest) ++ lineBreak depth ++ ['}']
  | .null => "null".toList
  | .bool value => if value then "true".toList else "false".toList
  | .int value => Text.integer value
  | .decimal spelling => spelling.toList
  | .str value => quote value

def prettyItems (depth : Nat) : List Json → List Char
  | [] => []
  | v :: rest =>
    lineBreak depth ++ prettyAt depth v ++ (if rest.isEmpty then [] else [',']) ++
      prettyItems depth rest

def prettyMembers (depth : Nat) : List (Option String × Json) → List Char
  | [] => []
  | (key, v) :: rest =>
    lineBreak depth ++ quote key ++ ": ".toList ++ prettyAt depth v ++
      (if rest.isEmpty then [] else [',']) ++ prettyMembers depth rest

end

def writePretty (v : Json) : String := String.ofList (v.prettyAt 0)

end CopperTidy.Json
