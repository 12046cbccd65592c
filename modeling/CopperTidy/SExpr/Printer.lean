import CopperTidy.SExpr.Basic
import CopperTidy.SExpr.Spelling

/-! # Printing S-expressions

`flat` writes an expression on one line, `pretty` with indentation: items of the outermost list
stand on lines of their own, and below it the lists that hold lists do. Both write in front of the
text that follows, so that no text is copied once for each list around it.
-/

namespace CopperTidy.SExpr
set_option autoImplicit false

/-- An atom is written bare if it can be read back so, and in quotes if not. -/
def symbol (s : String) : List Char :=
  if isBare s.toList then s.toList else quote s.toList

/-! ## One line -/

mutual

/-- The expression on one line, with `rest` after it. -/
def flat (rest : List Char) : SExpr → List Char
  | .atom s => symbol s ++ rest
  | .quoted s => quote s.toList ++ rest
  | .list items => '(' :: flatItems (')' :: rest) items

def flatItems (rest : List Char) : List SExpr → List Char
  | [] => rest
  | [e] => flat rest e
  | e :: more => flat (' ' :: flatItems rest more) e

end

/-! ## Indented -/

def indent (depth : Nat) : List Char := List.replicate (2 * depth) ' '

/-- Does an item of a list at `depth` start a line? -/
def startsLine (depth : Nat) (e : SExpr) : Bool := e.isList && (depth == 0 || e.isCompound)

/-- What stands before an item of a list at `depth`. -/
def separator (depth : Nat) (first : Bool) (e : SExpr) : List Char :=
  if startsLine depth e then '\n' :: indent (depth + 1)
  else if first then []
  else [' ']

/-- What stands before the closing parenthesis of a list at `depth`. -/
def ending (depth : Nat) (items : List SExpr) : List Char :=
  if items.any (startsLine depth) then '\n' :: indent depth else []

mutual

/-- The expression with indentation, with `rest` after it. -/
def pretty (depth : Nat) (rest : List Char) : SExpr → List Char
  | .atom s => symbol s ++ rest
  | .quoted s => quote s.toList ++ rest
  | .list items => '(' :: prettyItems depth true (ending depth items ++ ')' :: rest) items

def prettyItems (depth : Nat) (first : Bool) (rest : List Char) : List SExpr → List Char
  | [] => rest
  | e :: more =>
    separator depth first e ++ pretty (depth + 1) (prettyItems depth false rest more) e

end

/-- The expression on one line. -/
def toText (e : SExpr) : String := String.ofList (e.flat [])

/-- The expression with indentation, closed by a line break. -/
def toPrettyText (e : SExpr) : String := String.ofList (e.pretty 0 ['\n'])

end CopperTidy.SExpr
