import CopperTidy.SExpr.Basic
import CopperTidy.SExpr.Token

/-! # Reading S-expressions

`SExpr.read` accepts a text that holds exactly one expression. The tokens are taken one by one with
a stack of the lists that are still open. Three things can go wrong: the text ends inside the
expression or before it, it starts with a closing parenthesis, or something follows the expression.
-/

namespace CopperTidy.SExpr
set_option autoImplicit false

inductive ReadError
  /-- The text ended before the expression did. -/
  | unexpectedEnd
  /-- A closing parenthesis without an open list. -/
  | unbalanced (place : Place)
  /-- Something follows the expression; the line where it starts. -/
  | trailing (line : Nat)
  deriving DecidableEq, Repr

def ReadError.message : ReadError → String
  | .unexpectedEnd => "Unexpected end of input"
  | .unbalanced place =>
    "Unexpected token at line " ++ toString place.line ++ ", column " ++ toString place.column
      ++ ": unbalanced ')'"
  | .trailing line => "Trailing content after root expression at line " ++ toString line

/-- Open lists, innermost first; the items read so far are newest first. -/
abbrev Open := List (List SExpr)

/-- Where a finished expression goes: it is the root, or an item of the innermost open list. -/
def deliver (e : SExpr) : Open → SExpr ⊕ Open
  | [] => .inl e
  | items :: outer => .inr ((e :: items) :: outer)

/-- What one token does to the open lists. -/
def take (token : Token) (lists : Open) : Except ReadError (SExpr ⊕ Open) :=
  match token.lexeme with
  | .opening => .ok (.inr ([] :: lists))
  | .closing =>
    match lists with
    | [] => .error (.unbalanced token.place)
    | items :: outer => .ok (deliver (.list items.reverse) outer)
  | .symbol s => .ok (deliver (.atom s) lists)
  | .quoted s => .ok (deliver (.quoted s) lists)
  | .unclosed => .error .unexpectedEnd

/-- The first expression and the tokens after it. -/
def readFirst (lists : Open) : List Token → Except ReadError (SExpr × List Token)
  | [] => .error .unexpectedEnd
  | token :: rest =>
    match take token lists with
    | .error e => .error e
    | .ok (.inl root) => .ok (root, rest)
    | .ok (.inr lists) => readFirst lists rest

/-- The one expression that a list of tokens spells. -/
def ofTokens (tokens : List Token) : Except ReadError SExpr :=
  match readFirst [] tokens with
  | .error e => .error e
  | .ok (root, []) => .ok root
  | .ok (_, token :: _) => .error (.trailing token.place.line)

/-- The one expression that a text spells. -/
def read (text : String) : Except ReadError SExpr := ofTokens (Token.scan text.toList)

end CopperTidy.SExpr
