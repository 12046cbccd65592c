import CopperTidy.SExpr.Spelling

/-! # Tokens of an S-expression

`Token.scan` splits a text into parentheses, symbols and quoted strings, each with the place of its
first character. A string that is not closed becomes the token `unclosed`, which ends the text.
-/

namespace CopperTidy.SExpr
set_option autoImplicit false

/-- Line and column of a character, both from one. A column counts characters. -/
structure Place where
  line : Nat := 1
  column : Nat := 1
  deriving DecidableEq, Repr

/-- The place after `c`. -/
def Place.after (p : Place) (c : Char) : Place :=
  if c = '\n' then ⟨p.line + 1, 1⟩ else ⟨p.line, p.column + 1⟩

inductive Lexeme
  | opening
  | closing
  | symbol (text : String)
  | quoted (text : String)
  | unclosed
  deriving DecidableEq, Repr

structure Token where
  lexeme : Lexeme
  place : Place
  deriving DecidableEq, Repr

/-- What the characters read last belong to; collected characters are newest first. -/
inductive Pending
  | nothing
  | symbol (collected : List Char) (start : Place)
  | quoted (collected : List Char) (start : Place)
  | escape (collected : List Char) (start : Place)
  deriving DecidableEq, Repr

namespace Token

def ofSymbol (collected : List Char) (start : Place) : Token :=
  ⟨.symbol (String.ofList collected.reverse), start⟩

def ofQuoted (collected : List Char) (start : Place) : Token :=
  ⟨.quoted (String.ofList collected.reverse), start⟩

/-- The tokens and the state that a character between tokens gives. -/
def begin (p : Place) (c : Char) : List Token × Pending :=
  if c = '(' then ([⟨.opening, p⟩], .nothing)
  else if c = ')' then ([⟨.closing, p⟩], .nothing)
  else if c = '"' then ([], .quoted [] p)
  else if Text.isBlank c then ([], .nothing)
  else ([], .symbol [c] p)

/-- The tokens that `c` completes at the place `p`, and what is then pending. -/
def step (pending : Pending) (p : Place) (c : Char) : List Token × Pending :=
  match pending with
  | .nothing => begin p c
  | .symbol collected start =>
    if isSymbolChar c then ([], .symbol (c :: collected) start)
    else
      let (tokens, next) := begin p c
      (ofSymbol collected start :: tokens, next)
  | .quoted collected start =>
    if c = '"' then ([ofQuoted collected start], .nothing)
    else if c = '\\' then ([], .escape collected start)
    else ([], .quoted (c :: collected) start)
  | .escape collected start => ([], .quoted (unescape c :: collected) start)

/-- The token that the end of the text leaves. -/
def finish : Pending → List Token
  | .nothing => []
  | .symbol collected start => [ofSymbol collected start]
  | .quoted _ start | .escape _ start => [⟨.unclosed, start⟩]

def scanFrom (pending : Pending) (p : Place) : List Char → List Token
  | [] => finish pending
  | c :: rest =>
    let (tokens, next) := step pending p c
    tokens ++ scanFrom next (p.after c) rest

def scan (text : List Char) : List Token := scanFrom .nothing {} text

end Token
end CopperTidy.SExpr
