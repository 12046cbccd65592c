import CopperTidy.Json.Basic

/-! # Tokens of a JSON text

`Token.scan` splits a text into punctuation, strings, numbers and the three words, or refuses it.
Numbers and words are taken as long as they go and checked as a whole: nothing that may follow one
in a JSON text could continue it.
-/

namespace CopperTidy.Json
set_option autoImplicit false

inductive Token
  | openList
  | closeList
  | openObject
  | closeObject
  | comma
  | colon
  | string (value : Option String)
  /-- A value that is neither a string nor a list or object. -/
  | scalar (value : Json)

/-! ## Strings -/

/-- A character of a string, or the code unit of a `\u` escape. -/
inductive Piece
  | char (c : Char)
  | unit (code : Nat)
  deriving DecidableEq, Repr

def isHigh (code : Nat) : Bool := 0xD800 ≤ code && code ≤ 0xDBFF

def isLow (code : Nat) : Bool := 0xDC00 ≤ code && code ≤ 0xDFFF

/-- The text that pieces spell. Halves of surrogate pairs must follow each other, high before low;
there is no text otherwise. -/
def joinPieces : List Piece → Option (List Char)
  | [] => some []
  | .char c :: rest => (joinPieces rest).map (c :: ·)
  | .unit high :: .unit low :: rest =>
    if isHigh high then
      if isLow low then
        (joinPieces rest).map
          (Char.ofNat (0x10000 + (high - 0xD800) * 0x400 + (low - 0xDC00)) :: ·)
      else none
    else if isLow high then none
    else (joinPieces (.unit low :: rest)).map (Char.ofNat high :: ·)
  | .unit code :: rest =>
    if isHigh code || isLow code then none
    else (joinPieces rest).map (Char.ofNat code :: ·)

/-- What a letter after a backslash stands for, `u` apart. -/
def unescape? (letter : Char) : Option Char :=
  if letter = '"' || letter = '\\' || letter = '/' then some letter
  else if letter = 'b' then some '\x08'
  else if letter = 'f' then some '\x0c'
  else if letter = 'n' then some '\n'
  else if letter = 'r' then some '\r'
  else if letter = 't' then some '\t'
  else none

def hexValue? (c : Char) : Option Nat :=
  let n := c.toNat
  if 48 ≤ n && n ≤ 57 then some (n - 48)
  else if 97 ≤ n && n ≤ 102 then some (n - 87)
  else if 65 ≤ n && n ≤ 70 then some (n - 55)
  else none

/-! ## Numbers and words -/

def isNumberChar (c : Char) : Bool :=
  Text.isDigit c || c == '-' || c == '+' || c == '.' || c == 'e' || c == 'E'

/-- A run of digits that is not empty, and what follows it. -/
def someDigits? (cs : List Char) : Option (List Char) :=
  if (cs.takeWhile Text.isDigit).isEmpty then none else some (cs.dropWhile Text.isDigit)

/-- Is this empty, or an exponent? -/
def isExponent (cs : List Char) : Bool :=
  match cs with
  | [] => true
  | e :: '+' :: rest | e :: '-' :: rest | e :: rest =>
    (e == 'e' || e == 'E') && someDigits? rest == some []

/-- Is this empty, or a fraction, an exponent, or both? -/
def isTail (cs : List Char) : Bool :=
  match cs with
  | '.' :: rest =>
    match someDigits? rest with
    | some more => isExponent more
    | none => false
  | _ => isExponent cs

/-- The number that an unsigned literal spells. A zero cannot be followed by further digits. -/
def unsigned? (negative : Bool) (cs : List Char) : Option Json :=
  let whole := cs.takeWhile Text.isDigit
  let tail := cs.dropWhile Text.isDigit
  let signed := if negative then '-' :: cs else cs
  match Text.digits? whole with
  | none => none
  | some n =>
    if whole.head? = some '0' && 1 < whole.length then none
    else if !isTail tail then none
    else if tail.isEmpty && !(negative && n == 0) then
      some (.int (if negative then -(n : Int) else n))
    else some (.decimal (String.ofList signed))

def number? (cs : List Char) : Option Json :=
  match cs with
  | '-' :: rest => unsigned? true rest
  | _ => unsigned? false cs

def isWordChar (c : Char) : Bool := 97 ≤ c.toNat && c.toNat ≤ 122

def word? (cs : List Char) : Option Json :=
  if cs = "null".toList then some .null
  else if cs = "true".toList then some (.bool true)
  else if cs = "false".toList then some (.bool false)
  else none

/-! ## Scanning -/

/-- What the characters read last belong to; collected characters are newest first. -/
inductive Pending
  | nothing
  | word (collected : List Char)
  | number (collected : List Char)
  | string (collected : List Piece)
  | escape (collected : List Piece)
  /-- Inside a `\u` escape, with the value of its digits so far and the number of those missing. -/
  | code (collected : List Piece) (value missing : Nat)

namespace Token

/-- The tokens and the state that a character between tokens gives. -/
def begin (c : Char) : Option (List Token × Pending) :=
  if c = ' ' || c = '\n' || c = '\t' || c = '\r' then some ([], .nothing)
  else if c = '[' then some ([.openList], .nothing)
  else if c = ']' then some ([.closeList], .nothing)
  else if c = '{' then some ([.openObject], .nothing)
  else if c = '}' then some ([.closeObject], .nothing)
  else if c = ',' then some ([.comma], .nothing)
  else if c = ':' then some ([.colon], .nothing)
  else if c = '"' then some ([], .string [])
  else if isWordChar c then some ([], .word [c])
  else if isNumberChar c then some ([], .number [c])
  else none

def finishWord (collected : List Char) : Option Token := (word? collected.reverse).map .scalar

def finishNumber (collected : List Char) : Option Token := (number? collected.reverse).map .scalar

def finishString (collected : List Piece) : Token :=
  .string ((joinPieces collected.reverse).map String.ofList)

/-- The token `done` followed by those that `c` gives. -/
def next (done : Option Token) (c : Char) : Option (List Token × Pending) := do
  let token ← done
  let (tokens, pending) ← begin c
  some (token :: tokens, pending)

/-- The tokens that `c` completes, and what is then pending. -/
def step (pending : Pending) (c : Char) : Option (List Token × Pending) :=
  match pending with
  | .nothing => begin c
  | .word collected =>
    if isWordChar c then some ([], .word (c :: collected)) else next (finishWord collected) c
  | .number collected =>
    if isNumberChar c then some ([], .number (c :: collected)) else next (finishNumber collected) c
  | .string collected =>
    if c = '"' then some ([finishString collected], .nothing)
    else if c = '\\' then some ([], .escape collected)
    else if c.toNat < 32 then none
    else some ([], .string (.char c :: collected))
  | .escape collected =>
    if c = 'u' then some ([], .code collected 0 4)
    else (unescape? c).map fun d => ([], .string (.char d :: collected))
  | .code collected value missing =>
    (hexValue? c).map fun d =>
      let value := 16 * value + d
      if missing ≤ 1 then ([], .string (.unit value :: collected))
      else ([], .code collected value (missing - 1))

/-- The tokens that the end of the text completes. -/
def finish : Pending → Option (List Token)
  | .nothing => some []
  | .word collected => (finishWord collected).map fun t => [t]
  | .number collected => (finishNumber collected).map fun t => [t]
  | .string _ | .escape _ | .code .. => none

def scanFrom (pending : Pending) : List Char → Option (List Token)
  | [] => finish pending
  | c :: rest =>
    match step pending c with
    | none => none
    | some (tokens, pending) => (scanFrom pending rest).map (tokens ++ ·)

def scan (text : List Char) : Option (List Token) := scanFrom .nothing text

end Token
end CopperTidy.Json
