/-! # Spelling of symbols and strings

The blank characters that separate symbols, the characters that can stand in a bare symbol, and the
escapes of a quoted string. The reader and the printer share these definitions, and
`unescape_escapeLetter` ties the two sides of an escape.
-/

namespace CopperTidy
set_option autoImplicit false

namespace Text

/-- First and last code point of each run of characters with the Unicode property `White_Space`. -/
def blankRanges : List (Nat × Nat) :=
  [(0x09, 0x0D), (0x20, 0x20), (0x85, 0x85), (0xA0, 0xA0), (0x1680, 0x1680), (0x2000, 0x200A),
    (0x2028, 0x2029), (0x202F, 0x202F), (0x205F, 0x205F), (0x3000, 0x3000)]

def isBlank (c : Char) : Bool :=
  blankRanges.any fun run => run.1 ≤ c.toNat && c.toNat ≤ run.2

example : (blankRanges.map fun run => run.2 + 1 - run.1).sum = 25 := by decide

end Text

namespace SExpr

/-- Characters that end a symbol without being blank. -/
def isDelimiter (c : Char) : Bool := c == '(' || c == ')' || c == '"'

/-- Can `c` stand in a bare symbol? A backslash can. -/
def isSymbolChar (c : Char) : Bool := !Text.isBlank c && !isDelimiter c

/-- A text that is read back as the same symbol when written bare. A backslash could be read back,
but is written in quotes all the same. -/
def isBare (s : List Char) : Bool :=
  !s.isEmpty && s.all fun c => isSymbolChar c && c != '\\'

/-- The letter that stands for `c` after a backslash, for characters that are always escaped. -/
def escapeLetter? (c : Char) : Option Char :=
  if c = '"' then some '"'
  else if c = '\\' then some '\\'
  else if c = '\n' then some 'n'
  else if c = '\t' then some 't'
  else if c = '\r' then some 'r'
  else none

/-- A character as it stands between quotes. -/
def escape (c : Char) : List Char :=
  match escapeLetter? c with
  | some letter => ['\\', letter]
  | none => [c]

/-- The character that an escaped letter stands for; a letter without a meaning stands for
itself. -/
def unescape (letter : Char) : Char :=
  if letter = 'n' then '\n'
  else if letter = 't' then '\t'
  else if letter = 'r' then '\r'
  else letter

theorem unescape_escapeLetter {c letter : Char} (h : escapeLetter? c = some letter) :
    unescape letter = c := by
  unfold escapeLetter? at h
  split at h
  · next hc => cases h; subst hc; decide
  split at h
  · next hc => cases h; subst hc; decide
  split at h
  · next hc => cases h; subst hc; decide
  split at h
  · next hc => cases h; subst hc; decide
  split at h
  · next hc => cases h; subst hc; decide
  · cases h

/-- A text between quotes. -/
def quote (s : List Char) : List Char := '"' :: s.flatMap escape ++ ['"']

end SExpr
end CopperTidy
