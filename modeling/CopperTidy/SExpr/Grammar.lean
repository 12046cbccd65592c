import CopperTidy.SExpr.Basic
import CopperTidy.SExpr.Spelling

/-! # Grammar of S-expressions

Which texts spell which expression, as relations that know nothing of tokens or of an order of
reading. `Spells` is about the text of an expression alone, `SpellsDocument` allows blanks around
it. An atom takes all symbol characters that follow each other, so nothing that stands directly
after it can be one.
-/

namespace CopperTidy.SExpr
set_option autoImplicit false

/-- A text of blank characters. -/
def IsGap (cs : List Char) : Prop := ∀ c ∈ cs, Text.isBlank c = true

/-- What stands between the quotes of a string, and the string. -/
inductive SpellsString : List Char → List Char → Prop
  | nil : SpellsString [] []
  | plain {c : Char} {cs s : List Char} (quote : c ≠ '"') (backslash : c ≠ '\\')
      (rest : SpellsString cs s) : SpellsString (c :: cs) (c :: s)
  /-- Any character may follow a backslash. -/
  | escaped {c : Char} {cs s : List Char} (rest : SpellsString cs s) :
      SpellsString ('\\' :: c :: cs) (unescape c :: s)

/-- Can `rest` stand directly after the text of an expression? -/
def Ends (rest : List Char) : SExpr → Prop
  | .atom _ => ∀ c ∈ rest.head?, isSymbolChar c = false
  | .quoted _ | .list _ => True

mutual

/-- The text of an expression. -/
inductive Spells : List Char → SExpr → Prop
  | atom {cs : List Char} (nonempty : cs ≠ []) (symbols : ∀ c ∈ cs, isSymbolChar c = true) :
      Spells cs (.atom (String.ofList cs))
  | quoted {cs s : List Char} (inner : SpellsString cs s) :
      Spells ('"' :: cs ++ ['"']) (.quoted (String.ofList s))
  | list {cs : List Char} {items : List SExpr} (inner : SpellsItems cs items) :
      Spells ('(' :: cs ++ [')']) (.list items)

/-- The text between the parentheses of a list. -/
inductive SpellsItems : List Char → List SExpr → Prop
  | nil {gap : List Char} (blank : IsGap gap) : SpellsItems gap []
  | cons {gap cs rest : List Char} {e : SExpr} {items : List SExpr} (blank : IsGap gap)
      (first : Spells cs e) (ends : Ends rest e) (more : SpellsItems rest items) :
      SpellsItems (gap ++ cs ++ rest) (e :: items)

end

/-- A text with one expression and blanks around it. -/
def SpellsDocument (text : List Char) (e : SExpr) : Prop :=
  ∃ before cs after, IsGap before ∧ Spells cs e ∧ IsGap after ∧ text = before ++ cs ++ after

/-- What is spelled is not empty. -/
theorem Spells.ne_nil {cs : List Char} {e : SExpr} (h : Spells cs e) : cs ≠ [] := by
  cases h with
  | atom nonempty _ => exact nonempty
  | quoted _ => simp
  | list _ => simp

end CopperTidy.SExpr
