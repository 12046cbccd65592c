/-! # S-expressions

A board file is one large S-expression. Quoted strings are kept apart from bare symbols, so that a
document is written back with its strings spelled as they were.

A list whose first item is a text is *tagged* with that text, and most look-ups go by the tag:
`child?` finds the first item with a given tag and `value?` a text inside it.
-/

namespace CopperTidy
set_option autoImplicit false

inductive SExpr
  /-- A bare symbol or number. -/
  | atom (text : String)
  /-- A string in double quotes. -/
  | quoted (text : String)
  | list (items : List SExpr)
  deriving Repr, Inhabited

namespace SExpr

/-! ## Equality -/

mutual

def decideEq : (a b : SExpr) → Decidable (a = b)
  | .atom a, .atom b =>
    if h : a = b then .isTrue (by rw [h]) else .isFalse (by intro e; injection e; contradiction)
  | .quoted a, .quoted b =>
    if h : a = b then .isTrue (by rw [h]) else .isFalse (by intro e; injection e; contradiction)
  | .list a, .list b =>
    match decideEqItems a b with
    | .isTrue h => .isTrue (by rw [h])
    | .isFalse h => .isFalse (by intro e; injection e; contradiction)
  | .atom _, .quoted _ | .atom _, .list _ | .quoted _, .atom _ | .quoted _, .list _
  | .list _, .atom _ | .list _, .quoted _ => .isFalse (by intro e; cases e)

def decideEqItems : (a b : List SExpr) → Decidable (a = b)
  | [], [] => .isTrue rfl
  | a :: as, b :: bs =>
    match decideEq a b, decideEqItems as bs with
    | .isTrue h, .isTrue t => .isTrue (by rw [h, t])
    | .isFalse h, _ => .isFalse (by intro e; injection e; contradiction)
    | _, .isFalse t => .isFalse (by intro e; injection e; contradiction)
  | [], _ :: _ | _ :: _, [] => .isFalse (by intro e; cases e)

end

instance : DecidableEq SExpr := decideEq

/-! ## Look-ups -/

/-- Text of an atom or a quoted string. -/
def text? : SExpr → Option String
  | .atom s | .quoted s => some s
  | .list _ => none

def items? : SExpr → Option (List SExpr)
  | .list items => some items
  | _ => none

/-- The items of a list; an atom or a string has none. -/
def items : SExpr → List SExpr
  | .list items => items
  | _ => []

def isList : SExpr → Bool
  | .list _ => true
  | _ => false

/-- A list that itself holds lists. -/
def isCompound (e : SExpr) : Bool := e.items.any isList

/-- First text of a list: `segment` for `(segment …)`. -/
def tag? (e : SExpr) : Option String := e.items.head?.bind text?

def hasTag (key : String) (e : SExpr) : Bool := e.tag? == some key

/-- The first item tagged `key`, as the full list. -/
def child? (key : String) (e : SExpr) : Option SExpr := e.items.find? (hasTag key)

/-- Every item tagged `key`. -/
def children (key : String) (e : SExpr) : List SExpr := e.items.filter (hasTag key)

/-- The value of the first item tagged `key`: its second item when it has exactly two, the item
itself otherwise. -/
def get? (key : String) (e : SExpr) : Option SExpr :=
  (e.child? key).map fun child =>
    match child.items with
    | [_, value] => value
    | _ => child

/-- The `n`-th text of the first item tagged `key`; number 0 follows the tag. -/
def value? (key : String) (n : Nat) (e : SExpr) : Option String := do
  let child ← e.child? key
  let item ← child.items[n + 1]?
  item.text?

/-- Does this item of a list switch `flag` on? A bare symbol does; so does a list with that tag,
unless it says `no`. A quoted string does not. -/
def setsFlag (flag : String) : SExpr → Bool
  | .atom s => s == flag
  | .quoted _ => false
  | .list items =>
    hasTag flag (.list items) && (items[1]?.bind text?) != some "no"

/-- Is `flag` switched on by an item after the first? -/
def hasFlag (flag : String) (e : SExpr) : Bool := (e.items.drop 1).any (setsFlag flag)

/-! ## Building and changing -/

/-- `(key value …)` with bare symbols. -/
def node (key : String) (values : List String) : SExpr :=
  .list (.atom key :: values.map .atom)

/-- The items with the first one tagged `key` replaced. -/
def replaceFirst (key : String) (new : SExpr) : List SExpr → Option (List SExpr)
  | [] => none
  | e :: rest =>
    if hasTag key e then some (new :: rest) else (replaceFirst key new rest).map (e :: ·)

/-- The list with its first item tagged `key` replaced, if there is one. -/
def setChild? (key : String) (e new : SExpr) : Option SExpr :=
  match e with
  | .list items => (replaceFirst key new items).map .list
  | _ => none

end SExpr
end CopperTidy
