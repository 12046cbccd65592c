import CopperTidy.Design.Extract
import CopperTidy.Design.Loaded
import CopperTidy.SExpr.Printer

/-! # Documents

A document is the whole tree of a board file together with its design. `Document.apply` brings it in
line with a board that was loaded from it: items of tracks that are gone are dropped, and segments
whose ends moved get their new ends. Everything else stays as it was read.
-/

namespace CopperTidy
set_option autoImplicit false

structure Document where
  root : SExpr
  design : Design
  /-- The file that the document was loaded from. -/
  path : Option String

/-- How many items of the document changed. -/
structure Applied where
  removed : Nat := 0
  /-- Segments with a new end. -/
  moved : Nat := 0
  deriving DecidableEq, Repr

def Applied.isEmpty (a : Applied) : Bool := a.removed == 0 && a.moved == 0

namespace Document

def read (filename text : String) : Except DesignError Document := do
  let root ← Design.readRoot text
  let design ← Design.ofTree filename root
  return ⟨root, design, none⟩

def toBoard (d : Document) : LoadedBoard := d.design.toBoard

def toText (d : Document) : String := d.root.toPrettyText

/-! ## Moving the ends of a segment -/

/-- The point that the item tagged `key` gives, if it gives one. -/
def readPoint? (e : SExpr) (key : String) : Option Point :=
  match Design.float? e key 0, Design.float? e key 1 with
  | some x, some y => some ⟨toNm x, toNm y⟩
  | _, _ => none

/-- The item of a segment with the point tagged `key` set, if it differs and there is such an
item. -/
def moveEnd? (e : SExpr) (key : String) (p : Point) : Option SExpr :=
  if readPoint? e key = some p then none
  else e.setChild? key (.node key [mmText p.x, mmText p.y])

/-- The item of a segment with both ends where the track has them, if that changes anything. -/
def moveEnds? (e : SExpr) (t : Track) : Option SExpr :=
  match moveEnd? e "start" t.start with
  | some moved => some ((moveEnd? moved "end" t.stop).getD moved)
  | none => moveEnd? e "end" t.stop

/-! ## Bringing a document in line -/

/-- The items of the root list while sources are looked at, and the places of those to be
dropped. -/
structure Edit where
  items : List SExpr
  dropped : List Nat := []
  moved : Nat := 0

/-- What the track from item number `node` asks for. -/
def Edit.visit (s : Edit) (track : Option Track) (node : Nat) (e : SExpr) : Edit :=
  match track with
  | none => if s.dropped.contains node then s else { s with dropped := node :: s.dropped }
  | some t =>
    match if t.isTrace then moveEnds? e t else none with
    | some new => { s with items := s.items.set node new, moved := s.moved + 1 }
    | none => s

/-- All sources in turn. A source without an item stops the walk, and its track is reported. -/
def Edit.walk (b : Board) (s : Edit) : List (Nat × Nat) → Edit × Option Nat
  | [] => (s, none)
  | (id, node) :: rest =>
    match s.items[node]? with
    | none => (s, some id)
    | some e => Edit.walk b (s.visit (b.track? id) node e) rest

/-- The items that are not dropped, the first being number `node`. -/
def keepFrom (dropped : List Nat) (node : Nat) : List SExpr → List SExpr
  | [] => []
  | e :: rest =>
    if dropped.contains node then keepFrom dropped (node + 1) rest
    else e :: keepFrom dropped (node + 1) rest

def Edit.result (s : Edit) : SExpr := .list (keepFrom s.dropped 0 s.items)

def Edit.applied (s : Edit) : Applied := ⟨s.dropped.length, s.moved⟩

/-- The document in line with a board loaded from it. The design is read again when an item
changed, since places have shifted. The walk works on the tree itself: an end that was moved before
a stray source stays moved, and a tree whose design cannot be read stays with the old design. -/
def apply (d : Document) (loaded : LoadedBoard) : Document × Except DesignError Applied :=
  match d.root with
  | .list items =>
    match Edit.walk loaded.board { items } loaded.sources with
    | (s, some id) => ({ d with root := .list s.items }, .error (.strayTrack id))
    | (s, none) =>
      if s.applied.isEmpty then (d, .ok s.applied)
      else
        match Design.ofTree d.design.filename s.result with
        | .ok design => ({ d with root := s.result, design }, .ok s.applied)
        | .error e => ({ d with root := s.result }, .error e)
  | _ => (d, .error .rootNotList)

end Document
end CopperTidy
