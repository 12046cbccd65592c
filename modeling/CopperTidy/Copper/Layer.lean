import CopperTidy.Text.Natural

/-! # Copper layers

The front layer is number 0, inner layers follow, and the back layer is number 31. A `LayerSet`
holds the layers on which an item conducts, one bit for each.
-/

namespace CopperTidy
set_option autoImplicit false

structure Layer where
  number : UInt8
  deriving DecidableEq, Repr

namespace Layer

def front : Layer := ⟨0⟩

def back : Layer := ⟨31⟩

/-- The number between `In` and `.Cu`. -/
def innerNumber? (name : String) : Option Nat :=
  match name.toList with
  | 'I' :: 'n' :: rest =>
    let size := rest.length - 3
    if rest.drop size = ['.', 'C', 'u'] then
      Text.readNatural? 256 (String.ofList (rest.take size))
    else none
  | _ => none

/-- The copper layer with a given name; other layers have none. Inner layers are numbered from 1
to 30. -/
def ofName? (name : String) : Option Layer :=
  if name = "F.Cu" then some front
  else if name = "B.Cu" then some back
  else
    match innerNumber? name with
    | some n => if 1 ≤ n && n ≤ 30 then some ⟨UInt8.ofNat n⟩ else none
    | none => none

def name (l : Layer) : String :=
  if l = front then "F.Cu"
  else if l = back then "B.Cu"
  else "In" ++ String.ofList (Text.natural l.number.toNat) ++ ".Cu"

end Layer

/-- A set of copper layers; bit `n` of the mask stands for layer `n`. Copper layers have the numbers
0 to 31, so a mask of them is less than `2 ^ 32`. A higher number, which no name of a layer gives,
has a bit of its own as well. -/
structure LayerSet where
  mask : Nat
  deriving DecidableEq, Repr

namespace LayerSet

def empty : LayerSet := ⟨0⟩

/-- All thirty-two copper layers. -/
def allCopper : LayerSet := ⟨0xFFFFFFFF⟩

def single (l : Layer) : LayerSet := ⟨1 <<< l.number.toNat⟩

/-- Every layer between two, both included, in either order. -/
def span (a b : Layer) : LayerSet :=
  let low := min a.number.toNat b.number.toNat
  let high := max a.number.toNat b.number.toNat
  ⟨((1 <<< (high + 1 - low)) - 1) <<< low⟩

def union (s t : LayerSet) : LayerSet := ⟨s.mask ||| t.mask⟩

def inter (s t : LayerSet) : LayerSet := ⟨s.mask &&& t.mask⟩

def contains (s : LayerSet) (l : Layer) : Bool := s.mask.testBit l.number.toNat

def isEmpty (s : LayerSet) : Bool := s.mask == 0

/-- Do two sets share a layer? -/
def intersects (s t : LayerSet) : Bool := !(s.inter t).isEmpty

def coversAllCopper (s : LayerSet) : Bool := s.inter allCopper == allCopper

/-- The layers that one entry of a list of pad layers stands for; names of other layers stand for
none. -/
def ofPadLayer (name : String) : LayerSet :=
  if name = "*.Cu" then allCopper
  else if name = "F&B.Cu" then (single .front).union (single .back)
  else
    match Layer.ofName? name with
    | some l => single l
    | none => empty

/-- The copper layers of a pad. -/
def ofPadLayers (names : List String) : LayerSet :=
  names.foldl (fun s name => s.union (ofPadLayer name)) empty

/-! ## Membership -/

@[simp] theorem contains_empty (l : Layer) : empty.contains l = false := by
  simp [empty, contains]

@[simp] theorem contains_union (s t : LayerSet) (l : Layer) :
    (s.union t).contains l = (s.contains l || t.contains l) := by
  simp [union, contains]

@[simp] theorem contains_inter (s t : LayerSet) (l : Layer) :
    (s.inter t).contains l = (s.contains l && t.contains l) := by
  simp [inter, contains]

theorem contains_single (l k : Layer) : (single l).contains k = decide (l = k) := by
  cases l; cases k
  simp [single, contains, Nat.one_shiftLeft, Nat.testBit_two_pow, UInt8.toNat_inj]

theorem contains_span (a b l : Layer) :
    (span a b).contains l =
      decide (min a.number.toNat b.number.toNat ≤ l.number.toNat ∧
        l.number.toNat ≤ max a.number.toNat b.number.toNat) := by
  simp only [span, contains, Nat.one_shiftLeft, Nat.testBit_shiftLeft,
    Nat.testBit_two_pow_sub_one]
  grind

theorem intersects_comm (s t : LayerSet) : s.intersects t = t.intersects s := by
  simp [intersects, inter, Nat.and_comm]

end LayerSet
end CopperTidy
