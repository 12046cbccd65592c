import CopperTidy.Copper.Zone
import Mathlib.Algebra.Ring.Parity
import Mathlib.Data.List.Rotate
import Mathlib.Logic.Relation

/-! # One outline, written down in several ways

The test of a filled polygon comes from the last vertex and walks along the list, so what it sees is
a list of edges, each from one vertex to the next. To begin at another vertex turns that list round.
To write a vertex down again puts in an edge from the vertex to itself, and no ray crosses such an
edge, whatever the arithmetic says. What is left, the sides, is the same in any order for all lists
that write one outline down, and so is the number of sides that a ray crosses.
-/

namespace CopperTidy
set_option autoImplicit false

namespace Outline

/-! ## Edges and sides -/

/-- The edges of a path that comes from `previous`. -/
def path (previous : Point) : List Point → List (Point × Point)
  | [] => []
  | v :: rest => (previous, v) :: path v rest

/-- The edges of a closed outline. The first one closes it. -/
def edges : List Point → List (Point × Point)
  | [] => []
  | v :: rest => path (rest.getLast?.getD v) (v :: rest)

/-- The edges from one point to another one. -/
def sides (outline : List Point) : List (Point × Point) :=
  (edges outline).filter fun edge => decide (edge.1 ≠ edge.2)

/-- How many sides of the outline does the ray from `p` to the right cross? -/
def crossings (p : Point) (outline : List Point) : Nat :=
  (sides outline).countP fun side => crosses p side.1 side.2

/-- A list of vertices against another one of the same outline: it begins at another vertex, or it
has a vertex some more times in a row. -/
inductive Redraws : List Point → List Point → Prop
  | turned (outline : List Point) (n : Nat) : Redraws outline (outline.rotate n)
  | repeated (before : List Point) (v : Point) (after : List Point) (n : Nat) :
      Redraws (before ++ v :: after) (before ++ v :: (List.replicate n v ++ after))

/-- Two lists of vertices write one outline down: such steps, there or back, lead from one list to
the other. -/
def Same : List Point → List Point → Prop := Relation.EqvGen Redraws

variable {l m : List Point}

theorem path_append (previous : Point) (l m : List Point) :
    path previous (l ++ m) = path previous l ++ path (l.getLast?.getD previous) m := by
  induction l generalizing previous with
  | nil => rfl
  | cons v l ih =>
    rw [List.cons_append, path, path, ih, List.getLast?_cons, Option.getD_some, List.cons_append]

theorem path_replicate (v : Point) (n : Nat) :
    path v (List.replicate n v) = List.replicate n (v, v) := by
  induction n with
  | zero => rfl
  | succ n ih => rw [List.replicate_succ, path, ih, List.replicate_succ]

/-- With the first vertex put last, the closing edge comes last too. -/
theorem edges_concat (v : Point) (rest : List Point) :
    edges (rest ++ [v]) = path v rest ++ [(rest.getLast?.getD v, v)] := by
  cases rest with
  | nil => rfl
  | cons w rest =>
    have last : (rest ++ [v]).getLast?.getD w = v := by rw [List.getLast?_concat, Option.getD_some]
    rw [List.cons_append, edges, last, ← List.cons_append, path_append, List.getLast?_cons,
      Option.getD_some, path, path, path]

theorem edges_rotate (outline : List Point) (n : Nat) :
    (edges (outline.rotate n)).Perm (edges outline) := by
  induction n generalizing outline with
  | zero => rw [List.rotate_zero]
  | succ n ih =>
    cases outline with
    | nil => rw [List.rotate_nil]
    | cons v rest =>
      have moved : (edges (rest ++ [v])).Perm (edges (v :: rest)) := by
        rw [edges_concat]
        exact List.perm_append_singleton _ _
      rw [List.rotate_cons_succ]
      exact (ih (rest ++ [v])).trans moved

theorem edges_append_comm (l m : List Point) : (edges (l ++ m)).Perm (edges (m ++ l)) := by
  rw [← List.rotate_append_length_eq l m]
  exact (edges_rotate (l ++ m) l.length).symm

theorem getLast?_repeated (v : Point) (rest : List Point) (n : Nat) :
    (List.replicate n v ++ rest).getLast?.getD v = rest.getLast?.getD v := by
  rw [List.getLast?_append, List.getLast?_replicate]
  cases rest.getLast? <;> cases n <;> rfl

theorem edges_first_repeated (v : Point) (rest : List Point) (n : Nat) :
    (edges (v :: (List.replicate n v ++ rest))).Perm
      (List.replicate n (v, v) ++ edges (v :: rest)) := by
  have last : (List.replicate n v).getLast?.getD v = v := by
    simpa using getLast?_repeated v [] n
  rw [edges, getLast?_repeated, path, path_append, path_replicate, last, edges, path]
  exact List.perm_middle.symm

theorem edges_repeated (before : List Point) (v : Point) (after : List Point) (n : Nat) :
    (edges (before ++ v :: (List.replicate n v ++ after))).Perm
      (List.replicate n (v, v) ++ edges (before ++ v :: after)) := by
  -- the list is turned until the vertex stands first
  have turned := edges_append_comm before (v :: (List.replicate n v ++ after))
  have back := edges_append_comm (v :: after) before
  have first := edges_first_repeated v (after ++ before) n
  rw [← List.append_assoc, ← List.cons_append, ← List.cons_append] at first
  exact (turned.trans first).trans (back.append_left _)

/-! ## What two ways to write an outline down have in common -/

theorem Redraws.sides_perm (step : Redraws l m) : (sides m).Perm (sides l) := by
  cases step with
  | turned _ n => exact (edges_rotate l n).filter _
  | repeated before v after n =>
    have repeated := (edges_repeated before v after n).filter fun edge => decide (edge.1 ≠ edge.2)
    -- what the repetition puts in are edges from the vertex to itself
    have no_side : (List.replicate n (v, v)).filter (fun edge => decide (edge.1 ≠ edge.2)) = [] :=
      List.filter_replicate_of_neg (by simp)
    rw [List.filter_append, no_side, List.nil_append] at repeated
    exact repeated

theorem Same.sides_perm (same : Same l m) : (sides l).Perm (sides m) := by
  induction same with
  | rel _ _ step => exact step.sides_perm.symm
  | refl _ => exact .refl _
  | symm _ _ _ ih => exact ih.symm
  | trans _ _ _ _ _ ih₁ ih₂ => exact ih₁.trans ih₂

theorem Same.crossings_eq (same : Same l m) (p : Point) : crossings p l = crossings p m :=
  same.sides_perm.countP_eq _

theorem same_rotate (outline : List Point) (n : Nat) : Same outline (outline.rotate n) :=
  .rel _ _ (.turned outline n)

theorem same_repeated (before : List Point) (v : Point) (after : List Point) (n : Nat) :
    Same (before ++ v :: after) (before ++ v :: (List.replicate n v ++ after)) :=
  .rel _ _ (.repeated before v after n)

/-- To close an outline is to repeat its first vertex and to begin with the second of the two. -/
theorem same_closed (first : Point) (rest : List Point) :
    Same (first :: rest) (first :: rest ++ [first]) := by
  have turned := same_rotate (first :: first :: rest) 1
  rw [List.rotate_cons_succ, List.rotate_zero] at turned
  exact .trans _ _ _ (same_repeated [] first rest 1) turned

end Outline

/-! ## What the ray crosses -/

open Outline

theorem crosses_self (p v : Point) : crosses p v v = false := by
  rw [crosses, bne_self_eq_false, Bool.false_and]

theorem oddCrossings_iff (p previous : Point) (l : List Point) :
    oddCrossings p previous l = true ↔
      Odd ((path previous l).countP fun edge => crosses p edge.1 edge.2) := by
  induction l generalizing previous with
  | nil => simp [oddCrossings, path]
  | cons v l ih =>
    rw [oddCrossings, path, List.countP_cons]
    cases crosses p previous v with
    | false => simpa using ih v
    | true => simp [Nat.odd_add_one, ← ih v]

theorem countP_edges (p : Point) (outline : List Point) :
    (edges outline).countP (fun edge => crosses p edge.1 edge.2) = crossings p outline := by
  rw [crossings, sides, List.countP_filter]
  refine List.countP_congr fun edge _ => ?_
  rw [Bool.and_eq_true, decide_eq_true_eq, iff_self_and]
  intro crossed level
  rw [level, crosses_self] at crossed
  cases crossed

/-- A point is inside if the ray from it crosses an odd number of sides. -/
theorem insidePolygon_iff (p : Point) (outline : List Point) :
    insidePolygon p outline = true ↔ 3 ≤ outline.length ∧ Odd (crossings p outline) := by
  cases outline with
  | nil => simp [insidePolygon]
  | cons v rest =>
    rw [insidePolygon, List.getLast?_cons, Bool.and_eq_true, decide_eq_true_eq, oddCrossings_iff,
      ← countP_edges, edges]

theorem Outline.Same.insidePolygon_eq {l m : List Point} (same : Same l m)
    (solid : 3 ≤ l.length ↔ 3 ≤ m.length) (p : Point) : insidePolygon p l = insidePolygon p m := by
  rw [Bool.eq_iff_iff, insidePolygon_iff, insidePolygon_iff, solid, same.crossings_eq]

/-- One fill with its outline written down in two ways, both with three vertices or more, or both
with less than it takes to hold a point. -/
structure Fill.Redrawn (f g : Fill) : Prop where
  layer : f.layer = g.layer
  outline : Same f.outline g.outline
  solid : 3 ≤ f.outline.length ↔ 3 ≤ g.outline.length

theorem Zone.covers_eq {z w : Zone} (fills : List.Forall₂ Fill.Redrawn z.fills w.fills) (p : Point)
    (top bottom : Layer) : z.covers p top bottom = w.covers p top bottom := by
  rw [Zone.covers, Zone.covers]
  generalize z.fills = fs, w.fills = gs at fills
  induction fills with
  | nil => rfl
  | cons fill _ ih =>
    rw [List.any_cons, List.any_cons, ih, fill.layer, fill.outline.insidePolygon_eq fill.solid]

/-- An outline of three vertices or more holds a point if the ray crosses an odd number of sides. So
it does not matter where the list begins, how often a vertex stands in a row and whether the list is
closed, for the polygon and for a zone with such fills. -/
theorem insidePolygon_redrawn (p : Point) :
    (∀ outline : List Point, 3 ≤ outline.length →
      (insidePolygon p outline = true ↔ Odd (crossings p outline)) ∧
      (∀ n, insidePolygon p (outline.rotate n) = insidePolygon p outline) ∧
      (∀ before v after n, outline = before ++ v :: after →
        insidePolygon p (before ++ v :: (List.replicate n v ++ after)) = insidePolygon p outline) ∧
      (∀ first, outline.head? = some first →
        insidePolygon p (outline ++ [first]) = insidePolygon p outline) ∧
      ∀ drawn, Same outline drawn → 3 ≤ drawn.length →
        insidePolygon p drawn = insidePolygon p outline) ∧
    ∀ z w : Zone, List.Forall₂ Fill.Redrawn z.fills w.fills →
      ∀ top bottom, z.covers p top bottom = w.covers p top bottom := by
  refine ⟨fun outline three => ?_, fun z w fills => Zone.covers_eq fills p⟩
  have redrawn {drawn : List Point} (same : Same outline drawn) (enough : 3 ≤ drawn.length) :
      insidePolygon p drawn = insidePolygon p outline :=
    (same.insidePolygon_eq (iff_of_true three enough) p).symm
  refine ⟨?_, fun n => ?_, ?_, ?_, fun drawn => redrawn⟩
  · rw [insidePolygon_iff, and_iff_right three]
  · exact redrawn (same_rotate outline n) (by rwa [List.length_rotate])
  · rintro before v after n rfl
    refine redrawn (same_repeated before v after n) ?_
    simp only [List.length_append, List.length_cons] at three ⊢
    omega
  · intro first head
    obtain ⟨rest, rfl⟩ := List.head?_eq_some_iff.mp head
    refine redrawn (same_closed first rest) ?_
    rw [List.length_append]
    exact three.trans (Nat.le_add_right _ _)

/-- A ray at the height of two corners of a diamond. -/
theorem insidePolygon_redrawn_diamond :
    let p : Point := ⟨5, 0⟩
    let diamond : List Point := [⟨0, 0⟩, ⟨10, 10⟩, ⟨20, 0⟩, ⟨10, -10⟩]
    let closed : List Point := diamond ++ [⟨0, 0⟩]
    3 ≤ diamond.length ∧ insidePolygon p diamond = true ∧ Odd (crossings p diamond) ∧
      insidePolygon p (diamond.rotate 2) = true ∧
      insidePolygon p [⟨0, 0⟩, ⟨10, 10⟩, ⟨20, 0⟩, ⟨20, 0⟩, ⟨20, 0⟩, ⟨10, -10⟩] = true ∧
      insidePolygon p closed = true ∧
      Same closed diamond ∧ 3 ≤ closed.length ∧
      Zone.covers ⟨1, [⟨.front, closed⟩]⟩ p .front .back = true := by
  intro p diamond closed
  have three : 3 ≤ diamond.length := by decide
  have four : 3 ≤ closed.length := by decide
  have inside : insidePolygon p diamond = true := by decide +kernel
  have same : Same closed diamond := .symm _ _ (same_closed _ _)
  have covers : Zone.covers ⟨1, [⟨.front, diamond⟩]⟩ p .front .back = true := by decide +kernel
  obtain ⟨polygon, zone⟩ := insidePolygon_redrawn p
  obtain ⟨odd, rotated, repeated, put_last, _⟩ := polygon diamond three
  have redrawn : List.Forall₂ Fill.Redrawn [⟨.front, closed⟩] [⟨.front, diamond⟩] :=
    .cons ⟨rfl, same, iff_of_true four three⟩ .nil
  exact ⟨three, inside, odd.mp inside, (rotated 2).trans inside,
    (repeated [⟨0, 0⟩, ⟨10, 10⟩] ⟨20, 0⟩ [⟨10, -10⟩] 2 rfl).trans inside,
    (put_last ⟨0, 0⟩ rfl).trans inside, same, four, (zone _ _ redrawn .front .back).trans covers⟩

/-- Two vertices hold nothing, but with one of them repeated the list is long enough for the test,
and the way there and the way back are rounded apart. -/
example :
    let p : Point := ⟨24855089, 25279459⟩
    let far : Point := ⟨149130534, 151676754⟩
    insidePolygon p [⟨0, 0⟩, far] = false ∧ insidePolygon p [⟨0, 0⟩, ⟨0, 0⟩, far] = true := by
  decide +kernel

end CopperTidy
