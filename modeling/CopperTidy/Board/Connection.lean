import CopperTidy.Board.Basic

/-! # Routed connection

Which conductors of a net hang together. A conductor is a live track or a plated pad, named by its
id, so that it can be followed while a cleaning edits it. Two conductors are in contact when they
have a point and a layer in common, and connected when a chain of contacts joins them.
-/

namespace CopperTidy
set_option autoImplicit false

inductive Conductor
  | track (id : Nat)
  | pad (id : Nat)
  deriving DecidableEq, Repr

namespace Board

/-- Points and layers of a conductor of a net; there are none if it is gone, not plated, or of
another net. -/
def extent? (b : Board) (net : UInt32) : Conductor → Option (List Point × LayerSet)
  | .track id =>
    ((b.track? id).filter fun t => t.net == net).map fun t => ([t.start, t.stop], t.layers)
  | .pad id =>
    ((b.pad? id).filter fun p => p.net == net && p.kind != .nonPlated).map fun p =>
      ([p.position], p.layers)

/-- Is the conductor there? -/
def Conducts (b : Board) (net : UInt32) (x : Conductor) : Prop := (b.extent? net x).isSome = true

/-- Have two conductors a point and a layer in common? -/
def InContact (b : Board) (net : UInt32) (x y : Conductor) : Prop :=
  ∃ ps s qs t, b.extent? net x = some (ps, s) ∧ b.extent? net y = some (qs, t) ∧
    (∃ p ∈ ps, p ∈ qs) ∧ s.intersects t = true

inductive Connected (b : Board) (net : UInt32) (x : Conductor) : Conductor → Prop
  | refl (there : b.Conducts net x) : Connected b net x x
  | step {y z : Conductor} (before : Connected b net x y) (last : b.InContact net y z) :
      Connected b net x z

theorem InContact.symm {b : Board} {net : UInt32} {x y : Conductor} (h : b.InContact net x y) :
    b.InContact net y x := by
  obtain ⟨ps, s, qs, t, hx, hy, ⟨p, inX, inY⟩, layers⟩ := h
  exact ⟨qs, t, ps, s, hy, hx, ⟨p, inY, inX⟩, by rw [LayerSet.intersects_comm]; exact layers⟩

theorem InContact.conducts {b : Board} {net : UInt32} {x y : Conductor}
    (h : b.InContact net x y) : b.Conducts net x := by
  obtain ⟨ps, s, _, _, hx, _⟩ := h
  rw [Conducts, hx]
  rfl

theorem Connected.trans {b : Board} {net : UInt32} {x y z : Conductor}
    (first : b.Connected net x y) (second : b.Connected net y z) : b.Connected net x z := by
  induction second with
  | refl _ => exact first
  | step _ last ih => exact .step ih last

theorem Connected.symm {b : Board} {net : UInt32} {x y : Conductor} (h : b.Connected net x y) :
    b.Connected net y x := by
  induction h with
  | refl there => exact .refl there
  | step _ last ih =>
    exact Connected.trans (.step (.refl last.symm.conducts) last.symm) ih

end Board
end CopperTidy
