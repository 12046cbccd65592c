import CopperTidy.Board.Change
import CopperTidy.Board.Islands

/-! # Connections to zones

A pad reaches a zone of its net by a chain of tracks of the net: the first has an end on the pad,
each next one touches the one before, and the last has an end in the copper of the zone. A pad that
lies in the zone itself needs no track for that.
-/

namespace CopperTidy
set_option autoImplicit false

/-- Has the track an end in copper of the zone, on its layer? -/
def Zone.anchors (z : Zone) (t : Track) : Bool :=
  z.covers t.start t.layer t.layer || z.covers t.stop t.layer t.layer

/-- The pad is plated and lies in copper of the zone, on one of its layers. -/
def Pad.LiesIn (pad : Pad) (z : Zone) : Prop :=
  pad.kind ≠ .nonPlated ∧ ∃ l, pad.layers.contains l = true ∧ z.covers pad.position l l = true

namespace Board

/-- The live tracks of a net that a chain from the pad leads to. -/
inductive ChainFrom (b : Board) (pad : Pad) (net : UInt32) : Nat → Prop
  | first {id : Nat} {t : Track} (there : b.track? id = some t) (inNet : t.net = net)
      (meets : pad.meets t = true) : ChainFrom b pad net id
  | next {id last : Nat} {t u : Track} (before : ChainFrom b pad net id)
      (there : b.track? id = some t) (thereLast : b.track? last = some u) (inNet : u.net = net)
      (touches : t.touches u = true) : ChainFrom b pad net last

/-- A chain from the pad has an end in the zone, at `p` on layer `l`. -/
def EntersAt (b : Board) (pad : Pad) (z : Zone) (p : Point) (l : Layer) : Prop :=
  ∃ id t, b.ChainFrom pad z.net id ∧ b.track? id = some t ∧ t.hasEndAt p = true ∧ t.layer = l ∧
    z.covers p l l = true

def ReachesZone (b : Board) (pad : Pad) (z : Zone) : Prop :=
  pad.net = z.net ∧ ∃ p l, b.EntersAt pad z p l

/-- Among the changes is one that moves an end where a chain from the pad entered the zone, and
leaves the track without an end in the zone. -/
def LosesEntry (b : Board) (cs : List Change) (pad : Pad) (z : Zone) : Prop :=
  ∃ id t t' p, .modified id t t' ∈ cs ∧ t.net = z.net ∧ t.hasEndAt p = true ∧
    b.EntersAt pad z p t.layer ∧ z.anchors t' = false

theorem ChainFrom.live {b : Board} {pad : Pad} {net : UInt32} {id : Nat}
    (h : b.ChainFrom pad net id) : ∃ t, b.track? id = some t ∧ t.net = net := by
  cases h with
  | first there inNet => exact ⟨_, there, inNet⟩
  | next _ _ there inNet => exact ⟨_, there, inNet⟩

end Board
end CopperTidy
