import Mathlib.Logic.Relation

/-! # Walks that lose a vertex

When a vertex of a graph goes, a walk between two others can still be made if the neighbours of the
vertex hang together without it. Neighbours that have no other neighbour, the leaves, need not: no
walk between other vertices passes through them.
-/

namespace CopperTidy
set_option autoImplicit false
open Relation

variable {α : Type} {joined still : α → α → Prop} {leaf : α → Prop} {gone x y : α}

/-- The induction goes along the walk; while the walk is at the vertex or at a leaf, it remembers the
last neighbour that it left. -/
theorem walk_around (symm : ∀ {w z}, joined w z → joined z w)
    (rest : ∀ {w z}, w ≠ gone → z ≠ gone → joined w z → still w z)
    (alone : ∀ v z, leaf v → joined v z → z = gone ∨ z = v)
    (around : ∀ w z, w ≠ gone → z ≠ gone → joined w gone → joined gone z →
      ReflTransGen still w z ∨ leaf w ∨ leaf z)
    (hx : x ≠ gone) (hy : y ≠ gone) (leafX : ¬ leaf x) (leafY : ¬ leaf y)
    (walk : ReflTransGen joined x y) : ReflTransGen still x y := by
  have along : (y ≠ gone ∧ ¬ leaf y ∧ ReflTransGen still x y) ∨
      ((y = gone ∨ leaf y) ∧
        ∃ w, w ≠ gone ∧ ¬ leaf w ∧ joined w gone ∧ ReflTransGen still x w) := by
    clear hy leafY
    induction walk with
    | refl => exact .inl ⟨hx, leafX, .refl⟩
    | @tail u v _ last ih =>
      rcases ih with ⟨hu, leafU, walk⟩ | ⟨atGone, w, hw, leafW, joins, walk⟩
      · by_cases hv : v = gone
        · exact .inr ⟨.inl hv, u, hu, leafU, hv ▸ last, walk⟩
        · have leafV : ¬ leaf v := by
            intro is_leaf
            rcases alone v u is_leaf (symm last) with e | e
            · exact hu e
            · exact leafU (e ▸ is_leaf)
          exact .inl ⟨hv, leafV, walk.tail (rest hu hv last)⟩
      · by_cases leafV : leaf v
        · exact .inr ⟨.inr leafV, w, hw, leafW, joins, walk⟩
        · by_cases hv : v = gone
          · exact .inr ⟨.inl hv, w, hw, leafW, joins, walk⟩
          · rcases atGone with hu | leafU
            · rcases around w v hw hv joins (hu ▸ last) with direct | is_leaf | is_leaf
              · exact .inl ⟨hv, leafV, walk.trans direct⟩
              · exact absurd is_leaf leafW
              · exact absurd is_leaf leafV
            · rcases alone u v leafU last with e | e
              · exact absurd e hv
              · exact absurd (e ▸ leafU) leafV
  rcases along with ⟨_, _, walk⟩ | ⟨e | e, _⟩
  · exact walk
  · exact absurd e hy
  · exact absurd e leafY

end CopperTidy
