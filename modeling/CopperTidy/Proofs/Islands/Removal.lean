import CopperTidy.Proofs.Islands.Reach
import CopperTidy.Proofs.Walks

/-! # Taking a track out of its net

A track can go without cutting its net if whatever it joined is joined without it: because another
track of the net reaches what it reaches, or because all it joined meets at one point. A neighbour
that was joined to nothing else may be left over.
-/

namespace CopperTidy.Board
set_option autoImplicit false

variable {b c : Board} {net : UInt32} {x y : Conductor} {p : Point} {k id : Nat}

theorem reaches_congr (h : c.item? net x = b.item? net x) :
    c.Reaches net x p k ↔ b.Reaches net x p k := by
  rw [Reaches, Reaches, h]

theorem joined_congr (hx : c.item? net x = b.item? net x) (hy : c.item? net y = b.item? net y) :
    c.Joined net x y ↔ b.Joined net x y := by
  rw [Joined, Joined, hx, hy]

theorem linked_of_item?_eq (h : ∀ x, c.item? net x = b.item? net x) (linked : b.Linked net x y) :
    c.Linked net x y := by
  induction linked with
  | refl there => exact .refl (h x ▸ there)
  | step _ last ih => exact .step ih ((joined_congr (h _) (h _)).mpr last)

theorem item?_remove (net : UInt32) (ne : x ≠ .track id) :
    (b.remove id).item? net x = b.item? net x := by
  cases x with
  | pad n => rw [item?, item?, pad?, pad?, remove_pads]
  | track n =>
    have other : n ≠ id := fun e => ne (e ▸ rfl)
    rw [item?, item?, track?_remove, if_neg other]

theorem joined_remove (hx : x ≠ .track id) (hy : y ≠ .track id) :
    (b.remove id).Joined net x y ↔ b.Joined net x y :=
  joined_congr (item?_remove net hx) (item?_remove net hy)

/-- A track of another net is nobody's link. -/
theorem linked_remove_foreign {t : Track} (there : b.track? id = some t) (foreign : t.net ≠ net)
    (linked : b.Linked net x y) : (b.remove id).Linked net x y := by
  refine linked_of_item?_eq (fun z => ?_) linked
  by_cases e : z = .track id
  · subst e
    have none_before : b.item? net (.track id) = none := by
      rw [Option.eq_none_iff_forall_ne_some]
      intro i named
      obtain ⟨t', there', inNet, _⟩ := item?_track.mp named
      rw [there] at there'
      cases there'
      exact foreign inNet
    have none_after : (b.remove id).item? net (.track id) = none := by
      rw [item?, track?_remove, if_pos rfl]
      rfl
    rw [none_before, none_after]
  · exact item?_remove net e

/-! ## Links around a track

Links are walks along joined names, and a track that goes is a vertex that goes. -/

theorem linked_iff_walk :
    b.Linked net x y ↔
      (b.item? net x).isSome = true ∧ Relation.ReflTransGen (b.Joined net) x y := by
  constructor
  · intro linked
    induction linked with
    | refl there => exact ⟨there, .refl⟩
    | step _ last ih => exact ⟨ih.1, ih.2.tail last⟩
  · rintro ⟨there, walk⟩
    induction walk with
    | refl => exact .refl there
    | tail _ last ih => exact .step ih last

section Around

variable {leaf : Conductor → Prop}

theorem linked_remove
    (alone : ∀ v z, leaf v → b.Joined net v z → z = .track id ∨ z = v)
    (around : ∀ w z, w ≠ .track id → z ≠ .track id → b.Joined net w (.track id) →
      b.Joined net (.track id) z → (b.remove id).Linked net w z ∨ leaf w ∨ leaf z)
    (hx : x ≠ .track id) (hy : y ≠ .track id) (leafX : ¬ leaf x) (leafY : ¬ leaf y)
    (linked : b.Linked net x y) : (b.remove id).Linked net x y := by
  obtain ⟨there, walk⟩ := linked_iff_walk.mp linked
  have still : ((b.remove id).item? net x).isSome = true := by
    rw [item?_remove net hx]
    exact there
  refine linked_iff_walk.mpr ⟨still, walk_around Joined.symm
    (fun hw hz joins => (joined_remove hw hz).mpr joins) alone (fun w z hw hz first second => ?_)
    hx hy leafX leafY walk⟩
  exact (around w z hw hz first second).imp_left fun linked => (linked_iff_walk.mp linked).2

/-- What meets a track at one point and layer hangs together there, if not more than one pad does. -/
theorem linked_remove_at {p : Point} {k : Nat}
    (alone : ∀ v z, leaf v → b.Joined net v z → z = .track id ∨ z = v)
    (meet : ∀ w, w ≠ .track id → b.Joined net w (.track id) → b.Reaches net w p k ∨ leaf w)
    (onePad : ∀ m n, b.Reaches net (.pad m) p k → b.Reaches net (.pad n) p k → m = n)
    (hx : x ≠ .track id) (hy : y ≠ .track id) (leafX : ¬ leaf x) (leafY : ¬ leaf y)
    (linked : b.Linked net x y) : (b.remove id).Linked net x y := by
  refine linked_remove alone (fun w z hw hz first second => ?_) hx hy leafX leafY linked
  rcases meet w hw first with atW | is_leaf
  · rcases meet z hz second.symm with atZ | is_leaf
    · left
      by_cases pads : (w.isPad && z.isPad) = false
      · exact ((joined_remove hw hz).mpr (joined_iff.mpr ⟨pads, p, k, atW, atZ⟩)).linked
      · have same : w = z := by
          cases w with
          | track => simp [Conductor.isPad] at pads
          | pad m =>
            cases z with
            | track => simp [Conductor.isPad] at pads
            | pad n => rw [onePad m n atW atZ]
        rw [← same]
        refine .refl ?_
        rw [item?_remove net hw]
        exact atW.there
    · exact .inr (.inr is_leaf)
  · exact .inr (.inl is_leaf)

/-- A track can go if everything it joins is joined to one other item. -/
theorem linked_remove_covered {s : Conductor} (hs : s ≠ .track id)
    (covers : ∀ w, w ≠ .track id → b.Joined net w (.track id) → w = s ∨ b.Joined net w s)
    (there : (b.item? net s).isSome = true)
    (hx : x ≠ .track id) (hy : y ≠ .track id) (linked : b.Linked net x y) :
    (b.remove id).Linked net x y := by
  have toCover (w : Conductor) (hw : w ≠ .track id) (joins : b.Joined net w (.track id)) :
      (b.remove id).Linked net w s := by
    rcases covers w hw joins with rfl | joins
    · refine .refl ?_
      rw [item?_remove net hw]
      exact there
    · exact ((joined_remove hw hs).mpr joins).linked
  have around (w z : Conductor) (hw : w ≠ .track id) (hz : z ≠ .track id)
      (first : b.Joined net w (.track id)) (second : b.Joined net (.track id) z) :
      (b.remove id).Linked net w z ∨ False ∨ False :=
    .inl ((toCover w hw first).trans (toCover z hz second.symm).symm)
  exact linked_remove (fun _ _ no _ => no.elim) around hx hy not_false not_false linked

end Around
end CopperTidy.Board
