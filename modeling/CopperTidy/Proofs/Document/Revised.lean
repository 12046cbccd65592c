import CopperTidy.Proofs.Document.Moved

/-! # Reading a revised list

A root list that was brought in line with a board is read again. Each item gives what its track has
become, or nothing if the track is gone; items that were no source give what they gave before.
-/

namespace CopperTidy
set_option autoImplicit false

namespace Document

open Design (Item NetEntry itemIfAny? itemsFrom)

variable {b : Board} {sources : List (Nat × Nat)} {nets : List NetEntry} {m : Nat} {e : SExpr}

/-- The track read from item number `k` is gone from the board or still there, with ends that can
be written. -/
def Followed (b : Board) (sources : List (Nat × Nat)) (t : Track) (k : Nat) : Prop :=
  ∃ track, fate b sources k = some track ∧
    ∀ u, track = some u → t.Stretches u ∧ ∀ p, u.hasEndAt p = true → p.Fits

/-- The items read after the walk, `found'`, beside those read before. -/
structure Revises (b : Board) (sources : List (Nat × Nat)) (found found' : List Item) : Prop where
  tracks : (found'.filterMap Item.placed?).map (·.1) =
    (found.filterMap Item.placed?).filterMap fun entry => (fate b sources entry.2).join
  pads : found'.flatMap Item.pads = found.flatMap Item.pads
  zones : found'.filterMap Item.zone? = found.filterMap Item.zone?

theorem Revises.nil : Revises b sources [] [] := ⟨rfl, rfl, rfl⟩

theorem Revises.append {first first' second second' : List Item}
    (h : Revises b sources first first') (k : Revises b sources second second') :
    Revises b sources (first ++ second) (first' ++ second') := by
  constructor
  · rw [List.filterMap_append, List.map_append, h.tracks, k.tracks, List.filterMap_append,
      List.filterMap_append]
  · rw [List.flatMap_append, List.flatMap_append, h.pads, k.pads]
  · rw [List.filterMap_append, List.filterMap_append, h.zones, k.zones]

/-! ## One item -/

theorem alone_of_placed {item : Item} {entry : Track × Nat} (h : item.placed? = some entry) :
    item.pads = [] ∧ item.zone? = none := by
  cases item with
  | footprint f => cases h
  | zone z => cases h
  | segment s => exact ⟨rfl, rfl⟩
  | arc a => exact ⟨rfl, rfl⟩
  | via v => exact ⟨rfl, rfl⟩

theorem Revises.dropped {item : Item} {t : Track} {k : Nat} (placed : item.placed? = some (t, k))
    (gone : fate b sources k = some none) : Revises b sources [item] [] := by
  obtain ⟨pads, zone⟩ := alone_of_placed placed
  constructor
  · simp [placed, gone]
  · simp [pads]
  · simp [zone]

theorem Revises.changed {item item' : Item} {t u : Track} {k n : Nat}
    (placed : item.placed? = some (t, k)) (placed' : item'.placed? = some (u, n))
    (now : fate b sources k = some (some u)) : Revises b sources [item] [item'] := by
  obtain ⟨pads, zone⟩ := alone_of_placed placed
  obtain ⟨pads', zone'⟩ := alone_of_placed placed'
  constructor
  · simp [placed, placed', now]
  · simp [pads, pads']
  · simp [zone, zone']

theorem Revises.shifted {item : Item} (none_placed : item.placed? = none) (n : Nat) :
    Revises b sources [item] [item.moveTo n] := by
  constructor
  · simp [Item.placed?_moveTo, none_placed]
  · simp [Item.pads_moveTo]
  · simp [List.filterMap_cons, Item.zone?_moveTo]

/-- What is left of one item is read as what its track has become, in front of any other items, and
it declares the nets that it declared before. -/
theorem revise_read {item : Option Item} (read : itemIfAny? nets m e = some item)
    (idle : (∀ t, (t, m) ∉ item.toList.filterMap Item.placed?) → fate b sources m = none)
    (followed : ∀ t k, (t, k) ∈ item.toList.filterMap Item.placed? → Followed b sources t k)
    (n : Nat) :
    (revise b sources m e).toList.filter (SExpr.hasTag "net") = [e].filter (SExpr.hasTag "net") ∧
      ∃ found', Revises b sources item.toList found' ∧
        ∀ rest more, itemsFrom nets (n + (revise b sources m e).toList.length) rest = .ok more →
          itemsFrom nets n ((revise b sources m e).toList ++ rest) = .ok (found' ++ more) := by
  have again := Design.itemIfAny?_at nets m n e
  rw [read, Option.map_some] at again
  rw [revise]
  cases item with
  | none =>
    have stays := idle fun t mem => by simp at mem
    rw [stays]
    refine ⟨rfl, [], .nil, fun rest more later => ?_⟩
    exact Design.itemsFrom_cons.mpr ⟨none, more, again, later, rfl⟩
  | some item =>
    rw [Option.toList_some] at idle followed ⊢
    cases placed : item.placed? with
    | none =>
      have stays := idle fun t mem => by simp [placed] at mem
      rw [stays]
      refine ⟨rfl, [item.moveTo n], .shifted placed n, fun rest more later => ?_⟩
      exact Design.itemsFrom_cons.mpr ⟨_, more, again, later, rfl⟩
    | some entry =>
      obtain ⟨t, k⟩ := entry
      have number : k = m := Design.node_of_itemIfAny? read placed
      subst number
      have notNet := (Design.source_of_placed read placed).not_net
      obtain ⟨track, now, follows⟩ := followed t k (by simp [placed])
      rw [now]
      cases track with
      | none =>
        refine ⟨by simp [settle, notNet], [], .dropped placed now, fun rest more later => ?_⟩
        exact later
      | some u =>
        obtain ⟨stretches, fits⟩ := follows u rfl
        obtain ⟨e', item', settled, tag, read', placed'⟩ := settle_read read placed stretches fits n
        have notNet' : SExpr.hasTag "net" e' = false := by
          rw [SExpr.hasTag, tag]
          exact notNet
        simp only [settled, Option.toList_some]
        refine ⟨by simp [notNet, notNet'], [item'], .changed placed placed' now, ?_⟩
        intro rest more later
        exact Design.itemsFrom_cons.mpr ⟨some item', more, read', later, rfl⟩

/-! ## The list -/

/-- The items of a revised list, and its declared nets, by the items of the list. -/
theorem itemsFrom_reviseFrom {items : List SExpr} {found : List Item}
    (read : itemsFrom nets m items = .ok found)
    (idle : ∀ k, m ≤ k → (∀ t, (t, k) ∉ found.filterMap Item.placed?) → fate b sources k = none)
    (followed : ∀ t k, (t, k) ∈ found.filterMap Item.placed? → Followed b sources t k) (n : Nat) :
    (reviseFrom b sources m items).filter (SExpr.hasTag "net") = items.filter (SExpr.hasTag "net") ∧
      ∃ found', itemsFrom nets n (reviseFrom b sources m items) = .ok found' ∧
        Revises b sources found found' := by
  induction items generalizing m n found with
  | nil =>
    cases read
    exact ⟨rfl, [], rfl, .nil⟩
  | cons e rest ih =>
    obtain ⟨item, more, readHere, readMore, rfl⟩ := Design.itemsFrom_cons.mp read
    rw [List.filterMap_append] at idle followed
    have later := (Design.placed_ascending readMore).2
    have own {t : Track} {k : Nat} (mem : (t, k) ∈ item.toList.filterMap Item.placed?) : k = m := by
      obtain ⟨it, here, placed⟩ := List.mem_filterMap.mp mem
      rw [Option.mem_toList.mp here] at readHere
      exact Design.node_of_itemIfAny? readHere placed
    have idleHere : (∀ t, (t, m) ∉ item.toList.filterMap Item.placed?) → fate b sources m = none := by
      intro absent
      apply idle m (Nat.le_refl m)
      intro t mem
      rcases List.mem_append.mp mem with here | after
      · exact absent t here
      · have range := later (t, m) after
        omega
    have idleMore : ∀ k, m + 1 ≤ k → (∀ t, (t, k) ∉ more.filterMap Item.placed?) →
        fate b sources k = none := by
      intro k le absent
      apply idle k (by omega)
      intro t mem
      rcases List.mem_append.mp mem with here | after
      · have number := own here
        omega
      · exact absent t after
    have followedHere : ∀ t k, (t, k) ∈ item.toList.filterMap Item.placed? → Followed b sources t k :=
      fun t k mem => followed t k (List.mem_append_left _ mem)
    have followedMore : ∀ t k, (t, k) ∈ more.filterMap Item.placed? → Followed b sources t k :=
      fun t k mem => followed t k (List.mem_append_right _ mem)
    rw [reviseFrom]
    obtain ⟨same, found', revises, reads⟩ := revise_read readHere idleHere followedHere n
    obtain ⟨sameMore, more', readMore', revisesMore⟩ := ih readMore idleMore followedMore
      (n + (revise b sources m e).toList.length)
    refine ⟨?_, found' ++ more', reads _ _ readMore', revises.append revisesMore⟩
    rw [List.filter_append, same, sameMore, ← List.filter_append, List.singleton_append]

end Document
end CopperTidy
