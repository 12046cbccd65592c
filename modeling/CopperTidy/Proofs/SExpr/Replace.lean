import CopperTidy.SExpr.Basic

/-! # Replacing a tagged item

Replacing a tagged item of a list by another with that tag leaves the tag of the list as it is, and
all look-ups by another tag.
-/

namespace CopperTidy.SExpr
set_option autoImplicit false

variable {key : String} {e new : SExpr}

theorem tag?_of_hasTag (h : hasTag key e = true) : e.tag? = some key := by
  rw [hasTag, beq_iff_eq] at h
  exact h

theorem text?_of_hasTag (h : hasTag key e = true) : e.text? = none := by
  have tag := tag?_of_hasTag h
  cases e with
  | atom s => cases tag
  | quoted s => cases tag
  | list items => rfl

theorem replaceFirst_eq_set {items : List SExpr} (h : items.find? (hasTag key) = some e) :
    replaceFirst key new items = some (items.set (items.findIdx (hasTag key)) new) := by
  induction items with
  | nil => cases h
  | cons first rest ih =>
    rw [replaceFirst, List.findIdx_cons]
    by_cases here : hasTag key first = true
    · rw [if_pos here, here]
      rfl
    · rw [List.find?_cons_of_neg here] at h
      rw [Bool.not_eq_true] at here
      rw [ih h, here]
      rfl

theorem find?_replaceFirst {items items' : List SExpr} (tagged : hasTag key new = true)
    (h : replaceFirst key new items = some items') (other : String) :
    items'.find? (hasTag other) = if other = key then some new else items.find? (hasTag other) := by
  have differs {e : SExpr} (tag : hasTag key e = true) (ne : other ≠ key) :
      ¬ hasTag other e = true := by
    rw [hasTag, tag?_of_hasTag tag, beq_iff_eq, Option.some.injEq]
    exact Ne.symm ne
  induction items generalizing items' with
  | nil => cases h
  | cons first rest ih =>
    rw [replaceFirst] at h
    by_cases here : hasTag key first = true
    · rw [if_pos here, Option.some.injEq] at h
      subst h
      by_cases same : other = key
      · subst same
        rw [if_pos rfl, List.find?_cons_of_pos tagged]
      · rw [if_neg same, List.find?_cons_of_neg (differs tagged same),
          List.find?_cons_of_neg (differs here same)]
    · rw [if_neg here, Option.map_eq_some_iff] at h
      obtain ⟨rest', replaced, rfl⟩ := h
      have later := ih replaced
      by_cases same : other = key
      · subst same
        rw [if_pos rfl] at later ⊢
        rw [List.find?_cons_of_neg here, later]
      · rw [if_neg same] at later ⊢
        rw [List.find?_cons, List.find?_cons, later]

theorem head?_replaceFirst {items items' : List SExpr} (tagged : hasTag key new = true)
    (h : replaceFirst key new items = some items') :
    items'.head?.bind text? = items.head?.bind text? := by
  cases items with
  | nil => cases h
  | cons first rest =>
    rw [replaceFirst] at h
    split at h
    · next here =>
      cases h
      exact (text?_of_hasTag tagged).trans (text?_of_hasTag here).symm
    · obtain ⟨rest', _, rfl⟩ := Option.map_eq_some_iff.mp h
      rfl

theorem setChild?_eq_set {old : SExpr} (h : e.child? key = some old) :
    e.setChild? key new = some (.list (e.items.set (e.items.findIdx (hasTag key)) new)) := by
  cases e with
  | atom s => cases h
  | quoted s => cases h
  | list items =>
    have found : items.find? (hasTag key) = some old := h
    rw [setChild?, replaceFirst_eq_set found, Option.map_some, SExpr.items]

theorem child?_setChild? {e' : SExpr} (tagged : hasTag key new = true)
    (h : e.setChild? key new = some e') (other : String) :
    e'.child? other = if other = key then some new else e.child? other := by
  cases e with
  | atom s => cases h
  | quoted s => cases h
  | list items =>
    obtain ⟨items', replaced, rfl⟩ := Option.map_eq_some_iff.mp h
    exact find?_replaceFirst tagged replaced other

theorem tag?_setChild? {e' : SExpr} (tagged : hasTag key new = true)
    (h : e.setChild? key new = some e') : e'.tag? = e.tag? := by
  cases e with
  | atom s => cases h
  | quoted s => cases h
  | list items =>
    obtain ⟨items', replaced, rfl⟩ := Option.map_eq_some_iff.mp h
    exact head?_replaceFirst tagged replaced

theorem hasTag_node (key : String) (values : List String) : hasTag key (node key values) = true := by
  rw [hasTag, beq_iff_eq]
  rfl

/-! ## Look-ups see the tagged item only -/

theorem value?_congr {e' : SExpr} (same : e'.child? key = e.child? key) (n : Nat) :
    e'.value? key n = e.value? key n := by
  rw [value?, value?, same]

theorem value?_of_child? {child : SExpr} (h : e.child? key = some child) (n : Nat) :
    e.value? key n = child.items[n + 1]?.bind text? := by
  simp only [value?, h, bind, Option.bind_some]

theorem child?_of_value? {n : Nat} {text : String} (h : e.value? key n = some text) :
    ∃ child, e.child? key = some child := by
  obtain ⟨child, found, _⟩ := Option.bind_eq_some_iff.mp h
  exact ⟨child, found⟩

end CopperTidy.SExpr
