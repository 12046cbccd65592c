import Mathlib.Data.List.Forall2
import CopperTidy.Proofs.SExpr.Replace

/-! # Lists that differ in items of one tag

If two lists agree item by item, except where both have items tagged `key`, then all look-ups by
other tags agree, and so do the texts that stand in the lists themselves.
-/

namespace CopperTidy.SExpr
set_option autoImplicit false

theorem map_eq_of_forall₂ {α β : Type} {r : α → α → Prop} {l l' : List α}
    (h : List.Forall₂ r l l') {f : α → β} (same : ∀ a b, r a b → f b = f a) :
    l'.map f = l.map f := by
  induction h with
  | nil => rfl
  | cons first _ ih => rw [List.map_cons, List.map_cons, same _ _ first, ih]

theorem filter_eq_of_forall₂ {α : Type} {r : α → α → Prop} {l l' : List α}
    (h : List.Forall₂ r l l') {p : α → Bool}
    (same : ∀ a b, r a b → b = a ∨ p a = false ∧ p b = false) : l'.filter p = l.filter p := by
  induction h with
  | nil => rfl
  | cons first _ ih =>
    rw [List.filter_cons, List.filter_cons, ih]
    obtain rfl | ⟨outA, outB⟩ := same _ _ first
    · rfl
    · simp only [outA, outB, Bool.false_eq_true, if_false]

/-- `b` is `a`, or both are tagged `key`. -/
def Same (key : String) (a b : SExpr) : Prop := b = a ∨ hasTag key a = true ∧ hasTag key b = true

/-- The items of two lists are the same but for those tagged `key`. -/
def Alike (key : String) (e e' : SExpr) : Prop := List.Forall₂ (Same key) e.items e'.items

variable {key other : String} {e e' : SExpr}

theorem Alike.refl (key : String) (e : SExpr) : Alike key e e := by
  apply List.forall₂_same.mpr
  intro a _
  exact .inl rfl

theorem hasTag_of_ne (ne : other ≠ key) (h : hasTag key e = true) : hasTag other e = false := by
  rw [hasTag, tag?_of_hasTag h, beq_eq_false_iff_ne]
  exact fun same => ne (Option.some.inj same).symm

namespace Alike

theorem filter_eq {p : SExpr → Bool} (h : Alike key e e')
    (skips : ∀ a, hasTag key a = true → p a = false) : e'.items.filter p = e.items.filter p := by
  apply filter_eq_of_forall₂ h
  rintro a b (rfl | ⟨tagA, tagB⟩)
  · exact .inl rfl
  · exact .inr ⟨skips a tagA, skips b tagB⟩

theorem texts (h : Alike key e e') : e'.items.map text? = e.items.map text? := by
  apply map_eq_of_forall₂ h
  rintro a b (rfl | ⟨tagA, tagB⟩)
  · rfl
  · rw [text?_of_hasTag tagA, text?_of_hasTag tagB]

theorem length_eq (h : Alike key e e') : e'.items.length = e.items.length :=
  (List.Forall₂.length_eq h).symm

theorem textAt (h : Alike key e e') (n : Nat) :
    e'.items[n]?.bind text? = e.items[n]?.bind text? := by
  have texts := congrArg (fun l => l[n]?.bind id) h.texts
  simpa only [List.getElem?_map, Option.bind_map, Function.id_comp] using texts

theorem tag?_eq (h : Alike key e e') : e'.tag? = e.tag? := by
  rw [tag?, tag?, List.head?_eq_getElem?, List.head?_eq_getElem?]
  exact h.textAt 0

theorem children_eq (h : Alike key e e') (ne : other ≠ key) :
    e'.children other = e.children other :=
  h.filter_eq fun _ => hasTag_of_ne ne

theorem child?_eq (h : Alike key e e') (ne : other ≠ key) : e'.child? other = e.child? other := by
  rw [child?, child?, ← List.head?_filter, ← List.head?_filter]
  exact congrArg List.head? (h.children_eq ne)

theorem value?_eq (h : Alike key e e') (ne : other ≠ key) (n : Nat) :
    e'.value? other n = e.value? other n :=
  value?_congr (h.child?_eq ne) n

/-- A list switches on the flag of its own tag only. -/
theorem hasFlag_eq (h : Alike key e e') (ne : other ≠ key) :
    e'.hasFlag other = e.hasFlag other := by
  have off {a : SExpr} (tag : hasTag key a = true) : setsFlag other a = false := by
    have foreign := hasTag_of_ne ne tag
    cases a with
    | atom s => cases tag
    | quoted s => cases tag
    | list items => rw [setsFlag, foreign, Bool.false_and]
  have flags : e'.items.map (setsFlag other) = e.items.map (setsFlag other) := by
    apply map_eq_of_forall₂ h
    rintro a b (rfl | ⟨tagA, tagB⟩)
    · rfl
    · rw [off tagA, off tagB]
  have later := congrArg (fun l => (l.drop 1).any id) flags
  rw [hasFlag, hasFlag]
  simpa only [← List.map_drop, List.any_map, Function.id_comp] using later

theorem of_replaceFirst {new : SExpr} {items items' : List SExpr} (tagged : hasTag key new = true)
    (h : replaceFirst key new items = some items') : Alike key (.list items) (.list items') := by
  show List.Forall₂ (Same key) items items'
  induction items generalizing items' with
  | nil => cases h
  | cons first rest ih =>
    rw [replaceFirst] at h
    split at h
    · next here =>
      cases h
      exact .cons (.inr ⟨here, tagged⟩) (Alike.refl key (.list rest))
    · obtain ⟨rest', later, rfl⟩ := Option.map_eq_some_iff.mp h
      exact .cons (.inl rfl) (ih later)

theorem of_setChild? {new : SExpr} (tagged : hasTag key new = true)
    (set : e.setChild? key new = some e') : Alike key e e' := by
  cases e with
  | atom s => cases set
  | quoted s => cases set
  | list items =>
    obtain ⟨items', replaced, rfl⟩ := Option.map_eq_some_iff.mp set
    exact of_replaceFirst tagged replaced

end Alike
end CopperTidy.SExpr
