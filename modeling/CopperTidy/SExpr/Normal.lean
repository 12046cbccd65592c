import CopperTidy.SExpr.Printer

/-! # Normal form

A tree that did not come from a text may hold atoms that no symbol spells: the empty text, or one
with a blank, a delimiter or a backslash. Such an atom is printed in quotes and so is read back as a
quoted string. `normal` is the tree that comes back.
-/

namespace CopperTidy.SExpr
set_option autoImplicit false

mutual

/-- The tree with every atom that has no bare spelling turned into a quoted string. -/
def normal : SExpr → SExpr
  | .atom s => if isBare s.toList then .atom s else .quoted s
  | .quoted s => .quoted s
  | .list items => .list (normalItems items)

def normalItems : List SExpr → List SExpr
  | [] => []
  | e :: rest => normal e :: normalItems rest

end

/-- A text that no bare symbol spells, or that is not written as one. -/
def NeedsQuotes (s : String) : Prop :=
  s = "" ∨ ∃ c ∈ s.toList, Text.isBlank c = true ∨ c = '(' ∨ c = ')' ∨ c = '"' ∨ c = '\\'

instance (s : String) : Decidable (NeedsQuotes s) := inferInstanceAs (Decidable (_ ∨ _))

theorem isBare_iff (s : String) : isBare s.toList = true ↔ ¬ NeedsQuotes s := by
  have nonempty : s.toList.isEmpty = true ↔ s = "" := by
    rw [List.isEmpty_iff, String.toList_eq_nil_iff]
  simp only [isBare, isSymbolChar, isDelimiter, NeedsQuotes, Bool.and_eq_true, Bool.not_eq_true',
    ← Bool.not_eq_true, nonempty, List.all_eq_true, Bool.or_eq_true, beq_iff_eq, bne_iff_ne]
  grind

theorem normalItems_eq_map (items : List SExpr) : normalItems items = items.map normal := by
  induction items with
  | nil => rfl
  | cons e rest ih => rw [normalItems, ih, List.map_cons]

mutual

/-- Nothing is left to be turned. -/
@[simp] theorem normal_normal : (e : SExpr) → normal (normal e) = normal e
  | .atom s => by
    by_cases h : isBare s.toList
    · simp [normal, h]
    · simp [normal, h]
  | .quoted s => rfl
  | .list items => by rw [normal, normal, normalItems_normalItems items]

theorem normalItems_normalItems :
    (items : List SExpr) → normalItems (normalItems items) = normalItems items
  | [] => rfl
  | e :: rest => by rw [normalItems, normalItems, normal_normal e, normalItems_normalItems rest]

end

mutual

/-- The texts of the atoms of a tree, from left to right. -/
def atoms : SExpr → List String
  | .atom s => [s]
  | .quoted _ => []
  | .list items => atomsOf items

def atomsOf : List SExpr → List String
  | [] => []
  | e :: rest => atoms e ++ atomsOf rest

end

theorem mem_atomsOf {s : String} {items : List SExpr} :
    s ∈ atomsOf items ↔ ∃ e ∈ items, s ∈ e.atoms := by
  induction items with
  | nil => simp [atomsOf]
  | cons e rest ih => simp [atomsOf, ih]

mutual

/-- A tree is in normal form just if each of its atoms is written bare. -/
theorem normal_eq_self_iff :
    (e : SExpr) → (normal e = e ↔ ∀ s ∈ e.atoms, isBare s.toList = true)
  | .atom s => by simp [normal, atoms]
  | .quoted s => by simp [normal, atoms]
  | .list items => by rw [normal, SExpr.list.injEq, atoms, normalItems_eq_self_iff items]

theorem normalItems_eq_self_iff : (items : List SExpr) →
    (normalItems items = items ↔ ∀ s ∈ atomsOf items, isBare s.toList = true)
  | [] => by simp [normalItems, atomsOf]
  | e :: rest => by
    rw [normalItems, atomsOf, List.cons.injEq, normal_eq_self_iff e, normalItems_eq_self_iff rest,
      List.forall_mem_append]

end

mutual

/-- A tree and its normal form are printed alike. -/
theorem flat_normal (rest : List Char) : (e : SExpr) → flat rest (normal e) = flat rest e
  | .atom s => by
    by_cases h : isBare s.toList
    · simp [normal, h]
    · simp [normal, h, flat, symbol]
  | .quoted s => rfl
  | .list items => by rw [normal, flat, flat, flatItems_normalItems]

theorem flatItems_normalItems (rest : List Char) :
    (items : List SExpr) → flatItems rest (normalItems items) = flatItems rest items
  | [] => rfl
  | [e] => by rw [normalItems, normalItems, flatItems, flatItems, flat_normal rest e]
  | e :: f :: more => by
    have tail : flatItems rest (normal f :: normalItems more) = flatItems rest (f :: more) :=
      flatItems_normalItems rest (f :: more)
    show flat (' ' :: flatItems rest (normal f :: normalItems more)) (normal e) =
      flat (' ' :: flatItems rest (f :: more)) e
    rw [tail, flat_normal]

end

end CopperTidy.SExpr
