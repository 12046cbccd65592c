import CopperTidy.Design.Extract
import CopperTidy.SExpr.Normal

/-! # Designs and normal forms

A design is read from the texts of a tree and the tags of its lists. Neither depends on whether a
text is quoted; only a flag has to be a bare symbol, and the flags are symbols that stay bare.
-/

namespace CopperTidy
set_option autoImplicit false

namespace SExpr

/-! ## Look-ups in a normal form -/

@[simp] theorem text?_normal (e : SExpr) : (normal e).text? = e.text? := by
  cases e with
  | atom s =>
    rw [normal]
    split <;> rfl
  | quoted s => rfl
  | list items => rfl

theorem text?_comp_normal : text? ∘ normal = text? := funext text?_normal

@[simp] theorem items_normal (e : SExpr) : (normal e).items = e.items.map normal := by
  cases e with
  | atom s =>
    rw [normal]
    split <;> rfl
  | quoted s => rfl
  | list items =>
    rw [normal, normalItems_eq_map]
    rfl

@[simp] theorem tag?_normal (e : SExpr) : (normal e).tag? = e.tag? := by
  rw [tag?, tag?, items_normal, List.head?_map, Option.bind_map, text?_comp_normal]

@[simp] theorem hasTag_normal (key : String) (e : SExpr) : hasTag key (normal e) = hasTag key e := by
  rw [hasTag, hasTag, tag?_normal]

theorem hasTag_comp_normal (key : String) : hasTag key ∘ normal = hasTag key :=
  funext (hasTag_normal key)

@[simp] theorem child?_normal (key : String) (e : SExpr) :
    (normal e).child? key = (e.child? key).map normal := by
  rw [child?, child?, items_normal, List.find?_map, hasTag_comp_normal]

@[simp] theorem children_normal (key : String) (e : SExpr) :
    (normal e).children key = (e.children key).map normal := by
  rw [children, children, items_normal, List.filter_map, hasTag_comp_normal]

@[simp] theorem textAt_normal (e : SExpr) (n : Nat) :
    (normal e).items[n]?.bind text? = e.items[n]?.bind text? := by
  rw [items_normal, List.getElem?_map, Option.bind_map, text?_comp_normal]

@[simp] theorem value?_normal (key : String) (n : Nat) (e : SExpr) :
    (normal e).value? key n = e.value? key n := by
  simp only [value?, child?_normal, bind, Option.bind_map, Function.comp_def, textAt_normal]

theorem setsFlag_normal {flag : String} (bare : isBare flag.toList = true) (e : SExpr) :
    setsFlag flag (normal e) = setsFlag flag e := by
  cases e with
  | atom s =>
    rw [normal]
    split
    · rfl
    · next quoted =>
      have other : s ≠ flag := by rintro rfl; exact quoted bare
      simp [setsFlag, other]
  | quoted s => rfl
  | list inside =>
    have tag := hasTag_normal flag (.list inside)
    have second := textAt_normal (.list inside) 1
    rw [normal] at tag second ⊢
    rw [items, items] at second
    rw [setsFlag, setsFlag, tag, second]

theorem hasFlag_normal {flag : String} (bare : isBare flag.toList = true) (e : SExpr) :
    (normal e).hasFlag flag = e.hasFlag flag := by
  rw [hasFlag, hasFlag, items_normal, ← List.map_drop, List.any_map]
  congr 1
  exact funext (setsFlag_normal bare)

end SExpr

namespace Design

open SExpr (normal)

/-! ## Fields -/

@[simp] theorem float?_normal (e : SExpr) (key : String) (n : Nat) :
    float? (normal e) key n = float? e key n := by
  rw [float?, float?, SExpr.value?_normal]

@[simp] theorem uuidOf_normal (e : SExpr) : uuidOf (normal e) = uuidOf e := by
  simp only [uuidOf, SExpr.value?_normal]

@[simp] theorem position_normal (e : SExpr) (key : String) :
    position (normal e) key = position e key := by
  simp only [position, float?_normal]

@[simp] theorem netOf?_normal (nets : List NetEntry) (e : SExpr) :
    netOf? nets (normal e) = netOf? nets e := by
  rw [netOf?, netOf?, SExpr.value?_normal]

@[simp] theorem texts_normal (e : SExpr) (key : String) : texts (normal e) key = texts e key := by
  unfold texts
  rw [SExpr.child?_normal]
  cases e.child? key with
  | none => rfl
  | some child =>
    simp only [Option.map_some, SExpr.items_normal, ← List.map_drop, List.filterMap_map,
      SExpr.text?_comp_normal]

@[simp] theorem isLocked_normal (e : SExpr) :
    (normal e).hasFlag "locked" = e.hasFlag "locked" := SExpr.hasFlag_normal (by decide) e

@[simp] theorem viaForm_normal (e : SExpr) : viaForm (normal e) = viaForm e := by
  have micro : (normal e).hasFlag "micro" = e.hasFlag "micro" := SExpr.hasFlag_normal (by decide) e
  have blind : (normal e).hasFlag "blind" = e.hasFlag "blind" := SExpr.hasFlag_normal (by decide) e
  have buried : (normal e).hasFlag "buried" = e.hasFlag "buried" :=
    SExpr.hasFlag_normal (by decide) e
  rw [viaForm, viaForm, micro, blind, buried]

/-! ## Declarations -/

theorem netEntry?_normal (e : SExpr) : netEntry? (normal e) = netEntry? e := by
  unfold netEntry?
  rw [SExpr.items_normal]
  rcases e.items with _ | ⟨_, _ | ⟨id, _ | ⟨name, _⟩⟩⟩
  · rfl
  · rfl
  · rfl
  · simp only [List.map_cons, SExpr.text?_normal]

theorem layerEntry?_normal (e : SExpr) : layerEntry? (normal e) = layerEntry? e := by
  unfold layerEntry?
  rw [SExpr.items_normal]
  rcases e.items with _ | ⟨ordinal, _ | ⟨name, _ | ⟨kind, more⟩⟩⟩
  · rfl
  · rfl
  · rfl
  · simp only [List.map_cons, SExpr.text?_normal, List.head?_map, Option.bind_map,
      SExpr.text?_comp_normal]

theorem layerEntries_normal (e : SExpr) : layerEntries (normal e) = layerEntries e := by
  rw [layerEntries, layerEntries, SExpr.items_normal, ← List.map_drop, List.filterMap_map]
  congr 1
  exact funext layerEntry?_normal

/-! ## Footprints -/

theorem padEntry_normal (nets : List NetEntry) (e : SExpr) :
    padEntry nets (normal e) = padEntry nets e := by
  unfold padEntry
  rw [SExpr.items_normal]
  rcases e.items with _ | ⟨_, _ | ⟨number, _ | ⟨kind, _ | ⟨shape, more⟩⟩⟩⟩
  · rfl
  · rfl
  · rfl
  · rfl
  · simp only [List.map_cons, position_normal, netOf?_normal, SExpr.text?_normal, texts_normal,
      SExpr.value?_normal]

theorem padEntries_normal (nets : List NetEntry) (pads : List SExpr) :
    padEntries nets (pads.map normal) = padEntries nets pads := by
  induction pads with
  | nil => rfl
  | cons e rest ih => rw [List.map_cons, padEntries, padEntries, padEntry_normal, ih]

theorem lastLabel?_normal (e : SExpr) (key word : String) :
    lastLabel? (normal e) key word = lastLabel? e key word := by
  rw [lastLabel?, lastLabel?, SExpr.children_normal, List.filterMap_map]
  simp only [Function.comp_def, SExpr.textAt_normal]

theorem footprint_normal (nets : List NetEntry) (e : SExpr) :
    footprint nets (normal e) = footprint nets e := by
  simp only [footprint, position_normal, SExpr.children_normal, padEntries_normal, uuidOf_normal,
    label, lastLabel?_normal, SExpr.textAt_normal, SExpr.value?_normal, float?_normal]

/-! ## Tracks and zones -/

theorem segment_normal (nets : List NetEntry) (node : Nat) (e : SExpr) :
    segment nets node (normal e) = segment nets node e := by
  simp only [segment, position_normal, float?_normal, SExpr.value?_normal, uuidOf_normal,
    netOf?_normal, isLocked_normal]

theorem arc_normal (nets : List NetEntry) (node : Nat) (e : SExpr) :
    arc nets node (normal e) = arc nets node e := by
  simp only [arc, position_normal, float?_normal, SExpr.value?_normal, uuidOf_normal,
    netOf?_normal, isLocked_normal]

theorem via_normal (nets : List NetEntry) (node : Nat) (e : SExpr) :
    via nets node (normal e) = via nets node e := by
  simp only [via, position_normal, float?_normal, SExpr.value?_normal, uuidOf_normal,
    netOf?_normal, isLocked_normal, viaForm_normal]

theorem outline_normal (e : SExpr) : outline (normal e) = outline e := by
  rw [outline, outline, SExpr.children_normal, List.filterMap_map]
  simp only [Function.comp_def, SExpr.textAt_normal]

theorem zone_normal (nets : List NetEntry) (e : SExpr) : zone nets (normal e) = zone nets e := by
  simp only [zone, SExpr.value?_normal, texts_normal, uuidOf_normal, netOf?_normal,
    SExpr.children_normal, List.map_map, Function.comp_def, SExpr.child?_normal, Option.map_map,
    outline_normal]

/-! ## The whole tree -/

theorem item?_normal (nets : List NetEntry) (node : Nat) (e : SExpr) :
    item? nets node (normal e) = item? nets node e := by
  simp only [item?, SExpr.tag?_normal, footprint_normal, segment_normal, arc_normal, via_normal,
    zone_normal]

theorem itemsFrom_normal (nets : List NetEntry) (node : Nat) (items : List SExpr) :
    itemsFrom nets node (items.map normal) = itemsFrom nets node items := by
  induction items generalizing node with
  | nil => rfl
  | cons e rest ih => rw [List.map_cons, itemsFrom, itemsFrom, item?_normal, ih]

theorem netEntries_normal (items : List SExpr) : netEntries (items.map normal) = netEntries items := by
  rw [netEntries, netEntries, ← List.map_drop, List.filter_map, SExpr.hasTag_comp_normal,
    List.filterMap_map]
  congr 1
  exact funext netEntry?_normal

theorem layersOf_normal (items : List SExpr) : layersOf (items.map normal) = layersOf items := by
  rw [layersOf, layersOf, ← List.map_drop, List.filter_map, SExpr.hasTag_comp_normal,
    List.getLast?_map]
  cases ((items.drop 1).filter (SExpr.hasTag "layers")).getLast? with
  | none => rfl
  | some e => exact layerEntries_normal e

/-- A tree and its normal form hold the same design. -/
theorem ofTree_normal (filename : String) (root : SExpr) :
    ofTree filename (normal root) = ofTree filename root := by
  cases root with
  | atom s =>
    rw [normal]
    split <;> rfl
  | quoted s => rfl
  | list items =>
    have uuid := SExpr.value?_normal "uuid" 0 (.list items)
    have version := SExpr.value?_normal "version" 0 (.list items)
    rw [normal, SExpr.normalItems_eq_map] at uuid version ⊢
    simp only [ofTree, netEntries_normal, itemsFrom_normal, layersOf_normal, uuid, version]

end Design
end CopperTidy
