import CopperTidy.Proofs.Design.Itemwise
import CopperTidy.Proofs.Document.Loaded
import CopperTidy.Proofs.SExpr.Alike

/-! # Nets by number and by name

An item names its net by number or by name. A text that reads as a number is taken for one, quoted
or not, so a name that is a number stands for the net of that number. A net whose name is no other
number than its own may be named either way, and the board is the same.
-/

namespace CopperTidy
set_option autoImplicit false

namespace Design

open SExpr (Alike)

/-- The name of the net, taken for a number, is no other number than its own. -/
def NetEntry.Plain (net : NetEntry) : Prop := ∀ n, readNet? net.name = some n → n = net.id

/-- `e` names its net by number, and `e'` is `e` with the name in place of the number. -/
structure Renames (net : NetEntry) (e e' : SExpr) : Prop where
  number : (e.value? "net" 0).bind readNet? = some net.id
  name : e.setChild? "net" (.list [.atom "net", .quoted net.name]) = some e'

/-- The item as it is, or with one of the listed nets by name. -/
def Respells (nets : List NetEntry) (e e' : SExpr) : Prop := e' = e ∨ ∃ net ∈ nets, Renames net e e'

/-! ## What is named -/

theorem idOf?_of_mem {nets : List NetEntry} (apart : (nets.map (·.name)).Nodup) {net : NetEntry}
    (mem : net ∈ nets) : idOf? nets net.name = some net.id := by
  induction nets with
  | nil => cases mem
  | cons first rest ih =>
    rw [List.map_cons, List.nodup_cons] at apart
    rw [idOf?, List.find?_cons]
    by_cases same : first.name = net.name
    · rw [beq_iff_eq.mpr same]
      rcases List.mem_cons.mp mem with rfl | later
      · rfl
      · exact absurd (same ▸ List.mem_map_of_mem later) apart.1
    · rw [beq_eq_false_iff_ne.mpr same]
      rcases List.mem_cons.mp mem with rfl | later
      · exact absurd rfl same
      · exact ih apart.2 later

variable {nets chosen : List NetEntry} {net : NetEntry} {e e' : SExpr}

namespace Renames

theorem tagged (net : NetEntry) :
    SExpr.hasTag "net" (.list [.atom "net", .quoted net.name]) = true := by
  rw [SExpr.hasTag, beq_iff_eq]
  rfl

theorem alike (h : Renames net e e') : Alike "net" e e' := .of_setChild? (tagged net) h.name

theorem value? (h : Renames net e e') : e'.value? "net" 0 = some net.name := by
  have found := SExpr.child?_setChild? (tagged net) h.name "net"
  rw [if_pos rfl] at found
  rw [SExpr.value?_of_child? found]
  rfl

theorem netOf?_number (h : Renames net e e') (nets : List NetEntry) :
    netOf? nets e = some net.id := by
  obtain ⟨text, there, number⟩ := Option.bind_eq_some_iff.mp h.number
  rw [netOf?, there, Option.bind_some, number]
  rfl

/-- A name that is a number stands for that number, other names for the net. -/
theorem netOf?_name (h : Renames net e e') (apart : (nets.map (·.name)).Nodup) (mem : net ∈ nets) :
    netOf? nets e' = some ((readNet? net.name).getD net.id) := by
  rw [netOf?, h.value?, Option.bind_some, idOf?_of_mem apart mem]
  cases readNet? net.name <;> rfl

theorem netOf?_eq_iff (h : Renames net e e') (apart : (nets.map (·.name)).Nodup)
    (mem : net ∈ nets) : netOf? nets e' = netOf? nets e ↔ net.Plain := by
  rw [h.netOf?_name apart mem, h.netOf?_number, Option.some.injEq, NetEntry.Plain]
  cases readNet? net.name with
  | none => simp
  | some n => simp

end Renames

/-- What is spelled anew looks the same but for its net, and has the same net. -/
theorem Respells.spec (h : Respells chosen e e') (apart : (nets.map (·.name)).Nodup)
    (declared : ∀ net ∈ chosen, net ∈ nets) (plain : ∀ net ∈ chosen, net.Plain) :
    Alike "net" e e' ∧ netOf? nets e' = netOf? nets e := by
  obtain rfl | ⟨net, mem, renames⟩ := h
  · exact ⟨.refl _ _, rfl⟩
  · exact ⟨renames.alike,
      (renames.netOf?_eq_iff apart (declared net mem)).mpr (plain net mem)⟩

/-! ## Fields of lists that differ in items of one tag -/

section Fields

variable {key : String} (h : Alike key e e')
include h

theorem float?_alike {other : String} (ne : other ≠ key) (n : Nat) :
    float? e' other n = float? e other n :=
  float?_congr (h.child?_eq ne) n

theorem position_alike {other : String} (ne : other ≠ key) :
    position e' other = position e other :=
  position_congr (h.child?_eq ne)

theorem uuidOf_alike (uuid : "uuid" ≠ key) (tstamp : "tstamp" ≠ key) : uuidOf e' = uuidOf e := by
  rw [uuidOf, uuidOf, h.value?_eq uuid, h.value?_eq tstamp]

theorem texts_alike {other : String} (ne : other ≠ key) : texts e' other = texts e other := by
  rw [texts, texts, h.child?_eq ne]

theorem label_alike {property text : String} (prop : "property" ≠ key) (old : "fp_text" ≠ key) :
    label e' property text = label e property text := by
  rw [label, label, lastLabel?, lastLabel?, lastLabel?, lastLabel?, h.children_eq prop,
    h.children_eq old]

end Fields

/-! ## Tracks and zones -/

section Tracks

variable (h : Alike "net" e e') (same : netOf? nets e' = netOf? nets e)
include h same

theorem segment_alike (k : Nat) : segment nets k e' = segment nets k e := by
  rw [segment, segment, position_alike h (by decide), position_alike h (by decide),
    float?_alike h (by decide), h.value?_eq (by decide), uuidOf_alike h (by decide) (by decide),
    h.hasFlag_eq (by decide), same]

theorem arc_alike (k : Nat) : arc nets k e' = arc nets k e := by
  rw [arc, arc, position_alike h (by decide), position_alike h (by decide),
    position_alike h (by decide), float?_alike h (by decide), h.value?_eq (by decide),
    uuidOf_alike h (by decide) (by decide), h.hasFlag_eq (by decide), same]

theorem via_alike (k : Nat) : via nets k e' = via nets k e := by
  have form : viaForm e' = viaForm e := by
    rw [viaForm, viaForm, h.hasFlag_eq (by decide), h.hasFlag_eq (by decide),
      h.hasFlag_eq (by decide)]
  rw [via, via, position_alike h (by decide), float?_alike h (by decide),
    float?_alike h (by decide), h.value?_eq (by decide), h.value?_eq (by decide), form,
    uuidOf_alike h (by decide) (by decide), h.hasFlag_eq (by decide), same]

theorem zone_alike : zone nets e' = zone nets e := by
  rw [zone, zone, h.value?_eq (by decide), h.value?_eq (by decide), texts_alike h (by decide),
    h.children_eq (by decide), uuidOf_alike h (by decide) (by decide), same]

end Tracks

/-! ## Pads -/

/-- A pad as far as it goes on a board: all but the name of its net. -/
def PadEntry.core (pad : PadEntry) : PadEntry := { pad with netName := none }

/-- A pad is read from the texts at its head and its tagged items. -/
theorem padEntry_eq (nets : List NetEntry) (e : SExpr) :
    padEntry nets e =
      if 4 ≤ e.items.length then
        (position e "at").map fun place =>
          { number := (e.items[1]?.bind SExpr.text?).getD ""
            padType := padType ((e.items[2]?.bind SExpr.text?).getD "")
            position := place
            layers := texts e "layers"
            net := netOf? nets e
            netName := (e.value? "net" 1).or ((netOf? nets e).bind (nameOf? nets)) }
      else .error .malformed := by
  unfold padEntry
  split
  · next _ number kind _ _ items =>
    rw [items, if_pos (by simp)]
    cases position e "at" <;> rfl
  · next short =>
    rw [if_neg]
    intro long
    match items : e.items with
    | [] | [_] | [_, _] | [_, _, _] => simp [items] at long
    | a :: number :: kind :: b :: rest => exact short a number kind b rest items

theorem padEntry_alike (h : Alike "net" e e') (same : netOf? nets e' = netOf? nets e) :
    (padEntry nets e').map PadEntry.core = (padEntry nets e).map PadEntry.core := by
  rw [padEntry_eq, padEntry_eq, h.length_eq, position_alike h (by decide), h.textAt, h.textAt,
    texts_alike h (by decide), same]
  split
  · cases position e "at" <;> rfl
  · rfl

section Map

variable {α β ε : Type} {f : α → β} {x : Except ε α}

theorem ok_of_map_eq {a : α} (h : x.map f = (Except.ok a).map f) :
    ∃ a', x = .ok a' ∧ f a' = f a := by
  cases x with
  | error cause => cases h
  | ok a' => exact ⟨a', rfl, Except.ok.inj h⟩

theorem error_of_map_eq {cause : ε} (h : x.map f = (Except.error cause).map f) :
    x = .error cause := by
  cases x with
  | error other => rw [Except.error.inj h]
  | ok a => cases h

theorem map_map_cons (f : α → β) (a : α) (x : Except ε (List α)) :
    (x.map (a :: ·)).map (List.map f) = (x.map (List.map f)).map (f a :: ·) := by
  cases x <;> rfl

end Map

theorem padEntries_congr {es es' : List SExpr}
    (h : List.Forall₂ (fun a b =>
      (padEntry nets b).map PadEntry.core = (padEntry nets a).map PadEntry.core) es es') :
    (padEntries nets es').map (List.map PadEntry.core) =
      (padEntries nets es).map (List.map PadEntry.core) := by
  induction h with
  | nil => rfl
  | @cons a b _ _ first _ ih =>
    rw [padEntries, padEntries]
    cases read : padEntry nets a with
    | ok pad =>
      rw [read] at first
      obtain ⟨pad', read', core⟩ := ok_of_map_eq first
      simp only [read', map_map_cons, core, ih]
    | error cause =>
      rw [read] at first
      rw [error_of_map_eq first]
      cases cause with
      | malformed => exact ih
      | outOfRange key value => rfl

/-! ## Footprints -/

def Footprint.core (f : Footprint) : Footprint := { f with pads := f.pads.map PadEntry.core }

theorem footprint_alike (h : Alike "pad" e e')
    (pads : (padEntries nets (e'.children "pad")).map (List.map PadEntry.core) =
      (padEntries nets (e.children "pad")).map (List.map PadEntry.core)) :
    (footprint nets e').map Footprint.core = (footprint nets e).map Footprint.core := by
  have name := h.textAt 1
  rw [footprint, footprint, position_alike h (by decide), uuidOf_alike h (by decide) (by decide),
    label_alike h (by decide) (by decide), label_alike h (by decide) (by decide), name,
    h.value?_eq (by decide), float?_alike h (by decide)]
  cases position e "at" with
  | error cause => rfl
  | ok place =>
    cases read : padEntries nets (e.children "pad") with
    | error cause =>
      rw [read] at pads
      rw [error_of_map_eq pads]
    | ok list =>
      rw [read] at pads
      obtain ⟨list', read', core⟩ := ok_of_map_eq pads
      rw [read']
      simp only [bind, Except.bind, pure, Except.pure, Except.map, Footprint.core, core]

/-! ## Items of a root list -/

/-- What an item has on a board. -/
def Item.copper (item : Item) : Option (Track × Nat) × List Pad × Option Zone :=
  (item.placed?, item.pads, item.zone?)

theorem copper_core (f : Footprint) :
    (Item.footprint f.core).copper = (Item.footprint f).copper := by
  have pads : f.core.pads.map (PadEntry.toPad f.core) = f.pads.map (PadEntry.toPad f) := by
    rw [Footprint.core, List.map_map]
    rfl
  rw [Item.copper, Item.copper, Item.pads, Item.pads, pads]
  rfl

/-- An item of a footprint, if it is a pad perhaps with its net by name. -/
def PadRespells (chosen : List NetEntry) (a b : SExpr) : Prop :=
  b = a ∨ SExpr.hasTag "pad" a = true ∧ Respells chosen a b

/-- An item of a root list, perhaps with nets spelled by name: its own, or those of its pads. -/
inductive Rewrites (chosen : List NetEntry) : SExpr → SExpr → Prop
  | same (e : SExpr) : Rewrites chosen e e
  | own {e e' : SExpr} (tag : e.tag? ∈ ["segment", "arc", "via", "zone"].map some)
      (respells : Respells chosen e e') : Rewrites chosen e e'
  | pads {items items' : List SExpr}
      (tag : (SExpr.list items).tag? ∈ ["footprint", "module"].map some)
      (respells : List.Forall₂ (PadRespells chosen) items items') :
      Rewrites chosen (.list items) (.list items')

section Rewrites

variable (apart : (nets.map (·.name)).Nodup) (declared : ∀ net ∈ chosen, net ∈ nets)
  (plain : ∀ net ∈ chosen, net.Plain)

theorem Respells.alike (h : Respells chosen e e') : Alike "net" e e' := by
  obtain rfl | ⟨net, _, renames⟩ := h
  · exact .refl _ _
  · exact renames.alike

theorem alike_of_pads {items items' : List SExpr}
    (h : List.Forall₂ (PadRespells chosen) items items') :
    Alike "pad" (.list items) (.list items') := by
  refine List.Forall₂.imp ?_ h
  rintro a b (rfl | ⟨tag, respells⟩)
  · exact .inl rfl
  · refine .inr ⟨tag, ?_⟩
    rw [SExpr.hasTag, respells.alike.tag?_eq]
    exact tag

theorem Rewrites.tag?_eq (h : Rewrites chosen e e') : e'.tag? = e.tag? := by
  cases h with
  | same => rfl
  | own _ respells => exact respells.alike.tag?_eq
  | pads _ respells => exact (alike_of_pads respells).tag?_eq

include apart declared plain

theorem padEntries_respelled {items items' : List SExpr}
    (h : List.Forall₂ (PadRespells chosen) items items') :
    (padEntries nets ((SExpr.list items').children "pad")).map (List.map PadEntry.core) =
      (padEntries nets ((SExpr.list items).children "pad")).map (List.map PadEntry.core) := by
  have pads := List.rel_filter (p := SExpr.hasTag "pad") (q := SExpr.hasTag "pad") ?_ h
  · refine padEntries_congr (List.Forall₂.imp ?_ pads)
    rintro a b (rfl | ⟨_, respells⟩)
    · rfl
    · obtain ⟨alike, same⟩ := respells.spec apart declared plain
      exact padEntry_alike alike same
  · rintro a b (rfl | ⟨_, respells⟩)
    · rfl
    · simp only [SExpr.hasTag, respells.alike.tag?_eq]

theorem item?_rewrites (h : Rewrites chosen e e') (k : Nat) :
    (item? nets k e').map (Option.map Item.copper) =
      (item? nets k e).map (Option.map Item.copper) := by
  cases h with
  | same => rfl
  | own tag respells =>
    obtain ⟨alike, same⟩ := respells.spec apart declared plain
    simp only [List.map_cons, List.map_nil, List.mem_cons, List.not_mem_nil, or_false] at tag
    rcases tag with tag | tag | tag | tag
    · simp only [item?, alike.tag?_eq, tag, segment_alike alike same]
    · simp only [item?, alike.tag?_eq, tag, arc_alike alike same]
    · simp only [item?, alike.tag?_eq, tag, via_alike alike same]
    · simp only [item?, alike.tag?_eq, tag, zone_alike alike same]
  | @pads items items' tag respells =>
    have alike := alike_of_pads respells
    have cores := footprint_alike alike (padEntries_respelled apart declared plain respells)
    have reads (e : SExpr) (tag : e.tag? ∈ ["footprint", "module"].map some) :
        (item? nets k e).map (Option.map Item.copper) =
          ((footprint nets e).map Footprint.core).map fun f => some (Item.footprint f).copper := by
      simp only [List.map_cons, List.map_nil, List.mem_cons, List.not_mem_nil, or_false] at tag
      rcases tag with tag | tag
      · simp only [item?, tag]
        cases footprint nets e with
        | error cause => rfl
        | ok f => exact congrArg _ (congrArg some (copper_core f).symm)
      · simp only [item?, tag]
        cases footprint nets e with
        | error cause => rfl
        | ok f => exact congrArg _ (congrArg some (copper_core f).symm)
    rw [reads _ tag, reads _ (alike.tag?_eq ▸ tag), cores]

theorem itemsFrom_rewrites {items items' : List SExpr}
    (h : List.Forall₂ (Rewrites chosen) items items') (node : Nat) :
    (itemsFrom nets node items').map (List.map Item.copper) =
      (itemsFrom nets node items).map (List.map Item.copper) := by
  induction h generalizing node with
  | nil => rfl
  | @cons a b _ _ first _ ih =>
    have here := item?_rewrites apart declared plain first node
    rw [itemsFrom, itemsFrom]
    cases read : item? nets node a with
    | ok found =>
      rw [read] at here
      obtain ⟨found', read', copper⟩ := ok_of_map_eq here
      rw [read']
      cases found with
      | none =>
        rw [Option.map_eq_none_iff.mp copper]
        exact ih (node + 1)
      | some item =>
        obtain ⟨item', rfl, same⟩ := Option.map_eq_some_iff.mp copper
        simp only [map_map_cons, same, ih]
    | error cause =>
      rw [read] at here
      rw [error_of_map_eq here]
      cases cause with
      | malformed => exact ih (node + 1)
      | outOfRange key value => rfl

end Rewrites

/-! ## The whole list -/

theorem Rewrites.tagged (h : Rewrites chosen e e') : e' = e ∨ ∃ key, key ≠ "net" ∧
    SExpr.hasTag key e = true ∧ SExpr.hasTag key e' = true := by
  have other {keys : List String} (tag : e.tag? ∈ keys.map some) (declares : "net" ∉ keys) :
      ∃ key, key ≠ "net" ∧ SExpr.hasTag key e = true ∧ SExpr.hasTag key e' = true := by
    obtain ⟨key, mem, same⟩ := List.mem_map.mp tag
    refine ⟨key, fun net => declares (net ▸ mem), ?_, ?_⟩
    · rw [SExpr.hasTag, ← same, beq_self_eq_true]
    · rw [SExpr.hasTag, h.tag?_eq, ← same, beq_self_eq_true]
  cases h with
  | same => exact .inl rfl
  | own tag => exact .inr (other tag (by decide))
  | pads tag => exact .inr (other tag (by decide))

theorem netEntries_rewrites {items items' : List SExpr}
    (h : List.Forall₂ (Rewrites chosen) items items') : netEntries items' = netEntries items := by
  have declarations := SExpr.filter_eq_of_forall₂ (p := SExpr.hasTag "net") (List.forall₂_drop 1 h)
    fun a b rewrites => by
      obtain rfl | ⟨key, other, tagA, tagB⟩ := rewrites.tagged
      · exact .inl rfl
      · exact .inr ⟨SExpr.hasTag_of_ne other.symm tagA, SExpr.hasTag_of_ne other.symm tagB⟩
  rw [netEntries, netEntries, declarations]

theorem tag?_rewrites {items items' : List SExpr}
    (h : List.Forall₂ (Rewrites chosen) items items') :
    (SExpr.list items').tag? = (SExpr.list items).tag? := by
  cases h with
  | nil => rfl
  | @cons a b _ _ first _ =>
    show b.text? = a.text?
    obtain rfl | ⟨key, _, tagA, tagB⟩ := first.tagged
    · rfl
    · rw [SExpr.text?_of_hasTag tagA, SExpr.text?_of_hasTag tagB]

/-- The board is made of what the items have on it. -/
theorem toBoard_congr {d d' : Design} {items : List SExpr} {found found' : List Item}
    (gathers : d.Gathers found) (gathers' : d'.Gathers found')
    (read : itemsFrom nets 0 items = .ok found)
    (same : found'.map Item.copper = found.map Item.copper) : d'.toBoard = d.toBoard := by
  have placed : found'.filterMap Item.placed? = found.filterMap Item.placed? := by
    have parts := congrArg (List.filterMap (·.1)) same
    rw [List.filterMap_map, List.filterMap_map] at parts
    exact parts
  have pads : d'.pads = d.pads := by
    have parts := congrArg (List.flatMap (·.2.1)) same
    rw [List.flatMap_map, List.flatMap_map] at parts
    rw [gathers'.pads_eq, gathers.pads_eq]
    exact parts
  have zones : d'.zones.filterMap ZoneEntry.toZone? = d.zones.filterMap ZoneEntry.toZone? := by
    have parts := congrArg (List.filterMap (·.2.2)) same
    rw [List.filterMap_map, List.filterMap_map] at parts
    rw [gathers'.zones_eq, gathers.zones_eq]
    exact parts
  have sorted : d'.sortedTracks = d.sortedTracks := by
    have ascending := (placed_ascending read).1
    have order := gathers'.tracks_perm
    rw [placed] at order
    exact (sorted_of_perm order ascending).trans
      (sorted_of_perm gathers.tracks_perm ascending).symm
  simp only [toBoard, sorted, pads, zones]

end Design

namespace Document

open Design (NetEntry Renames Rewrites item? itemsFrom netEntries netOf? readNet?)

theorem tree_of_read {filename text : String} {d : Document}
    (read : Document.read filename text = .ok d) : SExpr.read text = .ok d.root := by
  simp only [Document.read, bind, Except.bind] at read
  split at read
  · cases read
  · next root readRoot =>
    split at read
    · cases read
    · cases read
      exact (readRoot_eq_ok_iff.mp readRoot).1

/-- The tree of a text, as it stands there or as it is printed. -/
theorem read_of_tree (filename : String) {text : String} {items : List SExpr}
    {found : List Design.Item} (tag : (SExpr.list items).tag? = some "kicad_pcb")
    (read : itemsFrom (netEntries items) 0 items = .ok found)
    (spells : SExpr.read text = .ok (.list items) ∨ text = (SExpr.list items).toPrettyText) :
    ∃ d, Document.read filename text = .ok d ∧ d.design.Gathers found := by
  rcases spells with tree | rfl
  · obtain ⟨design, holds, gathers⟩ := Design.ofTree_of_itemsFrom filename read
    refine ⟨⟨.list items, design, none⟩, ?_, gathers⟩
    simp only [Document.read, bind, Except.bind, readRoot_eq_ok_iff.mpr ⟨tree, tag⟩, holds]
    rfl
  · exact read_toPrettyText filename tag read

/-- Let the nets of a document have different names, and let some items and pads name theirs by name
instead of by number. A name that is a number stands for that number, any other for its net. So if
the names spelled are no numbers of other nets, the text still gives a board, and the same one. -/
theorem read_respelled {filename text : String} {d : Document} {items items' : List SExpr}
    {chosen : List NetEntry} (read : Document.read filename text = .ok d)
    (root : d.root = .list items) (apart : (d.design.nets.map (·.name)).Nodup)
    (declared : ∀ net ∈ chosen, net ∈ d.design.nets)
    (respelled : List.Forall₂ (Rewrites chosen) items items') :
    (∀ net ∈ chosen, ∀ e e', Renames net e e' →
      netOf? d.design.nets e = some net.id ∧
      netOf? d.design.nets e' = some ((readNet? net.name).getD net.id) ∧
      (netOf? d.design.nets e' = netOf? d.design.nets e ↔ net.Plain)) ∧
    ((∀ net ∈ chosen, net.Plain) → ∀ text',
      SExpr.read text' = .ok (.list items') ∨ text' = (SExpr.list items').toPrettyText →
      ∃ d', Document.read filename text' = .ok d' ∧ d'.toBoard = d.toBoard) := by
  refine ⟨fun net mem e e' renames => ?_, fun plain text' spells => ?_⟩
  · exact ⟨renames.netOf?_number _, renames.netOf?_name apart (declared net mem),
      renames.netOf?_eq_iff apart (declared net mem)⟩
  · obtain ⟨items₀, found, loads⟩ := loads_of_read read
    obtain rfl := SExpr.list.inj (loads.root.symm.trans root)
    obtain ⟨_, own⟩ := own_of_read read
    rw [loads.root] at own
    obtain ⟨_, _, _, nets⟩ := Design.ofTree_declares own
    rw [nets] at apart declared
    have same := Design.itemsFrom_rewrites apart declared plain respelled 0
    rw [loads.read] at same
    obtain ⟨found', readItems, copper⟩ := Design.ok_of_map_eq same
    rw [← Design.netEntries_rewrites respelled] at readItems
    obtain ⟨d', read', gathers⟩ := read_of_tree filename
      ((Design.tag?_rewrites respelled).trans loads.tag) readItems spells
    exact ⟨d', read', Design.toBoard_congr loads.gathers gathers loads.read copper⟩

/-- Net 1 is called `2`, and net 2 `GND`. A via and a pad have the net of `reference`. -/
def twoNets (reference : SExpr) : List SExpr :=
  let field (key : String) (texts : List String) : SExpr := .list (.atom key :: texts.map .atom)
  [.atom "kicad_pcb", .list [.atom "net", .atom "1", .quoted "2"],
    .list [.atom "net", .atom "2", .quoted "GND"],
    .list [.atom "via", field "at" ["0", "0"], field "size" ["1"], reference],
    .list [.atom "footprint", .atom "R", field "at" ["0", "0"],
      .list [.atom "pad", .atom "1", .atom "smd", .atom "rect", field "at" ["0", "0"], reference]]]

def twoNetsText (reference : String) : String :=
  "(kicad_pcb(net 1 \"2\")(net 2 \"GND\")(via(at 0 0)(size 1)(net " ++ reference ++
    "))(footprint R(at 0 0)(pad 1 smd rect(at 0 0)(net " ++ reference ++ "))))"

def byNumber (text : String) : List SExpr := twoNets (.list [.atom "net", .atom text])

def byName (name : String) : List SExpr := twoNets (.list [.atom "net", .quoted name])

theorem rewrites_byName {text : String} {net : NetEntry} (number : readNet? text = some net.id) :
    List.Forall₂ (Rewrites [net]) (byNumber text) (byName net.name) := by
  have own {e e' : SExpr} (names : e.value? "net" 0 = some text)
      (set : e.setChild? "net" (.list [.atom "net", .quoted net.name]) = some e') :
      Design.Respells [net] e e' :=
    .inr ⟨net, List.mem_singleton_self net, by rw [names]; exact number, set⟩
  refine .cons (.same _) (.cons (.same _) (.cons (.same _) (.cons ?_ (.cons ?_ .nil))))
  · exact .own (.tail _ (.tail _ (.head _))) (own rfl rfl)
  · refine .pads List.mem_cons_self (.cons (.inl rfl) (.cons (.inl rfl) (.cons (.inl rfl) ?_)))
    exact .cons (.inr ⟨rfl, own rfl rfl⟩) .nil

/-- The nets of the tracks on a board, slot by slot. -/
def trackNets (d : Document) : List (Option UInt32) :=
  d.toBoard.board.slots.map (Option.map Track.net)

theorem exists_read (reference : String) (items : List SExpr) (tracks : List (Option UInt32))
    (seen : (Document.read "nets.kicad_pcb" (twoNetsText reference)).toOption.map
      (fun d => (d.root, d.design.nets, d.trackNets)) =
        some (.list items, [⟨1, "2"⟩, ⟨2, "GND"⟩], tracks)) :
    ∃ d, Document.read "nets.kicad_pcb" (twoNetsText reference) = .ok d ∧
      d.root = .list items ∧ d.design.nets = [⟨1, "2"⟩, ⟨2, "GND"⟩] ∧ d.trackNets = tracks := by
  cases read : Document.read "nets.kicad_pcb" (twoNetsText reference) with
  | error cause =>
    rw [read] at seen
    cases seen
  | ok d =>
    rw [read] at seen
    obtain ⟨root, rest⟩ := Prod.mk.inj (Option.some.inj seen)
    obtain ⟨nets, tracks⟩ := Prod.mk.inj rest
    exact ⟨d, rfl, root, nets, tracks⟩

theorem read_respelled_ground : ∃ d d',
    Document.read "nets.kicad_pcb" (twoNetsText "2") = .ok d ∧
    Document.read "nets.kicad_pcb" (SExpr.list (byName "GND")).toPrettyText = .ok d' ∧
    d.trackNets = [some 2] ∧ d'.toBoard = d.toBoard := by
  obtain ⟨d, read, root, nets, tracks⟩ := exists_read "2" (byNumber "2") [some 2]
    (by decide +kernel)
  have plain : ∀ net ∈ [(⟨2, "GND"⟩ : NetEntry)], net.Plain := by
    intro net mem n reads
    obtain rfl := List.mem_singleton.mp mem
    have no_number : readNet? "GND" = none := by decide +kernel
    rw [no_number] at reads
    cases reads
  have respelled : List.Forall₂ (Rewrites [⟨2, "GND"⟩]) (byNumber "2") (byName "GND") :=
    rewrites_byName (by decide +kernel)
  obtain ⟨_, gives⟩ := read_respelled read root (by rw [nets]; decide) (by rw [nets]; decide)
    respelled
  obtain ⟨d', read', same⟩ := gives plain _ (.inr rfl)
  exact ⟨d, d', read, read', tracks, same⟩

/-- The name `2` of net 1 is taken for net 2. -/
theorem numeral_names_other_net :
    ¬ ∀ (filename text text' : String) (d : Document) (items items' : List SExpr)
        (chosen : List NetEntry),
      Document.read filename text = .ok d → d.root = .list items →
      (d.design.nets.map (·.id)).Nodup → (d.design.nets.map (·.name)).Nodup →
      (∀ net ∈ chosen, net ∈ d.design.nets) → List.Forall₂ (Rewrites chosen) items items' →
      SExpr.read text' = .ok (.list items') →
      ∃ d', Document.read filename text' = .ok d' ∧ d'.trackNets = d.trackNets := by
  intro all
  obtain ⟨d, read, root, nets, tracks⟩ := exists_read "1" (byNumber "1") [some 1]
    (by decide +kernel)
  obtain ⟨e, readE, rootE, _, tracksE⟩ := exists_read "\"2\"" (byName "2") [some 2]
    (by decide +kernel)
  have tree := tree_of_read readE
  rw [rootE] at tree
  obtain ⟨d', read', same⟩ := all _ _ _ d _ _ [⟨1, "2"⟩] read root (by rw [nets]; decide)
    (by rw [nets]; decide) (by rw [nets]; decide) (rewrites_byName (by decide +kernel)) tree
  rw [readE, Except.ok.injEq] at read'
  rw [← read', tracksE, tracks] at same
  exact absurd same (by decide)

end Document
end CopperTidy
