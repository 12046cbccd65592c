import CopperTidy.Document
import CopperTidy.Proofs.Design.Source

/-! # Items are read one by one

What an item of a root list is read as depends on the item, its number and the declared nets, and
not on the other items. So a design holds what its items give one by one, an item that cannot be
read takes nothing else with it, and dropping items drops from the design what came from them. Only
a coordinate out of range makes a whole list unreadable, and the first one is the one reported.
-/

namespace CopperTidy
set_option autoImplicit false

namespace Design

open Document (keepFrom)

/-! ## What stops the reading -/

/-- The coordinate out of range that an item was refused for. -/
def beyond? {α : Type} : Except ItemError α → Option (String × Float)
  | .error (.outOfRange key value) => some (key, value)
  | _ => none

variable {nets : List NetEntry}

theorem beyond?_eq_some_iff {α : Type} {read : Except ItemError α} {key : String} {value : Float} :
    beyond? read = some (key, value) ↔ read = .error (.outOfRange key value) := by
  cases read with
  | ok a => simp [beyond?]
  | error cause => cases cause <;> simp [beyond?]

theorem beyond?_eq_none_iff {α : Type} {read : Except ItemError α} :
    beyond? read = none ↔ ∀ key value, read ≠ .error (.outOfRange key value) := by
  cases read with
  | ok a => simp [beyond?]
  | error cause => cases cause <;> simp [beyond?]

theorem beyond?_map {α β : Type} (f : α → β) (read : Except ItemError α) :
    beyond? (read.map f) = beyond? read := by
  cases read with
  | ok a => rfl
  | error cause => cases cause <;> rfl

/-- The first entry with an answer, by its place. -/
theorem findSome?_zipIdx_eq_some_iff {α β : Type} {f : α × Nat → Option β} {l : List α} {n : Nat}
    {answer : β} :
    (l.zipIdx n).findSome? f = some answer ↔
      ∃ k a, l[k]? = some a ∧ f (a, n + k) = some answer ∧
        ∀ j < k, ∀ a', l[j]? = some a' → f (a', n + j) = none := by
  induction l generalizing n with
  | nil => simp
  | cons first rest ih =>
    rw [List.zipIdx_cons, List.findSome?_cons]
    cases here : f (first, n) with
    | some found =>
      rw [Option.some.injEq]
      constructor
      · rintro rfl
        exact ⟨0, first, rfl, here, fun j less => by omega⟩
      · rintro ⟨k, a, there, answers, earlier⟩
        cases k with
        | zero =>
          cases there
          rw [Nat.add_zero, here] at answers
          exact Option.some.inj answers
        | succ k =>
          have silent := earlier 0 (Nat.succ_pos k) first rfl
          rw [Nat.add_zero, here] at silent
          cases silent
    | none =>
      simp only [ih]
      constructor
      · rintro ⟨k, a, there, answers, earlier⟩
        refine ⟨k + 1, a, there, by rw [← answers]; congr 2; omega, fun j less a' there' => ?_⟩
        cases j with
        | zero =>
          cases there'
          exact here
        | succ j =>
          rw [← earlier j (by omega) a' there']
          congr 2
          omega
      · rintro ⟨k, a, there, answers, earlier⟩
        cases k with
        | zero =>
          cases there
          rw [Nat.add_zero, here] at answers
          cases answers
        | succ k =>
          refine ⟨k, a, there, by rw [← answers]; congr 2; omega, fun j less a' there' => ?_⟩
          rw [← earlier (j + 1) (by omega) a' there']
          congr 2
          omega

/-! ## Pads of a footprint -/

/-- Malformed pads are left out; the first pad out of range stops the reading. -/
theorem padEntries_eq (nets : List NetEntry) (es : List SExpr) :
    padEntries nets es =
      match es.findSome? fun e => beyond? (padEntry nets e) with
      | some (key, value) => .error (.outOfRange key value)
      | none => .ok (es.filterMap fun e => (padEntry nets e).toOption) := by
  induction es with
  | nil => rfl
  | cons e rest ih =>
    rw [padEntries, ih, List.findSome?_cons, List.filterMap_cons]
    cases padEntry nets e with
    | ok pad =>
      have within : beyond? (Except.ok pad : Except ItemError PadEntry) = none := rfl
      rw [within]
      cases rest.findSome? fun e => beyond? (padEntry nets e) <;> rfl
    | error cause =>
      cases cause with
      | malformed => rfl
      | outOfRange key value => rfl

theorem padEntries_eq_ok_iff {es : List SExpr} {pads : List PadEntry} :
    padEntries nets es = .ok pads ↔
      (∀ e ∈ es, beyond? (padEntry nets e) = none) ∧
        pads = es.filterMap fun e => (padEntry nets e).toOption := by
  rw [padEntries_eq, ← List.findSome?_eq_none_iff]
  split
  · next beyond => simp [beyond]
  · next within => simp [within, eq_comm]

/-- A footprint is read just if its place is and no pad is out of range; it has the pads that can be
read. -/
theorem footprint_pads {e : SExpr} {f : Footprint} (h : footprint nets e = .ok f) :
    f.pads = (e.children "pad").filterMap fun pad => (padEntry nets pad).toOption := by
  obtain ⟨place, _, h⟩ := bind_eq_ok_iff.mp h
  obtain ⟨pads, readPads, h⟩ := bind_eq_ok_iff.mp h
  cases h
  exact (padEntries_eq_ok_iff.mp readPads).2

theorem footprint_readable_iff {e : SExpr} :
    (∃ f, footprint nets e = .ok f) ↔
      (∃ place, position e "at" = .ok place) ∧
        ∀ pad ∈ e.children "pad", beyond? (padEntry nets pad) = none := by
  constructor
  · rintro ⟨f, h⟩
    obtain ⟨place, readPlace, h⟩ := bind_eq_ok_iff.mp h
    obtain ⟨pads, readPads, _⟩ := bind_eq_ok_iff.mp h
    exact ⟨⟨place, readPlace⟩, (padEntries_eq_ok_iff.mp readPads).1⟩
  · rintro ⟨⟨place, readPlace⟩, within⟩
    exact ⟨_, bind_eq_ok_iff.mpr ⟨place, readPlace,
      bind_eq_ok_iff.mpr ⟨_, padEntries_eq_ok_iff.mpr ⟨within, rfl⟩, rfl⟩⟩⟩

/-! ## Items of a list -/

/-- What the items of a list from number `node` on are read as, each with its number. -/
def itemsAt (nets : List NetEntry) (node : Nat) (items : List SExpr) : List (Nat × Item) :=
  (items.zipIdx node).filterMap fun entry =>
    ((item? nets entry.2 entry.1).toOption.join).map (entry.2, ·)

theorem itemsAt_cons (node : Nat) (e : SExpr) (rest : List SExpr) :
    itemsAt nets node (e :: rest) =
      ((item? nets node e).toOption.join.map (node, ·)).toList ++ itemsAt nets (node + 1) rest := by
  rw [itemsAt, List.zipIdx_cons, List.filterMap_cons, itemsAt]
  cases (item? nets node e).toOption.join <;> rfl

/-- An unreadable item gives nothing; the first item out of range stops the reading. -/
theorem itemsFrom_eq (nets : List NetEntry) (node : Nat) (items : List SExpr) :
    itemsFrom nets node items =
      match (items.zipIdx node).findSome? fun entry => beyond? (item? nets entry.2 entry.1) with
      | some (key, value) => .error (.outOfRange key value)
      | none => .ok ((itemsAt nets node items).map (·.2)) := by
  induction items generalizing node with
  | nil => rfl
  | cons e rest ih =>
    rw [itemsFrom, ih, List.zipIdx_cons, List.findSome?_cons, itemsAt_cons]
    cases item? nets node e with
    | ok found =>
      cases found with
      | none => rfl
      | some item =>
        have within : beyond? (Except.ok (some item) : Except ItemError (Option Item)) = none := rfl
        rw [within]
        cases (rest.zipIdx (node + 1)).findSome? fun entry =>
          beyond? (item? nets entry.2 entry.1) <;> rfl
    | error cause =>
      cases cause with
      | malformed => rfl
      | outOfRange key value => rfl

theorem beyond?_item? (nets : List NetEntry) (m n : Nat) (e : SExpr) :
    beyond? (item? nets n e) = beyond? (item? nets m e) := by
  rw [item?_at nets m n, beyond?_map]

theorem itemsFrom_eq_ok_iff {node : Nat} {items : List SExpr} {found : List Item} :
    itemsFrom nets node items = .ok found ↔
      (∀ e ∈ items, beyond? (item? nets 0 e) = none) ∧
        found = (itemsAt nets node items).map (·.2) := by
  have all : ((items.zipIdx node).findSome? fun entry => beyond? (item? nets entry.2 entry.1)) =
      none ↔ ∀ e ∈ items, beyond? (item? nets 0 e) = none := by
    have numbers (entry : SExpr × Nat) := beyond?_item? nets 0 entry.2 entry.1
    have firsts : (items.zipIdx node).map Prod.fst = items := List.zipIdx_map_fst node items
    simp only [numbers]
    rw [← List.findSome?_eq_none_iff]
    nth_rewrite 2 [← firsts]
    rw [List.findSome?_map]
    rfl
  rw [itemsFrom_eq, ← all]
  split
  · next beyond => simp [beyond]
  · next within => simp [within, eq_comm]

theorem mem_itemsAt {items : List SExpr} {k : Nat} {item : Item} :
    (k, item) ∈ itemsAt nets 0 items ↔
      ∃ e, items[k]? = some e ∧ item? nets k e = .ok (some item) := by
  rw [itemsAt, List.mem_filterMap]
  constructor
  · rintro ⟨⟨e, n⟩, mem, read⟩
    obtain ⟨found, there, same⟩ := Option.map_eq_some_iff.mp read
    obtain ⟨rfl, rfl⟩ := Prod.mk.inj same
    refine ⟨e, List.mem_zipIdx_iff_getElem?.mp mem, ?_⟩
    cases answer : item? nets n e with
    | ok gives =>
      rw [answer] at there
      exact congrArg _ (Option.join_eq_some_iff.mp there |> Option.some.inj)
    | error cause =>
      rw [answer] at there
      cases there
  · rintro ⟨e, there, read⟩
    exact ⟨(e, k), List.mem_zipIdx_iff_getElem?.mpr there, by simp [read, Except.toOption]⟩

/-- The items of which a coordinate out of range is noticed. -/
theorem tag_of_item?_error {node : Nat} {e : SExpr} {cause : ItemError}
    (h : item? nets node e = .error cause) :
    e.tag? ∈ ["footprint", "module", "segment", "arc", "via"].map some := by
  unfold item? at h
  split at h
  · next tag => simp [tag]
  · next tag => simp [tag]
  · next tag => simp [tag]
  · next tag => simp [tag]
  · next tag => simp [tag]
  · cases h
  · cases h

/-! ## Dropping items -/

/-- The number that item `k` has when the items with the listed numbers are dropped. -/
def renumber (dropped : List Nat) (k : Nat) : Nat :=
  k - (List.range k).countP dropped.contains

theorem renumber_zero (dropped : List Nat) : renumber dropped 0 = 0 := rfl

theorem renumber_succ (dropped : List Nat) (k : Nat) :
    renumber dropped (k + 1) =
      if dropped.contains k then renumber dropped k else renumber dropped k + 1 := by
  have most : (List.range k).countP dropped.contains ≤ k := by
    simpa using List.countP_le_length (p := dropped.contains) (l := List.range k)
  rw [renumber, renumber, List.range_succ, List.countP_append, List.countP_singleton]
  split <;> omega

theorem keepFrom_eq (dropped : List Nat) (node : Nat) (items : List SExpr) :
    keepFrom dropped node items =
      ((items.zipIdx node).filter fun entry => !dropped.contains entry.2).map (·.1) := by
  induction items generalizing node with
  | nil => rfl
  | cons e rest ih =>
    rw [keepFrom, ih, List.zipIdx_cons, List.filter_cons]
    cases dropped.contains node <;> rfl

theorem mem_of_mem_keepFrom {dropped : List Nat} {node : Nat} {items : List SExpr} {e : SExpr}
    (h : e ∈ keepFrom dropped node items) : e ∈ items := by
  rw [keepFrom_eq] at h
  obtain ⟨entry, kept, rfl⟩ := List.mem_map.mp h
  exact List.fst_mem_of_mem_zipIdx (List.mem_of_mem_filter kept)

/-- What is left gives what it gave before, under the numbers that it has now. -/
theorem itemsAt_keepFrom (nets : List NetEntry) (dropped : List Nat) (node : Nat)
    (items : List SExpr) :
    itemsAt nets (renumber dropped node) (keepFrom dropped node items) =
      ((itemsAt nets node items).filter fun found => !dropped.contains found.1).map fun found =>
        (renumber dropped found.1, found.2.moveTo (renumber dropped found.1)) := by
  induction items generalizing node with
  | nil => rfl
  | cons e rest ih =>
    have later := ih (node + 1)
    rw [renumber_succ] at later
    rw [keepFrom, itemsAt_cons, List.filter_append, List.map_append, ← later]
    cases gone : dropped.contains node with
    | true =>
      have out : node ∈ dropped := List.contains_iff_mem.mp gone
      rw [if_pos rfl, if_pos rfl]
      cases (item? nets node e).toOption.join <;> simp [out]
    | false =>
      have stays : node ∉ dropped := by simpa using gone
      rw [if_neg Bool.false_ne_true, if_neg Bool.false_ne_true, itemsAt_cons,
        item?_at nets node (renumber dropped node) e]
      congr 1
      cases item? nets node e with
      | error cause => rfl
      | ok found => cases found <;> simp [Except.map, Except.toOption, stays]

theorem ascending_itemsAt (node : Nat) (items : List SExpr) :
    (itemsAt nets node items).Pairwise fun x y => x.1 < y.1 := by
  have numbers : (items.zipIdx node).Pairwise fun x y => x.2 < y.2 := by
    rw [← List.pairwise_map, List.zipIdx_map_snd]
    exact List.pairwise_lt_range'
  refine numbers.filterMap _ fun x y less a ha b hb => ?_
  obtain ⟨_, _, rfl⟩ := Option.map_eq_some_iff.mp ha
  obtain ⟨_, _, rfl⟩ := Option.map_eq_some_iff.mp hb
  exact less

/-! ## What holds for the file as a whole -/

/-- Places of a root list that may be dropped: not the first, and no declaration. -/
def Droppable (items : List SExpr) (dropped : List Nat) : Prop :=
  ∀ k ∈ dropped, 0 < k ∧ ∀ e, items[k]? = some e →
    e.tag? ∉ ["net", "layers", "uuid", "version"].map some

theorem filter_keepFrom {p : SExpr → Bool} {dropped : List Nat} (node : Nat) {items : List SExpr}
    (others : ∀ k e, items[k]? = some e → node + k ∈ dropped → p e = false) :
    (keepFrom dropped node items).filter p = items.filter p := by
  induction items generalizing node with
  | nil => rfl
  | cons e rest ih =>
    have later := ih (node + 1) fun k e' there gone =>
      others (k + 1) e' there (by rwa [← Nat.add_assoc, Nat.add_right_comm])
    rw [keepFrom]
    split
    · next gone =>
      have other := others 0 e rfl (List.contains_iff_mem.mp gone)
      rw [later, List.filter_cons_of_neg (Bool.eq_false_iff.mp other)]
    · rw [List.filter_cons, List.filter_cons, later]

section Drop

variable {items : List SExpr} {dropped : List Nat} {key : String}

theorem Droppable.hasTag_eq_false (h : Droppable items dropped)
    (declares : key ∈ ["net", "layers", "uuid", "version"]) (k : Nat) (e : SExpr)
    (there : items[k]? = some e) (gone : k ∈ dropped) : SExpr.hasTag key e = false := by
  rw [SExpr.hasTag, beq_eq_false_iff_ne]
  intro tag
  apply (h k gone).2 e there
  rw [tag]
  exact List.mem_map_of_mem declares

theorem Droppable.value? (h : Droppable items dropped)
    (declares : key ∈ ["net", "layers", "uuid", "version"]) (n : Nat) :
    (SExpr.list (keepFrom dropped 0 items)).value? key n = (SExpr.list items).value? key n := by
  apply SExpr.value?_congr
  have same := filter_keepFrom (p := SExpr.hasTag key) 0 fun k e there gone =>
    h.hasTag_eq_false declares k e there (Nat.zero_add k ▸ gone)
  show (keepFrom dropped 0 items).find? _ = items.find? _
  rw [← List.head?_filter, ← List.head?_filter, same]

/-- The declarations stand after the first item, which is kept. -/
theorem Droppable.declarations (h : Droppable items dropped)
    (declares : key ∈ ["net", "layers", "uuid", "version"]) :
    ((keepFrom dropped 0 items).drop 1).filter (SExpr.hasTag key) =
      (items.drop 1).filter (SExpr.hasTag key) := by
  cases items with
  | nil => rfl
  | cons first rest =>
    have stays : 0 ∉ dropped := fun gone => Nat.lt_irrefl 0 (h 0 gone).1
    rw [keepFrom, if_neg (by simpa using stays), List.drop_one, List.drop_one, List.tail_cons,
      List.tail_cons]
    exact filter_keepFrom 1 fun k e there gone =>
      h.hasTag_eq_false declares (k + 1) e there (by rwa [Nat.add_comm])

theorem Droppable.netEntries_eq (h : Droppable items dropped) :
    netEntries (keepFrom dropped 0 items) = netEntries items := by
  rw [netEntries, netEntries, h.declarations (by decide)]

theorem Droppable.layersOf_eq (h : Droppable items dropped) :
    layersOf (keepFrom dropped 0 items) = layersOf items := by
  rw [layersOf, layersOf, h.declarations (by decide)]

end Drop

/-! ## The whole list -/

theorem itemsFrom_eq_error_iff {items : List SExpr} {cause : DesignError} :
    itemsFrom nets 0 items = .error cause ↔
      ∃ k e key value, items[k]? = some e ∧ item? nets k e = .error (.outOfRange key value) ∧
        cause = .outOfRange key value ∧
        ∀ j < k, ∀ e', items[j]? = some e' → beyond? (item? nets j e') = none := by
  have first (key : String) (value : Float) :
      (items.zipIdx.findSome? fun entry => beyond? (item? nets entry.2 entry.1)) =
          some (key, value) ↔
        ∃ k e, items[k]? = some e ∧ item? nets k e = .error (.outOfRange key value) ∧
          ∀ j < k, ∀ e', items[j]? = some e' → beyond? (item? nets j e') = none := by
    simp only [findSome?_zipIdx_eq_some_iff, beyond?_eq_some_iff, Nat.zero_add]
  rw [itemsFrom_eq]
  constructor
  · intro h
    split at h
    · next key value answer =>
      cases h
      obtain ⟨k, e, there, read, earlier⟩ := (first key value).mp answer
      exact ⟨k, e, key, value, there, read, rfl, earlier⟩
    · cases h
  · rintro ⟨k, e, key, value, there, read, rfl, earlier⟩
    rw [(first key value).mpr ⟨k, e, there, read, earlier⟩]

theorem ofTree_eq_error_iff {filename : String} {items : List SExpr} {cause : DesignError} :
    ofTree filename (.list items) = .error cause ↔
      itemsFrom (netEntries items) 0 items = .error cause := by
  simp only [ofTree, bind, Except.bind]
  cases itemsFrom (netEntries items) 0 items with
  | error other => simp only [Except.error.injEq]
  | ok found =>
    constructor
    · intro failed
      cases failed
    · intro failed
      cases failed

theorem ofTree_declares {filename : String} {items : List SExpr} {d : Design}
    (h : ofTree filename (.list items) = .ok d) :
    d.uuid = ((SExpr.list items).value? "uuid" 0).getD unnamed ∧
      d.version = (SExpr.list items).value? "version" 0 ∧
      d.layers = layersOf items ∧ d.nets = netEntries items := by
  obtain ⟨found, read, _⟩ := gathers_of_ofTree h
  simp only [ofTree, bind, Except.bind, read] at h
  cases h
  exact ⟨rfl, rfl, rfl, rfl⟩

/-- What is left of a list that can be read can be read, with the same declarations. -/
theorem ofTree_keepFrom {filename : String} {items : List SExpr} {d : Design} {dropped : List Nat}
    (h : ofTree filename (.list items) = .ok d) (droppable : Droppable items dropped) :
    ∃ d', ofTree filename (.list (keepFrom dropped 0 items)) = .ok d' ∧
      d'.uuid = d.uuid ∧ d'.version = d.version ∧ d'.layers = d.layers ∧ d'.nets = d.nets ∧
      d'.Gathers (((itemsAt (netEntries items) 0 items).filter
        fun x => !dropped.contains x.1).map fun x => x.2.moveTo (renumber dropped x.1)) := by
  obtain ⟨found, read, _⟩ := gathers_of_ofTree h
  obtain ⟨within, _⟩ := itemsFrom_eq_ok_iff.mp read
  have left : itemsFrom (netEntries (keepFrom dropped 0 items)) 0 (keepFrom dropped 0 items) =
      .ok (((itemsAt (netEntries items) 0 items).filter fun x => !dropped.contains x.1).map
        fun x => x.2.moveTo (renumber dropped x.1)) := by
    refine itemsFrom_eq_ok_iff.mpr ⟨fun e mem => ?_, ?_⟩
    · rw [droppable.netEntries_eq]
      exact within e (mem_of_mem_keepFrom mem)
    · have numbered := itemsAt_keepFrom (netEntries items) dropped 0 items
      rw [renumber_zero] at numbered
      rw [droppable.netEntries_eq, numbered, List.map_map]
      rfl
  obtain ⟨d', ok, gathers⟩ := ofTree_of_itemsFrom filename left
  obtain ⟨uuid, version, layers, nets⟩ := ofTree_declares h
  obtain ⟨uuid', version', layers', nets'⟩ := ofTree_declares ok
  refine ⟨d', ok, ?_, ?_, ?_, ?_, gathers⟩
  · rw [uuid', uuid, droppable.value? (by decide)]
  · rw [version', version, droppable.value? (by decide)]
  · rw [layers', layers, droppable.layersOf_eq]
  · rw [nets', nets, droppable.netEntries_eq]

/-! ## Items with their numbers -/

theorem moveTo_of_mem_itemsAt {items : List SExpr} {x : Nat × Item}
    (mem : x ∈ itemsAt nets 0 items) : x.2 = x.2.moveTo x.1 := by
  obtain ⟨e, _, read⟩ := mem_itemsAt.mp mem
  have again := item?_at nets x.1 x.1 e
  rw [read] at again
  exact Option.some.inj (Except.ok.inj again)

/-- What is picked from the items that are left, where the pick knows its number. -/
theorem filterMap_left {α : Type} {pick : Item → Option α} (number : α → Nat) (put : Nat → α → α)
    (moves : ∀ n item, pick (item.moveTo n) = (pick item).map (put n))
    (tells : ∀ n a, number (put n a) = n) (dropped : List Nat) {found : List (Nat × Item)}
    (own : ∀ x ∈ found, x.2 = x.2.moveTo x.1) :
    ((found.filter fun x => !dropped.contains x.1).map
        fun x => x.2.moveTo (renumber dropped x.1)).filterMap pick =
      (((found.map (·.2)).filterMap pick).filter fun a => !dropped.contains (number a)).map
        fun a => put (renumber dropped (number a)) a := by
  induction found with
  | nil => rfl
  | cons x rest ih =>
    have later := ih fun y mem => own y (List.mem_cons_of_mem _ mem)
    have here := own x List.mem_cons_self
    rw [List.map_cons, List.filterMap_cons, List.filter_cons]
    cases picked : pick x.2 with
    | none =>
      rw [← later]
      split
      · rw [List.map_cons, List.filterMap_cons_none (by rw [moves, picked]; rfl)]
      · rfl
    | some a =>
      have same : number a = x.1 := by
        have again := moves x.1 x.2
        rw [← here, picked] at again
        exact (congrArg number (Option.some.inj again)).trans (tells x.1 a)
      rw [List.filter_cons, same]
      split
      · rw [List.map_cons, List.map_cons,
          List.filterMap_cons_some (by rw [moves, picked]; rfl), later, same]
      · exact later

/-- A list cannot be read just if a coordinate of an item is out of range, and the first one is
reported. A footprint can be read just if its place can and no pad is out of range, and it has the
pads that can be read. Otherwise the design gathers what its items give one by one. Without the
items at `dropped` the list can still be read, declares the same, and gives what the others gave,
each with its number lowered by how many went before it. -/
theorem ofTree_itemwise (filename : String) (items : List SExpr) :
    let nets := netEntries items
    (∀ cause, ofTree filename (.list items) = .error cause ↔
      ∃ k e key value, items[k]? = some e ∧
        e.tag? ∈ ["footprint", "module", "segment", "arc", "via"].map some ∧
        item? nets k e = .error (.outOfRange key value) ∧ cause = .outOfRange key value ∧
        ∀ j < k, ∀ e', items[j]? = some e' →
          ∀ key value, item? nets j e' ≠ .error (.outOfRange key value)) ∧
    (∀ e, ((∃ f, footprint nets e = .ok f) ↔ (∃ place, position e "at" = .ok place) ∧
        ∀ pad ∈ e.children "pad", ∀ key value, padEntry nets pad ≠ .error (.outOfRange key value)) ∧
      ∀ f, footprint nets e = .ok f →
        f.pads = (e.children "pad").filterMap fun pad => (padEntry nets pad).toOption) ∧
    ∀ d, ofTree filename (.list items) = .ok d → ∃ found : List (Nat × Item),
      found.Pairwise (fun x y => x.1 < y.1) ∧
      (∀ k item, (k, item) ∈ found ↔ ∃ e, items[k]? = some e ∧ item? nets k e = .ok (some item)) ∧
      d.Gathers (found.map (·.2)) ∧
      ∀ dropped, Droppable items dropped →
        ∃ d', ofTree filename (.list (keepFrom dropped 0 items)) = .ok d' ∧
        d'.uuid = d.uuid ∧ d'.version = d.version ∧ d'.layers = d.layers ∧ d'.nets = d.nets ∧
        d'.Gathers ((found.filter fun x => !dropped.contains x.1).map
          fun x => x.2.moveTo (renumber dropped x.1)) ∧
        d'.segments = (d.segments.filter fun s => !dropped.contains s.node).map
          (fun s => { s with node := renumber dropped s.node }) ∧
        d'.arcs = (d.arcs.filter fun a => !dropped.contains a.node).map
          (fun a => { a with node := renumber dropped a.node }) ∧
        d'.vias = (d.vias.filter fun v => !dropped.contains v.node).map
          (fun v => { v with node := renumber dropped v.node }) := by
  intro nets
  refine ⟨fun cause => ?_, fun e => ⟨?_, fun f read => footprint_pads read⟩, fun d ok => ?_⟩
  · rw [ofTree_eq_error_iff, itemsFrom_eq_error_iff]
    simp only [beyond?_eq_none_iff]
    constructor
    · rintro ⟨k, e, key, value, there, read, same, earlier⟩
      exact ⟨k, e, key, value, there, tag_of_item?_error read, read, same, earlier⟩
    · rintro ⟨k, e, key, value, there, _, read, same, earlier⟩
      exact ⟨k, e, key, value, there, read, same, earlier⟩
  · rw [footprint_readable_iff]
    simp only [beyond?_eq_none_iff]
  · obtain ⟨found, read, gathers⟩ := gathers_of_ofTree ok
    obtain ⟨_, rfl⟩ := itemsFrom_eq_ok_iff.mp read
    refine ⟨itemsAt nets 0 items, ascending_itemsAt 0 items, fun k item => mem_itemsAt, gathers,
      fun dropped droppable => ?_⟩
    obtain ⟨d', left, uuid, version, layers, same, gathers'⟩ := ofTree_keepFrom ok droppable
    have own (x : Nat × Item) (mem : x ∈ itemsAt nets 0 items) := moveTo_of_mem_itemsAt mem
    refine ⟨d', left, uuid, version, layers, same, gathers', ?_, ?_, ?_⟩
    · rw [gathers'.segments, gathers.segments]
      exact filterMap_left Segment.node (fun n s => { s with node := n })
        (fun n item => by cases item <;> rfl) (fun n s => rfl) dropped own
    · rw [gathers'.arcs, gathers.arcs]
      exact filterMap_left Arc.node (fun n a => { a with node := n })
        (fun n item => by cases item <;> rfl) (fun n a => rfl) dropped own
    · rw [gathers'.vias, gathers.vias]
      exact filterMap_left Via.node (fun n v => { v with node := n })
        (fun n item => by cases item <;> rfl) (fun n v => rfl) dropped own

/-- A segment without a width between a whole segment, a footprint with a pad that cannot be read, a
via and another segment. -/
def frayed : List SExpr :=
  let field (key : String) (texts : List String) : SExpr := .list (.atom key :: texts.map .atom)
  let pad (number x : String) : SExpr :=
    .list [.atom "pad", .quoted number, .atom "smd", .atom "rect", field "at" [x, "0"]]
  let segment (more : List SExpr) : SExpr :=
    .list ([.atom "segment", field "start" ["0", "0"], field "end" ["2", "0"],
      field "layer" ["F.Cu"], field "net" ["1"]] ++ more)
  [.atom "kicad_pcb", field "net" ["1", "GND"], segment [field "width" ["1"]], segment [],
    .list [.atom "footprint", .quoted "R", field "at" ["0", "0"], pad "1" "?", pad "2" "1"],
    .list [.atom "via", field "at" ["2", "0"], field "size" ["1"], field "net" ["1"]],
    segment [field "width" ["1"]]]

theorem ofTree_itemwise_frayed : ∃ d d', ofTree "frayed.kicad_pcb" (.list frayed) = .ok d ∧
    ofTree "frayed.kicad_pcb" (.list (keepFrom [2, 5] 0 frayed)) = .ok d' ∧
    d.footprints.map (fun f => f.pads.map (·.number)) = [["2"]] ∧
    d.segments.map (·.node) = [2, 6] ∧ d'.segments.map (·.node) = [4] := by
  have seen : (ofTree "frayed.kicad_pcb" (.list frayed)).toOption.map
      (fun d => (d.footprints.map fun f => f.pads.map (·.number), d.segments.map (·.node))) =
        some ([["2"]], [2, 6]) := by decide +kernel
  have droppable : Droppable frayed [2, 5] := by
    intro k mem
    rcases List.mem_cons.mp mem with rfl | mem
    · exact ⟨by decide, fun e there => by cases there; decide⟩
    · obtain rfl := List.mem_singleton.mp mem
      exact ⟨by decide, fun e there => by cases there; decide⟩
  cases read : ofTree "frayed.kicad_pcb" (.list frayed) with
  | error cause =>
    rw [read] at seen
    cases seen
  | ok d =>
    rw [read] at seen
    obtain ⟨pads, nodes⟩ := Prod.mk.inj (Option.some.inj seen)
    obtain ⟨_, _, reads⟩ := ofTree_itemwise "frayed.kicad_pcb" frayed
    obtain ⟨found, _, _, _, drops⟩ := reads d read
    obtain ⟨d', left, _, _, _, _, _, segments, _⟩ := drops [2, 5] droppable
    refine ⟨d, d', rfl, left, pads, nodes, ?_⟩
    have numbers : d'.segments.map (·.node) = ((d.segments.map (·.node)).filter
        fun k => !List.contains [2, 5] k).map (renumber [2, 5]) := by
      rw [segments, List.filter_map, List.map_map, List.map_map]
      rfl
    rw [numbers, nodes]
    decide

end Design
end CopperTidy
