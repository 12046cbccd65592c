import CopperTidy.Proofs.Design.Itemwise
import CopperTidy.Proofs.Document.Loaded

/-! # A document that cannot be brought in line

Bringing a document in line works on its tree while sources are still looked at, and reads the
design again when the tree has changed already. So where it fails the design is the old one, but the
tree may be a new one: at a source without an item the ends moved so far stay moved, and when the
design cannot be read all changes stay.
-/

namespace CopperTidy.Document
set_option autoImplicit false

open Design (itemsFrom netEntries)

/-! ## What the walk gets to -/

/-- The sources before the first one whose number is not below `length`. -/
def reached (length : Nat) (sources : List (Nat × Nat)) : List (Nat × Nat) :=
  sources.takeWhile fun source => source.2 < length

/-- The items with the one of `source` as its track has it. An item whose track is gone stays. -/
def moveItem (b : Board) (items : List SExpr) (source : Nat × Nat) : List SExpr :=
  items.modify source.2 fun e => (settle (b.track? source.1) e).getD e

def moveItems (b : Board) (items : List SExpr) (sources : List (Nat × Nat)) : List SExpr :=
  sources.foldl (moveItem b) items

/-- The numbers of the items whose tracks are gone. -/
def gone (b : Board) (sources : List (Nat × Nat)) : List Nat :=
  (sources.filter fun source => (b.track? source.1).isNone).map (·.2)

variable {b : Board}

theorem reached_cons_inside {length id node : Nat} (h : node < length)
    (sources : List (Nat × Nat)) :
    reached length ((id, node) :: sources) = (id, node) :: reached length sources :=
  List.takeWhile_cons_of_pos (by simpa using h)

theorem reached_cons_stray {length id node : Nat} (h : length ≤ node)
    (sources : List (Nat × Nat)) : reached length ((id, node) :: sources) = [] :=
  List.takeWhile_cons_of_neg (by simpa using h)

theorem getElem?_moveItem (items : List SExpr) (id node k : Nat) :
    (moveItem b items (id, node))[k]? =
      if k = node then items[k]?.map fun e => (settle (b.track? id) e).getD e else items[k]? := by
  rw [moveItem, List.getElem?_modify]
  by_cases same : node = k
  · simp [same]
  · simp [same, Ne.symm same]

theorem length_moveItem (items : List SExpr) (source : Nat × Nat) :
    (moveItem b items source).length = items.length := List.length_modify _ _ _

theorem length_moveItems (items : List SExpr) (sources : List (Nat × Nat)) :
    (moveItems b items sources).length = items.length := by
  induction sources generalizing items with
  | nil => rfl
  | cons source sources ih => exact (ih _).trans (length_moveItem items source)

theorem Edit.items_visit {s : Edit} {id node : Nat} {e : SExpr} (here : s.items[node]? = some e) :
    (s.visit (b.track? id) node e).items = moveItem b s.items (id, node) := by
  have inside : node < s.items.length := (List.getElem?_eq_some_iff.mp here).1
  apply List.ext_getElem?
  intro k
  rw [getElem?_moveItem]
  by_cases same : k = node
  · subst same
    rw [if_pos rfl, here]
    cases b.track? id with
    | none =>
      rw [visit]
      split <;> exact here
    | some t =>
      cases moved : (if t.isTrace then moveEnds? e t else none) with
      | none => simp [visit, settle, moved, here]
      | some new => simp [visit, settle, moved, inside]
  · rw [getElem?_visit (Ne.symm same), if_neg same]

theorem Edit.mem_dropped_visit_iff {s : Edit} {node k : Nat} {track : Option Track} {e : SExpr} :
    k ∈ (s.visit track node e).dropped ↔ k ∈ s.dropped ∨ track.isNone = true ∧ k = node := by
  cases track with
  | none =>
    rw [visit]
    split
    · next already =>
      have there : node ∈ s.dropped := List.contains_iff_mem.mp already
      constructor
      · exact .inl
      · rintro (before | ⟨_, rfl⟩)
        · exact before
        · exact there
    · rw [List.mem_cons, or_comm]
      simp
  | some t =>
    rw [visit]
    split <;> simp

/-- How far the walk gets, and what it has done by then. -/
theorem Edit.walk_reached (sources : List (Nat × Nat)) (s : Edit) :
    (Edit.walk b s sources).1.items = moveItems b s.items (reached s.items.length sources) ∧
    (∀ k, k ∈ (Edit.walk b s sources).1.dropped ↔
      k ∈ s.dropped ∨ k ∈ gone b (reached s.items.length sources)) ∧
    match (Edit.walk b s sources).2 with
    | none => reached s.items.length sources = sources
    | some id => ∃ node rest, sources = reached s.items.length sources ++ (id, node) :: rest ∧
        s.items.length ≤ node := by
  induction sources generalizing s with
  | nil => exact ⟨rfl, fun k => by simp [walk, reached, gone], rfl⟩
  | cons source sources ih =>
    obtain ⟨id, node⟩ := source
    cases here : s.items[node]? with
    | none =>
      have stray : s.items.length ≤ node := List.getElem?_eq_none_iff.mp here
      have stops : Edit.walk b s ((id, node) :: sources) = (s, some id) := by rw [walk, here]
      rw [stops, reached_cons_stray stray]
      exact ⟨rfl, fun k => by simp [gone], node, sources, rfl, stray⟩
    | some e =>
      have inside : node < s.items.length := (List.getElem?_eq_some_iff.mp here).1
      obtain ⟨items, dropped, stopped⟩ := ih (s.visit (b.track? id) node e)
      rw [length_visit] at items dropped stopped
      rw [walk_cons here, reached_cons_inside inside]
      refine ⟨?_, fun k => ?_, ?_⟩
      · rw [items, items_visit here]
        rfl
      · rw [dropped, mem_dropped_visit_iff, or_assoc, gone, gone, List.filter_cons]
        cases b.track? id <;> simp
      · split at stopped
        · rw [stopped]
        · obtain ⟨stray, rest, split, out⟩ := stopped
          exact ⟨stray, rest, congrArg ((id, node) :: ·) split, out⟩

/-! ## What is left behind -/

/-- If the sources are of different items, an item is moved by its own source only. -/
theorem getElem?_moveItems (items : List SExpr) {sources : List (Nat × Nat)}
    (apart : (sources.map (·.2)).Nodup) (k : Nat) :
    (moveItems b items sources)[k]? = items[k]?.map fun e =>
      match fate b sources k with
      | none => e
      | some track => (settle track e).getD e := by
  induction sources generalizing items with
  | nil => exact Option.map_id'.symm
  | cons source sources ih =>
    obtain ⟨id, node⟩ := source
    rw [List.map_cons, List.nodup_cons] at apart
    refine (ih (moveItem b items (id, node)) apart.2).trans ?_
    rw [getElem?_moveItem]
    by_cases same : k = node
    · subst same
      rw [if_pos rfl, Option.map_map, fate_cons_self, fate_eq_none apart.1]
      rfl
    · rw [if_neg same, fate_cons_other (Ne.symm same)]

theorem moveItems_eq_iff {items : List SExpr} {sources : List (Nat × Nat)}
    (apart : (sources.map (·.2)).Nodup) :
    moveItems b items sources = items ↔
      ∀ id node, (id, node) ∈ sources → ∀ e, items[node]? = some e →
        (settle (b.track? id) e).getD e = e := by
  constructor
  · intro same id node mem e here
    have view := getElem?_moveItems (b := b) items apart node
    rw [same, here, fate_of_mem apart mem] at view
    exact (Option.some.inj view).symm
  · intro still
    apply List.ext_getElem?
    intro k
    rw [getElem?_moveItems items apart]
    cases here : items[k]? with
    | none => rfl
    | some e =>
      cases own : fate b sources k with
      | none => rfl
      | some track =>
        obtain ⟨id, mem, rfl⟩ := mem_of_fate own
        exact congrArg some (still id k mem e here)

/-- Items are dropped just if the list gets shorter. -/
theorem length_keepFrom_lt {dropped : List Nat} (items : List SExpr) {k : Nat}
    (gone : k ∈ dropped) (inside : k < items.length) :
    (keepFrom dropped 0 items).length < items.length := by
  rw [Design.keepFrom_eq, List.length_map]
  refine Nat.lt_of_lt_of_eq (List.length_filter_lt_length_iff_exists.mpr ?_) (List.length_zipIdx)
  exact ⟨(items[k], k), List.mem_zipIdx_iff_getElem?.mpr (List.getElem?_eq_getElem inside),
    by simpa using gone⟩

theorem keepFrom_congr {dropped dropped' : List Nat} (same : ∀ k, k ∈ dropped ↔ k ∈ dropped')
    (node : Nat) (items : List SExpr) :
    keepFrom dropped node items = keepFrom dropped' node items := by
  rw [Design.keepFrom_eq, Design.keepFrom_eq]
  congr 2
  funext entry
  rw [Bool.eq_iff_iff]
  simp [same]

theorem keepFrom_nil (node : Nat) (items : List SExpr) : keepFrom [] node items = items := by
  simp [Design.keepFrom_eq]

/-! ## How it fails -/

/-- Either a source has no item, or the new tree has no design, or there is no list. -/
theorem apply_error_cases {d d' : Document} {loaded : LoadedBoard} {cause : DesignError}
    (failed : d.apply loaded = (d', .error cause)) :
    (∃ items s id, d.root = .list items ∧
      Edit.walk loaded.board { items } loaded.sources = (s, some id) ∧
      cause = .strayTrack id ∧ d' = { d with root := .list s.items }) ∨
    (∃ items s, d.root = .list items ∧
      Edit.walk loaded.board { items } loaded.sources = (s, none) ∧
      Design.ofTree d.design.filename s.result = .error cause ∧ d' = { d with root := s.result }) ∨
    ((∀ items, d.root ≠ .list items) ∧ cause = .rootNotList ∧ d' = d) := by
  unfold apply at failed
  split at failed
  · next items root =>
    split at failed
    · next s id walked =>
      cases failed
      exact .inl ⟨items, s, id, root, walked, rfl, rfl⟩
    · next s walked =>
      split at failed
      · cases failed
      · split at failed
        · cases failed
        · next holds =>
          cases failed
          exact .inr (.inl ⟨items, s, root, walked, holds, rfl⟩)
  · next other =>
    cases failed
    exact .inr (.inr ⟨other, rfl, rfl⟩)

theorem outOfRange_of_ofTree {filename : String} {items : List SExpr} {cause : DesignError}
    (h : Design.ofTree filename (.list items) = .error cause) :
    ∃ key value, cause = .outOfRange key value := by
  obtain ⟨k, e, key, value, _, _, same, _⟩ :=
    Design.itemsFrom_eq_error_iff.mp (Design.ofTree_eq_error_iff.mp h)
  exact ⟨key, value, same⟩

theorem eq_self_iff {d : Document} {items items' : List SExpr} (root : d.root = .list items) :
    { d with root := .list items' } = d ↔ items' = items := by
  constructor
  · intro same
    have roots := congrArg Document.root same
    rw [root] at roots
    exact SExpr.list.inj roots
  · rintro rfl
    rw [← root]

theorem result_eq_iff {s : Edit} {items : List SExpr} {sources : List (Nat × Nat)}
    (length : s.items.length = items.length) (inside : ∀ source ∈ sources, source.2 < items.length)
    (dropped : ∀ k, k ∈ s.dropped ↔ k ∈ gone b sources) :
    keepFrom s.dropped 0 s.items = items ↔ gone b sources = [] ∧ s.items = items := by
  constructor
  · intro same
    have none_gone : gone b sources = [] := by
      refine List.eq_nil_iff_forall_not_mem.mpr fun k mem => ?_
      obtain ⟨source, own, rfl⟩ := List.mem_map.mp mem
      have less := length_keepFrom_lt s.items ((dropped _).mpr mem)
        (length ▸ inside source (List.mem_of_mem_filter own))
      rw [same, length] at less
      exact Nat.lt_irrefl _ less
    rw [keepFrom_congr dropped, none_gone, keepFrom_nil] at same
    exact ⟨none_gone, same⟩
  · rintro ⟨none_gone, same⟩
    rw [keepFrom_congr dropped, none_gone, keepFrom_nil, same]

theorem inside_of_reached {length : Nat} {sources : List (Nat × Nat)}
    (all : reached length sources = sources) : ∀ source ∈ sources, source.2 < length := by
  intro source mem
  rw [← all] at mem
  simpa using List.mem_takeWhile_imp mem

/-- The tracks of a document come from items that it has. -/
theorem inside_of_own {d : Document} {items : List SExpr}
    (own : Design.ofTree d.design.filename (.list items) = .ok d.design) {id node : Nat}
    (mem : (id, node) ∈ d.toBoard.sources) : node < items.length := by
  obtain ⟨found, read, gathers⟩ := Design.gathers_of_ofTree own
  obtain ⟨t, e, item, _, here, _⟩ := gathers.source read mem
  exact (List.getElem?_eq_some_iff.mp here).1

/-- What a failure leaves behind. The design is the old one. At a source without an item the tree
has the ends of the traces looked at before; a new tree that cannot be read stands as it is. So a
document that holds the design of its tree, brought in line with a board of its own tracks, is never
left as it was. -/
theorem apply_failed {d d' : Document} {loaded : LoadedBoard} {cause : DesignError}
    (failed : d.apply loaded = (d', .error cause)) :
    d'.design = d.design ∧ d'.path = d.path ∧
    ((∀ items, d.root ≠ .list items) → cause = .rootNotList ∧ d' = d) ∧
    ∀ items, d.root = .list items →
      let seen := reached items.length loaded.sources
      let moved := moveItems loaded.board items seen
      ((∃ id node rest, loaded.sources = seen ++ (id, node) :: rest ∧ items.length ≤ node ∧
          cause = .strayTrack id ∧ d'.root = .list moved ∧ (d' = d ↔ moved = items)) ∨
        (∃ key value, loaded.sources = seen ∧ cause = .outOfRange key value ∧
          d'.root = .list (keepFrom (gone loaded.board seen) 0 moved) ∧
          Design.ofTree d.design.filename d'.root = .error cause ∧
          (d' = d ↔ gone loaded.board seen = [] ∧ moved = items))) ∧
      ((seen.map (·.2)).Nodup → (moved = items ↔
        ∀ id node, (id, node) ∈ seen → ∀ e, items[node]? = some e →
          (settle (loaded.board.track? id) e).getD e = e)) ∧
      (Design.ofTree d.design.filename d.root = .ok d.design →
        (∀ source ∈ loaded.sources, source ∈ d.toBoard.sources) → d' ≠ d) := by
  obtain ⟨items, s, id, root, walked, rfl, rfl⟩ | ⟨items, s, root, walked, unread, rfl⟩ |
    ⟨other, rfl, rfl⟩ := apply_error_cases failed
  · refine ⟨rfl, rfl, fun none_list => absurd root (none_list items), fun items' root' => ?_⟩
    obtain rfl := SExpr.list.inj (root.symm.trans root')
    obtain ⟨left, _, stopped⟩ := Edit.walk_reached (b := loaded.board) loaded.sources { items }
    rw [walked] at left stopped
    obtain ⟨node, rest, split, stray⟩ := stopped
    refine ⟨.inl ⟨id, node, rest, split, stray, rfl, congrArg _ left, ?_⟩, moveItems_eq_iff,
      fun own mine _ => ?_⟩
    · rw [eq_self_iff root, left]
    · rw [root] at own
      have here : (id, node) ∈ loaded.sources := by rw [split]; simp
      exact Nat.not_lt_of_le stray (inside_of_own own (mine _ here))
  · refine ⟨rfl, rfl, fun none_list => absurd root (none_list items), fun items' root' => ?_⟩
    obtain rfl := SExpr.list.inj (root.symm.trans root')
    obtain ⟨left, dropped, all⟩ := Edit.walk_reached (b := loaded.board) loaded.sources { items }
    rw [walked] at left dropped all
    have missing (k : Nat) :
        k ∈ s.dropped ↔ k ∈ gone loaded.board (reached items.length loaded.sources) := by
      rw [dropped]
      simp
    have length : s.items.length = items.length := by rw [left, length_moveItems]
    obtain ⟨key, value, rfl⟩ := outOfRange_of_ofTree unread
    refine ⟨.inr ⟨key, value, all.symm, rfl, ?_, unread, ?_⟩, moveItems_eq_iff,
      fun own _ same => ?_⟩
    · rw [← left, ← keepFrom_congr missing]
      rfl
    · have inside : ∀ source ∈ reached items.length loaded.sources, source.2 < items.length := by
        rw [all]
        exact inside_of_reached all
      rw [← left, ← result_eq_iff length inside missing]
      exact eq_self_iff root
    · have stands := congrArg Document.root same
      dsimp only at stands
      rw [← stands, unread] at own
      cases own
  · exact ⟨rfl, rfl, fun _ => ⟨rfl, rfl⟩, fun items root => absurd root (other items)⟩

def shortText : String :=
  "(kicad_pcb (net 1 \"A\")
    (segment (start 0 0) (end 10 0) (width 0.2) (layer \"F.Cu\") (net 1)))"

/-- The board of a document with the end of its first trace three metres away. -/
def reaching (d : Document) : LoadedBoard :=
  { d.toBoard with
    board := d.toBoard.board.modify 0 fun t => { t with stop := ⟨3000000000, 0⟩ } }

def isOutOfRange : Except DesignError Applied → Bool
  | .error (.outOfRange _ _) => true
  | _ => false

theorem exists_reaching : ∃ d d' key value, Document.read "short.kicad_pcb" shortText = .ok d ∧
    d.apply d.reaching = (d', .error (.outOfRange key value)) ∧
    d.root.toText ≠ d'.root.toText := by
  have readable : (Document.read "short.kicad_pcb" shortText).toOption.isSome = true := by
    decide +kernel
  have fails : ∀ d ∈ (Document.read "short.kicad_pcb" shortText).toOption,
      isOutOfRange (d.apply d.reaching).2 = true ∧
        d.root.toText ≠ (d.apply d.reaching).1.root.toText := by
    decide +kernel
  cases read : Document.read "short.kicad_pcb" shortText with
  | error cause =>
    rw [read] at readable
    cases readable
  | ok d =>
    obtain ⟨beyond, texts⟩ := fails d (by rw [read]; rfl)
    unfold isOutOfRange at beyond
    split at beyond
    · next key value outcome =>
      exact ⟨d, (d.apply d.reaching).1, key, value, rfl, Prod.ext rfl outcome, texts⟩
    · cases beyond

theorem apply_failed_reaching : ∃ d d' key value,
    Document.read "short.kicad_pcb" shortText = .ok d ∧
    d.apply d.reaching = (d', .error (.outOfRange key value)) ∧ d'.design = d.design ∧ d' ≠ d := by
  obtain ⟨d, d', key, value, read, failed, _⟩ := exists_reaching
  obtain ⟨design, _, _, left⟩ := apply_failed failed
  obtain ⟨items, found, loads⟩ := loads_of_read read
  obtain ⟨_, own⟩ := own_of_read read
  exact ⟨d, d', key, value, read, failed, design,
    (left items loads.root).2.2 own fun source mem => mem⟩

theorem failure_leaves_end_moved :
    ¬ ∀ (d d' : Document) (loaded : LoadedBoard) (cause : DesignError),
      d.apply loaded = (d', .error cause) → d'.root = d.root ∧ d'.design = d.design := by
  intro all
  obtain ⟨d, d', key, value, _, failed, texts⟩ := exists_reaching
  exact texts (congrArg SExpr.toText (all d d' _ _ failed).1.symm)

end CopperTidy.Document
