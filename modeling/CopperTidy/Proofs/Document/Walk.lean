import Mathlib.Data.List.Basic
import CopperTidy.Document

/-! # What writing a board back does to the tree

The walk over the sources drops the items of tracks that are gone and moves the ends of others. No
source gets in the way of another, so what becomes of an item depends on its own source only, and
the order of the sources does not matter.
-/

namespace CopperTidy.Document
set_option autoImplicit false

/-- What becomes of an item whose track is now `track`. -/
def settle (track : Option Track) (e : SExpr) : Option SExpr :=
  track.map fun t => (if t.isTrace then moveEnds? e t else none).getD e

/-- The track now on the board that item number `node` was the source of, if it was a source. -/
def fate (b : Board) (sources : List (Nat × Nat)) (node : Nat) : Option (Option Track) :=
  (sources.find? fun source => source.2 == node).map fun source => b.track? source.1

def revise (b : Board) (sources : List (Nat × Nat)) (node : Nat) (e : SExpr) : Option SExpr :=
  match fate b sources node with
  | none => some e
  | some track => settle track e

/-- The items of a root list, from number `node` on, after the walk. -/
def reviseFrom (b : Board) (sources : List (Nat × Nat)) (node : Nat) : List SExpr → List SExpr
  | [] => []
  | e :: rest => (revise b sources node e).toList ++ reviseFrom b sources (node + 1) rest

variable {b : Board}

theorem fate_cons_self (id node : Nat) (sources : List (Nat × Nat)) :
    fate b ((id, node) :: sources) node = some (b.track? id) := by
  simp [fate]

theorem fate_cons_other {id node k : Nat} (h : node ≠ k) (sources : List (Nat × Nat)) :
    fate b ((id, node) :: sources) k = fate b sources k := by
  simp [fate, h]

theorem fate_eq_none {sources : List (Nat × Nat)} {k : Nat} (h : k ∉ sources.map (·.2)) :
    fate b sources k = none := by
  rw [fate, Option.map_eq_none_iff, List.find?_eq_none]
  rintro source mem same
  exact h (List.mem_map.mpr ⟨source, mem, beq_iff_eq.mp same⟩)

theorem fate_of_mem {sources : List (Nat × Nat)} (apart : (sources.map (·.2)).Nodup) {id node : Nat}
    (mem : (id, node) ∈ sources) : fate b sources node = some (b.track? id) := by
  induction sources with
  | nil => cases mem
  | cons source sources ih =>
    rw [List.map_cons, List.nodup_cons] at apart
    rcases List.mem_cons.mp mem with rfl | later
    · exact fate_cons_self id node sources
    · have other : source.2 ≠ node := by
        intro same
        exact apart.1 (same ▸ List.mem_map_of_mem later)
      rw [← Prod.eta source, fate_cons_other other]
      exact ih apart.2 later

theorem mem_of_fate {sources : List (Nat × Nat)} {k : Nat} {track : Option Track}
    (h : fate b sources k = some track) : ∃ id, (id, k) ∈ sources ∧ b.track? id = track := by
  obtain ⟨⟨id, node⟩, first, there⟩ := Option.map_eq_some_iff.mp h
  have same := List.find?_some first
  obtain rfl : node = k := beq_iff_eq.mp same
  exact ⟨id, List.mem_of_find?_eq_some first, there⟩

/-- The order of the sources does not matter. -/
theorem fate_perm {sources sources' : List (Nat × Nat)} (order : sources.Perm sources')
    (apart : (sources.map (·.2)).Nodup) (k : Nat) : fate b sources k = fate b sources' k := by
  cases h : fate b sources' k with
  | some track =>
    obtain ⟨id, mem, rfl⟩ := mem_of_fate h
    exact fate_of_mem apart (order.symm.subset mem)
  | none =>
    refine fate_eq_none fun mem => ?_
    obtain ⟨⟨id, node⟩, own, rfl⟩ := List.mem_map.mp ((order.map _).subset mem)
    rw [fate_of_mem ((order.map _).nodup_iff.mp apart) own] at h
    cases h

/-! ## One visit -/

/-- An item as it stands during the walk; one that will be dropped is gone. -/
def Edit.view (s : Edit) (k : Nat) : Option SExpr :=
  if k ∈ s.dropped then none else s.items[k]?

theorem Edit.length_visit (s : Edit) (track : Option Track) (node : Nat) (e : SExpr) :
    (s.visit track node e).items.length = s.items.length := by
  unfold visit
  split
  · split <;> rfl
  · split
    · exact List.length_set
    · rfl

theorem Edit.mem_dropped_visit {s : Edit} {track : Option Track} {node k : Nat} {e : SExpr}
    (h : k ∈ (s.visit track node e).dropped) : k = node ∨ k ∈ s.dropped := by
  unfold visit at h
  split at h
  · split at h
    · exact .inr h
    · exact List.mem_cons.mp h
  · split at h
    · exact .inr h
    · exact .inr h

theorem Edit.view_visit {s : Edit} {node : Nat} {e : SExpr} (track : Option Track)
    (stays : node ∉ s.dropped) (here : s.items[node]? = some e) (k : Nat) :
    (s.visit track node e).view k = if k = node then settle track e else s.view k := by
  have inside : node < s.items.length := (List.getElem?_eq_some_iff.mp here).1
  cases track with
  | none =>
    have fresh : s.dropped.contains node = false := by simpa using stays
    simp only [visit, fresh, view, settle]
    by_cases same : k = node
    · simp [same]
    · simp [same]
  | some t =>
    simp only [visit, settle, Option.map_some]
    cases moved : (if t.isTrace then moveEnds? e t else none) with
    | none =>
      by_cases same : k = node
      · subst same
        simp [view, stays, here]
      · simp [same]
    | some new =>
      by_cases same : k = node
      · subst same
        simp [view, stays, inside]
      · have other : node ≠ k := fun h => same h.symm
        simp [view, same, other]

/-! ## The whole walk -/

/-- The sources are of different items, none of which is dropped already. -/
structure Edit.Ready (s : Edit) (sources : List (Nat × Nat)) : Prop where
  apart : (sources.map (·.2)).Nodup
  inside : ∀ source ∈ sources, source.2 < s.items.length
  fresh : ∀ source ∈ sources, source.2 ∉ s.dropped

theorem Edit.Ready.here {s : Edit} {id node : Nat} {sources : List (Nat × Nat)}
    (h : s.Ready ((id, node) :: sources)) : ∃ e, s.items[node]? = some e :=
  ⟨_, List.getElem?_eq_getElem (h.inside (id, node) List.mem_cons_self)⟩

theorem Edit.Ready.visit {s : Edit} {id node : Nat} {sources : List (Nat × Nat)}
    (h : s.Ready ((id, node) :: sources)) (track : Option Track) (e : SExpr) :
    node ∉ sources.map (·.2) ∧ (s.visit track node e).Ready sources := by
  have apart := h.apart
  rw [List.map_cons, List.nodup_cons] at apart
  refine ⟨apart.1, apart.2, fun source mem => ?_, fun source mem gone => ?_⟩
  · rw [Edit.length_visit]
    exact h.inside source (List.mem_cons_of_mem _ mem)
  · rcases Edit.mem_dropped_visit gone with same | before
    · exact apart.1 (List.mem_map.mpr ⟨source, mem, same⟩)
    · exact h.fresh source (List.mem_cons_of_mem _ mem) before

theorem Edit.walk_cons {s : Edit} {node : Nat} {e : SExpr} (here : s.items[node]? = some e)
    (id : Nat) (sources : List (Nat × Nat)) :
    Edit.walk b s ((id, node) :: sources) =
      Edit.walk b (s.visit (b.track? id) node e) sources := by
  rw [Edit.walk, here]

/-- Every item ends as its own source has it. -/
theorem Edit.walk_view (sources : List (Nat × Nat)) (s : Edit) (ready : s.Ready sources) :
    ∃ t, Edit.walk b s sources = (t, none) ∧ t.items.length = s.items.length ∧
      ∀ k, t.view k = match fate b sources k with
        | none => s.view k
        | some track => (s.view k).bind (settle track) := by
  induction sources generalizing s with
  | nil => exact ⟨s, rfl, rfl, fun k => rfl⟩
  | cons source sources ih =>
    obtain ⟨id, node⟩ := source
    obtain ⟨e, here⟩ := ready.here
    have stays : node ∉ s.dropped := ready.fresh (id, node) List.mem_cons_self
    obtain ⟨apart, ready'⟩ := ready.visit (b.track? id) e
    obtain ⟨t, walked, length, views⟩ := ih _ ready'
    refine ⟨t, ?_, by rw [length, Edit.length_visit], fun k => ?_⟩
    · rw [Edit.walk_cons here]
      exact walked
    · rw [views k, Edit.view_visit _ stays here]
      by_cases same : k = node
      · subst same
        have start : s.view k = some e := by rw [Edit.view, if_neg stays, here]
        rw [fate_eq_none apart, fate_cons_self, if_pos rfl, start]
        rfl
      · rw [fate_cons_other (Ne.symm same), if_neg same]

/-- Is this the source of a trace whose item gives another end than the trace has? -/
def stirs (b : Board) (items : List SExpr) (source : Nat × Nat) : Bool :=
  match b.track? source.1, items[source.2]? with
  | some t, some e => t.isTrace && (moveEnds? e t).isSome
  | _, _ => false

theorem Edit.getElem?_visit {node k : Nat} (other : node ≠ k) (s : Edit) (track : Option Track)
    (e : SExpr) : (s.visit track node e).items[k]? = s.items[k]? := by
  unfold visit
  split
  · split <;> rfl
  · split
    · exact List.getElem?_set_ne other
    · rfl

theorem Edit.applied_visit {s : Edit} {node : Nat} {e : SExpr} (stays : node ∉ s.dropped)
    (here : s.items[node]? = some e) (id : Nat) :
    (s.visit (b.track? id) node e).dropped.length =
        s.dropped.length + (if (b.track? id).isNone then 1 else 0) ∧
      (s.visit (b.track? id) node e).moved =
        s.moved + (if stirs b s.items (id, node) then 1 else 0) := by
  cases track : b.track? id with
  | none => simp [visit, stays, stirs, track]
  | some t =>
    cases trace : t.isTrace with
    | false => simp [visit, stirs, track, here, trace]
    | true => cases moved : moveEnds? e t <;> simp [visit, stirs, track, here, trace, moved]

/-- The walk counts the sources whose track is gone, and those whose item it changes. -/
theorem Edit.walk_applied (sources : List (Nat × Nat)) (s : Edit) (ready : s.Ready sources) :
    (Edit.walk b s sources).1.dropped.length =
        s.dropped.length + sources.countP (fun source => (b.track? source.1).isNone) ∧
      (Edit.walk b s sources).1.moved = s.moved + sources.countP (stirs b s.items) := by
  induction sources generalizing s with
  | nil => exact ⟨rfl, rfl⟩
  | cons source sources ih =>
    obtain ⟨id, node⟩ := source
    obtain ⟨e, here⟩ := ready.here
    have stays : node ∉ s.dropped := ready.fresh (id, node) List.mem_cons_self
    obtain ⟨apart, ready'⟩ := ready.visit (b.track? id) e
    obtain ⟨dropped, moved⟩ := Edit.applied_visit (b := b) stays here id
    obtain ⟨dropped', moved'⟩ := ih _ ready'
    have same : sources.countP (stirs b (s.visit (b.track? id) node e).items) =
        sources.countP (stirs b s.items) := by
      refine List.countP_congr fun source mem => ?_
      have other : node ≠ source.2 := fun same => apart (same ▸ List.mem_map_of_mem mem)
      rw [stirs, stirs, Edit.getElem?_visit other]
    rw [Edit.walk_cons here, List.countP_cons, List.countP_cons]
    dsimp only
    exact ⟨by omega, by omega⟩

theorem keepFrom_eq_reviseFrom {sources : List (Nat × Nat)} {dropped : List Nat}
    {before after : List SExpr} {node : Nat} (length : after.length = before.length)
    (views : ∀ k, (if node + k ∈ dropped then none else after[k]?) =
      before[k]?.bind (revise b sources (node + k))) :
    keepFrom dropped node after = reviseFrom b sources node before := by
  induction before generalizing after node with
  | nil =>
    rw [List.length_eq_zero_iff.mp length]
    rfl
  | cons e before ih =>
    obtain ⟨new, after, rfl⟩ := List.exists_cons_of_length_eq_add_one length
    have rest : keepFrom dropped (node + 1) after = reviseFrom b sources (node + 1) before := by
      refine ih (by simpa using length) fun k => ?_
      have view := views (k + 1)
      rwa [List.getElem?_cons_succ, List.getElem?_cons_succ, Nat.add_comm k 1, ← Nat.add_assoc] at view
    have first := views 0
    rw [List.getElem?_cons_zero, List.getElem?_cons_zero, Nat.add_zero, Option.bind_some] at first
    rw [keepFrom, reviseFrom, ← first, rest]
    by_cases gone : node ∈ dropped
    · simp [gone]
    · simp [gone]

theorem reviseFrom_eq_filterMap (sources : List (Nat × Nat)) (node : Nat) (items : List SExpr) :
    reviseFrom b sources node items =
      (items.zipIdx node).filterMap fun entry => revise b sources entry.2 entry.1 := by
  induction items generalizing node with
  | nil => rfl
  | cons e rest ih =>
    rw [reviseFrom, ih, List.zipIdx_cons, List.filterMap_cons]
    cases revise b sources node e <;> rfl

/-- If no track is gone and no end moved, the walk keeps the items. -/
theorem reviseFrom_idle {items : List SExpr} {sources : List (Nat × Nat)}
    (apart : (sources.map (·.2)).Nodup)
    (idle : ∀ source ∈ sources, (b.track? source.1).isNone = false ∧ stirs b items source = false) :
    reviseFrom b sources 0 items = items := by
  have stays : ∀ entry ∈ items.zipIdx, revise b sources entry.2 entry.1 = some entry.1 := by
    rintro ⟨e, k⟩ mem
    have here : items[k]? = some e := List.mem_zipIdx_iff_getElem?.mp mem
    by_cases source : k ∈ sources.map (·.2)
    · obtain ⟨⟨id, node⟩, own, rfl⟩ := List.mem_map.mp source
      obtain ⟨live, still⟩ := idle (id, node) own
      obtain ⟨t, track⟩ := Option.isSome_iff_exists.mp (Option.isNone_eq_false_iff.mp live)
      rw [revise, fate_of_mem apart own, track]
      simp only [stirs, track, here, Bool.and_eq_false_iff] at still
      rcases still with other | still
      · simp [settle, other]
      · rw [Option.isSome_eq_false_iff, Option.isNone_iff_eq_none] at still
        simp [settle, still]
    · rw [revise, fate_eq_none source]
  rw [reviseFrom_eq_filterMap, List.filterMap_eq_map_iff_forall_eq_some.mpr stays,
    List.zipIdx_map_fst]

/-- The walk over the sources of a document, as one revision of its items. -/
theorem walk_eq (items : List SExpr) {sources : List (Nat × Nat)}
    (apart : (sources.map (·.2)).Nodup) (inside : ∀ source ∈ sources, source.2 < items.length) :
    ∃ s, Edit.walk b { items } sources = (s, none) ∧
      s.result = .list (reviseFrom b sources 0 items) ∧
      s.applied = ⟨sources.countP (fun source => (b.track? source.1).isNone),
        sources.countP (stirs b items)⟩ ∧
      (s.applied.isEmpty = true → s.result = .list items) := by
  have ready : Edit.Ready { items } sources := ⟨apart, inside, fun _ _ => List.not_mem_nil⟩
  obtain ⟨s, walked, length, views⟩ := Edit.walk_view (b := b) sources { items } ready
  have result : s.result = .list (reviseFrom b sources 0 items) := by
    rw [Edit.result, keepFrom_eq_reviseFrom length fun k => ?_]
    have view := views k
    rw [Nat.zero_add]
    refine view.trans ?_
    rw [Edit.view, if_neg List.not_mem_nil]
    cases items[k]? with
    | none => cases fate b sources k <;> rfl
    | some e =>
      rw [Option.bind_some, revise]
      cases fate b sources k <;> rfl
  obtain ⟨dropped, moved⟩ := Edit.walk_applied (b := b) sources { items } ready
  rw [walked, List.length_nil, Nat.zero_add] at dropped
  rw [walked, Nat.zero_add] at moved
  refine ⟨s, walked, result, by rw [Edit.applied, dropped, moved], fun idle => ?_⟩
  rw [Applied.isEmpty, Edit.applied, dropped, moved, Bool.and_eq_true, beq_iff_eq, beq_iff_eq,
    List.countP_eq_zero, List.countP_eq_zero] at idle
  rw [result, reviseFrom_idle apart fun source mem =>
    ⟨Bool.eq_false_iff.mpr (idle.1 source mem), Bool.eq_false_iff.mpr (idle.2 source mem)⟩]

/-- If the revised tree holds a design, a document is brought in line with a board. -/
theorem apply_ok {d : Document} {items : List SExpr} {loaded : LoadedBoard} {design : Design}
    (root : d.root = .list items) (apart : (loaded.sources.map (·.2)).Nodup)
    (inside : ∀ source ∈ loaded.sources, source.2 < items.length)
    (holds : Design.ofTree d.design.filename
      (.list (reviseFrom loaded.board loaded.sources 0 items)) = .ok design) :
    ∃ e applied, d.apply loaded = (e, .ok applied) ∧
      e.root = .list (reviseFrom loaded.board loaded.sources 0 items) := by
  obtain ⟨s, walked, result, _, idle⟩ := walk_eq (b := loaded.board) items apart inside
  simp only [apply, root, walked]
  split
  · next none_changed => exact ⟨d, _, rfl, by rw [root, ← result, idle none_changed]⟩
  · rw [result, holds]
    exact ⟨_, _, rfl, rfl⟩

/-- What comes of it exactly, if the document has the design of its own tree. -/
theorem apply_eq {d : Document} {items : List SExpr} {loaded : LoadedBoard} {design : Design}
    (root : d.root = .list items) (own : Design.ofTree d.design.filename d.root = .ok d.design)
    (apart : (loaded.sources.map (·.2)).Nodup)
    (inside : ∀ source ∈ loaded.sources, source.2 < items.length)
    (holds : Design.ofTree d.design.filename
      (.list (reviseFrom loaded.board loaded.sources 0 items)) = .ok design) :
    d.apply loaded =
      ({ d with root := .list (reviseFrom loaded.board loaded.sources 0 items), design },
        .ok ⟨loaded.sources.countP fun source => (loaded.board.track? source.1).isNone,
          loaded.sources.countP (stirs loaded.board items)⟩) := by
  obtain ⟨s, walked, result, applied, idle⟩ := walk_eq (b := loaded.board) items apart inside
  simp only [apply, root, walked]
  split
  · next none_changed =>
    rw [← result, idle none_changed, ← root, own, Except.ok.injEq] at holds
    rw [← result, idle none_changed, ← root, ← holds, applied]
  · rw [result, holds, applied]

end CopperTidy.Document
