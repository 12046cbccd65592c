import CopperTidy.Proofs.Design.Source
import CopperTidy.Proofs.Document.Walk
import CopperTidy.Proofs.Survivors

/-! # Moving the ends of an item

The item of a segment whose ends were moved is read as the segment with the new ends. Its other
fields are untouched.
-/

namespace CopperTidy.Document
set_option autoImplicit false

open Design (position)

/-- `e'` is `e` but for the item tagged `key`, which now gives the point `p`. -/
structure Moved (key : String) (p : Point) (e e' : SExpr) : Prop where
  tag : e'.tag? = e.tag?
  here : ∃ place, position e' key = .ok place ∧ place.toPoint = p
  others : ∀ other, other ≠ key → e'.child? other = e.child? other

variable {key : String} {p : Point} {e e' : SExpr} {place : Design.Position}

theorem readPoint?_of_position (h : position e key = .ok place) :
    readPoint? e key = some place.toPoint := by
  obtain ⟨x, y, _⟩ := Design.position_eq_ok_iff.mp h
  rw [readPoint?, x, y]
  rfl

theorem child?_of_position (h : position e key = .ok place) : ∃ old, e.child? key = some old := by
  obtain ⟨x, _⟩ := Design.position_eq_ok_iff.mp h
  obtain ⟨text, value, _⟩ := Option.bind_eq_some_iff.mp x
  exact SExpr.child?_of_value? value

theorem position_node (fits : p.Fits)
    (h : e.child? key = some (.node key [mmText p.x, mmText p.y])) :
    ∃ place, position e key = .ok place ∧ place.toPoint = p := by
  obtain ⟨x, readX, inX, toX⟩ := Decimal.read?_mmText fits.1
  obtain ⟨y, readY, inY, toY⟩ := Decimal.read?_mmText fits.2
  have first : Design.float? e key 0 = some x := by
    rw [Design.float?, SExpr.value?_of_child? h]
    exact readX
  have second : Design.float? e key 1 = some y := by
    rw [Design.float?, SExpr.value?_of_child? h]
    exact readY
  refine ⟨⟨x, y⟩, Design.position_eq_ok_iff.mpr ⟨first, second, inX, inY⟩, ?_⟩
  rw [Design.Position.toPoint, toX, toY]

theorem moved_moveEnd? (read : position e key = .ok place) (fits : p.Fits) :
    Moved key p e ((moveEnd? e key p).getD e) := by
  unfold moveEnd?
  by_cases there : readPoint? e key = some p
  · rw [if_pos there, Option.getD_none]
    rw [readPoint?_of_position read, Option.some.injEq] at there
    exact ⟨rfl, ⟨place, read, there⟩, fun _ _ => rfl⟩
  · rw [if_neg there]
    obtain ⟨old, found⟩ := child?_of_position read
    obtain ⟨e', replaced⟩ : ∃ e', e.setChild? key (.node key [mmText p.x, mmText p.y]) = some e' :=
      ⟨_, SExpr.setChild?_eq_set found⟩
    have tagged := SExpr.hasTag_node key [mmText p.x, mmText p.y]
    have look := SExpr.child?_setChild? tagged replaced
    rw [replaced, Option.getD_some]
    refine ⟨SExpr.tag?_setChild? tagged replaced, ?_, fun other ne => ?_⟩
    · apply position_node fits
      rw [look, if_pos rfl]
    · rw [look, if_neg ne]

theorem moveEnds?_getD (e : SExpr) (t : Track) :
    (moveEnds? e t).getD e =
      (moveEnd? ((moveEnd? e "start" t.start).getD e) "end" t.stop).getD
        ((moveEnd? e "start" t.start).getD e) := by
  unfold moveEnds?
  cases moveEnd? e "start" t.start <;> rfl

/-! ## The item after the walk -/

theorem settle_not_trace {t : Track} (other : t.isTrace = false) (e : SExpr) :
    settle (some t) e = some e := by
  simp [settle, other]

theorem settle_trace {t : Track} (trace : t.isTrace = true) (e : SExpr) :
    settle (some t) e = some ((moveEnds? e t).getD e) := by
  simp [settle, trace]

variable {nets : List Design.NetEntry} {m : Nat}

/-- A segment whose ends are set is read with these ends, and with all else as it was. -/
theorem segment_moveEnds? {s : Design.Segment} {t u : Track} (tag : e.tag? = some "segment")
    (read : Design.segment nets m e = .ok s) (track : s.toTrack? = some t)
    (stretches : t.Stretches u) (start : u.start.Fits) (stop : u.stop.Fits) (n : Nat) :
    ∃ s', ((moveEnds? e u).getD e).tag? = some "segment" ∧
      Design.segment nets n ((moveEnds? e u).getD e) = .ok s' ∧ s'.toTrack? = some u ∧
        s'.node = n := by
  obtain ⟨readStart, readStop⟩ := Design.ends_of_segment read
  have first := moved_moveEnd? readStart start
  have readStop' := Design.position_congr (first.others "end" (by decide))
  rw [readStop] at readStop'
  have second := moved_moveEnd? readStop' stop
  rw [moveEnds?_getD]
  obtain ⟨p, readP, atStart⟩ := first.here
  obtain ⟨q, readQ, atStop⟩ := second.here
  have readP' := Design.position_congr (second.others "start" (by decide))
  rw [readP] at readP'
  have others (key : String) (notStart : key ≠ "start") (notEnd : key ≠ "end") :=
    (second.others key notEnd).trans (first.others key notStart)
  have read' := Design.segment_moved read readP' readQ others n
  refine ⟨_, ?_, read', ?_, rfl⟩
  · rw [second.tag, first.tag, tag]
  · obtain ⟨layer, known, rfl⟩ := Option.map_eq_some_iff.mp track
    rw [Design.Segment.toTrack?, known, Option.map_some, atStart, atStop, stretches.body]

/-- An item whose track is still there gives the track as it is now. -/
theorem settle_read {item : Design.Item} {t u : Track} {k : Nat}
    (read : Design.itemIfAny? nets m e = some (some item)) (placed : item.placed? = some (t, k))
    (stretches : t.Stretches u) (fits : ∀ p, u.hasEndAt p = true → p.Fits) (n : Nat) :
    ∃ e' item', settle (some u) e = some e' ∧ e'.tag? = e.tag? ∧
      Design.itemIfAny? nets n e' = some (some item') ∧ item'.placed? = some (u, n) := by
  have source := Design.source_of_placed read placed
  by_cases trace : t.isTrace = true
  · cases source with
    | @segment s _ tag readSegment track =>
      have start := fits u.start (Track.hasEndAt_iff.mpr (.inl rfl))
      have stop := fits u.stop (Track.hasEndAt_iff.mpr (.inr rfl))
      obtain ⟨s', tag', readSegment', track', number⟩ :=
        segment_moveEnds? tag readSegment track stretches start stop n
      refine ⟨_, .segment s', settle_trace (stretches.isTrace.trans trace) e, tag'.trans tag.symm, ?_, ?_⟩
      · rw [Design.itemIfAny?_eq_some_some, Design.item?, tag']
        simp only [readSegment']
        rfl
      · rw [Design.Item.placed?, track', Option.map_some, number]
    | arc _ _ track =>
      obtain ⟨layer, _, rfl⟩ := Option.map_eq_some_iff.mp track
      cases trace
    | via => cases trace
  · rw [Bool.not_eq_true] at trace
    have same : u = t := stretches.fixed trace
    subst same
    have again := Design.itemIfAny?_at nets m n e
    rw [read] at again
    refine ⟨e, item.moveTo n, settle_not_trace trace e, rfl, again, ?_⟩
    rw [Design.Item.placed?_moveTo, placed, Option.map_some]

end CopperTidy.Document
