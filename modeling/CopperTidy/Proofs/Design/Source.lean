import CopperTidy.Copper.Lemmas
import CopperTidy.Proofs.Decimal.Millimetres
import CopperTidy.Proofs.Design.Placed
import CopperTidy.Proofs.Moves
import CopperTidy.Proofs.SExpr.Replace

/-! # What a track is read from

The fields of a segment, an arc or a via come from tagged items of its list. What comes out has ends
that fit on a board, and a via has both ends in one place.
-/

namespace CopperTidy
set_option autoImplicit false

/-- A point whose coordinates a file can hold. -/
def Point.Fits (p : Point) : Prop :=
  p.x.toInt.natAbs ≤ maxNm ∧ p.y.toInt.natAbs ≤ maxNm

namespace Design

variable {key : String} {e e' : SExpr}

theorem float?_congr (same : e'.child? key = e.child? key) (n : Nat) :
    float? e' key n = float? e key n := by
  rw [float?, float?, SExpr.value?_congr same]

theorem position_congr (same : e'.child? key = e.child? key) : position e' key = position e key := by
  simp only [position, float?_congr same]

theorem position_eq_ok_iff {place : Position} :
    position e key = .ok place ↔
      float? e key 0 = some place.x ∧ float? e key 1 = some place.y ∧
        inRange place.x = true ∧ inRange place.y = true := by
  unfold position
  cases float? e key 0 with
  | none => simp [required, bind, Except.bind]
  | some x =>
    cases float? e key 1 with
    | none => simp [required, bind, Except.bind]
    | some y =>
      simp only [required, bind, Except.bind, Option.some.injEq]
      by_cases hx : inRange x = true
      · by_cases hy : inRange y = true
        · simp only [hx, hy, Bool.not_true, Bool.false_eq_true, if_false, Except.ok.injEq]
          constructor
          · rintro rfl
            exact ⟨rfl, rfl, hx, hy⟩
          · rintro ⟨rfl, rfl, _⟩
            rfl
        · rw [Bool.not_eq_true] at hy
          simp only [hx, hy, Bool.not_true, Bool.not_false, Bool.false_eq_true, if_false, if_true,
            reduceCtorEq, false_iff]
          rintro ⟨_, rfl, _, fits⟩
          rw [hy] at fits
          cases fits
      · rw [Bool.not_eq_true] at hx
        simp only [hx, Bool.not_false, if_true, reduceCtorEq, false_iff]
        rintro ⟨rfl, _, fits, _⟩
        rw [hx] at fits
        cases fits

/-- What is read from a file fits on a board. -/
theorem fits_of_position {place : Position} (h : position e key = .ok place) :
    place.toPoint.Fits := by
  obtain ⟨_, _, x, y⟩ := position_eq_ok_iff.mp h
  exact ⟨Decimal.toNm_natAbs_le x, Decimal.toNm_natAbs_le y⟩

/-! ## Tracks -/

theorem bind_eq_ok_iff {α β : Type} {x : Except ItemError α} {f : α → Except ItemError β} {r : β} :
    x >>= f = .ok r ↔ ∃ a, x = .ok a ∧ f a = .ok r := by
  cases x with
  | error cause => simp [bind, Except.bind]
  | ok a => simp [bind, Except.bind]

variable {nets : List NetEntry} {m : Nat}

theorem ends_of_segment {s : Segment} (h : segment nets m e = .ok s) :
    position e "start" = .ok s.start ∧ position e "end" = .ok s.stop := by
  unfold segment at h
  obtain ⟨start, readStart, h⟩ := bind_eq_ok_iff.mp h
  obtain ⟨stop, readStop, h⟩ := bind_eq_ok_iff.mp h
  obtain ⟨width, _, h⟩ := bind_eq_ok_iff.mp h
  obtain ⟨layer, _, h⟩ := bind_eq_ok_iff.mp h
  cases h
  exact ⟨readStart, readStop⟩

theorem ends_of_arc {a : Arc} (h : arc nets m e = .ok a) :
    position e "start" = .ok a.start ∧ position e "end" = .ok a.stop := by
  unfold arc at h
  obtain ⟨start, readStart, h⟩ := bind_eq_ok_iff.mp h
  obtain ⟨mid, _, h⟩ := bind_eq_ok_iff.mp h
  obtain ⟨stop, readStop, h⟩ := bind_eq_ok_iff.mp h
  obtain ⟨width, _, h⟩ := bind_eq_ok_iff.mp h
  obtain ⟨layer, _, h⟩ := bind_eq_ok_iff.mp h
  cases h
  exact ⟨readStart, readStop⟩

theorem place_of_via {v : Via} (h : via nets m e = .ok v) : position e "at" = .ok v.position := by
  unfold via at h
  obtain ⟨place, readPlace, h⟩ := bind_eq_ok_iff.mp h
  obtain ⟨size, _, h⟩ := bind_eq_ok_iff.mp h
  cases h
  exact readPlace

theorem segment_moved {s : Segment} (h : segment nets m e = .ok s) {p q : Position}
    (start : position e' "start" = .ok p) (stop : position e' "end" = .ok q)
    (others : ∀ key, key ≠ "start" → key ≠ "end" → e'.child? key = e.child? key) (n : Nat) :
    segment nets n e' =
      .ok { s with start := p, stop := q, locked := e'.hasFlag "locked", node := n } := by
  unfold segment at h
  obtain ⟨_, _, h⟩ := bind_eq_ok_iff.mp h
  obtain ⟨_, _, h⟩ := bind_eq_ok_iff.mp h
  obtain ⟨width, readWidth, h⟩ := bind_eq_ok_iff.mp h
  obtain ⟨layer, readLayer, h⟩ := bind_eq_ok_iff.mp h
  cases h
  have uuid : uuidOf e' = uuidOf e := by
    rw [uuidOf, uuidOf, SExpr.value?_congr (others "uuid" (by decide) (by decide)),
      SExpr.value?_congr (others "tstamp" (by decide) (by decide))]
  have net : netOf? nets e' = netOf? nets e := by
    rw [netOf?, netOf?, SExpr.value?_congr (others "net" (by decide) (by decide))]
  have width' := float?_congr (others "width" (by decide) (by decide)) 0
  have layer' := SExpr.value?_congr (others "layer" (by decide) (by decide)) 0
  rw [← width'] at readWidth
  rw [← layer'] at readLayer
  rw [← uuid, ← net]
  unfold segment
  refine bind_eq_ok_iff.mpr ⟨p, start, ?_⟩
  refine bind_eq_ok_iff.mpr ⟨q, stop, ?_⟩
  refine bind_eq_ok_iff.mpr ⟨width, readWidth, ?_⟩
  exact bind_eq_ok_iff.mpr ⟨layer, readLayer, rfl⟩

/-- What an item that holds a track is read from. -/
inductive Source (nets : List NetEntry) (m : Nat) (e : SExpr) : Item → Track → Prop
  | segment {s : Segment} {t : Track} (tag : e.tag? = some "segment")
      (read : Design.segment nets m e = .ok s) (track : s.toTrack? = some t) :
      Source nets m e (.segment s) t
  | arc {a : Arc} {t : Track} (tag : e.tag? = some "arc") (read : Design.arc nets m e = .ok a)
      (track : a.toTrack? = some t) : Source nets m e (.arc a) t
  | via {v : Via} (tag : e.tag? = some "via") (read : Design.via nets m e = .ok v) :
      Source nets m e (.via v) v.toTrack

theorem itemIfAny?_eq_some_some {item : Item} :
    itemIfAny? nets m e = some (some item) ↔ item? nets m e = .ok (some item) := by
  unfold itemIfAny?
  cases item? nets m e with
  | ok found => simp
  | error cause => cases cause <;> simp

theorem source_of_placed {item : Item} {t : Track} {k : Nat}
    (h : itemIfAny? nets m e = some (some item)) (placed : item.placed? = some (t, k)) :
    Source nets m e item t := by
  have read {α : Type} {x : Except ItemError α} {make : α → Item}
      (eq : x.map (some ∘ make) = .ok (some item)) : ∃ a, x = .ok a ∧ item = make a := by
    cases x with
    | error cause => cases eq
    | ok a =>
      cases eq
      exact ⟨a, rfl, rfl⟩
  rw [itemIfAny?_eq_some_some, item?] at h
  split at h
  · obtain ⟨f, _, rfl⟩ := read h
    cases placed
  · obtain ⟨f, _, rfl⟩ := read h
    cases placed
  · next tag =>
    obtain ⟨s, source, rfl⟩ := read h
    obtain ⟨t', track, same⟩ := Option.map_eq_some_iff.mp placed
    cases same
    exact .segment tag source track
  · next tag =>
    obtain ⟨a, source, rfl⟩ := read h
    obtain ⟨t', track, same⟩ := Option.map_eq_some_iff.mp placed
    cases same
    exact .arc tag source track
  · next tag =>
    obtain ⟨v, source, rfl⟩ := read h
    cases placed
    exact .via tag source
  · cases h
    cases placed
  · cases h

namespace Source

variable {item : Item} {t : Track}

theorem straight (h : Source nets m e item t) : Run.isMalformedVia t = false := by
  cases h with
  | segment _ _ track =>
    obtain ⟨layer, _, rfl⟩ := Option.map_eq_some_iff.mp track
    rfl
  | arc _ _ track =>
    obtain ⟨layer, _, rfl⟩ := Option.map_eq_some_iff.mp track
    rfl
  | via => simp [Run.isMalformedVia, Via.toTrack, Track.ofVia]

theorem ends_fit (h : Source nets m e item t) {p : Point} (there : t.hasEndAt p = true) :
    p.Fits := by
  rw [Track.hasEndAt_iff] at there
  cases h with
  | segment _ read track =>
    obtain ⟨start, stop⟩ := ends_of_segment read
    obtain ⟨layer, _, rfl⟩ := Option.map_eq_some_iff.mp track
    rcases there with rfl | rfl
    · exact fits_of_position start
    · exact fits_of_position stop
  | arc _ read track =>
    obtain ⟨start, stop⟩ := ends_of_arc read
    obtain ⟨layer, _, rfl⟩ := Option.map_eq_some_iff.mp track
    rcases there with rfl | rfl
    · exact fits_of_position start
    · exact fits_of_position stop
  | via _ read =>
    have place := fits_of_position (place_of_via read)
    rcases there with rfl | rfl
    · exact place
    · exact place

theorem not_net (h : Source nets m e item t) : SExpr.hasTag "net" e = false := by
  rw [SExpr.hasTag]
  cases h with
  | segment tag => rw [tag]; rfl
  | arc tag => rw [tag]; rfl
  | via tag => rw [tag]; rfl

end Source

end Design

end CopperTidy
