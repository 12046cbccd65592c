import CopperTidy.Proofs.Document.RoundTrip

/-! # How far out the copper of a file can be

A position that is read with its tag is refused if it is out of range, so the ends and the midpoints
of tracks always fit on a board. Two kinds of points are not looked at again: the place of a pad,
which is the sum of two positions that each are in range, and the points of a fill, which are read
without a tag.
-/

namespace CopperTidy
set_option autoImplicit false

/-- Both ends, and the midpoint of an arc. -/
structure Track.Fits (t : Track) : Prop where
  start : t.start.Fits
  stop : t.stop.Fits
  mid : ∀ p, t.shape = .arc p → p.Fits

/-- Every coordinate on the board is one that a file can hold. -/
structure Board.Fits (b : Board) : Prop where
  tracks : ∀ id t, b.track? id = some t → t.Fits
  pads : ∀ pad ∈ b.pads, pad.position.Fits
  zones : ∀ z ∈ b.zones, ∀ fill ∈ z.fills, ∀ p ∈ fill.outline, p.Fits

namespace Design

def Position.inRange (p : Position) : Bool := Design.inRange p.x && Design.inRange p.y

theorem Position.fits {p : Position} (h : p.inRange = true) : p.toPoint.Fits := by
  obtain ⟨x, y⟩ := Bool.and_eq_true_iff.mp h
  exact ⟨Decimal.toNm_natAbs_le x, Decimal.toNm_natAbs_le y⟩

theorem inRange_of_position {e : SExpr} {key : String} {p : Position}
    (h : position e key = .ok p) : p.inRange = true := by
  obtain ⟨_, _, x, y⟩ := position_eq_ok_iff.mp h
  exact Bool.and_eq_true_iff.mpr ⟨x, y⟩

/-! ## Tracks -/

section Tracks

variable {nets : List NetEntry} {m : Nat} {e : SExpr} {item : Item} {t : Track}

theorem mid_of_arc {a : Arc} (h : arc nets m e = .ok a) : position e "mid" = .ok a.mid := by
  unfold arc at h
  obtain ⟨start, _, h⟩ := bind_eq_ok_iff.mp h
  obtain ⟨mid, readMid, h⟩ := bind_eq_ok_iff.mp h
  obtain ⟨stop, _, h⟩ := bind_eq_ok_iff.mp h
  obtain ⟨width, _, h⟩ := bind_eq_ok_iff.mp h
  obtain ⟨layer, _, h⟩ := bind_eq_ok_iff.mp h
  cases h
  exact readMid

theorem Source.mid_fits (h : Source nets m e item t) {p : Point} (bent : t.shape = .arc p) :
    p.Fits := by
  cases h with
  | segment _ _ track =>
    obtain ⟨layer, _, rfl⟩ := Option.map_eq_some_iff.mp track
    cases bent
  | arc _ read track =>
    obtain ⟨layer, _, rfl⟩ := Option.map_eq_some_iff.mp track
    cases bent
    exact fits_of_position (mid_of_arc read)
  | via => cases bent

theorem Source.fits (h : Source nets m e item t) : t.Fits where
  start := h.ends_fit (Track.hasEndAt_iff.mpr (.inl rfl))
  stop := h.ends_fit (Track.hasEndAt_iff.mpr (.inr rfl))
  mid _ := h.mid_fits

end Tracks

/-! ## Footprints and their pads -/

/-- Where a pad of a footprint is on the board. -/
def PadEntry.place (f : Footprint) (pad : PadEntry) : Position :=
  let offset := rotate pad.position.x pad.position.y f.rotation
  ⟨f.position.x + offset.1, f.position.y + offset.2⟩

section Footprints

variable {nets : List NetEntry} {e : SExpr} {f : Footprint}

theorem place_of_padEntry {pad : PadEntry} (h : padEntry nets e = .ok pad) :
    position e "at" = .ok pad.position := by
  unfold padEntry at h
  split at h
  · obtain ⟨place, read, h⟩ := bind_eq_ok_iff.mp h
    cases h
    exact read
  · cases h

theorem inRange_of_padEntries {es : List SExpr} {pads : List PadEntry}
    (h : padEntries nets es = .ok pads) : ∀ pad ∈ pads, pad.position.inRange = true := by
  induction es generalizing pads with
  | nil =>
    cases h
    exact fun _ mem => nomatch mem
  | cons e rest ih =>
    unfold padEntries at h
    split at h
    · next first read =>
      cases others : padEntries nets rest with
      | error cause =>
        rw [others] at h
        cases h
      | ok more =>
        rw [others] at h
        cases h
        intro pad mem
        rcases List.mem_cons.mp mem with rfl | later
        · exact inRange_of_position (place_of_padEntry read)
        · exact ih others pad later
    · exact ih h
    · cases h

theorem inRange_of_footprint (h : footprint nets e = .ok f) :
    f.position.inRange = true ∧ ∀ pad ∈ f.pads, pad.position.inRange = true := by
  unfold footprint at h
  obtain ⟨place, readPlace, h⟩ := bind_eq_ok_iff.mp h
  obtain ⟨pads, readPads, h⟩ := bind_eq_ok_iff.mp h
  cases h
  exact ⟨inRange_of_position readPlace, inRange_of_padEntries readPads⟩

theorem footprint_of_item? {m : Nat} (h : item? nets m e = .ok (some (.footprint f))) :
    footprint nets e = .ok f := by
  have read {α : Type} {x : Except ItemError α} {make : α → Item}
      (eq : x.map (some ∘ make) = .ok (some (.footprint f))) :
      ∃ a, x = .ok a ∧ make a = .footprint f := by
    cases x with
    | error cause => cases eq
    | ok a => exact ⟨a, rfl, Option.some.inj (Except.ok.inj eq)⟩
  unfold item? at h
  split at h
  · obtain ⟨_, source, same⟩ := read h
    cases same
    exact source
  · obtain ⟨_, source, same⟩ := read h
    cases same
    exact source
  · obtain ⟨_, _, same⟩ := read h
    cases same
  · obtain ⟨_, _, same⟩ := read h
    cases same
  · obtain ⟨_, _, same⟩ := read h
    cases same
  · cases h
  · cases h

end Footprints

/-! ## Fills -/

theorem mem_fills_toZone? {z : ZoneEntry} {zone : Zone} (h : z.toZone? = some zone) {fill : Fill} :
    fill ∈ zone.fills ↔ ∃ f ∈ z.fills, f.toFill? = some fill := by
  have fills : zone.fills = z.fills.filterMap FillEntry.toFill? := by
    unfold ZoneEntry.toZone? at h
    split at h
    · cases h
    · cases h
      rfl
  rw [fills, List.mem_filterMap]

theorem toZone?_of_fill {z : ZoneEntry} {f : FillEntry} {fill : Fill} (mem : f ∈ z.fills)
    (copper : f.toFill? = some fill) : ∃ zone, z.toZone? = some zone := by
  have listed : fill ∈ z.fills.filterMap FillEntry.toFill? := List.mem_filterMap.mpr ⟨f, mem, copper⟩
  unfold ZoneEntry.toZone?
  split
  · next none_found =>
    rw [none_found] at listed
    cases listed
  · exact ⟨_, rfl⟩

/-- What the file does not settle: pads have places, and copper fills have points, that fit. -/
structure PlacesFit (d : Design) : Prop where
  pads : ∀ f ∈ d.footprints, ∀ pad ∈ f.pads, (pad.place f).toPoint.Fits
  fills : ∀ z ∈ d.zones, ∀ f ∈ z.fills, (Layer.ofName? f.layer).isSome = true →
    ∀ p ∈ f.points, p.toPoint.Fits

theorem pads_fit_iff {d : Design} :
    (∀ pad ∈ d.toBoard.board.pads, pad.position.Fits) ↔
      ∀ f ∈ d.footprints, ∀ pad ∈ f.pads, (pad.place f).toPoint.Fits := by
  rw [toBoard_pads, pads]
  constructor
  · intro fit f inside pad mem
    exact fit _ (List.mem_flatMap.mpr ⟨f, inside, List.mem_map.mpr ⟨pad, mem, rfl⟩⟩)
  · intro fit placed there
    obtain ⟨f, inside, listed⟩ := List.mem_flatMap.mp there
    obtain ⟨pad, mem, rfl⟩ := List.mem_map.mp listed
    exact fit f inside pad mem

theorem zones_fit_iff {d : Design} :
    (∀ z ∈ d.toBoard.board.zones, ∀ fill ∈ z.fills, ∀ p ∈ fill.outline, p.Fits) ↔
      ∀ z ∈ d.zones, ∀ f ∈ z.fills, (Layer.ofName? f.layer).isSome = true →
        ∀ p ∈ f.points, p.toPoint.Fits := by
  rw [toBoard_zones]
  constructor
  · intro fit z inside f mem copper p listed
    obtain ⟨layer, named⟩ := Option.isSome_iff_exists.mp copper
    have fill : f.toFill? = some ⟨layer, f.points.map Position.toPoint⟩ := by
      rw [FillEntry.toFill?, named]
      rfl
    obtain ⟨zone, made⟩ := toZone?_of_fill mem fill
    exact fit zone (List.mem_filterMap.mpr ⟨z, inside, made⟩) _
      ((mem_fills_toZone? made).mpr ⟨f, mem, fill⟩) _ (List.mem_map.mpr ⟨p, listed, rfl⟩)
  · intro fit zone mem fill listed q there
    obtain ⟨z, inside, made⟩ := List.mem_filterMap.mp mem
    obtain ⟨f, mem, copper⟩ := (mem_fills_toZone? made).mp listed
    obtain ⟨layer, named, rfl⟩ := Option.map_eq_some_iff.mp copper
    obtain ⟨p, listed, rfl⟩ := List.mem_map.mp there
    exact fit z inside f mem (by rw [named]; rfl) p listed

end Design

namespace Document

open Design (Item)

variable {d : Document} {items : List SExpr} {found : List Item}

theorem Loads.tracks_fit (h : d.Loads items found) (id : Nat) (t : Track)
    (live : d.toBoard.board.track? id = some t) : t.Fits := by
  obtain ⟨nets, n, e, item, source⟩ := h.source live
  exact source.fits

theorem Loads.footprints_inRange (h : d.Loads items found) :
    ∀ f ∈ d.design.footprints,
      f.position.inRange = true ∧ ∀ pad ∈ f.pads, pad.position.inRange = true := by
  intro f mem
  rw [h.gathers.footprints, List.mem_filterMap] at mem
  obtain ⟨item, inside, picked⟩ := mem
  obtain ⟨i, e, _, read⟩ := Loads.mem_found h.read inside
  cases item with
  | footprint g =>
    cases picked
    exact Design.inRange_of_footprint
      (Design.footprint_of_item? (Design.itemIfAny?_eq_some_some.mp read))
  | segment | arc | via | zone => cases picked

/-- The tracks of a file that can be read fit on a board, and its footprints and the offsets of their
pads are in range. So all coordinates fit just if the places of pads and the points of fills do, and
they do if those are in range as well. -/
theorem read_fits_iff {filename text : String} {d : Document}
    (read : Document.read filename text = .ok d) :
    let b := d.toBoard.board
    (∀ id t, b.track? id = some t → t.Fits) ∧
      (∀ f ∈ d.design.footprints,
        f.position.inRange = true ∧ ∀ pad ∈ f.pads, pad.position.inRange = true) ∧
      (b.Fits ↔ d.design.PlacesFit) ∧
      ((∀ f ∈ d.design.footprints, ∀ pad ∈ f.pads, (pad.place f).inRange = true) →
        (∀ z ∈ d.design.zones, ∀ f ∈ z.fills, ∀ p ∈ f.points, p.inRange = true) → b.Fits) := by
  intro b
  obtain ⟨items, found, loads⟩ := loads_of_read read
  have tracks : ∀ id t, b.track? id = some t → t.Fits := loads.tracks_fit
  have fits_iff : b.Fits ↔ d.design.PlacesFit :=
    ⟨fun fits => ⟨Design.pads_fit_iff.mp fits.pads, Design.zones_fit_iff.mp fits.zones⟩,
      fun places => ⟨tracks, Design.pads_fit_iff.mpr places.pads,
        Design.zones_fit_iff.mpr places.fills⟩⟩
  refine ⟨tracks, loads.footprints_inRange, fits_iff, fun pads fills => fits_iff.mpr ⟨?_, ?_⟩⟩
  · exact fun f inside pad mem => Design.Position.fits (pads f inside pad mem)
  · exact fun z inside f mem _ p listed => Design.Position.fits (fills z inside f mem p listed)

/-- A footprint at two metres with a pad another 200 mm on, and a fill with a point three metres
out. -/
def farText : String :=
  "(kicad_pcb (footprint \"R\" (at 2000 0) (pad \"1\" smd rect (at 200 0) (layers \"F.Cu\")))
    (zone (layer \"F.Cu\") (filled_polygon (pts (xy 3000 0)))))"

theorem exists_far : ∃ d, Document.read "far.kicad_pcb" farText = .ok d ∧
    d.toBoard.board.pads.map (·.position) = [⟨2200000000, 0⟩] ∧
    d.toBoard.board.zones.map (·.fills.map (·.outline)) = [[[⟨3000000000, 0⟩]]] := by
  have seen : (Document.read "far.kicad_pcb" farText).toOption.map (fun d =>
      (d.toBoard.board.pads.map (·.position),
        d.toBoard.board.zones.map (·.fills.map (·.outline)))) =
      some ([⟨2200000000, 0⟩], [[[⟨3000000000, 0⟩]]]) := by decide +kernel
  cases read : Document.read "far.kicad_pcb" farText with
  | error cause =>
    rw [read] at seen
    cases seen
  | ok d =>
    rw [read] at seen
    obtain ⟨pads, zones⟩ := Prod.mk.inj (Option.some.inj seen)
    exact ⟨d, rfl, pads, zones⟩

theorem read_fits_iff_far :
    ∃ d, Document.read "far.kicad_pcb" farText = .ok d ∧
      (∀ id t, d.toBoard.board.track? id = some t → t.Fits) ∧
      (d.toBoard.board.Fits ↔ d.design.PlacesFit) := by
  obtain ⟨d, read, _⟩ := exists_far
  obtain ⟨tracks, _, fits_iff, _⟩ := read_fits_iff read
  exact ⟨d, read, tracks, fits_iff⟩

theorem not_fits_far :
    ¬ ∀ (filename text : String) (d : Document),
      Document.read filename text = .ok d → d.toBoard.board.Fits := by
  intro all
  obtain ⟨d, read, pads, _⟩ := exists_far
  have far : (⟨2200000000, 0⟩ : Point) ∈ d.toBoard.board.pads.map (·.position) := by
    rw [pads]
    exact List.mem_singleton_self _
  obtain ⟨pad, mem, place⟩ := List.mem_map.mp far
  have bound : pad.position.x.toInt.natAbs ≤ maxNm := ((all _ _ d read).pads pad mem).1
  rw [place] at bound
  exact absurd bound (by decide)

end Document
end CopperTidy
