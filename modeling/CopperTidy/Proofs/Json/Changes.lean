import CopperTidy.Board.Change.Json
import CopperTidy.Board.Replay
import CopperTidy.Proofs.Json.RoundTrip

/-! # Changes read back from their text

A record is decoded from the object that was written of it, field by field, and a variant from its
name; numbers come back as long as they fit the field. So a list of changes is read back from its
text, whatever the uuids and coordinates are. Ids of tracks are kept in 64 bits.
-/

namespace CopperTidy
set_option autoImplicit false

namespace Json

/-! ## Records -/

theorem mapM_eq_map {α β : Type} {f : α → Option β} {g : α → β} {l : List α}
    (each : ∀ x ∈ l, f x = some (g x)) : l.mapM f = some (l.map g) := by
  induction l with
  | nil => rfl
  | cons x rest ih =>
    have others := ih fun y mem => each y (List.mem_cons_of_mem x mem)
    rw [List.mapM_cons, each x List.mem_cons_self, others]
    rfl

theorem keyed?_object (fields : List (String × Json)) :
    keyed? (fields.map fun m => (some m.1, m.2)) = some fields := by
  rw [keyed?, List.mapM_map]
  exact (mapM_eq_map (g := id) fun _ _ => rfl).trans (congrArg some (List.map_id fields))

/-- A field that is there once. -/
theorem valuesOf_eq {fields : List (String × Json)} (once : (fields.map (·.1)).Nodup)
    {m : String × Json} (mem : m ∈ fields) : valuesOf m.1 fields = [m.2] := by
  unfold valuesOf
  induction fields with
  | nil => cases mem
  | cons n rest ih =>
    obtain ⟨fresh, once⟩ := List.nodup_cons.mp once
    have different {l : String × Json} (later : l ∈ rest) : l.1 ≠ n.1 := fun same =>
      fresh (List.mem_map.mpr ⟨l, later, same⟩)
    rcases List.mem_cons.mp mem with rfl | later
    · have others : rest.filter (fun l => l.1 == m.1) = [] :=
        List.filter_eq_nil_iff.mpr fun l later same => different later (beq_iff_eq.mp same)
      rw [List.filter_cons, if_pos (beq_self_eq_true m.1), others]
      rfl
    · have other : ¬ (n.1 == m.1) = true := fun same =>
        different later (beq_iff_eq.mp same).symm
      rw [List.filter_cons, if_neg other]
      exact ih once later

/-- A record is read from the object with just its fields. -/
theorem record?_object (fields : List (String × Json)) {names : List String}
    (named : fields.map (·.1) = names) (once : names.Nodup) :
    (object fields).record? names = some (fields.map (·.2)) := by
  subst named
  -- Each name is looked up among all members, so it must be there just once.
  have values : fieldsOf? (fields.map (·.1)) fields = some (fields.map fun m => some m.2) := by
    rw [fieldsOf?, List.mapM_map]
    refine mapM_eq_map fun m mem => ?_
    simp only [Function.comp_apply, valuesOf_eq once mem]
  rw [record?, object, looseRecord?, keyed?_object, Option.bind_some, values, Option.bind_some,
    List.mapM_map]
  exact mapM_eq_map fun _ _ => rfl

@[simp] theorem isPlain_object (fields : List (String × Json)) :
    isPlain (object fields) = fields.all fun m => isPlain m.2 := by
  rw [object, isPlain]
  induction fields with
  | nil => rfl
  | cons m rest ih =>
    rw [List.map_cons, haveTexts, ih, List.all_cons, Option.isSome_some, Bool.true_and]

@[simp] theorem isPlain_list {α : Type} (encode : α → Json) (items : List α) :
    isPlain (list encode items) = items.all fun x => isPlain (encode x) := by
  rw [list, isPlain]
  induction items with
  | nil => rfl
  | cons x rest ih => rw [List.map_cons, arePlain, ih, List.all_cons]

@[simp] theorem isPlain_text (s : String) : isPlain (text s) = true := rfl

@[simp] theorem isPlain_int (n : Int) : isPlain (.int n) = true := rfl

@[simp] theorem isPlain_nat (n : Nat) : isPlain (nat n) = true := rfl

/-! ## Lists -/

theorem asList?_list {α : Type} {encode : α → Json} {decode : Json → Option α} {items : List α}
    (each : ∀ x ∈ items, decode (encode x) = some x) :
    asList? decode (list encode items) = some items := by
  rw [list, asList?, List.mapM_map]
  exact (mapM_eq_map (g := id) each).trans (congrArg some (List.map_id items))

/-! ## Numbers -/

theorem asInt?_int {low high n : Int} (above : low ≤ n) (below : n ≤ high) :
    (int n).asInt? low high = some n := by
  have within : (low ≤ n && n ≤ high) = true := by
    rw [Bool.and_eq_true, decide_eq_true_eq, decide_eq_true_eq]
    exact ⟨above, below⟩
  rw [asInt?, if_pos within]

theorem asInt64?_int (n : Int64) : (int n.toInt).asInt64? = some n := by
  have least : Int64.minValue.toInt = -2 ^ 63 := by decide
  have greatest : Int64.maxValue.toInt = 2 ^ 63 - 1 := by decide
  have above : Int64.minValue.toInt ≤ n.toInt := least ▸ n.le_toInt
  have below : n.toInt ≤ Int64.maxValue.toInt := greatest ▸ Int.le_sub_one_of_lt n.toInt_lt
  rw [asInt64?, asInt?_int above below, Option.map_some, Int64.ofInt_toInt]

theorem asNat?_nat {limit n : Nat} (small : n < limit) : (nat n).asNat? limit = some n := by
  have below : (n : Int) ≤ limit - 1 := by omega
  rw [asNat?, nat, asInt?_int (Int.natCast_nonneg n) below]
  rfl

theorem asUInt32?_nat (n : UInt32) : (nat n.toNat).asUInt32? = some n := by
  rw [asUInt32?, asNat?_nat n.toNat_lt, Option.map_some, UInt32.ofNat_toNat]

theorem asUInt8?_nat (n : UInt8) : (nat n.toNat).asUInt8? = some n := by
  rw [asUInt8?, asNat?_nat n.toNat_lt, Option.map_some, UInt8.ofNat_toNat]

end Json

/-! ## Tracks -/

theorem Point.ofJson?_json (p : Point) : Point.ofJson? p.json = some p := by
  have fields : p.json.record? ["x", "y"] = some [.int p.x.toInt, .int p.y.toInt] :=
    Json.record?_object [("x", .int p.x.toInt), ("y", .int p.y.toInt)] rfl (by decide)
  simp only [Point.ofJson?, fields, Json.asInt64?_int, Option.bind_eq_bind, Option.bind_some]

theorem Layer.ofJson?_json (l : Layer) : Layer.ofJson? l.json = some l := by
  rw [Layer.ofJson?, Layer.json, Json.asUInt8?_nat]
  rfl

theorem ViaType.ofJson?_name (t : ViaType) : ViaType.ofJson? (.text t.name) = some t := by
  cases t <;> rfl

theorem ViaSpan.ofJson?_json (s : ViaSpan) : ViaSpan.ofJson? s.json = some s := by
  have fields : s.json.record? ["via_type", "top", "bottom", "drill"] =
      some [.text s.viaType.name, s.top.json, s.bottom.json, .int s.drill.toInt] :=
    Json.record?_object [("via_type", .text s.viaType.name), ("top", s.top.json),
      ("bottom", s.bottom.json), ("drill", .int s.drill.toInt)] rfl (by decide)
  simp only [ViaSpan.ofJson?, fields, ViaType.ofJson?_name, Layer.ofJson?_json,
    Json.asInt64?_int, Option.bind_eq_bind, Option.bind_some]

theorem Shape.ofJson?_json (s : Shape) : Shape.ofJson? s.json = some s := by
  cases s with
  | trace => rfl
  | arc mid =>
    have content : (Json.object [("mid", mid.json)]).record? ["mid"] = some [mid.json] :=
      Json.record?_object [("mid", mid.json)] rfl (by decide)
    have variant : (Shape.arc mid).json.variant? =
        some ("Arc", some (.object [("mid", mid.json)])) := rfl
    simp only [Shape.ofJson?, variant, content, Point.ofJson?_json, Option.bind_eq_bind,
      Option.bind_some]
  | via span =>
    have variant : (Shape.via span).json.variant? = some ("Via", some span.json) := rfl
    simp only [Shape.ofJson?, variant, ViaSpan.ofJson?_json, Option.bind_eq_bind,
      Option.bind_some]

theorem Track.ofJson?_json (t : Track) : Track.ofJson? t.json = some t := by
  have fields : t.json.record? ["uuid", "start", "end", "width", "layer", "net", "kind"] =
      some [.text t.uuid, t.start.json, t.stop.json, .int t.width.toInt, t.layer.json,
        .nat t.net.toNat, t.shape.json] :=
    Json.record?_object [("uuid", .text t.uuid), ("start", t.start.json), ("end", t.stop.json),
      ("width", .int t.width.toInt), ("layer", t.layer.json), ("net", .nat t.net.toNat),
      ("kind", t.shape.json)] rfl (by decide)
  have uuid : (Json.text t.uuid).asString? = some t.uuid := rfl
  simp only [Track.ofJson?, fields, uuid, Point.ofJson?_json, Layer.ofJson?_json,
    Shape.ofJson?_json, Json.asInt64?_int, Json.asUInt32?_nat, Option.bind_eq_bind,
    Option.bind_some]

theorem Point.isPlain_json (p : Point) : p.json.isPlain = true := by simp [Point.json]

theorem Shape.isPlain_json (s : Shape) : s.json.isPlain = true := by
  cases s <;> simp [Shape.json, ViaSpan.json, Layer.json, Point.isPlain_json]

theorem Track.isPlain_json (t : Track) : t.json.isPlain = true := by
  simp [Track.json, Layer.json, Point.isPlain_json, Shape.isPlain_json]

/-! ## Changes -/

theorem Reason.ofJson?_name (r : Reason) : Reason.ofJson? (.text r.name) = some r := by
  cases r <;> rfl

namespace Change

theorem ofJson?_json {c : Change} (small : c.id < UInt64.size) :
    Change.ofJson? c.json = some c := by
  -- Only an id can be too large for its field; it is a natural number here.
  have number : trackId? (.nat c.id) = some c.id := Json.asNat?_nat small
  cases c with
  | removed id track reason =>
    let fields : List (String × Json) :=
      [("id", .nat id), ("track", track.json), ("reason", .text reason.name)]
    have content : (Json.object fields).record? ["id", "track", "reason"] =
        some [.nat id, track.json, .text reason.name] :=
      Json.record?_object fields rfl (by decide)
    have variant : (removed id track reason).json.variant? =
        some ("Removed", some (.object fields)) := rfl
    simp only [Change.id] at number
    simp only [Change.ofJson?, variant, content, number, Track.ofJson?_json,
      Reason.ofJson?_name, Option.bind_eq_bind, Option.bind_some]
  | modified id before after =>
    let fields : List (String × Json) :=
      [("id", .nat id), ("before", before.json), ("after", after.json)]
    have content : (Json.object fields).record? ["id", "before", "after"] =
        some [.nat id, before.json, after.json] :=
      Json.record?_object fields rfl (by decide)
    have variant : (modified id before after).json.variant? =
        some ("Modified", some (.object fields)) := rfl
    simp only [Change.id] at number
    simp only [Change.ofJson?, variant, content, number, Track.ofJson?_json,
      Option.bind_eq_bind, Option.bind_some]

theorem isPlain_json (c : Change) : c.json.isPlain = true := by
  cases c <;> simp [Change.json, Track.isPlain_json]

/-- A list of changes is read back from its text. -/
theorem readAll?_writeAll (changes : List Change) (small : ∀ c ∈ changes, c.id < UInt64.size) :
    readAll? (writeAll changes) = some changes := by
  have plain : (Json.list Change.json changes).isPlain = true := by
    rw [Json.isPlain_list, List.all_eq_true]
    exact fun c _ => isPlain_json c
  have items : Json.asList? Change.ofJson? (Json.list Change.json changes) = some changes :=
    Json.asList?_list fun c mem => ofJson?_json (small c mem)
  rw [readAll?, writeAll, Json.read?_write plain, Option.bind_some, items]

/-- Two changes with extreme numbers and a uuid that needs escapes. -/
theorem readAll?_writeAll_extremes :
    let mark : Point := ⟨Int64.minValue, Int64.maxValue⟩
    let arc : Track := ⟨"\"\\\n\x01é𝄞", mark, ⟨0, -1⟩, Int64.minValue, ⟨255⟩, 4294967295, .arc mark⟩
    let via : Track :=
      ⟨"", mark, mark, Int64.maxValue, ⟨0⟩, 0, .via ⟨.blindBuried, ⟨0⟩, ⟨31⟩, Int64.minValue⟩⟩
    let changes := [.removed 18446744073709551615 via .viaOnThroughPad, .modified 0 arc via]
    (∀ c ∈ changes, c.id < UInt64.size) ∧ readAll? (writeAll changes) = some changes := by
  intro mark arc via changes
  have small : ∀ c ∈ changes, c.id < UInt64.size := by
    intro c mem
    rcases List.mem_cons.mp mem with rfl | last
    · decide
    · rcases List.mem_singleton.mp last with rfl
      decide
  exact ⟨small, readAll?_writeAll changes small⟩

end Change
end CopperTidy
