import CopperTidy.Proofs.Document.Loaded
import CopperTidy.Proofs.Drops
import Mathlib.Data.Sym.Sym2

/-! # Which copies go

The scan for copies of a track ends at the first track of another net. On a board whose tracks stand
in the order of their nets no copy is beyond it, so each later copy of a live track goes. A copy of a
copy is a copy: a track that is gone when its turn comes has no copies that the track it went for did
not have. So what goes can be told from the board as it was when the pass began, although the board
shrinks under the scan.
-/

namespace CopperTidy
set_option autoImplicit false

namespace Track

/-- What a copy has in common with its original. The ends may be the other way round. -/
structure Alike (t u : Track) : Prop where
  net : t.net = u.net
  layer : t.layer = u.layer
  via : t.isVia = u.isVia
  ends : s(t.start, t.stop) = s(u.start, u.stop)

theorem Alike.trans {t u v : Track} (h : t.Alike u) (k : u.Alike v) : t.Alike v :=
  ⟨h.net.trans k.net, h.layer.trans k.layer, h.via.trans k.via, h.ends.trans k.ends⟩

theorem sameEnds_iff {t u : Track} :
    t.sameEnds u = true ↔ s(t.start, t.stop) = s(u.start, u.stop) := by
  simp only [sameEnds, Bool.or_eq_true, Bool.and_eq_true, beq_iff_eq, Sym2.eq_iff]

theorem copies_iff {t u : Track} : t.net = u.net ∧ t.duplicates u = true ↔
    t.isArc = false ∧ u.isArc = false ∧ t.Alike u := by
  simp only [duplicates, Bool.and_eq_true, Bool.not_eq_true', beq_iff_eq, sameEnds_iff]
  constructor
  · rintro ⟨net, ⟨⟨⟨arc, arc'⟩, via⟩, layer⟩, ends⟩
    exact ⟨arc, arc', net, layer, via, ends⟩
  · rintro ⟨arc, arc', alike⟩
    exact ⟨alike.net, ⟨⟨⟨arc, arc'⟩, alike.via⟩, alike.layer⟩, alike.ends⟩

end Track

namespace Board

variable {b : Board} {id n : Nat} {t : Track}

/-- A trace or via that the track is like stands earlier in the sequence. -/
def HasOriginal (b : Board) (id : Nat) (t : Track) : Prop :=
  ∃ first u, first < id ∧ b.track? first = some u ∧ u.isArc = false ∧ u.Alike t

/-- The first track of all that are like one with an original. -/
theorem HasOriginal.exists_first (h : b.HasOriginal id t) : ∃ first u, first < id ∧
    b.track? first = some u ∧ u.isArc = false ∧ u.Alike t ∧
      ∀ n v, b.track? n = some v → v.isArc = false → v.Alike t → first ≤ n := by
  classical
  obtain ⟨n, v, lt, there, straight, alike⟩ := h
  have some_like : ∃ n v, b.track? n = some v ∧ v.isArc = false ∧ v.Alike t :=
    ⟨n, v, there, straight, alike⟩
  obtain ⟨u, there', straight', alike'⟩ := Nat.find_spec some_like
  refine ⟨Nat.find some_like, u, ?_, there', straight', alike', fun m w here arc like => ?_⟩
  · exact Nat.lt_of_le_of_lt (Nat.find_min' some_like ⟨v, there, straight, alike⟩) lt
  · exact Nat.find_min' some_like ⟨w, here, arc, like⟩

/-! ## The rest of a net -/

theorem netSorted_iff : b.NetSorted ↔ ∀ m n t u, b.track? m = some t → b.track? n = some u →
    m < n → t.net ≤ u.net := by
  constructor
  · intro sorted m n t u first second lt
    obtain ⟨before, after, split⟩ := List.append_of_mem (mem_tracks.mpr second)
    rw [NetSorted, split, List.pairwise_append] at sorted
    exact sorted.2.2 _ ((mem_before split).mpr ⟨lt, first⟩) _ List.mem_cons_self
  · intro nets
    have ascending : b.tracks.Pairwise fun x y => x.1 < y.1 := List.pairwise_map.mp b.ids_ascending
    refine ascending.imp_of_mem fun {x y} mem mem' lt => ?_
    exact nets x.1 y.1 x.2 y.2 (mem_tracks.mp mem) (mem_tracks.mp mem') lt

theorem takeWhile_eq_filter {α : Type} {p : α → Bool} {l : List α}
    (first : l.Pairwise fun x y => p y = true → p x = true) : l.takeWhile p = l.filter p := by
  induction l with
  | nil => rfl
  | cons x rest ih =>
    obtain ⟨before, rest'⟩ := List.pairwise_cons.mp first
    cases h : p x with
    | true => rw [List.takeWhile_cons_of_pos h, List.filter_cons_of_pos h, ih rest']
    | false =>
      have none : ∀ y ∈ x :: rest, ¬ p y = true := by
        intro y mem holds
        rcases List.mem_cons.mp mem with rfl | mem
        · exact Bool.false_ne_true (h.symm.trans holds)
        · exact Bool.false_ne_true (h.symm.trans (before y mem holds))
      rw [List.takeWhile_cons_of_neg (by simp [h]), List.filter_eq_nil_iff.mpr none]

/-- Nothing of a net is beyond the first later track of another net. -/
theorem NetSorted.takeWhile_eq (sorted : b.NetSorted) (there : b.track? id = some t) :
    (b.tracksAfter id).takeWhile (fun entry => entry.2.net == t.net) =
      (b.tracksAfter id).filter fun entry => entry.2.net == t.net := by
  have nets := netSorted_iff.mp sorted
  have ascending : (b.tracksAfter id).Pairwise fun x y => x.1 < y.1 :=
    List.pairwise_map.mp (numbered_ascending _ _)
  refine takeWhile_eq_filter (ascending.imp_of_mem fun {x y} mem mem' lt same => ?_)
  obtain ⟨later, live⟩ := mem_tracksAfter.mp mem
  obtain ⟨_, live'⟩ := mem_tracksAfter.mp mem'
  have above := nets id x.1 t x.2 there live later
  have below := nets x.1 y.1 x.2 y.2 live live' lt
  rw [beq_iff_eq] at same ⊢
  exact UInt32.le_antisymm (same ▸ below) above

/-- Live tracks that are later copies of a track. -/
def copies (b : Board) (id : Nat) (t : Track) : List (Nat × Track) :=
  (b.tracksAfter id).filter fun entry => entry.2.net == t.net && t.duplicates entry.2

theorem mem_copies {u : Track} : (n, u) ∈ b.copies id t ↔
    id < n ∧ b.track? n = some u ∧ t.net = u.net ∧ t.duplicates u = true := by
  simp only [copies, List.mem_filter, mem_tracksAfter, Bool.and_eq_true, beq_iff_eq, and_assoc,
    eq_comm (a := u.net)]

theorem NetSorted.copiesOf_eq (sorted : b.NetSorted) (there : b.track? id = some t) :
    Run.copiesOf b id t = (b.copies id t).map (·.1) := by
  rw [Run.copiesOf, sorted.takeWhile_eq there, List.filter_filter, copies]
  simp only [Bool.and_comm]

end Board

namespace Run

variable {σ : Type} {r q : Run Contacts σ} {id : Nat} {t : Track}
  {before after : List (Nat × Track)}

/-! ## The scan -/

/-- A copy of one of the tracks that had their turn. -/
def CopyOf (before : List (Nat × Track)) (id : Nat) (t : Track) : Prop :=
  ∃ n u, (n, u) ∈ before ∧ n < id ∧ u.net = t.net ∧ u.duplicates t = true

/-- When the tracks of `before` have had their turn, their copies are gone. -/
def RidOf (r : Run Contacts σ) (before : List (Nat × Track)) (q : Run Contacts σ) : Prop :=
  ∃ cs, r.Drops cs q ∧ (cs.map Change.id).Nodup ∧
    ∀ change, change ∈ cs ↔ ∃ id t, r.board.track? id = some t ∧ CopyOf before id t ∧
      change = .removed id t .duplicateTrack

theorem copyOf_concat {n : Nat} {u : Track} : CopyOf (before ++ [(n, u)]) id t ↔
    CopyOf before id t ∨ n < id ∧ u.net = t.net ∧ u.duplicates t = true := by
  simp only [CopyOf, List.mem_append, List.mem_singleton, Prod.mk.injEq]
  constructor
  · rintro ⟨m, v, mem | ⟨rfl, rfl⟩, copy⟩
    · exact .inl ⟨m, v, mem, copy⟩
    · exact .inr copy
  · rintro (⟨m, v, mem, copy⟩ | copy)
    · exact ⟨m, v, .inl mem, copy⟩
    · exact ⟨n, u, .inr ⟨rfl, rfl⟩, copy⟩

/-- A copy of a copy is a copy. -/
theorem CopyOf.further (h : CopyOf before id t) {n : Nat} {u : Track} (later : id < n)
    (copy : t.net = u.net ∧ t.duplicates u = true) : CopyOf before n u := by
  obtain ⟨m, v, mem, lt, copy'⟩ := h
  obtain ⟨arc, _, alike⟩ := Track.copies_iff.mp copy'
  obtain ⟨_, arc', alike'⟩ := Track.copies_iff.mp copy
  exact ⟨m, v, mem, Nat.lt_trans lt later,
    Track.copies_iff.mpr ⟨arc, arc', alike.trans alike'⟩⟩

namespace RidOf

theorem track?_iff (rid : r.RidOf before q) (n : Nat) (u : Track) :
    q.board.track? n = some u ↔ r.board.track? n = some u ∧ ¬ CopyOf before n u := by
  obtain ⟨cs, drops, _, logged⟩ := rid
  exact drops.track?_iff (mem_ids_of_logged logged) n u

theorem netSorted (rid : r.RidOf before q) (sorted : r.board.NetSorted) : q.board.NetSorted :=
  Board.netSorted_iff.mpr fun m n u v first second =>
    Board.netSorted_iff.mp sorted m n u v ((rid.track?_iff m u).mp first).1
      ((rid.track?_iff n v).mp second).1

/-- A track that is gone when its turn comes: what it went for has taken its copies along. -/
theorem gone (rid : r.RidOf before q) (copy : CopyOf before id t) :
    r.RidOf (before ++ [(id, t)]) q := by
  obtain ⟨cs, drops, once, logged⟩ := rid
  refine ⟨cs, drops, once, fun change => (logged change).trans ?_⟩
  refine exists_congr fun n => exists_congr fun u => and_congr_right fun live =>
    and_congr_left fun _ => ?_
  rw [copyOf_concat]
  exact ⟨.inl, fun h => h.elim (fun h => h) fun ⟨later, same⟩ => copy.further later same⟩

/-- A live track takes along the copies that are left. -/
theorem taken {s : Run Contacts σ} (rid : r.RidOf before q)
    (more : q.Drops ((q.board.copies id t).map fun entry =>
      .removed entry.1 entry.2 .duplicateTrack) s) : r.RidOf (before ++ [(id, t)]) s := by
  have live_iff := rid.track?_iff
  obtain ⟨cs, drops, once, logged⟩ := rid
  refine ⟨_, drops.trans more, ?_, fun change => ?_⟩
  · rw [List.map_append, List.map_map, List.nodup_append]
    refine ⟨once, (q.board.later_filter_ascending id _).imp Nat.ne_of_lt, fun n out m mem e => ?_⟩
    obtain ⟨⟨m, u⟩, copy, rfl⟩ := List.mem_map.mp mem
    obtain ⟨live, kept⟩ := (live_iff _ u).mp (Board.mem_copies.mp copy).2.1
    obtain ⟨v, live', copyOf⟩ := (mem_ids_of_logged logged n).mp out
    subst e
    cases live.symm.trans live'
    exact kept copyOf
  · rw [List.mem_append, logged]
    constructor
    · rintro (⟨n, u, live, copy, rfl⟩ | mem)
      · exact ⟨n, u, live, copyOf_concat.mpr (.inl copy), rfl⟩
      · obtain ⟨⟨n, u⟩, copy, rfl⟩ := List.mem_map.mp mem
        obtain ⟨later, live, same⟩ := Board.mem_copies.mp copy
        exact ⟨n, u, ((live_iff n u).mp live).1, copyOf_concat.mpr (.inr ⟨later, same⟩), rfl⟩
    · rintro ⟨n, u, live, copy, rfl⟩
      by_cases already : CopyOf before n u
      · exact .inl ⟨n, u, live, already, rfl⟩
      · obtain ⟨later, same⟩ := (copyOf_concat.mp copy).resolve_left already
        have left : q.board.track? n = some u := (live_iff n u).mpr ⟨live, already⟩
        exact .inr (List.mem_map.mpr ⟨(n, u), Board.mem_copies.mpr ⟨later, left, same⟩, rfl⟩)

theorem removeCopies (rid : r.RidOf before q) (sorted : r.board.NetSorted)
    (split : r.board.tracks = before ++ (id, t) :: after) :
    r.RidOf (before ++ [(id, t)]) (q.removeCopies id).1 := by
  have there : r.board.track? id = some t := Board.mem_tracks.mp (by rw [split]; simp)
  unfold Run.removeCopies
  cases here : q.board.track? id with
  | none =>
    refine rid.gone (Classical.not_not.mp fun kept => ?_)
    cases here.symm.trans ((rid.track?_iff id t).mpr ⟨there, kept⟩)
  | some t' =>
    cases there.symm.trans ((rid.track?_iff id t').mp here).1
    have live (entry : Nat × Track) (mem : entry ∈ q.board.copies id t) :
        q.board.track? entry.1 = some entry.2 := (Board.mem_copies.mp mem).2.1
    have more := drops_foldl (fun _ _ _ there => drops_absorbTrack there .duplicateTrack id) live
      ((q.board.later_filter_ascending id _).imp Nat.ne_of_lt)
    rw [← (rid.netSorted sorted).copiesOf_eq here] at more
    exact rid.taken more

end RidOf

theorem ridOf_scan (r : Run Contacts σ) (sorted : r.board.NetSorted) :
    r.RidOf r.board.tracks (forEach removeCopies r r.board.ids).1 := by
  refine forEach_scan (P := r.RidOf) (fun before id t after q split rid => ?_) ?_
  · exact rid.removeCopies sorted split
  · refine ⟨[], .refl r, List.nodup_nil, fun change => ⟨fun mem => absurd mem List.not_mem_nil, ?_⟩⟩
    rintro ⟨_, _, _, ⟨_, _, mem, _⟩, _⟩
    exact absurd mem List.not_mem_nil

theorem copyOf_tracks {b : Board} :
    CopyOf b.tracks id t ↔ t.isArc = false ∧ b.HasOriginal id t := by
  constructor
  · rintro ⟨n, u, mem, lt, copy⟩
    obtain ⟨arc, arc', alike⟩ := Track.copies_iff.mp copy
    exact ⟨arc', n, u, lt, Board.mem_tracks.mp mem, arc, alike⟩
  · rintro ⟨arc', n, u, lt, live, arc, alike⟩
    exact ⟨n, u, Board.mem_tracks.mpr live, lt, Track.copies_iff.mpr ⟨arc, arc', alike⟩⟩

/-- On a board in the order of nets, as every loaded board is, the scan for copies takes away each
trace and via that has an earlier trace or via of its net on its layer with the same ends, in either
order, a via only for a via. It takes nothing else, and no arc. What it takes is logged once, and the
first of those that were like it is on the board in the end. -/
theorem removeCopies_exact (r : Run Contacts σ) (sorted : r.board.NetSorted) :
    let b := r.board
    let s := (forEach removeCopies r b.ids).1
    (∀ id t, s.board.track? id = some t ↔
      b.track? id = some t ∧ (t.isArc = true ∨ ¬ b.HasOriginal id t)) ∧
    s.board.pads = b.pads ∧ s.board.zones = b.zones ∧
    (∃ cs, s.log = r.log ++ cs ∧ (cs.map Change.id).Nodup ∧
      (∀ change, change ∈ cs ↔ ∃ id t, b.track? id = some t ∧ t.isArc = false ∧
        b.HasOriginal id t ∧ change = .removed id t .duplicateTrack) ∧
      ∀ id t reason, .removed id t reason ∈ cs → ∃ first u, first < id ∧ u.isArc = false ∧
        u.Alike t ∧ s.board.track? first = some u ∧
        ∀ n v, b.track? n = some v → v.isArc = false → v.Alike t → first ≤ n) ∧
    ∀ d : Design, d.toBoard.board.NetSorted := by
  intro b s
  obtain ⟨cs, drops, once, logged⟩ := r.ridOf_scan sorted
  simp only [copyOf_tracks] at logged
  have stays (id : Nat) (t : Track) : s.board.track? id = some t ↔
      b.track? id = some t ∧ (t.isArc = true ∨ ¬ b.HasOriginal id t) := by
    rw [drops.track?_iff (mem_ids_of_logged logged), not_and_or, Bool.not_eq_false]
  refine ⟨stays, drops.pads, drops.zones, ⟨cs, drops.log, once, ?_, ?_⟩, Design.netSorted_toBoard⟩
  · simpa only [and_assoc] using logged
  · intro id t reason mem
    obtain ⟨id', t', live, ⟨_, original⟩, same⟩ := (logged _).mp mem
    cases same
    obtain ⟨first, u, lt, there, arc, alike, least⟩ := original.exists_first
    refine ⟨first, u, lt, arc, alike, (stays first u).mpr ⟨there, .inr ?_⟩, least⟩
    rintro ⟨n, v, below, there', arc', alike'⟩
    exact Nat.not_lt.mpr (least n v there' arc' (alike'.trans alike)) below

/-- Traces with the same ends, one of them the other way round and one on the back layer, an arc with
these ends, two vias at one place, and a trace of another net. -/
def doubled : Board :=
  let wire (uuid : String) (start stop : Point) (layer : Layer) (net : UInt32) (shape : Shape) :=
    some ⟨uuid, start, stop, 200, layer, net, shape⟩
  { slots := [wire "a" ⟨0, 0⟩ ⟨10, 0⟩ .front 1 .trace, wire "b" ⟨10, 0⟩ ⟨0, 0⟩ .front 1 .trace,
      wire "c" ⟨0, 0⟩ ⟨10, 0⟩ .front 1 (.arc ⟨5, 5⟩),
      some (.ofVia "d" ⟨0, 0⟩ 600 1 (.through 300)),
      some (.ofVia "e" ⟨0, 0⟩ 300 1 ⟨.micro, .front, .back, 100⟩),
      wire "f" ⟨0, 0⟩ ⟨10, 0⟩ .back 1 .trace, wire "g" ⟨0, 0⟩ ⟨10, 0⟩ .front 1 .trace,
      wire "h" ⟨0, 0⟩ ⟨10, 0⟩ .front 2 .trace] }

theorem removeCopies_exact_doubled :
    let r : Run Contacts Unit := start doubled .silent ()
    let s := (forEach removeCopies r r.board.ids).1
    doubled.NetSorted ∧ s.board.ids = [0, 2, 3, 5, 7] ∧
      ∀ id t, doubled.track? id = some t → id ∈ [1, 4, 6] →
        .removed id t .duplicateTrack ∈ s.log ∧
        ∃ first u, first < id ∧ u.Alike t ∧ s.board.track? first = some u := by
  intro r s
  have sorted : doubled.NetSorted := by
    unfold Board.NetSorted
    decide
  obtain ⟨_, _, _, ⟨cs, log, _, logged, first⟩, _⟩ := removeCopies_exact r sorted
  rw [show s.log = cs from log]
  refine ⟨sorted, by decide +kernel, fun id t there copy => ?_⟩
  have mem : .removed id t .duplicateTrack ∈ cs := by
    refine (logged _).mpr ⟨id, t, there, ?_⟩
    simp only [List.mem_cons, List.not_mem_nil, or_false] at copy
    rcases copy with rfl | rfl | rfl <;> cases there
    · exact ⟨rfl, ⟨0, _, by decide, rfl, rfl, rfl, rfl, rfl, Sym2.eq_swap⟩, rfl⟩
    · exact ⟨rfl, ⟨3, _, by decide, rfl, rfl, rfl, rfl, rfl, rfl⟩, rfl⟩
    · exact ⟨rfl, ⟨0, _, by decide, rfl, rfl, rfl, rfl, rfl, rfl⟩, rfl⟩
  obtain ⟨n, u, lt, _, alike, live, _⟩ := first id t _ mem
  exact ⟨mem, n, u, lt, alike, live⟩

/-- An arc has no copies: a trace stays on the board after an arc that is like it. -/
theorem removeCopies_beside_arc :
    ¬ ∀ r : Run Contacts Unit, r.board.NetSorted → ∀ id t, r.board.track? id = some t →
      t.isArc = false → ((forEach removeCopies r r.board.ids).1.board.track? id = some t ↔
        ¬ ∃ first u, first < id ∧ r.board.track? first = some u ∧ u.Alike t) := by
  intro claim
  let wire (uuid : String) (shape : Shape) : Option Track :=
    some ⟨uuid, ⟨0, 0⟩, ⟨10, 0⟩, 200, .front, 1, shape⟩
  let b : Board := { slots := [wire "a" (.arc ⟨5, 5⟩), wire "b" .trace] }
  have sorted : b.NetSorted := by
    unfold Board.NetSorted
    decide
  have stays := claim (start b .silent ()) sorted 1 _ rfl rfl
  exact stays.mp (by decide +kernel) ⟨0, _, by decide, rfl, rfl, rfl, rfl, rfl⟩

end Run
end CopperTidy
