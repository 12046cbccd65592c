import CopperTidy.Board.Contact

/-! # Tables of points

What is at each point of a board, gathered in one pass. A table has one entry for each point that
anything was put at. It is asked for single points, so the order of its entries does not matter, and
no claim on it is made.
-/

namespace CopperTidy
set_option autoImplicit false

/-- Numbers by points; those of a point in the order in which they came. -/
structure PointTable where
  entries : List (Point × List Nat)
  apart : (entries.map (·.1)).Nodup

namespace PointTable

variable {p q : Point} {entries : List (Point × List Nat)}

/-- One more number at a point. -/
def insert (p : Point) (n : Nat) : List (Point × List Nat) → List (Point × List Nat)
  | [] => [(p, [n])]
  | (q, found) :: rest => if q = p then (q, found ++ [n]) :: rest else (q, found) :: insert p n rest

theorem mem_points_insert {n : Nat} :
    q ∈ (insert p n entries).map (·.1) ↔ q = p ∨ q ∈ entries.map (·.1) := by
  induction entries with
  | nil => simp [insert]
  | cons entry rest ih =>
    rw [insert]
    split
    · next e => simp [e]
    · rw [List.map_cons, List.mem_cons, ih, List.map_cons, List.mem_cons]
      exact or_left_comm

theorem nodup_insert {n : Nat} (apart : (entries.map (·.1)).Nodup) :
    ((insert p n entries).map (·.1)).Nodup := by
  induction entries with
  | nil => simp [insert]
  | cons entry rest ih =>
    obtain ⟨fresh, apart'⟩ := List.nodup_cons.mp apart
    rw [insert]
    split
    · exact apart
    · next ne =>
      refine List.nodup_cons.mpr ⟨fun mem => ?_, ih apart'⟩
      exact (mem_points_insert.mp mem).elim ne fresh

def push (table : PointTable) (entry : Point × Nat) : PointTable :=
  ⟨insert entry.1 entry.2 table.entries, nodup_insert table.apart⟩

/-- The table of a pass over numbers with their points. -/
def ofEntries (entries : List (Point × Nat)) : PointTable :=
  entries.foldl push ⟨[], List.nodup_nil⟩

/-- What is at a point. -/
def look (table : PointTable) (p : Point) : List Nat := (table.entries.lookup p).getD []

/-- The same entries in any order. -/
def Rearranged (s t : PointTable) : Prop := s.entries.Perm t.entries

/-! ## Looking up -/

theorem lookup_cons_ite {r : Point} {found : List Nat} :
    ((r, found) :: entries).lookup q = if q = r then some found else entries.lookup q := by
  by_cases e : q = r
  · simp [e]
  · have differs : (q == r) = false := beq_eq_false_iff_ne.mpr e
    rw [List.lookup_cons, differs, if_neg e]

theorem lookup_insert {n : Nat} : (insert p n entries).lookup q =
    if q = p then some ((entries.lookup p).getD [] ++ [n]) else entries.lookup q := by
  induction entries with
  | nil => rw [insert, lookup_cons_ite]; rfl
  | cons entry rest ih =>
    obtain ⟨r, found⟩ := entry
    rw [insert]
    by_cases here : r = p
    · subst here
      simp only [if_true, lookup_cons_ite, Option.getD_some]
      split <;> rfl
    · have there : ¬ p = r := fun e => here e.symm
      rw [if_neg here, lookup_cons_ite, lookup_cons_ite, lookup_cons_ite, if_neg there, ih]
      by_cases e : q = r
      · have ne : ¬ q = p := fun e' => here (e.symm.trans e')
        rw [if_pos e, if_pos e, if_neg ne]
      · rw [if_neg e, if_neg e]

theorem look_push (table : PointTable) (entry : Point × Nat) :
    (table.push entry).look p =
      table.look p ++ if entry.1 = p then [entry.2] else [] := by
  rw [look, push, lookup_insert]
  by_cases e : entry.1 = p
  · rw [if_pos e.symm, if_pos e, e]
    rfl
  · rw [if_neg fun h => e h.symm, if_neg e, List.append_nil]
    rfl

theorem look_foldl_push (table : PointTable) (entries : List (Point × Nat)) :
    (entries.foldl push table).look p =
      table.look p ++ (entries.filter fun entry => entry.1 == p).map (·.2) := by
  induction entries generalizing table with
  | nil => rw [List.foldl_nil, List.filter_nil, List.map_nil, List.append_nil]
  | cons entry rest ih =>
    rw [List.foldl_cons, ih, look_push, List.filter_cons, List.append_assoc]
    by_cases e : entry.1 = p <;> simp [e]

theorem look_ofEntries (entries : List (Point × Nat)) :
    (ofEntries entries).look p = (entries.filter fun entry => entry.1 == p).map (·.2) :=
  look_foldl_push _ entries

theorem lookup_eq_some_iff {found : List Nat} (apart : (entries.map (·.1)).Nodup) :
    entries.lookup p = some found ↔ (p, found) ∈ entries := by
  induction entries with
  | nil => simp
  | cons entry rest ih =>
    obtain ⟨r, first⟩ := entry
    obtain ⟨fresh, apart'⟩ := List.nodup_cons.mp apart
    rw [lookup_cons_ite, List.mem_cons, Prod.mk.injEq]
    by_cases e : p = r
    · have missing : (p, found) ∉ rest := fun mem => fresh (List.mem_map.mpr ⟨_, mem, e⟩)
      simp [e, eq_comm, e ▸ missing]
    · simp [ih apart', e]

theorem look_of_mem {table : PointTable} {found : List Nat} (mem : (p, found) ∈ table.entries) :
    table.look p = found := by
  rw [look, (lookup_eq_some_iff table.apart).mpr mem, Option.getD_some]

theorem mem_entries_of_look {table : PointTable} {n : Nat} (mem : n ∈ table.look p) :
    (p, table.look p) ∈ table.entries := by
  cases found : table.entries.lookup p with
  | none => simp [look, found] at mem
  | some found' =>
    have same : table.look p = found' := by rw [look, found, Option.getD_some]
    exact (lookup_eq_some_iff table.apart).mp (same ▸ found)

/-- The order of the entries does not show. -/
theorem Rearranged.look_eq {s t : PointTable} (h : s.Rearranged t) (p : Point) :
    s.look p = t.look p := by
  have same : s.entries.lookup p = t.entries.lookup p := by
    apply Option.ext
    intro found
    rw [lookup_eq_some_iff s.apart, lookup_eq_some_iff t.apart]
    exact h.mem_iff
  rw [look, look, same]

end PointTable

/-! ## Tables of a board -/

/-- Tracks by the points where they end, a track with both ends in one place once. -/
def PointTable.ofTracks (tracks : List (Nat × Track)) : PointTable :=
  .ofEntries (tracks.flatMap fun entry => entry.2.ends.map fun p => (p, entry.1))

namespace Board

def endTable (b : Board) : PointTable := .ofTracks b.tracks

/-- Pads by their positions. -/
def padTable (b : Board) : PointTable :=
  .ofEntries (b.pads.zipIdx.map fun entry => (entry.1.position, entry.2))

end Board

/-! ## Rows from tables -/

namespace Touching

def padAt (row : Touching) : Side → Option Nat
  | .start => row.startPad
  | .stop => row.stopPad

def setPad (row : Touching) (pad : Option Nat) : Side → Touching
  | .start => { row with startPad := pad }
  | .stop => { row with stopPad := pad }

/-- A number that was found again is not listed again. -/
def addNew (found : List Nat) (n : Nat) : List Nat := if found.contains n then found else found ++ [n]

/-- A pad under an end; the first one is kept as the pad of the end. -/
def addPad (side : Side) (row : Touching) (pad : Nat) : Touching :=
  { row with pads := addNew row.pads pad }.setPad ((row.padAt side).or (some pad)) side

/-- What the tables have at one end of the track `id` that is `t`. -/
def gatherAt (b : Board) (ends pads : PointTable) (id : Nat) (t : Track) (row : Touching)
    (side : Side) : Touching :=
  let p := t.point side
  let row := (pads.look p).foldl (fun row pad =>
    if (b.pad? pad).any (·.hits p t.layers) then row.addPad side pad else row) row
  (ends.look p).foldl (fun row other =>
    if other != id && (b.track? other).any (·.sharesLayer t) then
      { row with tracks := addNew row.tracks other }
    else row) row

/-- What the tables have at the ends of a track, tracks in sequence order. -/
def gather (b : Board) (ends pads : PointTable) (id : Nat) (t : Track) : Touching :=
  let row := [Side.start, .stop].foldl (gatherAt b ends pads id t) ⟨none, none, [], []⟩
  { row with tracks := row.tracks.mergeSort (· ≤ ·) }

end Touching
end CopperTidy
