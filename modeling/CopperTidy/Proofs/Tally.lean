import CopperTidy.Proofs.Passes

/-! # Counting a log

The counters of a cleaning go up by one with each change of their kind, so they count the changes of
a log. The log of a run of moves tells how many tracks are gone, and has no edit that is not
accounted for.
-/

namespace CopperTidy
set_option autoImplicit false

/-! ## Counters -/

namespace Change

/-- Is this a removal for the reason? -/
def isFor (reason : Reason) : Change → Bool
  | .removed _ _ given => given = reason
  | .modified .. => false

/-- Did a malformed via get its end back? -/
def mendsVia : Change → Bool
  | .removed .. => false
  | .modified _ t t' => Run.isMalformedVia t && t' == { t with stop := t.start }

end Change

namespace Stats

/-- The counters after one more change. -/
def note (s : Stats) (c : Change) : Stats :=
  match c with
  | .removed _ _ reason => s.count reason
  | .modified .. =>
    if c.mendsVia then { s with normalizedVias := s.normalizedVias + 1 } else s

theorem removals_note (reason : Reason) (s : Stats) (c : Change) :
    (s.note c).removals reason = s.removals reason + if c.isFor reason then 1 else 0 := by
  cases c with
  | removed id t given => simp [note, removals_count, Change.isFor]
  | modified id t t' =>
    simp only [note, Change.isFor]
    split <;> rfl

theorem totalRemoved_note (s : Stats) (c : Change) :
    (s.note c).totalRemoved = s.totalRemoved + if c.isRemoval then 1 else 0 := by
  cases c with
  | removed id t given => simp [note, totalRemoved_count, Change.isRemoval]
  | modified id t t' =>
    simp only [note, Change.isRemoval]
    split <;> rfl

theorem normalizedVias_note (s : Stats) (c : Change) :
    (s.note c).normalizedVias = s.normalizedVias + if c.mendsVia then 1 else 0 := by
  cases c with
  | removed id t given => cases given <;> rfl
  | modified id t t' =>
    simp only [note]
    split <;> rfl

/-- What goes up by one with each change of a kind counts the changes of that kind. -/
theorem notes_count (counter : Stats → Nat) (kind : Change → Bool)
    (one : ∀ s c, counter (note s c) = counter s + if kind c then 1 else 0) (s : Stats)
    (cs : List Change) : counter (cs.foldl note s) = counter s + cs.countP kind := by
  induction cs generalizing s with
  | nil => rfl
  | cons c cs ih =>
    rw [List.foldl_cons, ih, one, List.countP_cons]
    omega

end Stats

/-! ## What moves log -/

namespace Board

variable {o : Options} {b c : Board} {cs : List Change} {id : Nat} {t u : Track}

theorem Move.log_ne_nil (h : Move o b cs c) : cs ≠ [] := by
  cases h <;> exact List.cons_ne_nil _ _

/-- Whatever changes the board is logged. -/
theorem Moves.eq_of_nil (h : Moves o b [] c) : c = b := by
  generalize none_logged : ([] : List Change) = cs at h
  cases h with
  | nil => rfl
  | snoc _ last =>
    have empty := List.append_eq_nil_iff.mp none_logged.symm
    exact absurd empty.2 last.log_ne_nil

/-! ## Live tracks -/

theorem length_numbered (first : Nat) (slots : List (Option Track)) :
    (numbered first slots).length = slots.countP (·.isSome) := by
  induction slots generalizing first with
  | nil => rfl
  | cons slot rest ih =>
    cases slot with
    | none => simp [numbered, ih]
    | some t => simp [numbered, ih]

theorem trackCount_eq (b : Board) : b.trackCount = b.slots.countP (·.isSome) :=
  length_numbered 0 b.slots

/-- Putting something else, or nothing, in the place of a live track. -/
theorem countP_set_live (there : b.track? id = some t) (slot : Option Track) :
    (b.slots.set id slot).countP (·.isSome) + 1 =
      b.trackCount + if slot.isSome then 1 else 0 := by
  have listed := track?_eq_some_iff.mp there
  obtain ⟨size, live⟩ := List.getElem?_eq_some_iff.mp listed
  have positive : 0 < b.slots.countP (·.isSome) :=
    List.countP_pos_iff.mpr ⟨some t, List.mem_of_getElem? listed, rfl⟩
  rw [List.countP_set size, live, trackCount_eq, Option.isSome_some, if_pos rfl]
  omega

theorem trackCount_remove (there : b.track? id = some t) :
    (b.remove id).trackCount + 1 = b.trackCount := by
  rw [trackCount_eq, remove, there]
  exact countP_set_live there none

theorem trackCount_modify (b : Board) (id : Nat) (edit : Track → Track) :
    (b.modify id edit).trackCount = b.trackCount := by
  cases there : b.track? id with
  | none => rw [modify, there]
  | some t =>
    rw [trackCount_eq, modify, there]
    exact Nat.succ.inj (countP_set_live there (some (edit t)))

theorem Move.trackCount (h : Move o b cs c) :
    c.trackCount + cs.countP (·.isRemoval) = b.trackCount := by
  cases h with
  | mend => exact trackCount_modify b _ _
  | leave there => exact trackCount_remove there
  | @merge id other t u side on meet =>
    have live : (b.modify id fun v => v.setPoint (Run.farEnd u (t.point side)) side).track? other =
        some u := by
      rw [track?_modify, if_neg meet.ne]
      exact meet.thereOther
    exact (trackCount_remove live).trans (trackCount_modify b _ _)

theorem Moves.trackCount (h : Moves o b cs c) :
    c.trackCount + cs.countP (·.isRemoval) = b.trackCount := by
  induction h with
  | nil => rfl
  | snoc _ last ih =>
    have count := last.trackCount
    rw [List.countP_append]
    omega

/-! ## Edits in a log -/

/-- An edit by which `t` became `t'`: a via got its end back, or the next change takes off the board
a track that `t` met end to end, and `t'` reaches to where that one ended. -/
def Accounted (id : Nat) (t t' : Track) (next : Option Change) : Prop :=
  Run.isMalformedVia t = true ∧ t' = { t with stop := t.start } ∨
    ∃ other u side, next = some (.removed other u .mergedCollinear) ∧ other ≠ id ∧
      t.mergeable u = true ∧ u.net = t.net ∧ u.hasEndAt (t.point side) = true ∧
      t' = t.setPoint (Run.farEnd u (t.point side)) side

/-- Every edit in the log is accounted for. -/
def EditsAccounted (cs : List Change) : Prop :=
  ∀ i id t t', cs[i]? = some (.modified id t t') → Accounted id t t' cs[i + 1]?

theorem EditsAccounted.append {ds : List Change} (first : EditsAccounted cs)
    (second : EditsAccounted ds) : EditsAccounted (cs ++ ds) := by
  intro i id t t' entry
  by_cases within : i < cs.length
  · rw [List.getElem?_append_left within] at entry
    rcases first i id t t' entry with mended | ⟨other, u, side, next, facts⟩
    · exact .inl mended
    · have within' : i + 1 < cs.length := (List.getElem?_eq_some_iff.mp next).1
      rw [List.getElem?_append_left within']
      exact .inr ⟨other, u, side, next, facts⟩
  · have past : cs.length ≤ i := Nat.le_of_not_lt within
    have step : i + 1 - cs.length = i - cs.length + 1 := by omega
    rw [List.getElem?_append_right past] at entry
    rw [List.getElem?_append_right (Nat.le_succ_of_le past), step]
    exact second _ id t t' entry

theorem Move.editsAccounted (h : Move o b cs c) : EditsAccounted cs := by
  intro i id t t' entry
  cases h with
  | mend there bad =>
    cases i with
    | zero =>
      cases entry
      exact .inl ⟨bad, rfl⟩
    | succ i => cases entry
  | leave =>
    cases i with
    | zero => cases entry
    | succ i => cases entry
  | @merge id other t u side _ meet =>
    match i, entry with
    | 0, entry =>
      cases entry
      exact .inr ⟨other, u, side, rfl, meet.ne, meet.kinds, meet.net, meet.endsThere, rfl⟩
    | 1, entry => cases entry
    | i + 2, entry => cases entry

theorem Moves.editsAccounted (h : Moves o b cs c) : EditsAccounted cs := by
  induction h with
  | nil =>
    intro i id t t' entry
    cases entry
  | snoc _ last ih => exact ih.append last.editsAccounted

end Board
end CopperTidy
