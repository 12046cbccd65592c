import CopperTidy.Proofs.Origin

/-! # What survives a run

A run gives no track a new slot. What is in a slot after any moves is the track that was there
before, with nothing changed but the ends of a trace, provided that no via has to be mended. And an
end only ever moves to where an end was.
-/

namespace CopperTidy
set_option autoImplicit false

namespace Track

/-- `u` is `t`, or `t` is a trace and `u` is that trace with other ends. -/
structure Stretches (t u : Track) : Prop where
  body : u = { t with start := u.start, stop := u.stop }
  fixed : t.isTrace = false → u = t

variable {t u v : Track}

theorem Stretches.refl (t : Track) : t.Stretches t := ⟨rfl, fun _ => rfl⟩

theorem Stretches.shape (h : t.Stretches u) : u.shape = t.shape := by
  rw [h.body]

theorem Stretches.isTrace (h : t.Stretches u) : u.isTrace = t.isTrace := by
  unfold Track.isTrace
  rw [h.shape]

theorem Stretches.net (h : t.Stretches u) : u.net = t.net := by
  rw [h.body]

theorem Stretches.trans (first : t.Stretches u) (second : u.Stretches v) : t.Stretches v := by
  constructor
  · have body := first.body
    have body' := second.body
    rw [body] at body'
    exact body'
  · intro other
    have kept : u = t := first.fixed other
    have kept' : v = u := second.fixed (by rw [kept, other])
    rw [kept', kept]

theorem stretches_setPoint (trace : t.isTrace = true) (p : Point) (side : Side) :
    t.Stretches (t.setPoint p side) := by
  constructor
  · cases side <;> rfl
  · intro other
    rw [trace] at other
    cases other

end Track

namespace Board

variable {o : Options} {b c : Board} {cs : List Change}

/-! ## Slots -/

theorem length_slots_remove (b : Board) (id : Nat) :
    (b.remove id).slots.length = b.slots.length := by
  unfold remove
  split
  · rfl
  · exact List.length_set

theorem length_slots_modify (b : Board) (id : Nat) (edit : Track → Track) :
    (b.modify id edit).slots.length = b.slots.length := by
  unfold modify
  split
  · rfl
  · exact List.length_set

theorem Move.length_slots (h : Move o b cs c) : c.slots.length = b.slots.length := by
  cases h with
  | mend => exact length_slots_modify b _ _
  | leave => exact length_slots_remove b _
  | merge => rw [length_slots_remove, length_slots_modify]

theorem Moves.length_slots (h : Moves o b cs c) : c.slots.length = b.slots.length := by
  induction h with
  | nil => rfl
  | snoc _ last ih => rw [last.length_slots, ih]

/-! ## Tracks -/

theorem Move.survivor (h : Move o b cs c) (straight : b.StraightVias) {id : Nat} {u : Track}
    (live : c.track? id = some u) : ∃ t, b.track? id = some t ∧ t.Stretches u := by
  cases h.origin live with
  | kept there => exact ⟨u, there, .refl u⟩
  | mended there bad =>
    rw [straight _ _ there] at bad
    cases bad
  | @stretched side other t u meet =>
    have trace : t.isTrace = true := meet.isTrace.1
    exact ⟨t, meet.there, Track.stretches_setPoint trace _ side⟩

theorem Moves.survivor (h : Moves o b cs c) (straight : b.StraightVias) {id : Nat} {u : Track}
    (live : c.track? id = some u) : ∃ t, b.track? id = some t ∧ t.Stretches u := by
  induction h generalizing u with
  | nil => exact ⟨u, live, .refl u⟩
  | snoc before last ih =>
    have straight' := stable_straightVias.moves before straight
    obtain ⟨t', there', second⟩ := last.survivor straight' live
    obtain ⟨t, there, first⟩ := ih there'
    exact ⟨t, there, first.trans second⟩

/-! ## Ends -/

def EndsIn (P : Point → Prop) (b : Board) : Prop :=
  ∀ id t, b.track? id = some t → ∀ p, t.hasEndAt p = true → P p

theorem stable_endsIn (P : Point → Prop) : Stable (EndsIn P) := by
  intro o b c cs move within id t live p there
  obtain ⟨id', t', live', there', _⟩ := (move.origin live).end_was there
  exact within id' t' live' p there'

end Board

end CopperTidy
