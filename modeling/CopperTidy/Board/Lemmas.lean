import CopperTidy.Board.Basic

/-! # Laws of a board

`Board.track?` is the view of a board that everything else is stated through. The first laws say
what each operation does to it. The next say that `tracks` lists the same tracks, by ascending ids
and each once. The last say which nets a board has, and that they ascend.
-/

namespace CopperTidy.Board
set_option autoImplicit false

theorem track?_eq_some_iff {b : Board} {id : Nat} {t : Track} :
    b.track? id = some t ↔ b.slots[id]? = some (some t) := by
  rw [track?]
  cases h : b.slots[id]? with
  | none => simp
  | some slot => cases slot <;> simp

/-- A live track has a slot. -/
theorem lt_of_track? {b : Board} {id : Nat} {t : Track} (h : b.track? id = some t) :
    id < b.slots.length :=
  (List.getElem?_eq_some_iff.mp (track?_eq_some_iff.mp h)).1

/-! ## Operations -/

theorem track?_addTrack (b : Board) (t : Track) (id : Nat) :
    (b.addTrack t).track? id = if id = b.slots.length then some t else b.track? id := by
  by_cases h : id < b.slots.length
  · have ne : id ≠ b.slots.length := by omega
    simp [addTrack, track?, List.getElem?_append_left h, ne]
  · by_cases e : id = b.slots.length
    · subst e
      simp [addTrack, track?]
    · have beyond : b.slots.length < id := by omega
      have here : (b.slots ++ [some t])[id]? = none := by simp; omega
      have there : b.slots[id]? = none := by simp; omega
      simp [addTrack, track?, here, there, e]

/-- Setting a slot that exists. -/
theorem getElem?_set_join (slots : List (Option Track)) (id other : Nat) (slot : Option Track)
    (h : id < slots.length) :
    (slots.set id slot)[other]?.join = if other = id then slot else slots[other]?.join := by
  by_cases e : other = id
  · subst e
    simp [h]
  · have ne : ¬ id = other := fun h => e h.symm
    simp [e, List.getElem?_set_ne ne]

theorem remove_of_track? {b : Board} {id : Nat} {t : Track} (h : b.track? id = some t) :
    b.remove id = { b with slots := b.slots.set id none, revision := b.revision + 1 } := by
  simp [remove, h]

theorem modify_of_track? {b : Board} {id : Nat} {t : Track} (h : b.track? id = some t)
    (edit : Track → Track) :
    b.modify id edit =
      { b with slots := b.slots.set id (some (edit t)), revision := b.revision + 1 } := by
  simp [modify, h]

theorem track?_remove (b : Board) (id other : Nat) :
    (b.remove id).track? other = if other = id then none else b.track? other := by
  cases h : b.track? id with
  | none =>
    by_cases e : other = id
    · subst e
      simp [remove, h]
    · simp [remove, h, e]
  | some t =>
    rw [remove_of_track? h, track?, getElem?_set_join _ _ _ _ (lt_of_track? h), track?]

theorem track?_of_remove {b : Board} {id other : Nat} {t : Track}
    (live : (b.remove id).track? other = some t) : other ≠ id ∧ b.track? other = some t := by
  rw [track?_remove] at live
  split at live
  · cases live
  · next ne => exact ⟨ne, live⟩

theorem track?_modify (b : Board) (id other : Nat) (edit : Track → Track) :
    (b.modify id edit).track? other =
      if other = id then (b.track? id).map edit else b.track? other := by
  cases h : b.track? id with
  | none =>
    by_cases e : other = id
    · subst e
      simp [modify, h]
    · simp [modify, h, e]
  | some t =>
    rw [modify_of_track? h, track?, getElem?_set_join _ _ _ _ (lt_of_track? h), track?,
      Option.map_some]

theorem track?_restore (b : Board) (id other : Nat) (t : Track) :
    (b.restore id t).track? other = if other = id then some t else b.track? other := by
  have size : id < (b.slots ++ List.replicate (id + 1 - b.slots.length) none).length := by
    simp; omega
  simp only [restore, track?]
  rw [getElem?_set_join _ _ _ _ size]
  by_cases e : other = id
  · simp [e]
  · simp only [e, if_false]
    by_cases h : other < b.slots.length
    · rw [List.getElem?_append_left h]
    · have there : b.slots[other]? = none := by simp; omega
      rw [List.getElem?_append_right (by omega), there]
      cases g : (List.replicate (id + 1 - b.slots.length)
          (none : Option Track))[other - b.slots.length]? with
      | none => rfl
      | some slot =>
        have := List.eq_of_mem_replicate (List.mem_of_getElem? g)
        simp [this]

/-! ## Lists of tracks -/

theorem mem_numbered {first id : Nat} {t : Track} {slots : List (Option Track)} :
    (id, t) ∈ numbered first slots ↔ first ≤ id ∧ slots[id - first]? = some (some t) := by
  induction slots generalizing first with
  | nil => simp [numbered]
  | cons slot rest ih =>
    have shift : first + 1 ≤ id → id - first = (id - (first + 1)) + 1 := by omega
    cases slot with
    | none =>
      rw [numbered, ih]
      constructor
      · intro ⟨le, h⟩
        refine ⟨by omega, ?_⟩
        rw [shift le]
        simpa using h
      · intro ⟨le, h⟩
        have ne : id ≠ first := by
          intro e
          subst e
          simp at h
        have le' : first + 1 ≤ id := by omega
        rw [shift le'] at h
        exact ⟨le', by simpa using h⟩
    | some u =>
      rw [numbered, List.mem_cons, ih]
      constructor
      · rintro (h | ⟨le, h⟩)
        · cases h
          simp
        · refine ⟨by omega, ?_⟩
          rw [shift le]
          simpa using h
      · intro ⟨le, h⟩
        by_cases e : id = first
        · subst e
          left
          simp at h
          rw [h]
        · have le' : first + 1 ≤ id := by omega
          rw [shift le'] at h
          exact .inr ⟨le', by simpa using h⟩

/-- The list of tracks shows what the slots hold. -/
theorem mem_tracks {b : Board} {id : Nat} {t : Track} :
    (id, t) ∈ b.tracks ↔ b.track? id = some t := by
  rw [tracks, mem_numbered, track?_eq_some_iff]
  simp

theorem forall_track?_iff {b : Board} {P : Nat → Track → Prop} :
    (∀ id t, b.track? id = some t → P id t) ↔ ∀ entry ∈ b.tracks, P entry.1 entry.2 :=
  ⟨fun h entry mem => h entry.1 entry.2 (mem_tracks.mp mem),
    fun h id t there => h (id, t) (mem_tracks.mpr there)⟩

theorem numbered_ascending (first : Nat) (slots : List (Option Track)) :
    ((numbered first slots).map (·.1)).Pairwise (· < ·) := by
  induction slots generalizing first with
  | nil => simp [numbered]
  | cons slot rest ih =>
    cases slot with
    | none => exact ih (first + 1)
    | some u =>
      rw [numbered, List.map_cons, List.pairwise_cons]
      refine ⟨?_, ih (first + 1)⟩
      intro id h
      obtain ⟨⟨id, t⟩, mem, rfl⟩ := List.mem_map.mp h
      have := (mem_numbered.mp mem).1
      show first < id
      omega

/-- Ids are listed in ascending order, each once. -/
theorem ids_ascending (b : Board) : b.ids.Pairwise (· < ·) := numbered_ascending 0 b.slots

/-- Lists that ascend by ids are told apart by their members. -/
theorem eq_of_ascending {l m : List (Nat × Track)} (up : (l.map (·.1)).Pairwise (· < ·))
    (up' : (m.map (·.1)).Pairwise (· < ·)) (same : ∀ id t, (id, t) ∈ l ↔ (id, t) ∈ m) : l = m := by
  rw [List.pairwise_map] at up up'
  have nodup {k : List (Nat × Track)} (up : k.Pairwise fun x y => x.1 < y.1) : k.Nodup := by
    refine up.imp fun lt => ?_
    rintro rfl
    exact Nat.lt_irrefl _ lt
  have perm : l.Perm m :=
    (List.perm_ext_iff_of_nodup (nodup up) (nodup up')).mpr fun (id, t) => same id t
  exact perm.eq_of_pairwise (fun x y _ _ xy yx => absurd xy (Nat.lt_asymm yx)) up up'

theorem tracks_eq_of {b : Board} {entries : List (Nat × Track)}
    (ascending : (entries.map (·.1)).Pairwise (· < ·))
    (shows : ∀ id t, (id, t) ∈ entries ↔ b.track? id = some t) : b.tracks = entries :=
  eq_of_ascending b.ids_ascending ascending fun id t => mem_tracks.trans (shows id t).symm

theorem mem_ids {b : Board} {id : Nat} : id ∈ b.ids ↔ (b.track? id).isSome = true := by
  rw [ids, List.mem_map, Option.isSome_iff_exists]
  constructor
  · rintro ⟨⟨id', t⟩, mem, rfl⟩
    exact ⟨t, mem_tracks.mp mem⟩
  · rintro ⟨t, h⟩
    exact ⟨(id, t), mem_tracks.mpr h, rfl⟩

/-- What stands before a track in the sequence are the live tracks of smaller ids. -/
theorem mem_before {b : Board} {id n : Nat} {t u : Track} {before after : List (Nat × Track)}
    (split : b.tracks = before ++ (id, t) :: after) :
    (n, u) ∈ before ↔ n < id ∧ b.track? n = some u := by
  have ascending : (b.tracks.map (·.1)).Pairwise (· < ·) := b.ids_ascending
  rw [split, List.pairwise_map, List.pairwise_append, List.pairwise_cons] at ascending
  obtain ⟨_, ⟨above, _⟩, apart⟩ := ascending
  rw [← mem_tracks, split, List.mem_append, List.mem_cons]
  constructor
  · exact fun mem => ⟨apart _ mem _ List.mem_cons_self, .inl mem⟩
  · rintro ⟨lt, mem | same | mem⟩
    · exact mem
    · cases same
      exact absurd lt (Nat.lt_irrefl id)
    · exact absurd lt (Nat.lt_asymm (above _ mem))

/-! ## Nets -/

@[simp] theorem mem_insertNet {m n : UInt32} {nets : List UInt32} :
    m ∈ insertNet n nets ↔ m = n ∨ m ∈ nets := by
  induction nets with
  | nil => simp [insertNet]
  | cons k rest ih =>
    rw [insertNet]
    split
    · simp
    · split
      · next e =>
        subst e
        simp
      · rw [List.mem_cons, List.mem_cons, ih]
        exact or_left_comm

theorem insertNet_ascending {n : UInt32} {nets : List UInt32} (h : nets.Pairwise (· < ·)) :
    (insertNet n nets).Pairwise (· < ·) := by
  induction nets with
  | nil => simp [insertNet]
  | cons k rest ih =>
    have ⟨above, tail⟩ := List.pairwise_cons.mp h
    rw [insertNet]
    split
    · next lt =>
      refine List.pairwise_cons.mpr ⟨?_, h⟩
      intro m mem
      rcases List.mem_cons.mp mem with e | mem
      · exact e ▸ lt
      · exact UInt32.lt_trans lt (above m mem)
    · split
      · exact h
      · next le ne =>
        refine List.pairwise_cons.mpr ⟨?_, ih tail⟩
        intro m mem
        rcases mem_insertNet.mp mem with e | mem
        · subst e
          exact UInt32.lt_of_le_of_ne (UInt32.not_lt.mp le) fun e => ne e.symm
        · exact above m mem

/-- The nets that live tracks or pads carry, without net 0. -/
theorem mem_nets {b : Board} {n : UInt32} :
    n ∈ b.nets ↔
      n ≠ 0 ∧ ((∃ id t, b.track? id = some t ∧ t.net = n) ∨ ∃ pad ∈ b.pads, pad.net = n) := by
  have unfolded (carried : List UInt32) :
      n ∈ carried.foldr insertNet [] ↔ n ∈ carried := by
    induction carried with
    | nil => simp
    | cons m rest ih => simp [ih]
  rw [nets, unfolded, List.mem_filter, List.mem_append, List.mem_map, List.mem_map]
  constructor
  · rintro ⟨⟨⟨id, t⟩, mem, rfl⟩ | ⟨pad, mem, rfl⟩, ne⟩
    · exact ⟨by simpa using ne, .inl ⟨id, t, mem_tracks.mp mem, rfl⟩⟩
    · exact ⟨by simpa using ne, .inr ⟨pad, mem, rfl⟩⟩
  · rintro ⟨ne, ⟨id, t, h, rfl⟩ | ⟨pad, mem, rfl⟩⟩
    · exact ⟨.inl ⟨(id, t), mem_tracks.mpr h, rfl⟩, by simpa using ne⟩
    · exact ⟨.inr ⟨pad, mem, rfl⟩, by simpa using ne⟩

theorem nets_ascending (b : Board) : b.nets.Pairwise (· < ·) := by
  have sorted (carried : List UInt32) : (carried.foldr insertNet []).Pairwise (· < ·) := by
    induction carried with
    | nil => simp
    | cons m rest ih => exact insertNet_ascending ih
  exact sorted _

end CopperTidy.Board
