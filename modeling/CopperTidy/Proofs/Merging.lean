import CopperTidy.Proofs.Islands.Kept
import CopperTidy.Proofs.Settled
import CopperTidy.Proofs.Tally

/-! # One sweep of merges is enough

Each trace is merged until nothing more fits, and is not looked at again. A merge takes the other
trace away and moves one end of the first one, so at any other junction it can only change which
track is found: where the trace that goes was attached, the longer one is now. What another trace
could be merged with after the merge is therefore the longer trace itself, or something with which
it could be merged before. Since two traces merge in either direction, a trace that has been looked
at is left with no partner when the longer one is done.
-/

namespace CopperTidy
set_option autoImplicit false

namespace Board

variable {b c : Board} {id other n m : Nat} {side : Side} {t u v : Track}

/-! ## Partners -/

/-- The pair at an end of `id` fits. -/
def Joinable (b : Board) (side : Side) (t u : Track) : Prop :=
  t.sameEnds u = true ∨ t.collinear u = true ∧ b.padsUnder t side = []

/-- A merge would be made at an end of `id`, with `other`. -/
def MergesWith (b : Board) (id : Nat) (side : Side) (other : Nat) : Prop :=
  ∃ t u, b.Junction id side other t u ∧ b.Joinable side t u

theorem merges_iff : b.Merges id side ↔ ∃ other, b.MergesWith id side other := Iff.rfl

theorem attached_nodup (b : Board) (id : Nat) (side : Side) : (b.attached id side).Nodup := by
  unfold attached ContactSource.connectedAt
  cases b.track? id with
  | none => exact List.nodup_nil
  | some t => exact ids_filter_nodup b _

theorem attached_eq_singleton : b.attached id side = [other] ↔
    ∀ n, n ∈ b.attached id side ↔ n = other := by
  constructor
  · intro only n
    rw [only, List.mem_singleton]
  · intro only
    exact List.perm_singleton.mp ((List.perm_ext_iff_of_nodup (b.attached_nodup id side)
      (by simp)).mpr fun n => by rw [only, List.mem_singleton])

theorem mem_attached_of {id' : Nat} {side' : Side} (there : b.track? id = some t)
    (there' : b.track? id' = some u) (same : t.point side = u.point side')
    (layers : t.layers = u.layers) (net : t.net = u.net) (ne : n ≠ id') :
    n ∈ b.attached id side → n ∈ b.attached id' side' := by
  rw [mem_attached, mem_attached]
  rintro ⟨t', v, eq, live, _, ends, shares, inNet⟩
  cases there.symm.trans eq
  refine ⟨u, v, there', live, ne, same ▸ ends, ?_, inNet.trans net⟩
  rwa [Track.sharesLayer, ← layers]

theorem Junction.swap (h : b.Junction id side other t u) :
    ∃ side', u.point side' = t.point side ∧ b.Junction other side' id u t := by
  obtain ⟨far, _, near⟩ := h.exists_far
  obtain ⟨ne, ends, shares, net⟩ := h.facts
  refine ⟨far.opposite, near, h.thereOther, h.there, attached_eq_singleton.mpr fun n => ?_, ?_⟩
  · constructor
    · intro mem
      obtain ⟨_, _, _, _, notOther, _⟩ := mem_attached.mp mem
      refine Decidable.byContradiction fun notId => notOther ?_
      exact (attached_eq_singleton.mp h.only n).mp
        (mem_attached_of h.thereOther h.there near h.layers net notId mem)
    · rintro rfl
      refine mem_attached.mpr ⟨u, t, h.thereOther, h.there, ne.symm, ?_, ?_, net.symm⟩
      · exact (Track.hasEndAt_iff_side side).mpr (.inl near.symm)
      · rwa [Track.sharesLayer_comm]
  · rw [Track.mergeable_comm]
    exact h.kinds

theorem Junction.apart (h : b.Junction id side other t u) (there : b.track? n = some v)
    (notId : n ≠ id) (notOther : n ≠ other) (shares : v.sharesLayer t = true)
    (net : v.net = t.net) : ¬ v.hasEndAt (t.point side) = true := fun ends =>
  notOther ((attached_eq_singleton.mp h.only n).mp
    (mem_attached.mpr ⟨t, v, h.there, there, notId, ends, shares, net⟩))

/-- Two traces merge in either direction. -/
theorem MergesWith.swap (h : b.MergesWith id side other) :
    ∃ side', b.MergesWith other side' id := by
  obtain ⟨t, u, meet, fits⟩ := h
  obtain ⟨side', near, back⟩ := meet.swap
  refine ⟨side', u, t, back, ?_⟩
  rw [Joinable, Track.sameEnds_comm, Track.collinear_comm, padsUnder, near, meet.layers]
  exact fits

/-! ## One merge -/

/-- The board after a merge into `id`: the other trace is gone, and if it was no copy, `id` reaches
to its far end. -/
inductive Merged (b : Board) (id : Nat) : Board → Prop
  | overlapped {side : Side} {other : Nat} {t u : Track} (meet : b.Junction id side other t u)
      (same : t.sameEnds u = true) : Merged b id (b.remove other)
  | stretched {side : Side} {other : Nat} {t u : Track} (meet : b.Junction id side other t u)
      (ends : t.sameEnds u = false) (line : t.collinear u = true)
      (free : b.padsUnder t side = []) : Merged b id (b.mergedAt id side other t u)

theorem Merged.trackCount (h : b.Merged id c) : c.trackCount + 1 = b.trackCount := by
  cases h with
  | overlapped meet => exact trackCount_remove meet.thereOther
  | @stretched side other t u meet =>
    rw [← trackCount_modify b id fun v => v.setPoint (Run.farEnd u (t.point side)) side]
    refine trackCount_remove (t := u) ?_
    rw [track?_modify, if_neg meet.ne]
    exact meet.thereOther

theorem Merged.pads (h : b.Merged id c) : c.pads = b.pads := by
  cases h with
  | overlapped => exact remove_pads b _
  | stretched => exact (remove_pads _ _).trans (modify_pads b _ _)

/-- The board after a merge, track by track. -/
theorem Merged.result (h : b.Merged id c) : ∃ side other t u t', b.Junction id side other t u ∧
    (∀ n, c.track? n = if n = other then none else if n = id then some t' else b.track? n) ∧
      (t.sameEnds u = true ∧ t' = t ∨
        t.sameEnds u = false ∧ t.collinear u = true ∧
          t' = t.setPoint (Run.farEnd u (t.point side)) side) := by
  cases h with
  | @overlapped side other t u meet same =>
    refine ⟨side, other, t, u, t, meet, fun n => ?_, .inl ⟨same, rfl⟩⟩
    rw [track?_remove]
    by_cases e : n = id
    · rw [if_pos e, e, meet.there]
    · rw [if_neg e]
  | @stretched side other t u meet ends line =>
    exact ⟨side, other, t, u, _, meet, track?_mergedAt meet, .inr ⟨ends, line, rfl⟩⟩

/-- In either case the ends of the two traces are ends of the one that stays, the junction apart. -/
theorem Merged.longer (h : b.Merged id c) : ∃ side other t u t', b.Junction id side other t u ∧
    (∀ n, c.track? n = if n = other then none else if n = id then some t' else b.track? n) ∧
      t'.net = t.net ∧ t'.layers = t.layers ∧
        ∀ p, t.hasEndAt p = true ∨ u.hasEndAt p = true → p ≠ t.point side →
          t'.hasEndAt p = true := by
  obtain ⟨side, other, t, u, t', meet, tracks, ⟨same, rfl⟩ | ⟨_, _, rfl⟩⟩ := h.result
  · refine ⟨side, other, t', u, t', meet, tracks, rfl, rfl, fun p ends _ => ?_⟩
    exact ends.elim (fun here => here) (hasEndAt_of_sameEnds same)
  · refine ⟨side, other, t, u, _, meet, tracks, Track.net_setPoint _ _ _,
      Track.layers_setPoint _ _ _, fun p ends away => ?_⟩
    obtain ⟨far, atFar, near⟩ := meet.exists_far
    rw [Track.hasEndAt_iff_side side, Track.point_setPoint, Track.point_opposite_setPoint, ← atFar]
    rw [Track.hasEndAt_iff_side side, Track.hasEndAt_iff_side far, near] at ends
    rcases ends with (here | other_end) | far_end | here
    · exact absurd here.symm away
    · exact .inr other_end
    · exact .inl far_end
    · exact absurd here.symm away

/-- What was attached elsewhere still is, or the merged trace is now. -/
theorem Merged.attached (h : b.Merged id c) (notId : n ≠ id) (live : (c.track? n).isSome = true)
    (mem : m ∈ b.attached n side) : m ∈ c.attached n side ∨ id ∈ c.attached n side := by
  obtain ⟨at_side, other, t, u, t', meet, tracks, net', layers', ends'⟩ := h.longer
  obtain ⟨v, w, there, thereM, ne, ends, shares, net⟩ := mem_attached.mp mem
  have notOther : n ≠ other := by
    rintro rfl
    rw [tracks, if_pos rfl] at live
    cases live
  have here : c.track? n = some v := by rw [tracks, if_neg notOther, if_neg notId, there]
  by_cases pair : m = id ∨ m = other
  · -- The end is not at the junction, since no other track of the net is there.
    have same : (w = t ∨ w = u) ∧ w.layers = t.layers ∧ w.net = t.net := by
      rcases pair with rfl | rfl
      · cases meet.there.symm.trans thereM
        exact ⟨.inl rfl, rfl, rfl⟩
      · cases meet.thereOther.symm.trans thereM
        exact ⟨.inr rfl, meet.layers, meet.net⟩
    obtain ⟨which, layers, inNet⟩ := same
    have meets : t.sharesLayer v = true := by rwa [Track.sharesLayer, ← layers]
    have away : v.point side ≠ t.point at_side := fun e =>
      meet.apart there notId notOther ((Track.sharesLayer_comm v t).trans meets)
        (net.symm.trans inNet) ((Track.hasEndAt_iff_side side).mpr (.inl e))
    refine .inr (mem_attached.mpr ⟨v, t', here, ?_, notId.symm, ends' _ ?_ away, ?_, ?_⟩)
    · rw [tracks, if_neg meet.ne.symm, if_pos rfl]
    · rcases which with rfl | rfl
      · exact .inl ends
      · exact .inr ends
    · rwa [Track.sharesLayer, layers']
    · rw [net', ← inNet, net]
  · obtain ⟨notId', notOther'⟩ := not_or.mp pair
    refine .inl (mem_attached.mpr ⟨v, w, here, ?_, ne, ends, shares, net⟩)
    rw [tracks, if_neg notOther', if_neg notId', thereM]

/-- What a trace could be merged with after a merge elsewhere, but for the merged trace itself, it
could be merged with before. -/
theorem Merged.mergesWith_before (h : b.Merged id c) (notId : n ≠ id) (other_than : m ≠ id)
    (merges : c.MergesWith n side m) : b.MergesWith n side m := by
  obtain ⟨v, w, meet, fits⟩ := merges
  have was {n : Nat} {v : Track} (notId : n ≠ id) (live : c.track? n = some v) :
      b.track? n = some v := by
    obtain ⟨_, _, _, _, _, _, tracks, _⟩ := h.longer
    rw [tracks, if_neg notId] at live
    split at live
    · cases live
    · exact live
  have there := was notId meet.there
  have thereM := was other_than meet.thereOther
  refine ⟨v, w, ⟨there, thereM, attached_eq_singleton.mpr fun k => ?_, meet.kinds⟩, ?_⟩
  · constructor
    · intro mem
      rcases h.attached notId (by rw [meet.there]; rfl) mem with still | longer
      · exact (attached_eq_singleton.mp meet.only k).mp still
      · exact absurd ((attached_eq_singleton.mp meet.only id).mp longer).symm other_than
    · rintro rfl
      exact mem_attached.mpr ⟨v, w, there, thereM, meet.facts⟩
  · have pads : b.padsUnder v side = c.padsUnder v side := by
      rw [padsUnder, padsAt, padsWhere, ← h.pads]
      rfl
    rwa [Joinable, pads]

/-- Of all traces only `id` could be merged into the trace, if any. -/
def OnlyMergesWith (b : Board) (n id : Nat) : Prop := ∀ side m, b.MergesWith n side m → m = id

theorem Merged.onlyMergesWith (h : b.Merged id c) (notId : n ≠ id) (only : b.OnlyMergesWith n id) :
    c.OnlyMergesWith n id := by
  intro side m merges
  refine Decidable.byContradiction fun other_than => other_than ?_
  exact only side m (h.mergesWith_before notId other_than merges)

/-- When the longer trace is done, nothing merges with it from the other side either. -/
theorem OnlyMergesWith.unmerged (only : b.OnlyMergesWith n id)
    (done : ∀ side, ¬ b.Merges id side) (side : Side) : ¬ b.Merges n side := by
  rw [merges_iff]
  rintro ⟨m, merges⟩
  cases only side m merges
  obtain ⟨side', back⟩ := merges.swap
  exact done side' ⟨n, back⟩

end Board

namespace Run

variable {σ : Type} {r : Run Contacts σ} {id : Nat} {side : Side}

/-! ## One step -/

theorem Fresh.mergeAt_cases (fresh : r.Fresh) (id : Nat) (side : Side) :
    (r.mergeAt id side = (r, false) ∧ ¬ r.board.Merges id side) ∨
      (r.mergeAt id side).2 = true ∧ r.board.Merged id (r.mergeAt id side).1.board := by
  by_cases merges : r.board.Merges id side
  · right
    refine ⟨fresh.mergeAt_busy merges, ?_⟩
    obtain ⟨other, t, u, meet, fits⟩ := merges
    unfold mergeAt
    rw [fresh.refresh_eq]
    simp only
    rw [fresh.attached_eq, meet.only]
    simp only
    rcases fresh.mergePair_cases meet.only with
      ⟨_, blocked⟩ | ⟨t, u, meet, ⟨same, gone⟩ | ⟨ends, line, free, stretched⟩⟩
    · exact absurd fits (blocked t u meet)
    · rw [gone, absorbTrack_board]
      exact .overlapped meet same
    · rw [stretched, absorbTrack_board, modifyTrack_board]
      exact .stretched meet ends line free
  · exact .inl ⟨fresh.mergeAt_idle merges, merges⟩

theorem mergeOnce_refresh (h : r.Coherent) (id : Nat) :
    r.mergeOnce id = r.refresh.mergeOnce id := by
  have again : r.refresh.refresh = r.refresh := h.refresh_fresh.refresh_eq
  unfold mergeOnce mergeAt
  rw [again]

theorem Coherent.mergeOnce_cases (h : r.Coherent) (id : Nat) :
    (r.mergeOnce id = (r.refresh, false) ∧ ∀ side, ¬ r.board.Merges id side) ∨
      (r.mergeOnce id).2 = true ∧ r.board.Merged id (r.mergeOnce id).1.board := by
  have fresh := h.refresh_fresh
  rw [mergeOnce_refresh h, ← refresh_board r]
  generalize r.refresh = q at fresh ⊢
  rcases fresh.mergeAt_cases id .start with ⟨idle, none⟩ | ⟨busy, merged⟩
  · rcases fresh.mergeAt_cases id .stop with ⟨idle', none'⟩ | ⟨busy, merged⟩
    · refine .inl ⟨fresh.mergeOnce_idle ?_, ?_⟩ <;> rintro (_ | _) <;> assumption
    · right
      unfold mergeOnce
      rw [idle]
      exact ⟨busy, merged⟩
  · right
    unfold mergeOnce
    cases eq : q.mergeAt id .start with
    | mk s changed =>
      rw [eq] at busy merged
      cases busy
      exact ⟨rfl, merged⟩

theorem Coherent.mergeOnce_idle (h : r.Coherent) (none : ∀ side, ¬ r.board.Merges id side) :
    r.mergeOnce id = (r.refresh, false) := by
  rw [mergeOnce_refresh h]
  rw [← refresh_board r] at none
  exact h.refresh_fresh.mergeOnce_idle none

/-! ## All merges of one trace -/

/-- Any bound that is not below the number of tracks gives the same: each merge takes one away. -/
theorem mergeUpTo_enough (h : r.Coherent) {limit bound : Nat} (id : Nat)
    (enough : r.board.trackCount ≤ limit) (enough' : r.board.trackCount ≤ bound) :
    mergeUpTo limit r id = mergeUpTo bound r id := by
  have stuck {q : Run Contacts σ} (empty : q.board.trackCount = 0) (n : Nat) :
      mergeUpTo n q id = (q, false) := by
    cases n with
    | zero => rfl
    | succ n =>
      unfold mergeUpTo
      cases there : q.board.track? id with
      | none => rfl
      | some t => exact absurd empty (Nat.ne_of_gt (trackCount_pos there))
  induction limit generalizing r bound with
  | zero =>
    have empty := Nat.le_zero.mp enough
    rw [stuck empty, stuck empty]
  | succ limit ih =>
    cases bound with
    | zero =>
      have empty := Nat.le_zero.mp enough'
      rw [stuck empty, stuck empty]
    | succ bound =>
      have coherent := (goes_mergeOnce (o := {}) rfl h id).coherent
      unfold mergeUpTo
      rcases h.mergeOnce_cases id with ⟨idle, _⟩ | ⟨busy, merged⟩
      · rw [idle]
      · have fewer := merged.trackCount
        cases eq : r.mergeOnce id with
        | mk s changed =>
          rw [eq] at busy coherent fewer
          cases busy
          simp only at coherent fewer ⊢
          have same : mergeUpTo limit s id = mergeUpTo bound s id :=
            ih coherent (by omega) (by omega)
          rw [same]

/-- With enough steps a trace ends up without a partner, and no other track has got a new one but
for this trace. -/
theorem mergeUpTo_done (limit : Nat) (h : r.Coherent) (id : Nat)
    (enough : r.board.trackCount ≤ limit) :
    (∀ side, ¬ (mergeUpTo limit r id).1.board.Merges id side) ∧
      ∀ n, n ≠ id → r.board.OnlyMergesWith n id →
        (mergeUpTo limit r id).1.board.OnlyMergesWith n id := by
  have unmerged {q : Run Contacts σ} (no_trace : ¬ (q.board.track? id).any Track.isTrace = true)
      (side : Side) : ¬ q.board.Merges id side := by
    rintro ⟨other, t, u, meet, _⟩
    rw [meet.there] at no_trace
    exact no_trace meet.isTrace.1
  induction limit generalizing r with
  | zero =>
    refine ⟨unmerged fun trace => ?_, fun _ _ only => only⟩
    obtain ⟨t, there, _⟩ := (Option.any_eq_true _ _).mp trace
    exact absurd (Nat.le_zero.mp enough) (Nat.ne_of_gt (trackCount_pos there))
  | succ limit ih =>
    unfold mergeUpTo
    split
    · have coherent := (goes_mergeOnce (o := {}) rfl h id).coherent
      rcases h.mergeOnce_cases id with ⟨idle, none⟩ | ⟨busy, merged⟩
      · rw [idle]
        simp only [refresh_board]
        exact ⟨none, fun _ _ only => only⟩
      · have fewer := merged.trackCount
        cases eq : r.mergeOnce id with
        | mk s changed =>
          rw [eq] at busy coherent fewer merged
          cases busy
          simp only at coherent fewer merged ⊢
          obtain ⟨done, kept⟩ := ih coherent (by omega)
          exact ⟨done, fun n notId only => kept n notId (merged.onlyMergesWith notId only)⟩
    · next no_trace => exact ⟨unmerged no_trace, fun _ _ only => only⟩

def Unmerged (id : Nat) (r : Run Contacts σ) : Prop := ∀ side, ¬ r.board.Merges id side

/-- The merges of a trace leave it without a partner, and whatever had none before. -/
theorem mergeAll_unmerged (h : r.Coherent) (id : Nat) :
    Unmerged id (r.mergeAll id).1 ∧ ∀ n, Unmerged n r → Unmerged n (r.mergeAll id).1 := by
  obtain ⟨done, kept⟩ := mergeUpTo_done r.board.trackCount h id (Nat.le_refl _)
  refine ⟨done, fun n none => ?_⟩
  by_cases e : n = id
  · rw [e]
    exact done
  · exact (kept n e fun side m merges => absurd ⟨m, merges⟩ (none side)).unmerged done

/-! ## The sweep -/

theorem merged_unmerged (h : r.Coherent) (id : Nat) : Unmerged id r.merged := by
  have each (q : Run Contacts σ) (n : Nat) (coherent : q.Coherent) :
      (q.mergeAll n).1.Coherent ∧ Unmerged n (q.mergeAll n).1 ∧
        ∀ other, Unmerged other q → Unmerged other (q.mergeAll n).1 :=
    ⟨(goes_mergeUpTo (o := {}) rfl q.board.trackCount coherent n).coherent,
      mergeAll_unmerged coherent n⟩
  obtain ⟨_, done, kept⟩ := forEach_establishes r.board.ids each h
  by_cases listed : id ∈ r.board.ids
  · exact done id listed
  · refine kept id fun side => ?_
    rintro ⟨other, t, u, meet, _⟩
    exact listed (Board.mem_ids.mpr (by rw [meet.there]; rfl))

/-- The segment pass comes to an end: any bound on the merges of a trace that is not below the
number of tracks gives the same, and they stop because nothing more fits. When the pass is over, no
trace is null and, with a new snapshot, no trace can be merged with another one, so a second sweep
of merges makes no change. -/
theorem cleanSegments_unmerged (r : Run Contacts σ) (h : r.Coherent) :
    (∀ (q : Run Contacts σ) (id limit : Nat), q.Coherent → q.board.trackCount ≤ limit →
      mergeUpTo limit q id = q.mergeAll id ∧ ((q.mergeAll id).1.mergeOnce id).2 = false) ∧
    let s := r.cleanSegments.1.rebuild
    s.board.NoNull ∧ (∀ id, s.mergeOnce id = (s, false)) ∧
      forEach mergeAll s s.board.ids = (s, false) := by
  refine ⟨fun q id limit coherent enough => ⟨?_, ?_⟩, ?_⟩
  · exact mergeUpTo_enough coherent id enough (Nat.le_refl _)
  · have after := (goes_mergeUpTo (o := {}) rfl q.board.trackCount coherent id).coherent
    have done := (mergeAll_unmerged coherent id).1
    exact congrArg Prod.snd (after.mergeOnce_idle done)
  · have noNull : r.cleanSegments.1.board.NoNull := cleanSegments_noNull (o := {}) rfl h
    have unmerged (id : Nat) : Unmerged id r.cleanSegments.1 := by
      have null : Goes {} r r.deleteNullSegments.1 := goes_deleteNullSegments (.inl rfl) h
      have copies : Goes {} _ r.deleteNullSegments.1.withoutCopies :=
        goes_withoutCopies rfl null.coherent
      rw [cleanSegments_fst]
      exact merged_unmerged copies.coherent id
    generalize r.cleanSegments.1 = q at noNull unmerged
    have fresh : q.rebuild.Fresh := rebuild_fresh q
    exact ⟨noNull, fun id => fresh.mergeOnce_idle (unmerged id),
      forEach_idle fun id _ => fresh.mergeAll_idle (unmerged id)⟩

/-- A row of three traces, of which the middle one comes last, a trace that folds back over the
third, and a branch where that one ends. -/
def row : Board :=
  let trace (uuid : String) (start stop : Point) : Option Track :=
    some ⟨uuid, start, stop, 200, .front, 1, .trace⟩
  { slots := [trace "a" ⟨0, 0⟩ ⟨10, 0⟩, trace "b" ⟨30, 0⟩ ⟨20, 0⟩, trace "c" ⟨10, 0⟩ ⟨20, 0⟩,
      trace "d" ⟨30, 0⟩ ⟨24, 0⟩, trace "e" ⟨24, 0⟩ ⟨24, 5⟩] }

theorem cleanSegments_unmerged_row :
    let r : Run Contacts Unit := start row .silent ()
    let s := r.cleanSegments.1.rebuild
    r.Coherent ∧ r.cleanSegments.2 = true ∧ s.board.ids = [0, 4] ∧
      forEach mergeAll s s.board.ids = (s, false) := by
  intro r s
  have coherent : r.Coherent := (start_fresh row .silent ()).coherent
  obtain ⟨_, _, _, idle⟩ := cleanSegments_unmerged r coherent
  exact ⟨coherent, by decide +kernel, by decide +kernel, idle⟩

end Run
end CopperTidy
