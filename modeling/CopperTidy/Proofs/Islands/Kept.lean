import CopperTidy.Proofs.Stranded

/-! # Moves keep islands together

On a sound board every move leaves what was linked linked. Only a dangling track may have a via at
its open end that is left over; such a via is stranded, and goes with the next round.
-/

namespace CopperTidy
set_option autoImplicit false

namespace Board

variable {b c past : Board} {o : Options} {net : UInt32} {x y : Conductor} {id : Nat} {t : Track}

/-! ## Covered tracks -/

theorem touching (there : b.track? id = some t) {w : Conductor}
    (joins : b.Joined net w (.track id)) :
    ∃ p k, b.Reaches net w p k ∧ t.hasEndAt p = true ∧ t.layers.mask.testBit k = true := by
  obtain ⟨_, p, k, reachesW, reaches⟩ := joined_iff.mp joins
  obtain ⟨t', there', _, ends, layer⟩ := reaches_track.mp reaches
  rw [there] at there'
  cases there'
  exact ⟨p, k, reachesW, ends, layer⟩

/-- A track can go if another track of its net has its ends and layers. -/
theorem kept_of_track (there : b.track? id = some t) {first : Nat} {s : Track}
    (thereS : b.track? first = some s) (inNetS : s.net = net) (ne : first ≠ id)
    (ends : ∀ p, t.hasEndAt p = true → s.hasEndAt p = true)
    (layers : ∀ k, t.layers.mask.testBit k = true → s.layers.mask.testBit k = true)
    (hx : x ≠ .track id) (hy : y ≠ .track id) (linked : b.Linked net x y) :
    (b.remove id).Linked net x y := by
  have ne' : Conductor.track first ≠ .track id := fun e => ne (Conductor.track.inj e)
  have live : (b.item? net (.track first)).isSome = true := by
    rw [item?_track.mpr ⟨s, thereS, inNetS, rfl⟩]
    rfl
  refine linked_remove_covered ne' (fun w _ joins => .inr ?_) live hx hy linked
  obtain ⟨p, k, reaches, atEnd, layer⟩ := touching there joins
  have reachesS : b.Reaches net (.track first) p k :=
    reaches_track.mpr ⟨s, thereS, inNetS, ends p atEnd, layers k layer⟩
  exact joined_iff.mpr ⟨Bool.and_false _, p, k, reaches, reachesS⟩

theorem hasEndAt_of_sameEnds {s t : Track} (same : s.sameEnds t = true) {p : Point}
    (ends : t.hasEndAt p = true) : s.hasEndAt p = true := by
  simp only [Track.sameEnds, Bool.or_eq_true, Bool.and_eq_true, beq_iff_eq] at same
  rw [Track.hasEndAt_iff] at ends ⊢
  rcases same with ⟨first, last⟩ | ⟨first, last⟩
  · rw [first, last]
    exact ends
  · rw [first, last]
    exact ends.symm

/-- A through via can go if a pad of its net is there, through all layers. -/
theorem kept_of_pad (sound : b.Sound o net) (there : b.track? id = some t) (inNet : t.net = net)
    (through : t.isThroughVia = true) {own : Pad} (mem : own ∈ b.pads) (ownNet : own.net = net)
    (copper : own.onAllCopper = true) (meets : own.meets t = true) (hx : x ≠ .track id)
    (hy : y ≠ .track id) (linked : b.Linked net x y) : (b.remove id).Linked net x y := by
  obtain ⟨n, listed⟩ := List.mem_iff_getElem?.mp mem
  have straight {p : Point} : t.hasEndAt p = true ↔ t.start = p :=
    Track.hasEndAt_via (sound.straight id t there inNet) (isThroughVia_isVia through)
  have place : own.kind ≠ .nonPlated ∧ own.position = t.start := by
    obtain ⟨p, ends, hits⟩ := Pad.meets_iff.mp meets
    obtain ⟨_, ⟨plated, position, _⟩, _⟩ := Pad.hits_iff.mp hits
    exact ⟨plated, position.trans (straight.mp ends).symm⟩
  have live : (b.item? net (.pad n)).isSome = true := by
    rw [item?_pad.mpr ⟨own, listed, ownNet, rfl⟩]
    rfl
  refine linked_remove_covered (s := .pad n) Conductor.noConfusion (fun w _ joins => ?_) live hx hy
    linked
  obtain ⟨p, k, reaches, atEnd, layer⟩ := touching there joins
  have low := (Track.testBit_layers_of_isThroughVia through).mp layer
  have reachesOwn : b.Reaches net (.pad n) p k := by
    refine reaches_pad.mpr ⟨own, listed, ownNet, place.1, ?_, Pad.testBit_of_onAllCopper copper low⟩
    exact place.2.trans (straight.mp atEnd)
  cases w with
  | pad m => exact .inl (congrArg _ (sound.pad_eq there inNet atEnd layer reaches reachesOwn))
  | track m => exact .inr (joined_iff.mpr ⟨rfl, p, k, reaches, reachesOwn⟩)

/-- A trace without extent can go: what it joins meets at its point. -/
theorem kept_of_null (sound : b.Sound o net) (there : b.track? id = some t) (inNet : t.net = net)
    (null : t.isNull = true) (hx : x ≠ .track id) (hy : y ≠ .track id)
    (linked : b.Linked net x y) : (b.remove id).Linked net x y := by
  simp only [Track.isNull, Bool.and_eq_true, beq_iff_eq] at null
  obtain ⟨trace, closed⟩ := null
  have not_via := Track.isVia_of_isTrace trace
  have layer := (Track.testBit_layers_of_not_isVia not_via).mpr rfl
  have ends : t.hasEndAt t.start = true := Track.hasEndAt_iff.mpr (.inl rfl)
  refine linked_remove_at (fun _ _ (no : False) _ => no.elim) (fun w _ joins => ?_)
    (fun m n => sound.pad_eq there inNet ends layer) hx hy not_false not_false linked
  obtain ⟨p, k, reaches, atEnd, atLayer⟩ := touching there joins
  rw [Track.hasEndAt_iff, ← closed, or_self_iff] at atEnd
  rw [Track.testBit_layers_of_not_isVia not_via] at atLayer
  rw [atEnd, atLayer]
  exact .inl reaches

/-! ## Dangling tracks -/

/-- Around an open end: what is not a leaf meets at the other end. -/
theorem linked_remove_open {side : Side} {leaf : Conductor → Prop} (sound : b.Sound o net)
    (there : b.track? id = some t) (inNet : t.net = net) (opens : b.OpensAt net id t side leaf)
    (hx : x ≠ .track id) (hy : y ≠ .track id) (leafX : ¬ leaf x) (leafY : ¬ leaf y)
    (linked : b.Linked net x y) : (b.remove id).Linked net x y := by
  have straight := sound.straight id t there inNet
  have alone (v z : Conductor) (is_leaf : leaf v) (joins : b.Joined net v z) :
      z = .track id ∨ z = v := by
    obtain ⟨_, p, k, reaches, reachesZ⟩ := joined_iff.mp joins
    exact opens.alone v z p k is_leaf reaches reachesZ
  have meets (w : Conductor) (hw : w ≠ .track id) (joins : b.Joined net w (.track id)) :
      leaf w ∨ t.isVia = false ∧ b.Reaches net w (t.point side.opposite) t.layer.number.toNat := by
    obtain ⟨p, k, reaches, ends, layer⟩ := touching there joins
    exact opens.otherwise straight hw reaches ends layer
  by_cases via : t.isVia = true
  · refine linked_remove alone (fun w _ hw _ first _ => ?_) hx hy leafX leafY linked
    rcases meets w hw first with is_leaf | ⟨not_via, _⟩
    · exact .inr (.inl is_leaf)
    · rw [via] at not_via
      cases not_via
  · have layer := (Track.testBit_layers_of_not_isVia (Bool.eq_false_iff.mpr via)).mpr rfl
    have ends : t.hasEndAt (t.point side.opposite) = true :=
      (Track.hasEndAt_iff_side side).mpr (.inr rfl)
    refine linked_remove_at alone (fun w hw joins => ?_)
      (fun m n => sound.pad_eq there inNet ends layer) hx hy leafX leafY linked
    exact (meets w hw joins).symm.imp_left And.right

theorem kept_of_loose (sound : b.Sound o net) (on : o.deleteDangling = true)
    (there : b.track? id = some t) (inNet : t.net = net) (straight : past.StraightVias)
    (since : Fades (fun gone => dangles Scan.mk past gone = true) past b)
    (loose : dangles Scan.mk past id = true) (hx : x ≠ .track id) (hy : y ≠ .track id)
    (linked : b.Linked net x y) :
    (b.remove id).Linked net x y ∨ Stranded (b.remove id) x ∨ Stranded (b.remove id) y := by
  obtain ⟨side, leaf, opens⟩ :=
    exists_opensAt there inNet (sound.copper on id t there inNet) straight since loose
  by_cases leafX : leaf x
  · exact .inr (.inl (opens.stranded x leafX linked.left))
  · by_cases leafY : leaf y
    · exact .inr (.inr (opens.stranded y leafY linked.right))
    · exact .inl (linked_remove_open sound there inNet opens hx hy leafX leafY linked)

/-! ## Merges -/

/-- The name that stands for a track after it was merged into another. -/
def mergedName (id other : Nat) (x : Conductor) : Conductor :=
  if x = .track other then .track id else x

theorem isPad_mergedName (id other : Nat) (x : Conductor) :
    (mergedName id other x).isPad = x.isPad := by
  unfold mergedName
  split
  · next e =>
    rw [e]
    rfl
  · rfl

theorem mergedName_eq_track {other n : Nat} (h : mergedName id other x = .track n) :
    x = .track n ∨ n = id ∧ x = .track other := by
  unfold mergedName at h
  split at h
  · next isOther => exact .inr ⟨(Conductor.track.inj h).symm, isOther⟩
  · exact .inl h

section Merge

variable {side : Side} {other : Nat} {u : Track}

/-- The board after a merge. -/
def mergedAt (b : Board) (id : Nat) (side : Side) (other : Nat) (t u : Track) : Board :=
  (b.modify id fun v => v.setPoint (Run.farEnd u (t.point side)) side).remove other

theorem track?_mergedAt (meet : b.Junction id side other t u) (n : Nat) :
    (b.mergedAt id side other t u).track? n =
      if n = other then none
      else if n = id then some (t.setPoint (Run.farEnd u (t.point side)) side)
      else b.track? n := by
  rw [mergedAt, track?_remove, track?_modify, meet.there]
  rfl

theorem item?_mergedAt (meet : b.Junction id side other t u) (hx : x ≠ .track id)
    (hy : x ≠ .track other) : (b.mergedAt id side other t u).item? net x = b.item? net x := by
  cases x with
  | pad n => rw [item?, item?, pad?, pad?, mergedAt, remove_pads, modify_pads]
  | track n =>
    have ne : n ≠ id := fun e => hx (e ▸ rfl)
    have ne' : n ≠ other := fun e => hy (e ▸ rfl)
    rw [item?, item?, track?_mergedAt meet, if_neg ne', if_neg ne]

theorem reaches_mergedAt (meet : b.Junction id side other t u) (inNet : t.net = net) {p : Point}
    {k : Nat} (ends : p = Run.farEnd u (t.point side) ∨ p = t.point side.opposite)
    (layer : t.layers.mask.testBit k = true) :
    (b.mergedAt id side other t u).Reaches net (.track id) p k := by
  refine reaches_track.mpr ⟨t.setPoint (Run.farEnd u (t.point side)) side, ?_, ?_, ?_, ?_⟩
  · rw [track?_mergedAt meet, if_neg meet.ne.symm, if_pos rfl]
  · rw [Track.net_setPoint]
    exact inNet
  · rw [Track.hasEndAt_iff_side side, Track.point_setPoint, Track.point_opposite_setPoint]
    exact ends.imp Eq.symm Eq.symm
  · rw [Track.layers_setPoint]
    exact layer

/-- What a name reached, its successor reaches, but for the junction, which the two traces gave up. -/
theorem reached_after_merge (meet : b.Junction id side other t u) {p : Point} {k : Nat}
    (h : b.Reaches net x p k) :
    (b.mergedAt id side other t u).Reaches net (mergedName id other x) p k ∨
      (t.net = net ∧ mergedName id other x = .track id ∧ p = t.point side ∧
        t.layers.mask.testBit k = true) := by
  by_cases isOther : x = .track other
  · subst isOther
    rw [mergedName, if_pos rfl]
    obtain ⟨u', there, sameNet, ends, layer⟩ := reaches_track.mp h
    rw [meet.thereOther] at there
    cases there
    have inNet := meet.net.symm.trans sameNet
    rw [meet.layers] at layer
    rw [Track.hasEndAt_iff] at ends
    rcases Track.farEnd_of_hasEndAt meet.endsThere with ⟨near, far⟩ | ⟨near, far⟩
    · rcases ends with e | e
      · exact .inr ⟨inNet, rfl, e.symm.trans near, layer⟩
      · exact .inl (reaches_mergedAt meet inNet (.inl (e.symm.trans far.symm)) layer)
    · rcases ends with e | e
      · exact .inl (reaches_mergedAt meet inNet (.inl (e.symm.trans far.symm)) layer)
      · exact .inr ⟨inNet, rfl, e.symm.trans near, layer⟩
  · rw [mergedName, if_neg isOther]
    by_cases isId : x = .track id
    · subst isId
      obtain ⟨t', there, inNet, ends, layer⟩ := reaches_track.mp h
      rw [meet.there] at there
      cases there
      rcases (Track.hasEndAt_iff_side side).mp ends with near | far
      · exact .inr ⟨inNet, rfl, near.symm, layer⟩
      · exact .inl (reaches_mergedAt meet inNet (.inr far.symm) layer)
    · exact .inl ((reaches_congr (item?_mergedAt meet isId isOther)).mpr h)

/-- Nothing else of the net is at the junction. -/
theorem at_junction (meet : b.Junction id side other t u) (inNet : t.net = net)
    (free : b.padsUnder t side = []) {k : Nat} (h : b.Reaches net x (t.point side) k)
    (layer : t.layers.mask.testBit k = true) : mergedName id other x = .track id := by
  cases x with
  | pad n =>
    obtain ⟨pad, listed, _, at_end⟩ := reaches_pad.mp h
    have under : n ∈ b.padsUnder t side := by
      rw [padsUnder, padsAt, mem_padsWhere]
      exact ⟨pad, listed, Pad.hits_iff.mpr ⟨k, at_end, layer⟩⟩
    rw [free] at under
    cases under
  | track n =>
    unfold mergedName
    split
    · rfl
    · next notOther =>
      by_cases e : n = id
      · rw [e]
      · obtain ⟨v, live, sameNet, ends, own⟩ := reaches_track.mp h
        have attached : n ∈ b.attached id side := mem_attached.mpr ⟨t, v, meet.there, live, e, ends,
          LayerSet.intersects_iff.mpr ⟨k, own, layer⟩, sameNet.trans inNet.symm⟩
        rw [meet.only, List.mem_singleton] at attached
        exact absurd (congrArg _ attached) notOther

/-- A name that was there has a successor. -/
theorem item?_mergedName (meet : b.Junction id side other t u)
    (live : (b.item? net x).isSome = true) :
    ((b.mergedAt id side other t u).item? net (mergedName id other x)).isSome = true := by
  have there (inNet : t.net = net) :
      ((b.mergedAt id side other t u).item? net (.track id)).isSome = true :=
    (reaches_mergedAt meet inNet (.inr rfl)
      ((Track.layers_of_isTrace meet.isTrace.1) ▸ LayerSet.testBit_single.mpr rfl)).there
  obtain ⟨i, named⟩ := Option.isSome_iff_exists.mp live
  by_cases isOther : x = .track other
  · subst isOther
    obtain ⟨u', thereU, inNet, _⟩ := item?_track.mp named
    cases meet.thereOther.symm.trans thereU
    rw [mergedName, if_pos rfl]
    exact there (meet.net.symm.trans inNet)
  · rw [mergedName, if_neg isOther]
    by_cases isId : x = .track id
    · subst isId
      obtain ⟨t', thereT, inNet, _⟩ := item?_track.mp named
      cases meet.there.symm.trans thereT
      exact there inNet
    · rw [item?_mergedAt meet isId isOther]
      exact live

theorem kept_of_merge (meet : b.Junction id side other t u) (free : b.padsUnder t side = [])
    (hx : x ≠ .track other) (hy : y ≠ .track other) (linked : b.Linked net x y) :
    (b.mergedAt id side other t u).Linked net x y := by
  have along : (b.mergedAt id side other t u).Linked net (mergedName id other x)
      (mergedName id other y) := by
    clear hx hy
    induction linked with
    | refl live => exact .refl (item?_mergedName meet live)
    | step _ last ih =>
      obtain ⟨one_track, p, k, first, second⟩ := joined_iff.mp last
      refine ih.trans ?_
      rcases reached_after_merge meet first with still | ⟨inNet, isId, rfl, layer⟩
      · rcases reached_after_merge meet second with still' | ⟨inNet, isId, rfl, layer⟩
        · refine (joined_iff.mpr ⟨?_, p, k, still, still'⟩).linked
          rw [isPad_mergedName, isPad_mergedName]
          exact one_track
        · rw [at_junction meet inNet free first layer, isId]
          exact .refl (isId ▸ item?_mergedName meet last.right)
      · rw [at_junction meet inNet free second layer, isId]
        exact .refl (isId ▸ item?_mergedName meet last.left)
  rw [mergedName, mergedName, if_neg hx, if_neg hy] at along
  exact along

end Merge

end Board
end CopperTidy
