import CopperTidy.Proofs.Connection.Contact
import CopperTidy.Proofs.Tidy

/-! # Steps that keep the connection

Null traces go, copies of traces go, two traces become one, and rounds of dangling tracks go: after
each of these, what is left of a net is connected just if it was before. Within the rounds a via can
be cut off from everything; it dangles, so it is not there any more when the last round is over.
-/

namespace CopperTidy
set_option autoImplicit false

/-- Only dangling tracks are looked for. -/
def Options.onlyDangling : Options := { Options.none with deleteDangling := true }

namespace Board

variable {b c d past : Board} {net : UInt32} {x y : Conductor} {id : Nat} {t : Track}

/-- Conductors of a net that are still there are connected just if they were. -/
def KeepsConnection (b c : Board) (net : UInt32) : Prop :=
  ∀ x y, c.Conducts net x → c.Conducts net y → (c.Connected net x y ↔ b.Connected net x y)

theorem KeepsConnection.refl (b : Board) (net : UInt32) : b.KeepsConnection b net :=
  fun _ _ _ _ => Iff.rfl

theorem KeepsConnection.conducted (h : b.KeepsConnection c net) (there : c.Conducts net x) :
    b.Conducts net x :=
  ((h x x there there).mp (.refl there)).left

theorem KeepsConnection.trans (first : b.KeepsConnection c net) (second : c.KeepsConnection d net) :
    b.KeepsConnection d net := by
  intro x y hx hy
  rw [second x y hx hy, first x y (second.conducted hx) (second.conducted hy)]

/-! ## Removals -/

theorem was_connected_remove (h : (b.remove id).Connected net x y) : b.Connected net x y := by
  cases there : b.track? id with
  | none =>
    rw [remove, there] at h
    exact h
  | some t =>
    have move : Move .onlyMisconnected b [.removed id t .misConnected] (b.remove id) :=
      .leave there (.short rfl)
    exact move.was_connected h

theorem keeps_remove
    (forward : ∀ x y, x ≠ .track id → y ≠ .track id → b.Connected net x y →
      (b.remove id).Connected net x y) : b.KeepsConnection (b.remove id) net :=
  fun x y hx hy => ⟨was_connected_remove, forward x y (ne_of_conducts hx) (ne_of_conducts hy)⟩

theorem keeps_of_live (each : ∀ t, b.track? id = some t → b.KeepsConnection (b.remove id) net) :
    b.KeepsConnection (b.remove id) net := by
  cases there : b.track? id with
  | none =>
    rw [remove, there]
    exact .refl b net
  | some t => exact each t there

theorem fades_removals {gone : Nat → Prop} {ids : List Nat} (goes : ∀ id ∈ ids, gone id)
    (since : Fades gone b c) : Fades gone b (ids.foldl remove c) := by
  induction ids generalizing c with
  | nil => exact since
  | cons id rest ih =>
    exact ih (fun i mem => goes i (List.mem_cons_of_mem id mem))
      (since.remove (goes id List.mem_cons_self))

/-- A loop of removals keeps the connection if each removal does, whichever went before. -/
theorem keeps_removals {ids : List Nat}
    (each : ∀ c id t, id ∈ ids → Fades (· ∈ ids) b c → c.track? id = some t →
      c.KeepsConnection (c.remove id) net) : b.KeepsConnection (ids.foldl remove b) net := by
  have run (rest : List Nat) (c : Board) (listed : ∀ id ∈ rest, id ∈ ids)
      (since : Fades (· ∈ ids) b c) : c.KeepsConnection (rest.foldl remove c) net := by
    induction rest generalizing c with
    | nil => exact .refl c net
    | cons id rest ih =>
      have mem := listed id List.mem_cons_self
      have step : c.KeepsConnection (c.remove id) net :=
        keeps_of_live fun t live => each c id t mem since live
      exact step.trans (ih (c.remove id) (fun i h => listed i (List.mem_cons_of_mem id h))
        (since.remove mem))
  exact run ids b (fun _ h => h) (.refl b)

theorem keeps_null (there : b.track? id = some t) (null : t.isNull = true) :
    b.KeepsConnection (b.remove id) net := by
  simp only [Track.isNull, Bool.and_eq_true, beq_iff_eq] at null
  obtain ⟨trace, closed⟩ := null
  refine keeps_remove fun x y hx hy => connected_remove_meeting (p := t.start)
    (k := t.layer.number.toNat) (fun w contact => ?_) hx hy
  obtain ⟨_, p, k, reaches, atEnd, layer⟩ := (inContact_track there).mp contact
  rw [Track.hasEndAt_iff, ← closed, or_self_iff] at atEnd
  rw [Track.testBit_layers_of_not_isVia (Track.isVia_of_isTrace trace)] at layer
  rw [atEnd, layer]
  exact reaches

theorem keeps_copy {first : Nat} {s : Track} (thereS : b.track? first = some s)
    (there : b.track? id = some t) (ne : first ≠ id) (sameNet : s.net = t.net)
    (not_via : s.isVia = false) (same : s.duplicates t = true) :
    b.KeepsConnection (b.remove id) net := by
  simp only [Track.duplicates, Bool.and_eq_true, beq_iff_eq] at same
  obtain ⟨⟨⟨_, kinds⟩, layer⟩, ends⟩ := same
  refine keeps_remove fun x y hx hy => connected_remove_covered there thereS sameNet ne
    (fun p => hasEndAt_of_sameEnds ends) (fun k bit => ?_) hx hy
  rw [Track.testBit_layers_of_not_isVia (kinds.symm.trans not_via)] at bit
  rw [Track.testBit_layers_of_not_isVia not_via, layer]
  exact bit

/-! ## Merges -/

section Merge

variable {side : Side} {other : Nat} {u : Track}

theorem keeps_overlapped (meet : b.Junction id side other t u) (same : t.sameEnds u = true) :
    b.KeepsConnection (b.remove other) net := by
  refine keeps_remove fun x y hx hy => connected_remove_covered meet.thereOther meet.there
    meet.net.symm meet.ne.symm (fun p => hasEndAt_of_sameEnds same) (fun k bit => ?_) hx hy
  rw [← meet.layers]
  exact bit

theorem conducts_mergedName (meet : b.Junction id side other t u) (h : b.Conducts net x) :
    (b.mergedAt id side other t u).Conducts net (mergedName id other x) := by
  have live := item?_mergedName meet h.item?
  by_cases isOther : x = .track other
  · rw [mergedName, if_pos isOther] at live ⊢
    exact conducts_of_item? live
  · rw [mergedName, if_neg isOther] at live ⊢
    have pads : b.pads = (b.mergedAt id side other t u).pads :=
      ((remove_pads _ other).trans (modify_pads b id _)).symm
    exact conducts_congr pads live h

/-- The junction is given up by the two traces alone, so contacts there are between names of the
merged trace. -/
theorem connected_mergedName (meet : b.Junction id side other t u)
    (free : b.padsUnder t side = []) (connected : b.Connected net x y) :
    (b.mergedAt id side other t u).Connected net (mergedName id other x)
      (mergedName id other y) := by
  induction connected with
  | refl there => exact .refl (conducts_mergedName meet there)
  | step _ last ih =>
    obtain ⟨p, k, first, second⟩ := inContact_iff.mp last
    rcases reached_after_merge meet first with still | ⟨inNet, isId, rfl, layer⟩
    · rcases reached_after_merge meet second with still' | ⟨inNet, isId, rfl, layer⟩
      · exact .step ih (inContact_iff.mpr ⟨p, k, still, still'⟩)
      · rw [isId, ← at_junction meet inNet free first layer]
        exact ih
    · rw [at_junction meet inNet free second layer, ← isId]
      exact ih

theorem keeps_merge (meet : b.Junction id side other t u) (ends : t.sameEnds u = false)
    (line : t.collinear u = true) (free : b.padsUnder t side = []) :
    b.KeepsConnection (b.mergedAt id side other t u) net := by
  have move : Move {} b _ (b.mergedAt id side other t u) := .merge rfl meet ends line free
  refine fun x y hx hy => ⟨move.was_connected, fun connected => ?_⟩
  have along := connected_mergedName meet free connected
  rwa [mergedName, mergedName, if_neg (ne_of_conducts hx), if_neg (ne_of_conducts hy)] at along

end Merge

/-! ## Dangling tracks -/

/-- Around an open end: what is not a leaf meets at the other end. -/
theorem connected_remove_open {side : Side} {leaf : Conductor → Prop}
    (there : b.track? id = some t) (straight : Run.isMalformedVia t = false)
    (opens : b.OpensAt net id t side leaf) (hx : x ≠ .track id) (hy : y ≠ .track id)
    (leafX : ¬ leaf x) (leafY : ¬ leaf y) (connected : b.Connected net x y) :
    (b.remove id).Connected net x y := by
  have alone (v z : Conductor) (is_leaf : leaf v) (contact : b.InContact net v z) :
      z = .track id ∨ z = v := by
    obtain ⟨p, k, reaches, reachesZ⟩ := inContact_iff.mp contact
    exact opens.alone v z p k is_leaf reaches reachesZ
  have meets (w : Conductor) (hw : w ≠ .track id) (contact : b.InContact net w (.track id)) :
      leaf w ∨ b.Reaches net w (t.point side.opposite) t.layer.number.toNat := by
    obtain ⟨_, p, k, reaches, ends, layer⟩ := (inContact_track there).mp contact
    exact (opens.otherwise straight hw reaches ends layer).imp_right And.right
  refine connected_remove alone (fun w z hw hz first second => ?_) hx hy leafX leafY connected
  rcases meets w hw first with is_leaf | reaches
  · exact .inr (.inl is_leaf)
  · rcases meets z hz second with is_leaf | reachesZ
    · exact .inr (.inr is_leaf)
    · have contact : b.InContact net w z := inContact_iff.mpr ⟨_, _, reaches, reachesZ⟩
      exact .inl ((inContact_remove hw hz).mpr contact).connected

theorem connected_of_loose (there : b.track? id = some t) (straight : b.StraightVias)
    (copper : b.CopperVias) (straightPast : past.StraightVias)
    (since : Fades (fun gone => dangles Scan.mk past gone = true) past b)
    (loose : dangles Scan.mk past id = true) (hx : x ≠ .track id) (hy : y ≠ .track id)
    (connected : b.Connected net x y) :
    (b.remove id).Connected net x y ∨ Stranded (b.remove id) x ∨ Stranded (b.remove id) y := by
  by_cases inNet : t.net = net
  · obtain ⟨side, leaf, opens⟩ := exists_opensAt there inNet
      (fun isVia _ => copper.low there isVia) straightPast since loose
    by_cases leafX : leaf x
    · exact .inr (.inl (opens.stranded x leafX connected.left.item?))
    · by_cases leafY : leaf y
      · exact .inr (.inr (opens.stranded y leafY connected.right.item?))
      · exact .inl (connected_remove_open there (straight id t there) opens hx hy leafX leafY
          connected)
  · have apart (w : Conductor) : ¬ b.InContact net w (.track id) := fun contact =>
      inNet ((inContact_track there).mp contact).1
    exact .inl (connected_remove_whole (fun w _ _ _ first _ => absurd first (apart w)) hx hy
      connected)

theorem Moves.connected_or_stranded {cs : List Change} (moves : Moves .onlyDangling b cs c)
    (straight : b.StraightVias) (copper : b.CopperVias) (hx : c.Conducts net x)
    (hy : c.Conducts net y) (connected : b.Connected net x y) :
    c.Connected net x y ∨ Stranded c x ∨ Stranded c y := by
  induction moves with
  | nil => exact .inl connected
  | @snoc _ _ c d before last ih =>
    have straightMid := stable_straightVias.moves before straight
    have copperMid := stable_copperVias.moves before copper
    have straightNet (id : Nat) (t : Track) (there : c.track? id = some t) (_ : t.net = net) :=
      straightMid id t there
    -- What was stranded before the last move still is, so only the first case looks at the move.
    rcases ih (last.conducted hx) (last.conducted hy) with still | left_over | left_over
    · cases last with
      | mend there bad =>
        rw [straightMid _ _ there] at bad
        cases bad
      | merge on =>
        cases on
      | leave there why =>
        cases why with
        | null on => rcases on with on | on <;> cases on
        | stacked on | onPad on | copy on | overlapped on | short on => cases on
        | loose _ straightPast since loose =>
          exact connected_of_loose there straightMid copperMid straightPast since loose
            (ne_of_conducts hx) (ne_of_conducts hy) still
    · exact .inr (.inl (left_over.move last straightNet hx.item?))
    · exact .inr (.inr (left_over.move last straightNet hy.item?))

end Board

/-! ## Steps of a run -/

namespace Run

variable {σ : Type} {r : Run Contacts σ} {net : UInt32}

theorem board_removals {step : Run Contacts σ → Nat → Run Contacts σ}
    (removes : ∀ r id, (step r id).board = r.board.remove id) (r : Run Contacts σ)
    (ids : List Nat) : (ids.foldl step r).board = ids.foldl Board.remove r.board := by
  induction ids generalizing r with
  | nil => rfl
  | cons id rest ih => rw [List.foldl_cons, ih, removes, List.foldl_cons]

theorem keeps_deleteNullSegments (r : Run Contacts σ) :
    r.board.KeepsConnection r.deleteNullSegments.1.board net := by
  unfold deleteNullSegments
  simp only
  rw [board_removals fun q => removeTrack_board q _]
  refine Board.keeps_removals fun c id t mem since live => ?_
  obtain ⟨u, there, null⟩ := Board.mem_ids_filter.mp mem
  cases there.symm.trans (since.was live)
  exact Board.keeps_null live null

theorem keeps_absorbed {id other : Nat} {t : Track} {c : Board}
    (there : r.board.track? id = some t) (not_via : t.isVia = false)
    (since : Board.Fades (· ∈ copiesOf r.board id t) r.board c)
    (copy : other ∈ copiesOf r.board id t) : c.KeepsConnection (c.remove other) net := by
  refine Board.keeps_of_live fun u live => ?_
  obtain ⟨later, u', there', sameNet, same⟩ := of_mem_copiesOf copy
  cases there'.symm.trans (since.was live)
  have self : id ∉ copiesOf r.board id t := fun mem => by
    have := (of_mem_copiesOf mem).1
    omega
  exact Board.keeps_copy (since.stays there self) live (Nat.ne_of_lt later) sameNet not_via same

theorem keeps_removeCopies {id : Nat} {t : Track} (there : r.board.track? id = some t)
    (not_via : t.isVia = false) :
    r.board.KeepsConnection (r.removeCopies id).1.board net := by
  unfold removeCopies
  rw [there]
  simp only
  rw [board_removals fun q => absorbTrack_board q _ id]
  exact Board.keeps_removals fun c other u mem since _ => keeps_absorbed there not_via since mem

theorem keeps_mergePair (fresh : r.Fresh) {id other : Nat} {side : Side}
    (only : r.board.attached id side = [other]) :
    r.board.KeepsConnection (r.mergePair id other side).1.board net := by
  rcases fresh.mergePair_cases only with
    ⟨idle, _⟩ | ⟨t, u, meet, ⟨same, gone⟩ | ⟨ends, line, free, stretched⟩⟩
  · rw [idle]
    exact .refl _ _
  · rw [gone, absorbTrack_board]
    exact Board.keeps_overlapped meet same
  · rw [stretched, absorbTrack_board, modifyTrack_board]
    exact Board.keeps_merge meet ends line free

theorem keeps_mergeAt (h : r.Coherent) (id : Nat) (side : Side) :
    r.board.KeepsConnection (r.mergeAt id side).1.board net := by
  have fresh := h.refresh_fresh
  have same := refresh_board r
  unfold mergeAt
  simp only
  split
  · next other only =>
    have pair : r.refresh.board.KeepsConnection (r.refresh.mergePair id other side).1.board net :=
      keeps_mergePair fresh ((fresh.connectedAt id side _).symm.trans only)
    rwa [same] at pair
  · rw [same]
    exact .refl _ _

theorem keeps_mergeOnce (h : r.Coherent) (id : Nat) :
    r.board.KeepsConnection (r.mergeOnce id).1.board net := by
  have first : r.board.KeepsConnection (r.mergeAt id .start).1.board net :=
    keeps_mergeAt h id .start
  have coherent := (goes_mergeAt (o := {}) rfl h id .start).coherent
  unfold mergeOnce
  split
  · next s merged =>
    rw [merged] at first
    exact first
  · next s kept =>
    rw [kept] at first coherent
    exact first.trans (keeps_mergeAt coherent id .stop)

theorem keeps_deleteDangling (h : r.Coherent) (straight : r.board.StraightVias)
    (copper : r.board.CopperVias) : r.board.KeepsConnection r.deleteDangling.1.board net := by
  have goes : Goes .onlyDangling r r.deleteDangling.1 := goes_danglingRounds rfl _ h straight
  obtain ⟨_, _, moves⟩ := goes.moves
  -- A stranded via would still dangle, and the last round has left nothing that does.
  have none_stranded (z : Conductor) : ¬ Board.Stranded r.deleteDangling.1.board z := by
    intro stranded
    obtain ⟨v, _, rfl, _⟩ := id stranded
    have dangling := Board.dangles_of_stranded stranded
    rw [deleteDangling, danglingRounds_connected _ h (Nat.le_refl _)] at dangling
    cases dangling
  refine fun x y hx hy => ⟨moves.was_connected, fun connected => ?_⟩
  rcases moves.connected_or_stranded straight copper hx hy connected with
    still | left_over | left_over
  · exact still
  · exact absurd left_over (none_stranded x)
  · exact absurd left_over (none_stranded y)

/-- Null segments, one copy of a trace or all of them, one merge, and all rounds of dangling tracks:
each of these steps keeps the connection of what it leaves. -/
theorem steps_keep_connection (r : Run Contacts σ) (h : r.Coherent)
    (straight : r.board.StraightVias) (copper : r.board.CopperVias) (net : UInt32) :
    r.board.KeepsConnection r.deleteNullSegments.1.board net ∧
      (∀ id t, r.board.track? id = some t → t.isVia = false →
        r.board.KeepsConnection (r.removeCopies id).1.board net ∧
          ∀ before other after, copiesOf r.board id t = before ++ other :: after →
            let s := before.foldl (absorbTrack .duplicateTrack id) r
            s.board.KeepsConnection (s.absorbTrack .duplicateTrack id other).board net) ∧
      (∀ id, r.board.KeepsConnection (r.mergeOnce id).1.board net) ∧
      r.board.KeepsConnection r.deleteDangling.1.board net := by
  refine ⟨keeps_deleteNullSegments r, fun id t there not_via => ⟨?_, ?_⟩, keeps_mergeOnce h,
    keeps_deleteDangling h straight copper⟩
  · exact keeps_removeCopies there not_via
  · intro before other after split
    have listed (n : Nat) (mem : n ∈ before ++ [other]) : n ∈ copiesOf r.board id t := by
      rw [split, List.append_cons]
      exact List.mem_append_left after mem
    have since := Board.fades_removals (fun n mem => listed n (List.mem_append_left _ mem))
      (Board.Fades.refl r.board)
    rw [← board_removals fun q => absorbTrack_board q .duplicateTrack id] at since
    intro s
    rw [absorbTrack_board]
    exact keeps_absorbed there not_via since (listed other (by simp))

/-- A trace from a pad that goes on in another one, a trace with a copy, a null trace, and a via from
which a trace leads nowhere. -/
def routed : Board :=
  let trace (uuid : String) (layer : Layer) (start stop : Point) : Option Track :=
    some ⟨uuid, start, stop, 200, layer, 1, .trace⟩
  { slots := [trace "a" .front ⟨0, 0⟩ ⟨10, 0⟩, trace "b" .front ⟨10, 0⟩ ⟨20, 0⟩,
      trace "c" .front ⟨20, 0⟩ ⟨20, 10⟩, trace "d" .front ⟨20, 10⟩ ⟨20, 0⟩,
      trace "e" .front ⟨20, 10⟩ ⟨20, 10⟩, some (.ofVia "v" ⟨20, 10⟩ 600 1 (.through 300)),
      trace "f" .back ⟨20, 10⟩ ⟨30, 10⟩]
    pads := [⟨"U1", "1", ⟨0, 0⟩, 1, .single .front, .smd⟩] }

theorem steps_keep_connection_routed :
    let r : Run Contacts Unit := start routed .silent ()
    routed.StraightVias ∧ routed.CopperVias ∧
      (r.deleteNullSegments.2 = true ∧ routed.KeepsConnection r.deleteNullSegments.1.board 1) ∧
      ((r.removeCopies 2).2 = true ∧
        routed.KeepsConnection (r.absorbTrack .duplicateTrack 2 3).board 1) ∧
      ((r.mergeOnce 0).2 = true ∧ routed.KeepsConnection (r.mergeOnce 0).1.board 1) ∧
      (r.deleteDangling.2 = true ∧ routed.KeepsConnection r.deleteDangling.1.board 1) := by
  intro r
  have straight : routed.StraightVias := Board.forall_track?_iff.mpr (by decide)
  have shapes : ∀ id t, routed.track? id = some t →
      t.shape = .trace ∨ t.shape = .via (.through 300) := Board.forall_track?_iff.mpr (by decide)
  have copper : routed.CopperVias := by
    intro id t span there shape
    rcases shapes id t there with e | e
    · rw [e] at shape
      cases shape
    · rw [e] at shape
      cases shape
      decide
  obtain ⟨null, copies, merge, loose⟩ :=
    steps_keep_connection r (start_fresh routed .silent ()).coherent straight copper 1
  have copy := (copies 2 _ rfl rfl).2 [] 3 [] (by decide)
  exact ⟨straight, copper, ⟨by decide, null⟩, ⟨by decide, copy⟩, ⟨by decide +kernel, merge 0⟩,
    ⟨by decide +kernel, loose⟩⟩

end Run
end CopperTidy
