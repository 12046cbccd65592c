import CopperTidy.Proofs.Origin
import CopperTidy.Proofs.Passes

/-! # What passes leave behind

After its pass, a board has no malformed vias, no needless through vias, no null traces, or no
contacts between nets; and it stays so until the end of the cleaning, since no move brings any of
these back.
-/

namespace CopperTidy
set_option autoImplicit false

/-! ## What each pass brings about -/

namespace Run

variable {σ : Type} {o : Options} {r : Run Contacts σ}

/-- A loop that removes leaves exactly the tracks that it does not name. -/
theorem track?_removals {step : Run Contacts σ → Nat → Run Contacts σ}
    (removes : ∀ r id, (step r id).board = r.board.remove id) (r : Run Contacts σ)
    (ids : List Nat) (id : Nat) :
    (ids.foldl step r).board.track? id = if id ∈ ids then none else r.board.track? id := by
  induction ids generalizing r with
  | nil => simp
  | cons first rest ih =>
    rw [List.foldl_cons, ih, removes, Board.track?_remove]
    by_cases e : id = first
    · simp [e]
    · simp [e]

theorem deleteNullSegments_noNull (r : Run Contacts σ) :
    r.deleteNullSegments.1.board.NoNull := by
  intro id t live
  unfold deleteNullSegments at live
  simp only at live
  rw [track?_removals fun q => removeTrack_board q _] at live
  split at live
  · cases live
  · next kept =>
    rw [Bool.eq_false_iff]
    exact fun null => kept (Board.mem_ids_filter.mpr ⟨t, live, null⟩)

theorem cleanSegments_noNull (on : o.mergeSegments = true) (h : r.Coherent) :
    r.cleanSegments.1.board.NoNull := by
  have null : Goes o r r.deleteNullSegments.1 := goes_deleteNullSegments (.inl on) h
  rw [cleanSegments_fst]
  exact (goes_copies_merges on null.coherent).keeps Board.stable_noNull
    (deleteNullSegments_noNull r)

/-! ## Vias stand alone -/

/-- A loop in which the step at an id brings a property about that no later step undoes. -/
theorem forEach_establishes {step : Run Contacts σ → Nat → Run Contacts σ × Bool}
    {I : Run Contacts σ → Prop} {P : Nat → Run Contacts σ → Prop} (ids : List Nat)
    (each : ∀ r id, I r → I (step r id).1 ∧ P id (step r id).1 ∧
      ∀ other, P other r → P other (step r id).1)
    (h : I r) : I (forEach step r ids).1 ∧ (∀ id ∈ ids, P id (forEach step r ids).1) ∧
      ∀ other, P other r → P other (forEach step r ids).1 := by
  induction ids generalizing r with
  | nil => exact ⟨h, by simp, fun _ p => p⟩
  | cons id rest ih =>
    obtain ⟨inv, here, keeps⟩ := each r id h
    obtain ⟨inv', others, keeps'⟩ := ih inv
    refine ⟨inv', ?_, fun other p => keeps' other (keeps other p)⟩
    intro other mem
    rcases List.mem_cons.mp mem with rfl | mem
    · exact keeps' other here
    · exact others other mem

/-- A through via at `id` has no later one at its point, and no pad through all layers. -/
def ViaDone (id : Nat) (r : Run Contacts σ) : Prop :=
  ∀ via, r.board.track? id = some via → via.isThroughVia = true →
    stackedOn r.board id via = [] ∧
      ∀ pad ∈ r.board.pads, pad.onAllCopper = true → pad.meets via = false

theorem ViaDone.fading {s : Run Contacts σ} {id : Nat} (h : ViaDone id r) (fading : Fading r s) :
    ViaDone id s := by
  intro via live through
  obtain ⟨alone, clear⟩ := h via (fading.board.was live) through
  refine ⟨?_, ?_⟩
  · rw [List.eq_nil_iff_forall_not_mem] at alone ⊢
    intro other mem
    obtain ⟨later, t, there, same⟩ := mem_stackedOn.mp mem
    exact alone other (mem_stackedOn.mpr ⟨later, t, fading.board.was there, same⟩)
  · rw [fading.board.pads]
    exact clear

theorem viaDone_cleanVia (faded : r.Faded) (id : Nat) : ViaDone id (r.cleanVia id).1 := by
  unfold cleanVia
  cases there : r.board.track? id with
  | none =>
    intro via live
    rw [there] at live
    cases live
  | some via =>
    simp only
    by_cases through : via.isThroughVia = true
    · rw [if_pos through]
      have gone := track?_removals (fun q id => removeTrack_board q .duplicateVia id) r
        (stackedOn r.board id via)
      have fading := fading_foldl (fun q => fading_removeTrack q .duplicateVia) r
        (stackedOn r.board id via)
      generalize (stackedOn r.board id via).foldl (removeTrack .duplicateVia) r = s at *
      have live : s.board.track? id = some via := by
        rw [gone, if_neg (not_mem_stackedOn _ _ _)]
        exact there
      split
      · intro via' live'
        rw [removeTrack_board, Board.track?_remove, if_pos rfl] at live'
        cases live'
      · next offPad =>
        intro via' live' _
        rw [live] at live'
        cases live'
        refine ⟨?_, fun pad mem copper => ?_⟩
        · rw [List.eq_nil_iff_forall_not_mem]
          intro other mem
          obtain ⟨later, t, there', same⟩ := mem_stackedOn.mp mem
          have listed : other ∈ stackedOn r.board id via :=
            mem_stackedOn.mpr ⟨later, t, fading.board.was there', same⟩
          rw [gone, if_pos listed] at there'
          cases there'
        · rw [Bool.eq_false_iff]
          exact fun meets => offPad (((faded.fading fading).onThroughPad live).mpr
            ⟨pad, mem, copper, meets⟩)
    · rw [if_neg through]
      intro via' live through'
      rw [there] at live
      cases live
      exact absurd through' through

theorem duplicateVias_comm (s t : Track) : s.duplicateVias t = t.duplicateVias s := by
  simp only [Track.duplicateVias, Bool.and_comm s.isThroughVia]
  congr 1
  exact Bool.beq_comm

/-- Of two stacked vias, the earlier one was looked at and took the other off the board. -/
theorem cleanVias_lone_clear (h : r.Coherent) :
    r.cleanVias.1.board.LoneVias ∧ r.cleanVias.1.board.ClearVias := by
  have faded := h.refresh_fresh.faded
  have each (q : Run Contacts σ) (id : Nat) (inv : Fading r.refresh q) :
      Fading r.refresh (q.cleanVia id).1 ∧ ViaDone id (q.cleanVia id).1 ∧
        ∀ other, ViaDone other q → ViaDone other (q.cleanVia id).1 := by
    have fading := fading_cleanVia q id
    exact ⟨inv.trans fading, viaDone_cleanVia (faded.fading inv) id,
      fun other done => done.fading fading⟩
  obtain ⟨fading, done, _⟩ := forEach_establishes r.refresh.board.ids each (.refl r.refresh)
  have done {id : Nat} {via : Track} (live : r.cleanVias.1.board.track? id = some via) :
      ViaDone id r.cleanVias.1 := by
    refine done id (Board.mem_ids.mpr ?_)
    rw [fading.board.was live]
    rfl
  refine ⟨fun i j s t hi hj same => ?_, fun id t live through => ?_⟩
  · have unordered {i j : Nat} {s t : Track} (hi : r.cleanVias.1.board.track? i = some s)
        (hj : r.cleanVias.1.board.track? j = some t) (same : s.duplicateVias t = true) :
        ¬ i < j := by
      intro lt
      have through : s.isThroughVia = true := by
        simp only [Track.duplicateVias, Bool.and_eq_true] at same
        exact same.1.1
      have alone := (done hi s hi through).1
      rw [List.eq_nil_iff_forall_not_mem] at alone
      exact alone j (mem_stackedOn.mpr ⟨lt, t, hj, same⟩)
    have first := unordered hi hj same
    have second := unordered hj hi (duplicateVias_comm s t ▸ same)
    omega
  · exact (done live t live through).2

/-! ## Nets are apart -/

section Shorts

variable {ι : Type} [ContactSource ι] (source : ι) (b : Board)

theorem condemned_subset (condemned : List Nat) (entries : List (Nat × Track)) {id : Nat}
    (mem : id ∈ condemned) : id ∈ entries.foldl (condemnShort source b) condemned := by
  induction entries generalizing condemned with
  | nil => exact mem
  | cons entry rest ih =>
    apply ih
    unfold condemnShort
    split
    · exact List.mem_append_left _ mem
    · exact mem

/-- A track that is not condemned touches no pad of another net, and what it touches of the tracks
of other nets is condemned. -/
theorem of_not_condemned (condemned : List Nat) (entries : List (Nat × Track)) {id : Nat}
    {t : Track} (listed : (id, t) ∈ entries)
    (kept : id ∉ entries.foldl (condemnShort source b) condemned) :
    touchesForeignPad source b id t = false ∧
      touchesForeignTrack source b (entries.foldl (condemnShort source b) condemned) id t =
        false := by
  induction entries generalizing condemned with
  | nil => simp at listed
  | cons entry rest ih =>
    rcases List.mem_cons.mp listed with rfl | listed
    · have apart : ¬ (touchesForeignPad source b id t ||
          touchesForeignTrack source b condemned id t) = true := by
        intro short
        apply kept
        rw [List.foldl_cons]
        refine condemned_subset source b _ rest ?_
        unfold condemnShort
        rw [if_pos short]
        exact List.mem_append_right _ List.mem_cons_self
      rw [Bool.or_eq_true, not_or] at apart
      refine ⟨Bool.eq_false_iff.mpr apart.1, Bool.eq_false_iff.mpr fun short => apart.2 ?_⟩
      unfold touchesForeignTrack at short ⊢
      rw [List.any_eq_true] at short ⊢
      obtain ⟨other, touches, foreign⟩ := short
      rw [Bool.and_eq_true] at foreign
      refine ⟨other, touches, Bool.and_eq_true_iff.mpr ⟨foreign.1, ?_⟩⟩
      have spared := foreign.2
      simp only [Bool.not_eq_true', List.contains_eq_mem, decide_eq_false_iff_not] at spared ⊢
      exact fun mem => spared (condemned_subset source b condemned _ mem)
    · exact ih (condemnShort source b condemned entry) listed kept

end Shorts

theorem removeShorts_noShort (r : Run Contacts σ) : r.removeShorts.1.board.NoShort := by
  let condemned := shorts (Contacts.build r.board) r.board
  have gone (id : Nat) : r.removeShorts.1.board.track? id =
      if id ∈ condemned then none else r.board.track? id :=
    track?_removals (fun q id => removeTrack_board q .misConnected id) r.rebuild condemned id
  have pads : r.removeShorts.1.board.pads = r.board.pads :=
    (fading_foldl (fun q => fading_removeTrack q .misConnected) r.rebuild condemned).board.pads
  have was {id : Nat} {t : Track} (live : r.removeShorts.1.board.track? id = some t) :
      id ∉ condemned ∧ r.board.track? id = some t := by
    rw [gone] at live
    split at live
    · cases live
    · next kept => exact ⟨kept, live⟩
  constructor
  · intro id t live pad mem meets
    rw [pads] at mem
    obtain ⟨kept, there⟩ := was live
    obtain ⟨foreign, _⟩ := of_not_condemned _ _ _ _ (Board.mem_tracks.mpr there) kept
    unfold touchesForeignPad at foreign
    rw [Contacts.padsOf_build, List.any_eq_false] at foreign
    obtain ⟨padId, listed⟩ := List.mem_iff_getElem?.mp mem
    have listed : r.board.pad? padId = some pad := listed
    have under : padId ∈ ContactSource.padsOf Scan.mk r.board id := by
      show padId ∈ ((r.board.track? id).map r.board.padsUnderEnds).getD []
      rw [there]
      exact Board.mem_padsUnderEnds.mpr ⟨pad, listed, meets⟩
    have same := foreign padId under
    rw [listed] at same
    simpa using same
  · intro i j s t hi hj touches
    obtain ⟨keptI, thereI⟩ := was hi
    obtain ⟨keptJ, thereJ⟩ := was hj
    by_cases e : j = i
    · subst e
      rw [thereI] at thereJ
      cases thereJ
      rfl
    · have foreign : touchesForeignTrack (Contacts.build r.board) r.board condemned i s = false :=
        (of_not_condemned _ _ _ _ (Board.mem_tracks.mpr thereI) keptI).2
      unfold touchesForeignTrack at foreign
      rw [Contacts.tracksOf_build, List.any_eq_false] at foreign
      have listed : j ∈ ContactSource.tracksOf Scan.mk r.board i := by
        show j ∈ ((r.board.track? i).map (r.board.tracksTouching i)).getD []
        rw [thereI]
        exact Board.mem_ids_filter.mpr ⟨t, thereJ, by simp [e, touches]⟩
      have apart := foreign j listed
      have spared : condemned.contains j = false := by simpa using keptJ
      rw [thereJ, Option.any_some, spared] at apart
      have same : t.net = s.net := by simpa using apart
      exact same.symm

theorem shortPass_board (r : Run Contacts σ) :
    (shortPass r).1.board = r.removeShorts.1.board := by
  unfold shortPass
  cases r.removeShorts with
  | mk s changed => cases changed <;> rfl

theorem shortPass_noShort (r : Run Contacts σ) : (shortPass r).1.board.NoShort := by
  rw [shortPass_board]
  exact removeShorts_noShort r

/-! ## Nothing dangles -/

theorem Fresh.condemned_eq_nil_iff (fresh : r.Fresh) :
    r.board.ids.filter (dangles r.contacts r.board) = [] ↔
      ∀ id, dangles Scan.mk r.board id = false := by
  rw [List.eq_nil_iff_forall_not_mem]
  refine forall_congr' fun id => ?_
  rw [fresh.mem_dangling, Bool.not_eq_true]

theorem trackCount_pos {b : Board} {id : Nat} {t : Track} (there : b.track? id = some t) :
    0 < b.trackCount := by
  have mem := Board.mem_tracks.mpr there
  exact List.length_pos_of_mem mem

/-- A board on which a track is gone, and none is new, has fewer tracks. -/
theorem trackCount_lt {b c : Board} (old : ∀ id t, c.track? id = some t → (b.track? id).isSome = true)
    {id : Nat} (there : (b.track? id).isSome = true) (gone : c.track? id = none) :
    c.trackCount < b.trackCount := by
  have absent : id ∉ c.ids := by
    rw [Board.mem_ids, gone]
    exact Bool.false_ne_true
  have nodup : (id :: c.ids).Nodup :=
    List.nodup_cons.mpr ⟨absent, c.ids_ascending.imp fun lt => Nat.ne_of_lt lt⟩
  have subset : id :: c.ids ⊆ b.ids := by
    intro other mem
    rcases List.mem_cons.mp mem with rfl | mem
    · exact Board.mem_ids.mpr there
    · obtain ⟨t, live⟩ := Option.isSome_iff_exists.mp (Board.mem_ids.mp mem)
      exact Board.mem_ids.mpr (old other t live)
  have le := nodup.length_le_of_subset subset
  simp only [Board.ids, List.length_cons, List.length_map] at le
  exact le

theorem dangles_of_dead {b : Board} {id : Nat} (h : b.track? id = none) :
    dangles Scan.mk b id = false := by
  simp [dangles, endDangles, h]

/-- A round takes a track away, if anything dangles. -/
theorem round_trackCount
    (some_loose : r.board.ids.filter (dangles r.contacts r.board) ≠ []) :
    ((r.board.ids.filter (dangles r.contacts r.board)).foldl (removeTrack .dangling)
      r).board.trackCount < r.board.trackCount := by
  obtain ⟨first, listed⟩ := List.exists_mem_of_ne_nil _ some_loose
  have gone := track?_removals (fun q id => removeTrack_board q .dangling id) r
    (r.board.ids.filter (dangles r.contacts r.board))
  have fading := fading_foldl (fun q => fading_removeTrack q .dangling) r
    (r.board.ids.filter (dangles r.contacts r.board))
  exact trackCount_lt (fun id t live => by rw [fading.board.was live]; rfl)
    (Board.mem_ids.mp (List.mem_filter.mp listed).1) ((gone first).trans (if_pos listed))

/-- Rounds as many as there are tracks are enough: each takes one away. -/
theorem danglingRounds_connected (limit : Nat) (h : r.Coherent)
    (enough : r.board.trackCount ≤ limit) (id : Nat) :
    dangles Scan.mk (danglingRounds limit r).1.board id = false := by
  induction limit generalizing r with
  | zero =>
    refine dangles_of_dead ?_
    cases there : r.board.track? id with
    | none => exact there
    | some t =>
      have := trackCount_pos there
      omega
  | succ limit ih =>
    have fresh := h.refresh_fresh
    unfold danglingRounds
    simp only
    split
    · next none =>
      exact fresh.condemned_eq_nil_iff.mp (List.isEmpty_iff.mp none) id
    · next some_loose =>
      have fewer := round_trackCount fun none => some_loose (List.isEmpty_iff.mpr none)
      have same : r.refresh.board.trackCount = r.board.trackCount := by rw [refresh_board]
      exact ih (coherent_removals fresh.coherent .dangling _) (by omega)

/-! ## A whole cleaning -/

theorem afterSegments_noNull (nulls : o.mergeSegments = true ∨ o.removeMisconnected = true)
    (r : Run Contacts σ) : (afterSegments o r).board.NoNull := by
  unfold afterSegments segmentPass
  split
  · next merges => exact cleanSegments_noNull merges (coherent_afterVias o r)
  · next keeps =>
    rw [if_pos (nulls.resolve_left keeps)]
    exact deleteNullSegments_noNull _

/-- What a cleaning leaves behind, by the passes that are switched on. -/
theorem cleanup_tidy (on : o.anyEnabled = true) (r : Run Contacts σ) :
    let c := (cleanup o r).1.board
    c.StraightVias ∧ (o.cleanVias = true → c.LoneVias ∧ c.ClearVias) ∧
      (o.mergeSegments = true ∨ o.removeMisconnected = true → c.NoNull) ∧
      (o.removeMisconnected = true → c.NoShort) := by
  have ends := coherent_afterEnds r
  have segments : Goes o (afterVias o r) (afterSegments o r) := goes_afterSegments r id id
  have shorts : Goes o (afterSegments o r) (afterShorts o r) := goes_afterShorts r id
  have dangling : Goes o (afterShorts o r) (afterDangling o r) := goes_afterDangling r id id
  simp only [cleanup_fst on]
  refine ⟨?_, fun cleans => ?_, fun nulls => ?_, fun apart => ?_⟩
  · exact dangling.keeps Board.stable_straightVias (straight_afterShorts o r)
  · have tidy : (afterVias o r).board.LoneVias ∧ (afterVias o r).board.ClearVias := by
      unfold afterVias when
      rw [cleans]
      exact cleanVias_lone_clear ends
    have rest := (segments.trans shorts).trans dangling
    exact ⟨rest.keeps Board.stable_loneVias tidy.1, rest.keeps Board.stable_clearVias tidy.2⟩
  · exact (shorts.trans dangling).keeps Board.stable_noNull (afterSegments_noNull nulls r)
  · have tidy : (afterShorts o r).board.NoShort := by
      unfold afterShorts when
      rw [apart]
      exact shortPass_noShort _
    exact dangling.keeps Board.stable_noShort tidy

end Run

namespace Board

/-- After a cleaning that looks for shorts no end of a track is on a plated pad of another net on a
layer of both, and no two tracks of different nets have an end and a layer in common. -/
theorem clean_apart (b : Board) (o : Options) (on : o.removeMisconnected = true) :
    let c := (b.clean o).board
    (∀ id t, c.track? id = some t → ∀ pad ∈ c.pads, pad.kind ≠ .nonPlated →
      t.hasEndAt pad.position = true → pad.layers.intersects t.layers = true →
        pad.net = t.net) ∧
      ∀ i j s t, c.track? i = some s → c.track? j = some t → s.net ≠ t.net →
        ∀ p, s.hasEndAt p = true → t.hasEndAt p = true → s.sharesLayer t = false := by
  have enabled : o.anyEnabled = true := by simp [Options.anyEnabled, on]
  obtain ⟨_, _, _, apart⟩ := Run.cleanup_tidy enabled (Run.start b Observer.silent ())
  rw [clean_board]
  obtain ⟨pads, tracks⟩ := apart on
  refine ⟨fun id t live pad mem plated ends layers => ?_, fun i j s t hi hj foreign p endS endT => ?_⟩
  · refine pads id t live pad mem (Pad.meets_iff.mpr ⟨pad.position, ends, ?_⟩)
    simp [Pad.hits, plated, layers]
  · refine Bool.eq_false_iff.mpr fun shares => foreign ?_
    exact tracks i j s t hi hj (Track.touches_iff.mpr ⟨p, endS, endT, shares⟩)

/-- A row of three traces whose middle one is of another net, with a pad at its end, and below the
second joint a trace of that net on the back. The first two of the row are condemned. The last one
stays beside the second, and the trace on the back ends where the last one begins. -/
def chain : Board :=
  let trace (uuid : String) (net : UInt32) (layer : Layer) (start stop : Point) : Option Track :=
    some ⟨uuid, start, stop, 200, layer, net, .trace⟩
  { slots := [trace "a" 1 .front ⟨0, 0⟩ ⟨10, 0⟩, trace "b" 2 .front ⟨10, 0⟩ ⟨20, 0⟩,
      trace "c" 1 .front ⟨20, 0⟩ ⟨30, 0⟩, trace "d" 2 .back ⟨20, 0⟩ ⟨20, 10⟩]
    pads := [⟨"U1", "1", ⟨30, 0⟩, 1, .single .front, .smd⟩] }

theorem clean_apart_chain :
    let c := (chain.clean .onlyMisconnected).board
    let third : Track := ⟨"c", ⟨20, 0⟩, ⟨30, 0⟩, 200, .front, 1, .trace⟩
    let below : Track := ⟨"d", ⟨20, 0⟩, ⟨20, 10⟩, 200, .back, 2, .trace⟩
    Options.onlyMisconnected.removeMisconnected = true ∧ c.tracks = [(2, third), (3, below)] ∧
      third.sharesLayer below = false ∧
      (∀ id t, c.track? id = some t → ∀ pad ∈ c.pads, pad.kind ≠ .nonPlated →
        t.hasEndAt pad.position = true → pad.layers.intersects t.layers = true →
          pad.net = t.net) ∧
        ∀ i j s t, c.track? i = some s → c.track? j = some t → s.net ≠ t.net →
          ∀ p, s.hasEndAt p = true → t.hasEndAt p = true → s.sharesLayer t = false := by
  intro c third below
  have stay : c.tracks = [(2, third), (3, below)] := by decide +kernel
  have there : c.track? 2 = some third := mem_tracks.mp (by rw [stay]; decide)
  have thereBelow : c.track? 3 = some below := mem_tracks.mp (by rw [stay]; decide)
  obtain ⟨pads, tracks⟩ := clean_apart chain .onlyMisconnected rfl
  have apart : third.sharesLayer below = false :=
    tracks 2 3 third below there thereBelow (by decide) ⟨20, 0⟩ (by decide) (by decide)
  exact ⟨rfl, stay, apart, pads, tracks⟩

end Board
end CopperTidy
