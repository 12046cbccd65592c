import CopperTidy.Board.CopperGraph
import CopperTidy.Proofs.Gathered
import CopperTidy.Proofs.Islands.Count

/-! # Islands are components

The islands of a net are the components of its graph, whatever the order in which the graph was
put together, and they are the classes of items that the rows of a snapshot relate. The two are
counted against the groups of joined items: an item goes to the group that holds it, and two items
go to one group just if they are linked.
-/

namespace CopperTidy
set_option autoImplicit false

namespace Board

variable {b : Board} {net : UInt32} {x y : Conductor}

/-! ## Counting classes -/

/-- An item lies in one group only. -/
theorem group_unique {i j : Fin (b.islandGroups net).length} {item : CopperItem}
    (hi : item ∈ (b.islandGroups net)[i]) (hj : item ∈ (b.islandGroups net)[j]) : i = j := by
  have disjoint := List.pairwise_iff_getElem.mp (b.islandGroups_disjoint net)
  rcases Nat.lt_trichotomy i j with lt | same | gt
  · exact absurd rfl (disjoint i j i.2 j.2 lt item hi item hj)
  · exact Fin.ext same
  · exact absurd rfl (disjoint j i j.2 i.2 gt item hj item hi)

theorem exists_group (there : (b.item? net x).isSome = true) :
    ∃ i : Fin (b.islandGroups net).length, ∃ item ∈ (b.islandGroups net)[i],
      b.item? net x = some item := by
  obtain ⟨item, named⟩ := Option.isSome_iff_exists.mp there
  have listed : item ∈ b.copperOf net :=
    mem_copperOf.mpr ((conductor_of_item? named).symm ▸ named)
  obtain ⟨g, mem, inside⟩ := (b.islandGroups_split net).mem_iff.mp listed
  obtain ⟨i, lt, rfl⟩ := List.mem_iff_getElem.mp mem
  exact ⟨⟨i, lt⟩, item, inside, named⟩

/-- Two items are in one group just if they are linked. -/
theorem group_eq_iff {i j : Fin (b.islandGroups net).length} {item other : CopperItem}
    (hi : item ∈ (b.islandGroups net)[i]) (hj : other ∈ (b.islandGroups net)[j]) :
    i = j ↔ b.Linked net item.conductor other.conductor := by
  have both := mem_island_iff (List.getElem_mem i.2) hi (j := other)
  constructor
  · rintro rfl
    exact (both.mp hj).2
  · intro linked
    have listed := (b.islandGroups_split net).mem_iff.mpr ⟨_, List.getElem_mem j.2, hj⟩
    exact group_unique (both.mpr ⟨listed, linked⟩) hj

/-- Names for the items of a net, related so that related items are linked and joined items are
related. -/
structure Names (b : Board) (net : UInt32) {β : Type} (name : β → Conductor) (r : β → β → Prop) :
    Prop where
  there : ∀ x, (b.item? net (name x)).isSome = true
  onto : ∀ c, (b.item? net c).isSome = true → ∃ x, name x = c
  apart : Function.Injective name
  sound : ∀ x y, r x y → b.Linked net (name x) (name y)
  complete : ∀ x y, b.Joined net (name x) (name y) → x = y ∨ r x y ∨ r y x

namespace Names

variable {β : Type} {name : β → Conductor} {r : β → β → Prop}

theorem mk_eq_of_linked (h : b.Names net name r) {x y : β}
    (linked : b.Linked net (name x) (name y)) : Quot.mk r x = Quot.mk r y := by
  generalize e : name y = c at linked
  induction linked generalizing y with
  | refl => rw [h.apart e]
  | @step z _ _ last ih =>
    subst e
    obtain ⟨w, rfl⟩ := h.onto z last.left
    rw [ih rfl]
    rcases h.complete w y last with rfl | forth | back
    · rfl
    · exact Quot.sound forth
    · exact (Quot.sound back).symm

/-- There is one class for each group. -/
theorem card_eq (h : b.Names net name r) : Nat.card (Quot r) = (b.islandGroups net).length := by
  choose group item inside named using fun x => exists_group (h.there x)
  have linked_iff (x y : β) : group x = group y ↔ b.Linked net (name x) (name y) := by
    rw [group_eq_iff (inside x) (inside y), conductor_of_item? (named x),
      conductor_of_item? (named y)]
  let place : Quot r → Fin (b.islandGroups net).length :=
    Quot.lift group fun x y related => (linked_iff x y).mpr (h.sound x y related)
  have bijective : Function.Bijective place := by
    constructor
    · rintro ⟨x⟩ ⟨y⟩ same
      exact h.mk_eq_of_linked ((linked_iff x y).mp same)
    · intro i
      have split := b.islandGroups_split net
      obtain ⟨j, mem⟩ := List.exists_mem_of_ne_nil _ (split.nonempty _ (List.getElem_mem i.2))
      have listed := mem_copperOf.mp (split.mem_iff.mpr ⟨_, List.getElem_mem i.2, mem⟩)
      obtain ⟨x, name⟩ := h.onto j.conductor (by rw [listed]; rfl)
      have same : item x = j := by
        have := named x
        rw [name, listed] at this
        exact (Option.some.inj this).symm
      exact ⟨Quot.mk r x, group_unique (same ▸ inside x) mem⟩
  rw [Nat.card_eq_of_bijective place bijective, Nat.card_fin]

end Names

end Board

/-! ## Classes of a snapshot -/

/-- Two tracks are related that have each other in their rows, and a track and a pad if the row of
the track has the pad. -/
def Contacts.Related (c : Contacts) : Conductor → Conductor → Prop
  | .track m, .track n =>
    (∃ row, c.row? m = some row ∧ n ∈ row.tracks) ∧ ∃ row, c.row? n = some row ∧ m ∈ row.tracks
  | .track m, .pad k | .pad k, .track m => ∃ row, c.row? m = some row ∧ k ∈ row.pads
  | .pad _, .pad _ => False

theorem Contacts.Related.symm {c : Contacts} {x y : Conductor} (h : c.Related x y) :
    c.Related y x := by
  cases x <;> cases y
  · exact ⟨h.2, h.1⟩
  · exact h
  · exact h
  · exact h

namespace Board

variable {b : Board} {net : UInt32} {x y : Conductor}

/-- The live tracks and the pads of a net. -/
def NetItem (b : Board) (net : UInt32) : Type := { x : Conductor // (b.item? net x).isSome = true }

/-- Are two items of a net in one row? -/
def RowsRelate (b : Board) (net : UInt32) (x y : b.NetItem net) : Prop :=
  (Contacts.build b).Related x.1 y.1

instance (b : Board) (net : UInt32) : Std.Symm (b.RowsRelate net) := ⟨fun _ _ => .symm⟩

/-- Items of a net that the rows of a snapshot relate, directly or through others. -/
def islandSetoid (b : Board) (net : UInt32) : Setoid (b.NetItem net) where
  r := Relation.ReflTransGen (b.RowsRelate net)
  iseqv := ⟨fun _ => .refl, fun h => symm_of _ h, .trans⟩

theorem rows_of_track {m : Nat} {t : Track} (live : b.track? m = some t) (P : Touching → Prop) :
    (∃ row, (Contacts.build b).row? m = some row ∧ P row) ↔ P (Touching.of b m t) := by
  rw [Contacts.row?_build, live, Option.map_some]
  simp only [Option.some.injEq, exists_eq_left']

/-- The rows relate items that are joined; no row has its own track. -/
theorem related_iff (hx : (b.item? net x).isSome = true) (hy : (b.item? net y).isSome = true) :
    (Contacts.build b).Related x y ↔ x ≠ y ∧ b.Joined net x y := by
  obtain ⟨i, hi⟩ := Option.isSome_iff_exists.mp hx
  obtain ⟨j, hj⟩ := Option.isSome_iff_exists.mp hy
  have joined_iff : b.Joined net x y ↔ i.joined j = true := by
    simp only [Joined, hi, hj, Option.some.injEq, exists_and_left, exists_eq_left']
  have pad_iff {m k : Nat} {t : Track} {pad : Pad} (live : b.track? m = some t)
      (there : b.pad? k = some pad) :
      (∃ row, (Contacts.build b).row? m = some row ∧ k ∈ row.pads) ↔ pad.meets t = true := by
    rw [rows_of_track live fun row => k ∈ row.pads]
    show k ∈ b.padsUnderEnds t ↔ _
    rw [mem_padsUnderEnds, there]
    simp only [Option.some.injEq, exists_eq_left']
  rw [joined_iff]
  cases x with
  | track m =>
    obtain ⟨t, live, _, rfl⟩ := item?_track.mp hi
    cases y with
    | track n =>
      obtain ⟨u, live', _, rfl⟩ := item?_track.mp hj
      simp only [Contacts.Related]
      rw [rows_of_track live fun row => n ∈ row.tracks, rows_of_track live' fun row => m ∈ row.tracks]
      show n ∈ b.tracksTouching m t ∧ m ∈ b.tracksTouching n u ↔ _ ∧ t.touches u = true
      simp only [mem_tracksTouching, live, live', Option.some.injEq, exists_eq_left',
        Track.touches_comm u t, ne_eq, Conductor.track.injEq, eq_comm (a := n), and_self]
    | pad k =>
      obtain ⟨pad, there, _, rfl⟩ := item?_pad.mp hj
      exact (pad_iff live there).trans ⟨fun meets => ⟨nofun, meets⟩, And.right⟩
  | pad k =>
    obtain ⟨pad, there, _, rfl⟩ := item?_pad.mp hi
    cases y with
    | track m =>
      obtain ⟨t, live, _, rfl⟩ := item?_track.mp hj
      exact (pad_iff live there).trans ⟨fun meets => ⟨nofun, meets⟩, And.right⟩
    | pad k' =>
      obtain ⟨pad', _, _, rfl⟩ := item?_pad.mp hj
      exact ⟨False.elim, fun h => Bool.false_ne_true h.2⟩

theorem names_rows (b : Board) (net : UInt32) :
    b.Names net (fun x : b.NetItem net => x.1) (b.islandSetoid net).r where
  there x := x.2
  onto c there := ⟨⟨c, there⟩, rfl⟩
  apart := Subtype.val_injective
  sound x y related := by
    induction related with
    | refl => exact .refl x.2
    | @tail y z _ last ih => exact .step ih ((related_iff y.2 z.2).mp last).2
  complete x y joined := by
    by_cases same : x = y
    · exact .inl same
    · have ne : x.1 ≠ y.1 := fun e => same (Subtype.ext e)
      exact .inr (.inl (.single ((related_iff x.2 y.2).mpr ⟨ne, joined⟩)))

end Board

/-! ## The graph -/

/-- In an ascending list the pairs are those of a smaller and a greater member. -/
theorem mem_pairs {l : List Nat} (ascending : l.Pairwise (· < ·)) {m n : Nat} :
    (m, n) ∈ pairs l ↔ m ∈ l ∧ n ∈ l ∧ m < n := by
  induction l with
  | nil => simp [pairs]
  | cons x rest ih =>
    obtain ⟨above, ascending'⟩ := List.pairwise_cons.mp ascending
    rw [pairs, List.mem_append, ih ascending', List.mem_map, List.mem_cons, List.mem_cons]
    constructor
    · rintro (⟨y, mem, same⟩ | ⟨memM, memN, lt⟩)
      · cases same
        exact ⟨.inl rfl, .inr mem, above n mem⟩
      · exact ⟨.inr memM, .inr memN, lt⟩
    · rintro ⟨isM | memM, isN | memN, lt⟩
      · exact absurd (isM.trans isN.symm) (Nat.ne_of_lt lt)
      · exact .inl ⟨n, memN, isM ▸ rfl⟩
      · exact absurd lt (Nat.lt_asymm (isN ▸ above m memM))
      · exact .inr ⟨memM, memN, lt⟩

theorem Pad.meets_iff_position {pad : Pad} {t : Track} : pad.meets t = true ↔
    t.hasEndAt pad.position = true ∧ pad.hits pad.position t.layers = true := by
  rw [Pad.meets_iff]
  constructor
  · rintro ⟨p, ends, hits⟩
    have here : pad.position = p := by
      simp only [Pad.hits, Bool.and_eq_true, beq_iff_eq] at hits
      exact hits.1.2
    exact ⟨here ▸ ends, here ▸ hits⟩
  · rintro ⟨ends, hits⟩
    exact ⟨_, ends, hits⟩

namespace Board

variable {b : Board} {net : UInt32} {x y : Conductor} {table : PointTable}

theorem nodes_netGraph (b : Board) (net : UInt32) (table : PointTable) :
    (b.netGraph net table).nodes = (b.copperOf net).map CopperItem.conductor := by
  rw [copperOf, List.map_append, List.map_map, List.map_map]
  rfl

theorem mem_nodes : x ∈ (b.netGraph net table).nodes ↔ (b.item? net x).isSome = true := by
  rw [nodes_netGraph, List.mem_map]
  constructor
  · rintro ⟨i, mem, rfl⟩
    rw [mem_copperOf.mp mem]
    rfl
  · intro there
    obtain ⟨i, named⟩ := Option.isSome_iff_exists.mp there
    have name := conductor_of_item? named
    exact ⟨i, mem_copperOf.mpr (name.symm ▸ named), name⟩

theorem nodes_nodup (b : Board) (net : UInt32) (table : PointTable) :
    (b.netGraph net table).nodes.Nodup := by
  rw [nodes_netGraph]
  refine (b.copperOf_nodup net).map_on fun i hi j hj same => ?_
  have named := mem_copperOf.mp hi
  rw [same, mem_copperOf.mp hj] at named
  exact (Option.some.inj named).symm

theorem look_netTable (same : table.Rearranged (b.netTable net)) (p : Point) :
    table.look p =
      ((b.tracksInNet net).filter fun entry => entry.2.hasEndAt p).map (·.1) := by
  rw [same.look_eq, netTable, PointTable.look_ofTracks]

theorem mem_look_netTable (same : table.Rearranged (b.netTable net)) {p : Point} {m : Nat} :
    m ∈ table.look p ↔
      ∃ t, b.track? m = some t ∧ t.net = net ∧ t.hasEndAt p = true := by
  rw [look_netTable same, tracksInNet, List.filter_filter, mem_ids_filter]
  simp only [Bool.and_eq_true, beq_iff_eq, and_comm (a := _ = net)]

theorem look_netTable_ascending (same : table.Rearranged (b.netTable net)) (p : Point) :
    (table.look p).Pairwise (· < ·) := by
  rw [look_netTable same, tracksInNet, List.filter_filter]
  exact b.ids_filter_ascending _

/-- The edges: from a track to a later one at one of its ends, and from a pad to a track there. -/
theorem mem_edges (same : table.Rearranged (b.netTable net)) :
    (x, y) ∈ (b.netGraph net table).edges ↔
      (∃ m n p, x = .track m ∧ y = .track n ∧ m ∈ table.look p ∧ n ∈ table.look p ∧ m < n ∧
        b.shareLayer m n = true) ∨
      ∃ k m pad t, x = .pad k ∧ y = .track m ∧ b.pad? k = some pad ∧ pad.net = net ∧
        m ∈ table.look pad.position ∧ b.track? m = some t ∧
          pad.hits pad.position t.layers = true := by
  simp only [netGraph, List.mem_append, List.mem_flatMap, List.mem_map, List.mem_filter]
  constructor
  · rintro (⟨⟨p, found⟩, entry, ⟨m, n⟩, ⟨pair, layer⟩, eq⟩ |
      ⟨⟨pad, k⟩, ⟨listed, inNet⟩, m, ⟨here, hits⟩, eq⟩)
    · cases eq
      cases PointTable.look_of_mem entry
      obtain ⟨memM, memN, lt⟩ := (mem_pairs (look_netTable_ascending same p)).mp pair
      exact .inl ⟨m, n, p, rfl, rfl, memM, memN, lt, layer⟩
    · cases eq
      obtain ⟨t, live, hits⟩ := (Option.any_eq_true _ _).mp hits
      exact .inr ⟨k, m, pad, t, rfl, rfl, List.mem_zipIdx_iff_getElem?.mp listed,
        by simpa using inNet, here, live, hits⟩
  · rintro (⟨m, n, p, rfl, rfl, memM, memN, lt, layer⟩ |
      ⟨k, m, pad, t, rfl, rfl, there, inNet, here, live, hits⟩)
    · exact .inl ⟨(p, table.look p), PointTable.mem_entries_of_look memM, (m, n),
        ⟨(mem_pairs (look_netTable_ascending same p)).mpr ⟨memM, memN, lt⟩, layer⟩, rfl⟩
    · exact .inr ⟨(pad, k), ⟨List.mem_zipIdx_iff_getElem?.mpr there, by simpa using inNet⟩, m,
        ⟨here, (Option.any_eq_true _ _).mpr ⟨t, live, hits⟩⟩, rfl⟩

theorem edge_joined (same : table.Rearranged (b.netTable net))
    (edge : (x, y) ∈ (b.netGraph net table).edges) : b.Joined net x y := by
  rcases (mem_edges same).mp edge with ⟨m, n, p, rfl, rfl, memM, memN, _, layer⟩ |
    ⟨k, m, pad, t, rfl, rfl, there, inNet, here, live, hits⟩
  · obtain ⟨t, live, inNet, ends⟩ := (mem_look_netTable same).mp memM
    obtain ⟨u, live', inNet', ends'⟩ := (mem_look_netTable same).mp memN
    rw [shareLayer, live, live', Option.any_some, Option.any_some] at layer
    exact ⟨.track m t, .track n u, item?_track.mpr ⟨t, live, inNet, rfl⟩,
      item?_track.mpr ⟨u, live', inNet', rfl⟩, Track.touches_iff.mpr ⟨p, ends, ends', layer⟩⟩
  · obtain ⟨t', live', inNet', ends⟩ := (mem_look_netTable same).mp here
    cases live.symm.trans live'
    exact ⟨.pad k pad, .track m t, item?_pad.mpr ⟨pad, there, inNet, rfl⟩,
      item?_track.mpr ⟨t, live, inNet', rfl⟩, Pad.meets_iff_position.mpr ⟨ends, hits⟩⟩

theorem edge_of_joined (same : table.Rearranged (b.netTable net)) (joined : b.Joined net x y) :
    x = y ∨ (x, y) ∈ (b.netGraph net table).edges ∨ (y, x) ∈ (b.netGraph net table).edges := by
  have of_pad {k m : Nat} {pad : Pad} {t : Track} (there : b.pad? k = some pad)
      (inNet : pad.net = net) (live : b.track? m = some t) (inNet' : t.net = net)
      (meets : pad.meets t = true) :
      (.pad k, .track m) ∈ (b.netGraph net table).edges := by
    obtain ⟨ends, hits⟩ := Pad.meets_iff_position.mp meets
    exact (mem_edges same).mpr (.inr ⟨k, m, pad, t, rfl, rfl, there, inNet,
      (mem_look_netTable same).mpr ⟨t, live, inNet', ends⟩, live, hits⟩)
  have of_tracks {m n : Nat} {t u : Track} (live : b.track? m = some t) (inNet : t.net = net)
      (live' : b.track? n = some u) (inNet' : u.net = net) (touch : t.touches u = true)
      (lt : m < n) : (.track m, .track n) ∈ (b.netGraph net table).edges := by
    obtain ⟨p, ends, ends', layer⟩ := Track.touches_iff.mp touch
    refine (mem_edges same).mpr (.inl ⟨m, n, p, rfl, rfl,
      (mem_look_netTable same).mpr ⟨t, live, inNet, ends⟩,
      (mem_look_netTable same).mpr ⟨u, live', inNet', ends'⟩, lt, ?_⟩)
    rw [shareLayer, live, live']
    exact layer
  obtain ⟨i, j, hi, hj, joins⟩ := joined
  cases x with
  | track m =>
    obtain ⟨t, live, inNet, rfl⟩ := item?_track.mp hi
    cases y with
    | track n =>
      obtain ⟨u, live', inNet', rfl⟩ := item?_track.mp hj
      rcases Nat.lt_trichotomy m n with lt | rfl | gt
      · exact .inr (.inl (of_tracks live inNet live' inNet' joins lt))
      · exact .inl rfl
      · exact .inr (.inr (of_tracks live' inNet' live inNet (Track.touches_comm t u ▸ joins) gt))
    | pad k =>
      obtain ⟨pad, there, inNet', rfl⟩ := item?_pad.mp hj
      exact .inr (.inr (of_pad there inNet' live inNet joins))
  | pad k =>
    obtain ⟨pad, there, inNet, rfl⟩ := item?_pad.mp hi
    cases y with
    | track m =>
      obtain ⟨t, live, inNet', rfl⟩ := item?_track.mp hj
      exact .inr (.inl (of_pad there inNet live inNet' joins))
    | pad k' =>
      obtain ⟨pad', _, _, rfl⟩ := item?_pad.mp hj
      cases joins

theorem names_netGraph (same : table.Rearranged (b.netTable net)) :
    b.Names net (fun x : { x // x ∈ (b.netGraph net table).nodes } => x.1)
      fun x y => (x.1, y.1) ∈ (b.netGraph net table).edges where
  there x := mem_nodes.mp x.2
  onto c there := ⟨⟨c, mem_nodes.mpr there⟩, rfl⟩
  apart := Subtype.val_injective
  sound _ _ edge := (edge_joined same edge).linked
  complete _ _ joined := (edge_of_joined same joined).imp_left Subtype.ext

/-! ## The count -/

theorem length_copperOf (b : Board) (net : UInt32) : (b.copperOf net).length =
    b.tracks.countP (fun entry => entry.2.net == net) + b.pads.countP (·.net == net) := by
  have pads : b.pads.zipIdx.countP (fun entry => entry.1.net == net) =
      b.pads.countP (·.net == net) := by
    rw [← List.zipIdx_map_fst 0 b.pads, List.countP_map, List.zipIdx_map_fst]
    rfl
  rw [copperOf, List.length_append, List.length_map, List.length_map, ← List.countP_eq_length_filter,
    ← List.countP_eq_length_filter, pads]

/-- There is one entry for each net other than zero with a live track or a pad, in ascending order.
It counts the live tracks and the pads of the net, and as islands the classes of those that the rows
of a snapshot relate. The graph of the net has as many nodes and components, in whatever order its
table stands. -/
theorem islands_exact (b : Board) :
    (b.islands.map (·.net)).Pairwise (· < ·) ∧
    (∀ net, net ∈ b.islands.map (·.net) ↔
      net ≠ 0 ∧ ((∃ id t, b.track? id = some t ∧ t.net = net) ∨ ∃ pad ∈ b.pads, pad.net = net)) ∧
    ∀ n ∈ b.islands,
      n.items = b.tracks.countP (fun entry => entry.2.net == n.net) +
        b.pads.countP (·.net == n.net) ∧
      n.islands = Nat.card (Quotient (b.islandSetoid n.net)) ∧
      ∀ table : PointTable, table.Rearranged (b.netTable n.net) →
        let g := b.netGraph n.net table
        g.nodes.Nodup ∧ g.nodes.length = n.items ∧ g.components = n.islands := by
  have nets : b.islands.map (·.net) = b.nets := by
    rw [islands, List.map_map]
    exact List.map_id' _
  refine ⟨nets ▸ b.nets_ascending, fun net => nets ▸ mem_nets, fun n mem => ?_⟩
  obtain ⟨net, _, rfl⟩ := List.mem_map.mp mem
  refine ⟨b.length_copperOf net, (b.names_rows net).card_eq.symm, fun table same =>
    ⟨b.nodes_nodup net table, ?_, (names_netGraph same).card_eq⟩⟩
  rw [nodes_netGraph, List.length_map]
  rfl

/-- A net that changes layers without a via, between two pads, and beside it a track of no net. -/
def interrupted : Board :=
  let wire (start stop : Point) (layer : Layer) (net : UInt32) :=
    some ⟨"w", start, stop, 200, layer, net, .trace⟩
  { slots := [wire ⟨0, 0⟩ ⟨10, 0⟩ .front 1, none, wire ⟨10, 0⟩ ⟨20, 0⟩ .back 1,
      wire ⟨10, 0⟩ ⟨10, 0⟩ .front 0]
    pads := [⟨"U1", "1", ⟨0, 0⟩, 1, .single .front, .smd⟩,
      ⟨"U1", "2", ⟨20, 0⟩, 1, .allCopper, .throughHole⟩] }

/-- There are two islands, also in the graph whose table stands the other way round. -/
theorem islands_exact_interrupted :
    let turned : PointTable := ⟨(interrupted.netTable 1).entries.reverse, by decide⟩
    interrupted.islands = [⟨1, 4, 2⟩] ∧ turned.Rearranged (interrupted.netTable 1) ∧
      Nat.card (Quotient (interrupted.islandSetoid 1)) = 2 ∧
      (interrupted.netGraph 1 turned).nodes.length = 4 ∧
      (interrupted.netGraph 1 turned).components = 2 := by
  intro turned
  have islands : interrupted.islands = [⟨1, 4, 2⟩] := by decide +kernel
  have rearranged : turned.Rearranged (interrupted.netTable 1) := List.reverse_perm _
  obtain ⟨_, classes, graphs⟩ := (islands_exact interrupted).2.2 ⟨1, 4, 2⟩ (by simp [islands])
  obtain ⟨_, nodes, components⟩ := graphs turned rearranged
  exact ⟨islands, rearranged, classes.symm, nodes, components⟩

end Board
end CopperTidy
