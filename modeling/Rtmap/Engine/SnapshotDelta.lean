import Rtmap.Engine.SnapshotRing

/-!
# Deltas between snapshots

`delta` compares the ids of the nodes and of the edges' sources as sets, and the values of the
nodes that both snapshots have. Where an edge leads is not compared: `delta_faithful_iff` says
of which snapshots the delta tells whether they differ, and mirrors that of the other direction.
-/
namespace Rtmap.Engine

structure SnapshotDelta where
  olderSeq : UInt64
  newerSeq : UInt64
  nodeDelta : ℤ
  edgeDelta : ℤ
  nodesAdded : List String
  nodesRemoved : List String
  edgesAdded : ℕ
  edgesRemoved : ℕ
  valueChanges : List (String × UInt64 × UInt64)
deriving DecidableEq, Repr

/-- The ids of the one that the other does not have. -/
def difference (xs ys : List NodeId) : List NodeId := xs.filter fun id => id ∉ ys

/-- The ids that both have. -/
def intersection (xs ys : List NodeId) : List NodeId := xs.filter fun id => id ∈ ys

namespace WorldInner
variable (sa sb : WorldInner)

/-- The names of the nodes that only the first has. -/
def namesOnlyIn : List String :=
  (difference sa.nodes.keys sb.nodes.keys).filterMap fun id => (sa.nodes.get? id).map Node.name

/-- The node's name in the first and its values in both, where these differ. -/
def valueChange (id : NodeId) : Option (String × UInt64 × UInt64) :=
  match sa.nodes.get? id, sb.nodes.get? id with
  | some na, some nb =>
      if na.rawValue ≠ nb.rawValue then some (na.name, na.rawValue, nb.rawValue) else none
  | _, _ => none

def valueChanges : List (String × UInt64 × UInt64) :=
  (intersection sa.nodes.keys sb.nodes.keys).filterMap (sa.valueChange sb)

/-- Both have nodes of the same ids, with the same values, and the same edges. -/
structure SameGraph : Prop where
  nodes (id : NodeId) :
    (sa.nodes.get? id).map Node.rawValue = (sb.nodes.get? id).map Node.rawValue
  edges : sa.edges = sb.edges

/-- No snapshot with the same nodes, values and sources of edges has other edges, and a node
whose value changes keeps its name. -/
structure Comparable : Prop where
  edges (hnodes : ∀ id,
      (sa.nodes.get? id).map Node.rawValue = (sb.nodes.get? id).map Node.rawValue)
    (hsources : sa.edges.keys = sb.edges.keys) : sa.edges = sb.edges
  names (id : NodeId) (na nb : Node) (ha : sa.nodes.get? id = some na)
    (hb : sb.nodes.get? id = some nb) (hvalue : na.rawValue ≠ nb.rawValue) : na.name = nb.name

end WorldInner

/-- The delta of two entries of a ring. -/
def SnapEntry.delta (a b : SnapEntry) : SnapshotDelta where
  olderSeq := a.eventSeq
  newerSeq := b.eventSeq
  nodeDelta := (b.snap.nodes.entries.length : ℤ) - a.snap.nodes.entries.length
  edgeDelta := (b.snap.edges.entries.length : ℤ) - a.snap.edges.entries.length
  nodesAdded := b.snap.namesOnlyIn a.snap
  nodesRemoved := a.snap.namesOnlyIn b.snap
  edgesAdded := (difference b.snap.edges.keys a.snap.edges.keys).length
  edgesRemoved := (difference a.snap.edges.keys b.snap.edges.keys).length
  valueChanges := a.snap.valueChanges b.snap

def SnapshotRing.delta (r : SnapshotRing) (olderIdx newerIdx : ℕ) : Option SnapshotDelta := do
  let a ← r.slot olderIdx
  let b ← r.slot newerIdx
  return a.delta b

namespace SnapshotDelta

/-- No node or edge is added or removed, and no value changes. -/
def Unchanged (d : SnapshotDelta) : Prop :=
  d.nodesAdded = [] ∧ d.nodesRemoved = [] ∧ d.edgesAdded = 0 ∧ d.edgesRemoved = 0 ∧
    d.valueChanges = []

/-- The delta with the two sides exchanged. -/
def mirror (d : SnapshotDelta) : SnapshotDelta where
  olderSeq := d.newerSeq
  newerSeq := d.olderSeq
  nodeDelta := -d.nodeDelta
  edgeDelta := -d.edgeDelta
  nodesAdded := d.nodesRemoved
  nodesRemoved := d.nodesAdded
  edgesAdded := d.edgesRemoved
  edgesRemoved := d.edgesAdded
  valueChanges := d.valueChanges.map fun c => (c.1, c.2.2, c.2.1)

end SnapshotDelta

section Changes
variable {sa sb : WorldInner} {a b : SnapEntry}

theorem difference_eq_nil_iff {xs ys : List NodeId} :
    difference xs ys = [] ↔ ∀ id ∈ xs, id ∈ ys := by
  simp [difference, List.filter_eq_nil_iff]

theorem namesOnlyIn_eq_nil_iff :
    sa.namesOnlyIn sb = [] ↔ ∀ id ∈ sa.nodes.keys, id ∈ sb.nodes.keys := by
  rw [← difference_eq_nil_iff, WorldInner.namesOnlyIn, List.filterMap_eq_nil_iff,
    List.eq_nil_iff_forall_not_mem]
  refine forall_congr' fun id => ⟨fun h hid => ?_, fun h hid => absurd hid h⟩
  obtain ⟨n, hn⟩ := SortedMap.mem_keys.mp (List.mem_of_mem_filter hid)
  have hnone := h hid
  rw [hn] at hnone
  cases hnone

theorem valueChange_eq_some {id : NodeId} {c : String × UInt64 × UInt64} :
    sa.valueChange sb id = some c ↔ ∃ na nb, sa.nodes.get? id = some na ∧
      sb.nodes.get? id = some nb ∧ na.rawValue ≠ nb.rawValue ∧
        c = (na.name, na.rawValue, nb.rawValue) := by
  rw [WorldInner.valueChange]
  cases sa.nodes.get? id with
  | none => simp
  | some na =>
      cases sb.nodes.get? id with
      | none => simp
      | some nb =>
          dsimp only
          split <;> simp_all [eq_comm]

theorem valueChanges_eq_nil_iff : sa.valueChanges sb = [] ↔ ∀ id na nb,
    sa.nodes.get? id = some na → sb.nodes.get? id = some nb → na.rawValue = nb.rawValue := by
  rw [WorldInner.valueChanges, List.filterMap_eq_nil_iff]
  constructor
  · intro h id na nb ha hb
    by_contra hvalue
    have hmem : id ∈ intersection sa.nodes.keys sb.nodes.keys :=
      List.mem_filter.mpr ⟨SortedMap.mem_keys.mpr ⟨na, ha⟩,
        decide_eq_true (SortedMap.mem_keys.mpr ⟨nb, hb⟩)⟩
    have hsome := valueChange_eq_some.mpr ⟨na, nb, ha, hb, hvalue, rfl⟩
    rw [h id hmem] at hsome
    cases hsome
  · rintro h id -
    by_contra hsome
    obtain ⟨c, hc⟩ := Option.ne_none_iff_exists'.mp hsome
    obtain ⟨na, nb, ha, hb, hvalue, -⟩ := valueChange_eq_some.mp hc
    exact hvalue (h id na nb ha hb)

/-- Nothing changes exactly when the ids, the values and the sources of the edges are the same. -/
theorem unchanged_delta_iff : (a.delta b).Unchanged ↔
    (∀ id, (a.snap.nodes.get? id).map Node.rawValue = (b.snap.nodes.get? id).map Node.rawValue) ∧
      a.snap.edges.keys = b.snap.edges.keys := by
  rw [SnapshotDelta.Unchanged, SnapEntry.delta]
  dsimp only
  rw [namesOnlyIn_eq_nil_iff, namesOnlyIn_eq_nil_iff, List.length_eq_zero_iff,
    List.length_eq_zero_iff, difference_eq_nil_iff, difference_eq_nil_iff,
    valueChanges_eq_nil_iff, SortedMap.keys_eq_iff]
  constructor
  · rintro ⟨hadded, hremoved, hback, hforth, hvalues⟩
    refine ⟨fun id => ?_, hback, hforth⟩
    cases ha : a.snap.nodes.get? id with
    | none =>
        have hid : id ∉ b.snap.nodes.keys := fun hid =>
          SortedMap.not_mem_keys.mpr ha (hadded id hid)
        rw [SortedMap.not_mem_keys.mp hid]
    | some na =>
        obtain ⟨nb, hb⟩ := SortedMap.mem_keys.mp
          (hremoved id (SortedMap.mem_keys.mpr ⟨na, ha⟩))
        rw [hb, Option.map_some, Option.map_some, hvalues id na nb ha hb]
  · rintro ⟨hnodes, hback, hforth⟩
    have hids (id : NodeId) : id ∈ a.snap.nodes.keys ↔ id ∈ b.snap.nodes.keys := by
      have hsome := congrArg Option.isSome (hnodes id)
      rw [Option.isSome_map, Option.isSome_map] at hsome
      rw [SortedMap.mem_keys, SortedMap.mem_keys, ← Option.isSome_iff_exists,
        ← Option.isSome_iff_exists, hsome]
    refine ⟨fun id => (hids id).mpr, fun id => (hids id).mp, hback, hforth, ?_⟩
    intro id na nb ha hb
    have hvalue := hnodes id
    rw [ha, hb] at hvalue
    exact Option.some.inj hvalue

/-- What is listed of two sides, in one order of the ids. -/
theorem filterMap_eq_iff {α : Type*} {f g : NodeId → Option α} {ids : List NodeId}
    (h : ∀ id ∈ ids, (f id).isSome = (g id).isSome) :
    ids.filterMap f = ids.filterMap g ↔ ∀ id ∈ ids, f id = g id := by
  induction ids with
  | nil => simp
  | cons id ids ih =>
      have hhead := h id List.mem_cons_self
      have hrest := ih fun x hx => h x (List.mem_cons_of_mem id hx)
      rw [List.forall_mem_cons, ← hrest]
      cases hf : f id <;> cases hg : g id <;> simp_all

/-- The changes of the other direction are the mirrored ones where the names agree. -/
theorem valueChanges_mirror_iff :
    sb.valueChanges sa = ((sa.valueChanges sb).map fun c => (c.1, c.2.2, c.2.1)) ↔
      ∀ id na nb, sa.nodes.get? id = some na → sb.nodes.get? id = some nb →
        na.rawValue ≠ nb.rawValue → na.name = nb.name := by
  have hcommon : intersection sb.nodes.keys sa.nodes.keys =
      intersection sa.nodes.keys sb.nodes.keys := (SortedMap.common_keys_comm _ _).symm
  have hsame (id : NodeId) (hid : id ∈ intersection sa.nodes.keys sb.nodes.keys) :
      (sb.valueChange sa id).isSome =
        ((sa.valueChange sb id).map fun c => (c.1, c.2.2, c.2.1)).isSome := by
    rw [Option.isSome_map, Bool.eq_iff_iff, Option.isSome_iff_exists, Option.isSome_iff_exists]
    simp only [valueChange_eq_some]
    constructor
    · rintro ⟨-, nb, na, hb, ha, hvalue, -⟩
      exact ⟨_, na, nb, ha, hb, hvalue.symm, rfl⟩
    · rintro ⟨-, na, nb, ha, hb, hvalue, -⟩
      exact ⟨_, nb, na, hb, ha, hvalue.symm, rfl⟩
  rw [WorldInner.valueChanges, WorldInner.valueChanges, hcommon, List.map_filterMap,
    filterMap_eq_iff hsame]
  constructor
  · intro h id na nb ha hb hvalue
    have hmem : id ∈ intersection sa.nodes.keys sb.nodes.keys :=
      List.mem_filter.mpr ⟨SortedMap.mem_keys.mpr ⟨na, ha⟩,
        decide_eq_true (SortedMap.mem_keys.mpr ⟨nb, hb⟩)⟩
    have hid := h id hmem
    rw [valueChange_eq_some.mpr ⟨na, nb, ha, hb, hvalue, rfl⟩,
      valueChange_eq_some.mpr ⟨nb, na, hb, ha, hvalue.symm, rfl⟩] at hid
    exact (Prod.mk.inj (Option.some.inj hid)).1.symm
  · intro h id hmem
    cases hab : sa.valueChange sb id with
    | none =>
        have hnone := hsame id hmem
        rw [hab] at hnone
        exact Option.isNone_iff_eq_none.mp (by simpa using hnone)
    | some c =>
        obtain ⟨na, nb, ha, hb, hvalue, rfl⟩ := valueChange_eq_some.mp hab
        rw [valueChange_eq_some.mpr ⟨nb, na, hb, ha, hvalue.symm, rfl⟩, Option.map_some,
          h id na nb ha hb hvalue]

/-- The other direction mirrors everything but the names of changed nodes. -/
theorem delta_mirror_iff : b.delta a = (a.delta b).mirror ↔
    b.snap.valueChanges a.snap =
      (a.snap.valueChanges b.snap).map fun c => (c.1, c.2.2, c.2.1) := by
  rw [SnapEntry.delta, SnapEntry.delta, SnapshotDelta.mirror, SnapshotDelta.mk.injEq]
  simp

/-- The deltas of two snapshots say that nothing changed exactly when the graphs are the same,
and mirror each other, if and only if the snapshots do not differ in the targets of edges alone
and changed nodes keep their names. -/
theorem delta_faithful_iff {r : SnapshotRing} {older newer : ℕ} (ha : r.slot older = some a)
    (hb : r.slot newer = some b) :
    (∃ d d', r.delta older newer = some d ∧ r.delta newer older = some d' ∧
      (d.Unchanged ↔ a.snap.SameGraph b.snap) ∧ d' = d.mirror) ↔
    a.snap.Comparable b.snap := by
  have hforth : r.delta older newer = some (a.delta b) := by
    rw [SnapshotRing.delta, ha, hb]
    rfl
  have hback : r.delta newer older = some (b.delta a) := by
    rw [SnapshotRing.delta, ha, hb]
    rfl
  simp only [hforth, hback, Option.some.injEq, exists_and_left, exists_eq_left', delta_mirror_iff,
    valueChanges_mirror_iff, unchanged_delta_iff]
  constructor
  · rintro ⟨hunchanged, hnames⟩
    exact ⟨fun hnodes hsources => (hunchanged.mp ⟨hnodes, hsources⟩).edges, hnames⟩
  · rintro ⟨hedges, hnames⟩
    refine ⟨⟨fun hsame => ⟨hsame.1, hedges hsame.1 hsame.2⟩, fun hsame => ?_⟩, hnames⟩
    exact ⟨hsame.nodes, by rw [hsame.edges]⟩

/-- A pointer with this value that leads to a union or to its first member. -/
def pointingTo (target : NodeId) (value : UInt64) : WorldInner where
  nodes := ((SortedMap.empty.insert (.global 0)
    { name := "p", typeInfo := { name := "*U", byteSize := 8, isPointer := true }, addr := 0x1000
      size := 8, rawValue := value }).insert (.global 1)
    { name := "u", typeInfo := { name := "U", byteSize := 8 }, addr := 0x2000, size := 8 }).insert
    (.field 1 0)
    { name := "u.x", typeInfo := { name := "int", byteSize := 4 }, addr := 0x2000, size := 4 }
  edges := SortedMap.empty.insert (.global 0) ⟨.global 0, target, value, false⟩

/-- A ring with a snapshot before and one after. -/
def ringOf (before after : WorldInner) : SnapshotRing :=
  .run 2 [⟨before, 0, 10⟩, ⟨after, 1, 20⟩]

/-- Of a pointer whose value changes the deltas tell. -/
theorem new_value_told : ∃ d d',
    (ringOf (pointingTo (.global 1) 0x2000) (pointingTo (.global 1) 0x2004)).delta 0 1 = some d ∧
      (ringOf (pointingTo (.global 1) 0x2000) (pointingTo (.global 1) 0x2004)).delta 1 0 = some d' ∧
      (d.Unchanged ↔
        (pointingTo (.global 1) 0x2000).SameGraph (pointingTo (.global 1) 0x2004)) ∧
      d' = d.mirror := by
  have hnames (id : NodeId) : ((pointingTo (.global 1) 0x2000).nodes.get? id).map Node.name =
      ((pointingTo (.global 1) 0x2004).nodes.get? id).map Node.name := by
    simp only [pointingTo, SortedMap.get?_insert]
    split_ifs <;> rfl
  have hcomparable : (pointingTo (.global 1) 0x2000).Comparable (pointingTo (.global 1) 0x2004) := by
    constructor
    · intro hnodes
      exact absurd (hnodes (.global 0)) (by decide)
    · intro id na nb ha hb _
      have hname := hnames id
      rw [ha, hb] at hname
      exact Option.some.inj hname
  exact (delta_faithful_iff (a := ⟨pointingTo (.global 1) 0x2000, 0, 0, 10⟩)
    (b := ⟨pointingTo (.global 1) 0x2004, 0, 1, 20⟩) rfl rfl).mpr hcomparable

/-- An edge leads elsewhere and the delta does not show it. -/
theorem new_target_untold : ¬ ∀ (r : SnapshotRing) (older newer : ℕ) (a b : SnapEntry),
    r.slot older = some a → r.slot newer = some b →
    ∃ d d', r.delta older newer = some d ∧ r.delta newer older = some d' ∧
      (d.Unchanged ↔ a.snap.SameGraph b.snap) ∧ d' = d.mirror := by
  intro hall
  obtain ⟨d, -, hd, -, hunchanged, -⟩ := hall
    (ringOf (pointingTo (.global 1) 0x2000) (pointingTo (.field 1 0) 0x2000)) 0 1
    ⟨pointingTo (.global 1) 0x2000, 0, 0, 10⟩ ⟨pointingTo (.field 1 0) 0x2000, 0, 1, 20⟩ rfl rfl
  obtain rfl := Option.some.inj hd
  have hedges := (hunchanged.mp (by unfold SnapshotDelta.Unchanged; decide)).edges
  have htarget : ((pointingTo (.global 1) 0x2000).edges.get? (.global 0)).map PointerEdge.target =
      ((pointingTo (.field 1 0) 0x2000).edges.get? (.global 0)).map PointerEdge.target :=
    congrArg (fun m => (SortedMap.get? m (NodeId.global 0)).map PointerEdge.target) hedges
  exact absurd htarget (by decide)

end Changes

end Rtmap.Engine
