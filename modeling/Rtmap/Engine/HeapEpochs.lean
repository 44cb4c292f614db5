import Rtmap.Engine.HeapGraph
import Rtmap.Lib.Transition

/-!
# Epochs of the heap graph

The graph is fed writes and frees. What it does with them does not depend on the
sequence numbers the writes carry, so the run on writes numbered by their places
tells when the value of a field was written.
-/
namespace Rtmap.Engine
open Transition

inductive GraphCall where
  | write (w : RecentWrite)
  | free (addr size : UInt64)

namespace HeapGraph

def call (g : HeapGraph) : GraphCall → HeapGraph
  | .write w => g.processWrite w
  | .free addr size => g.onFree addr size

def run (calls : List GraphCall) : HeapGraph := calls.foldl call {}

/-- A write numbered by its place. -/
def stamp (i : ℕ) : GraphCall → GraphCall
  | .write w => .write { w with seq := i }
  | .free addr size => .free addr size

def timed (calls : List GraphCall) : List GraphCall := calls.mapIdx stamp

/-- The field at an offset of the object with a base. -/
def fieldAt (g : HeapGraph) (base off : UInt64) : Option HeapFieldInfo :=
  (g.objects.get? base).bind fun obj => obj.fields.get? off

/-- The call that wrote the value of a field. -/
def writtenAt (calls : List GraphCall) (base off : UInt64) : Option ℕ :=
  ((run (timed calls)).fieldAt base off).map HeapFieldInfo.lastSeq

/-- No field inside a freed block has a value from before the free. -/
def Isolated (calls : List GraphCall) : Prop :=
  ∀ (i : ℕ) (addr size : UInt64), calls[i]? = some (.free addr size) →
    ∀ base off f, (run calls).fieldAt base off = some f → InBlock addr size (base + off) →
      ∃ n, writtenAt calls base off = some n ∧ i < n

/-- The address has been freed and not written since. -/
def FreedSince (calls : List GraphCall) (x : UInt64) : Prop :=
  ∃ before addr size after, calls = before ++ .free addr size :: after ∧ InBlock addr size x ∧
    ∀ w, .write w ∈ after → w.addr ≠ x

/-- The recent writes around a write, itself included. -/
def clusterOf (g : HeapGraph) (w : RecentWrite) : List RecentWrite :=
  nearby (pushRecent g.recentWrites w) w.addr

def clusterBase (g : HeapGraph) (w : RecentWrite) : UInt64 :=
  ((g.clusterOf w).map RecentWrite.addr).foldl min w.addr

/-- The write founds an object. -/
def Founds (g : HeapGraph) (w : RecentWrite) : Prop :=
  g.findObjectBase w.addr = none ∧ ¬ (g.clusterOf w).length < MIN_CLUSTER_WRITES ∧
    ¬ g.objects.contains (g.clusterBase w)

/-- The call leaves old values behind at no address: a free meets no field of an
object that starts outside the block, an object is founded on addresses that have
been written since they were freed. -/
def Settles (calls : List GraphCall) : GraphCall → Prop
  | .free addr size =>
      ∀ base off f, (run calls).fieldAt base off = some f → InBlock addr size (base + off) →
        addr ≤ base ∧ base < saturatingAdd addr size
  | .write w => Founds (run calls) w →
      ∀ c ∈ (run calls).clusterOf w, ¬ FreedSince (calls ++ [.write w]) c.addr

section Write

variable {g : HeapGraph} {w : RecentWrite}

theorem processWrite_into {base : UInt64} {obj : HeapObject} (h : g.findObjectBase w.addr = some base)
    (hobj : g.objects.get? base = some obj) :
    g.processWrite w = { g with
      recentWrites := pushRecent g.recentWrites w
      objects := g.objects.insert base (writeObject base w obj) } := by
  have h' : HeapGraph.findObjectBase { g with recentWrites := pushRecent g.recentWrites w } w.addr =
      some base := h
  simp only [processWrite, h', hobj]

theorem processWrite_founds (h : Founds g w) :
    g.processWrite w = { g with
      recentWrites := pushRecent g.recentWrites w
      objects := g.objects.insert (g.clusterBase w)
        (foundObject (g.clusterBase w) (g.clusterOf w) w.seq)
      addrToBase := (g.clusterOf w).foldl
        (fun m c => Function.update m c.addr (some (g.clusterBase w))) g.addrToBase } := by
  obtain ⟨hfind, hlen, hbase⟩ := h
  have hfind' : HeapGraph.findObjectBase { g with recentWrites := pushRecent g.recentWrites w }
      w.addr = none := hfind
  rw [clusterOf] at hlen
  rw [clusterBase, clusterOf] at hbase
  simp only [processWrite, hfind', if_neg hlen, if_neg hbase, clusterBase, clusterOf]

/-- Any other write is only remembered. -/
theorem processWrite_apart (hinto : ∀ base, g.findObjectBase w.addr = some base →
    g.objects.get? base = none) (hfounds : ¬ Founds g w) :
    g.processWrite w = { g with recentWrites := pushRecent g.recentWrites w } := by
  cases hfind : g.findObjectBase w.addr with
  | some base =>
      have hfind' : HeapGraph.findObjectBase { g with recentWrites := pushRecent g.recentWrites w }
          w.addr = some base := hfind
      simp only [processWrite, hfind', hinto base hfind]
  | none =>
      have hfind' : HeapGraph.findObjectBase { g with recentWrites := pushRecent g.recentWrites w }
          w.addr = none := hfind
      simp only [processWrite, hfind']
      split
      · rfl
      · rename_i hlen
        rw [if_pos]
        by_contra hbase
        exact hfounds ⟨hfind, hlen, hbase⟩

/-- A write goes into an object, founds one or is only remembered. -/
theorem processWrite_cases (g : HeapGraph) (w : RecentWrite) :
    (∃ base obj, g.findObjectBase w.addr = some base ∧ g.objects.get? base = some obj) ∨
      Founds g w ∨
      ((∀ base, g.findObjectBase w.addr = some base → g.objects.get? base = none) ∧
        ¬ Founds g w) := by
  by_cases hfounds : Founds g w
  · exact .inr (.inl hfounds)
  · by_cases hinto : ∀ base, g.findObjectBase w.addr = some base → g.objects.get? base = none
    · exact .inr (.inr ⟨hinto, hfounds⟩)
    · push Not at hinto
      obtain ⟨base, hbase, hobj⟩ := hinto
      exact .inl ⟨base, _, hbase, (Option.ne_none_iff_exists'.mp hobj).choose_spec⟩

end Write

section Untimed

/-- Forget the sequence numbers. -/
def untimedWrite (w : RecentWrite) : RecentWrite := { w with seq := 0 }

def untimedField (f : HeapFieldInfo) : HeapFieldInfo := { f with lastSeq := 0 }

def untimedEdge (e : HeapEdge) : HeapEdge := { e with lastSeq := 0 }

def untimedObject (o : HeapObject) : HeapObject :=
  { o with
    fields := o.fields.mapValues untimedField
    outgoingEdges := o.outgoingEdges.map untimedEdge
    firstSeq := 0
    lastSeq := 0 }

def untimed (g : HeapGraph) : HeapGraph :=
  { g with
    objects := g.objects.mapValues untimedObject
    recentWrites := g.recentWrites.map untimedWrite }

def untimedCall : GraphCall → GraphCall
  | .write w => .write (untimedWrite w)
  | .free addr size => .free addr size

theorem untimed_removeObject (g : HeapGraph) (base : UInt64) :
    (g.removeObject base).untimed = g.untimed.removeObject base := by
  have hget : g.untimed.objects.get? base = (g.objects.get? base).map untimedObject :=
    SortedMap.get?_mapValues _ _ _
  rw [removeObject, removeObject, hget]
  cases g.objects.get? base with
  | none => rfl
  | some obj =>
      simp only [Option.map_some, untimed, untimedObject, SortedMap.keys_mapValues,
        SortedMap.mapValues_erase]

theorem untimed_onFree (g : HeapGraph) (addr size : UInt64) :
    (g.onFree addr size).untimed = g.untimed.onFree addr size := by
  have hfold : ∀ (bases : List UInt64) (g : HeapGraph),
      (bases.foldl removeObject g).untimed = bases.foldl removeObject g.untimed := by
    intro bases
    induction bases with
    | nil => exact fun _ => rfl
    | cons base bases ih =>
        intro g
        rw [List.foldl_cons, List.foldl_cons, ih, untimed_removeObject]
  rw [onFree, onFree, hfold]
  congr 1
  simp only [untimed, SortedMap.range_mapValues, List.map_map]
  rfl

theorem findObjectBase_untimed (g : HeapGraph) (addr : UInt64) :
    g.untimed.findObjectBase addr = g.findObjectBase addr := by
  simp only [findObjectBase, untimed, SortedMap.floor_mapValues]
  cases g.addrToBase addr with
  | some base => rfl
  | none =>
      cases g.objects.floor addr with
      | none => rfl
      | some e => rfl

theorem pushRecent_untimed (recent : List RecentWrite) (w : RecentWrite) :
    (pushRecent recent w).map untimedWrite = pushRecent (recent.map untimedWrite) (untimedWrite w) := by
  have hall : (recent ++ [w]).map untimedWrite = recent.map untimedWrite ++ [untimedWrite w] := by
    rw [List.map_append, List.map_cons, List.map_nil]
  rw [pushRecent, pushRecent, ← hall, List.length_map, ← List.map_drop]
  split <;> rfl

theorem nearby_untimed (recent : List RecentWrite) (addr : UInt64) :
    nearby (recent.map untimedWrite) addr = (nearby recent addr).map untimedWrite := by
  simp only [nearby, List.filter_map]
  rfl

theorem clusterOf_untimed (g : HeapGraph) (w : RecentWrite) :
    g.untimed.clusterOf (untimedWrite w) = (g.clusterOf w).map untimedWrite := by
  rw [clusterOf, clusterOf, ← nearby_untimed, pushRecent_untimed]
  rfl

theorem clusterBase_untimed (g : HeapGraph) (w : RecentWrite) :
    g.untimed.clusterBase (untimedWrite w) = g.clusterBase w := by
  rw [clusterBase, clusterBase, clusterOf_untimed, List.map_map]
  rfl

theorem recordField_untimed (base : UInt64) (fields : SortedMap UInt64 HeapFieldInfo)
    (w : RecentWrite) :
    (recordField base fields w).mapValues untimedField =
      recordField base (fields.mapValues untimedField) (untimedWrite w) := by
  rw [recordField, recordField, SortedMap.mapValues_insert, SortedMap.get?_mapValues]
  simp only [untimedWrite]
  congr 1
  cases fields.get? (w.addr - base) <;> rfl

theorem updateEdge_untimed (edges : List HeapEdge) (offset source target : UInt64) (seq : ℕ) :
    (updateEdge edges offset source target seq).map untimedEdge =
      updateEdge (edges.map untimedEdge) offset source target 0 := by
  have hplace : (edges.map untimedEdge).findIdx? (fun e => e.fieldOffset = offset) =
      edges.findIdx? fun e => e.fieldOffset = offset := by
    rw [List.findIdx?_map]
    rfl
  rw [updateEdge, updateEdge, hplace]
  cases edges.findIdx? (fun e => e.fieldOffset = offset) with
  | none => simp only [List.map_append, List.map_cons, List.map_nil, untimedEdge]
  | some i =>
      apply List.ext_getElem?
      intro j
      simp only [List.getElem?_map, List.getElem?_modify]
      cases edges[j]? with
      | none => rfl
      | some e =>
          simp only [Option.map_some, Functor.map]
          split <;> rfl

theorem writeObject_untimed (base : UInt64) (w : RecentWrite) (obj : HeapObject) :
    untimedObject (writeObject base w obj) =
      writeObject base (untimedWrite w) (untimedObject obj) := by
  have hptr : (isPtr (untimedWrite w) ∧ (untimedWrite w).value ≠ 0) = (isPtr w ∧ w.value ≠ 0) := rfl
  simp only [writeObject, untimedObject, recordField_untimed, hptr]
  by_cases h : isPtr w ∧ w.value ≠ 0
  · simp only [if_pos h, updateEdge_untimed]
    rfl
  · simp only [if_neg h]
    rfl

theorem foldl_recordField_untimed (base : UInt64) (cluster : List RecentWrite)
    (fields : SortedMap UInt64 HeapFieldInfo) :
    (cluster.foldl (recordField base) fields).mapValues untimedField =
      (cluster.map untimedWrite).foldl (recordField base) (fields.mapValues untimedField) := by
  induction cluster generalizing fields with
  | nil => rfl
  | cons w cluster ih =>
      rw [List.foldl_cons, ih, recordField_untimed, List.map_cons, List.foldl_cons]

theorem initialEdges_untimed (base : UInt64) (fields : SortedMap UInt64 HeapFieldInfo) :
    (initialEdges base fields).map untimedEdge = initialEdges base (fields.mapValues untimedField) := by
  simp only [initialEdges, SortedMap.mapValues, List.filter_map, List.map_map]
  rfl

theorem foundObject_untimed (base : UInt64) (cluster : List RecentWrite) (seq : ℕ) :
    untimedObject (foundObject base cluster seq) =
      foundObject base (cluster.map untimedWrite) 0 := by
  have hzero : ∀ ns : List ℕ, ns.foldl min 0 = 0 := by
    intro ns
    induction ns with
    | nil => rfl
    | cons n ns ih => rw [List.foldl_cons, Nat.zero_min, ih]
  have htops : (cluster.map untimedWrite).map (fun w => w.addr + w.size.toUInt64) =
      cluster.map fun w => w.addr + w.size.toUInt64 := by
    rw [List.map_map]
    rfl
  simp only [untimedObject, foundObject, initialEdges_untimed, foldl_recordField_untimed,
    SortedMap.mapValues_empty, htops, hzero]

theorem founds_untimed (g : HeapGraph) (w : RecentWrite) :
    Founds g.untimed (untimedWrite w) ↔ Founds g w := by
  have hfind : g.untimed.findObjectBase (untimedWrite w).addr = g.findObjectBase w.addr :=
    findObjectBase_untimed g w.addr
  have hcontains : g.untimed.objects.contains = g.objects.contains := by
    funext base
    exact SortedMap.contains_mapValues _ _ _
  rw [Founds, Founds, hfind, clusterOf_untimed, clusterBase_untimed, hcontains, List.length_map]

theorem processWrite_untimed (g : HeapGraph) (w : RecentWrite) :
    (g.processWrite w).untimed = g.untimed.processWrite (untimedWrite w) := by
  have hget : ∀ base, g.untimed.objects.get? base = (g.objects.get? base).map untimedObject :=
    SortedMap.get?_mapValues _ _
  have hfind : g.untimed.findObjectBase (untimedWrite w).addr = g.findObjectBase w.addr :=
    findObjectBase_untimed g w.addr
  rcases processWrite_cases g w with ⟨base, obj, hbase, hobj⟩ | hfounds | ⟨hinto, hfounds⟩
  · have hobj' : g.untimed.objects.get? base = some (untimedObject obj) := by rw [hget, hobj]; rfl
    rw [processWrite_into hbase hobj, processWrite_into (hfind.trans hbase) hobj', untimed]
    simp only [pushRecent_untimed, SortedMap.mapValues_insert, writeObject_untimed]
    rfl
  · rw [processWrite_founds hfounds, processWrite_founds ((founds_untimed g w).mpr hfounds), untimed]
    simp only [pushRecent_untimed, SortedMap.mapValues_insert, foundObject_untimed,
      clusterOf_untimed, clusterBase_untimed, List.foldl_map]
    rfl
  · rw [processWrite_apart hinto hfounds, processWrite_apart ?_ (mt (founds_untimed g w).mp hfounds),
      untimed]
    · simp only [pushRecent_untimed]
      rfl
    · intro base hbase
      rw [hget, hinto base (hfind.symm.trans hbase)]
      rfl

theorem run_untimed (calls : List GraphCall) :
    (run calls).untimed = run (calls.map untimedCall) := by
  have hcall : ∀ (g : HeapGraph) (c : GraphCall), (g.call c).untimed = g.untimed.call (untimedCall c) := by
    intro g c
    cases c with
    | write w => exact processWrite_untimed g w
    | free addr size => exact untimed_onFree g addr size
  have hfold : ∀ (calls : List GraphCall) (g : HeapGraph),
      (calls.foldl call g).untimed = (calls.map untimedCall).foldl call g.untimed := by
    intro calls
    induction calls with
    | nil => exact fun _ => rfl
    | cons c calls ih =>
        intro g
        rw [List.foldl_cons, ih, hcall, List.map_cons, List.foldl_cons]
  exact hfold calls {}

theorem map_untimed_timed (calls : List GraphCall) :
    (timed calls).map untimedCall = calls.map untimedCall := by
  apply List.ext_getElem?
  intro i
  simp only [timed, List.getElem?_map, List.getElem?_mapIdx, Option.map_map]
  cases calls[i]? with
  | none => rfl
  | some c => cases c <;> rfl

/-- The numbers that the writes carry are data only. -/
theorem run_timed_untimed (calls : List GraphCall) :
    (run (timed calls)).untimed = (run calls).untimed := by
  rw [run_untimed, run_untimed, map_untimed_timed]

theorem fieldAt_untimed (g : HeapGraph) (base off : UInt64) :
    g.untimed.fieldAt base off = (g.fieldAt base off).map untimedField := by
  simp only [fieldAt, untimed, SortedMap.get?_mapValues]
  cases g.objects.get? base with
  | none => rfl
  | some obj => exact SortedMap.get?_mapValues _ _ _

/-- The numbered run has the fields of the run. -/
theorem fieldAt_timed (calls : List GraphCall) (base off : UInt64) :
    ((run (timed calls)).fieldAt base off).isSome = ((run calls).fieldAt base off).isSome := by
  have h := fieldAt_untimed (run (timed calls)) base off
  rw [run_timed_untimed, fieldAt_untimed] at h
  rw [← Option.isSome_map, ← h, Option.isSome_map]

end Untimed

section Times

variable {calls : List GraphCall}

theorem run_snoc (calls : List GraphCall) (c : GraphCall) : run (calls ++ [c]) = (run calls).call c := by
  rw [run, List.foldl_append]
  rfl

theorem timed_snoc (calls : List GraphCall) (c : GraphCall) :
    timed (calls ++ [c]) = timed calls ++ [stamp calls.length c] := by
  rw [timed, List.mapIdx_append]
  simp [timed]

/-- The writes among the calls, in order. -/
def writes (calls : List GraphCall) : List RecentWrite :=
  calls.filterMap fun c =>
    match c with
    | .write w => some w
    | .free _ _ => none

theorem writes_timed_write (calls : List GraphCall) (w : RecentWrite) :
    writes (timed (calls ++ [.write w])) =
      writes (timed calls) ++ [{ w with seq := calls.length }] := by
  rw [timed_snoc, writes, List.filterMap_append]
  rfl

theorem writes_timed_free (calls : List GraphCall) (addr size : UInt64) :
    writes (timed (calls ++ [.free addr size])) = writes (timed calls) := by
  rw [timed_snoc, writes, List.filterMap_append]
  exact List.append_nil _

theorem mem_writes_timed {w : RecentWrite} :
    w ∈ writes (timed calls) ↔
      ∃ v, calls[w.seq]? = some (.write v) ∧ w = { v with seq := w.seq } := by
  rw [writes, List.mem_filterMap]
  constructor
  · rintro ⟨c', hc', hw⟩
    obtain ⟨i, hi⟩ := List.mem_iff_getElem?.mp hc'
    rw [timed, List.getElem?_mapIdx, Option.map_eq_some_iff] at hi
    obtain ⟨c, hc, rfl⟩ := hi
    cases c with
    | write v =>
        cases hw
        exact ⟨v, hc, rfl⟩
    | free addr size => cases hw
  · rintro ⟨v, hv, hw⟩
    refine ⟨.write w, List.mem_iff_getElem?.mpr ⟨w.seq, ?_⟩, rfl⟩
    rw [timed, List.getElem?_mapIdx, hv, Option.map_some, stamp, ← hw]

theorem seq_lt_of_mem_writes {w : RecentWrite} (h : w ∈ writes (timed calls)) :
    w.seq < calls.length := by
  obtain ⟨v, hv, -⟩ := mem_writes_timed.mp h
  exact (List.getElem?_eq_some_iff.mp hv).1

theorem sorted_writes_timed (calls : List GraphCall) :
    (writes (timed calls)).Pairwise fun v w => v.seq < w.seq := by
  induction calls using List.reverseRecOn with
  | nil => exact .nil
  | append_singleton calls c ih =>
      cases c with
      | write w =>
          rw [writes_timed_write]
          refine List.pairwise_append.mpr ⟨ih, List.pairwise_singleton _ _, ?_⟩
          rintro v hv - (_ | ⟨_, ⟨⟩⟩)
          exact seq_lt_of_mem_writes hv
      | free addr size =>
          rw [writes_timed_free]
          exact ih

theorem recentWrites_onFree (g : HeapGraph) (addr size : UInt64) :
    (g.onFree addr size).recentWrites = g.recentWrites := by
  have hfold : ∀ (bases : List UInt64) (g : HeapGraph),
      (bases.foldl removeObject g).recentWrites = g.recentWrites := by
    intro bases
    induction bases with
    | nil => exact fun _ => rfl
    | cons base bases ih =>
        intro g
        rw [List.foldl_cons, ih, removeObject]
        cases g.objects.get? base <;> rfl
  exact hfold _ g

theorem recentWrites_processWrite (g : HeapGraph) (w : RecentWrite) :
    (g.processWrite w).recentWrites = pushRecent g.recentWrites w := by
  rcases processWrite_cases g w with ⟨base, obj, hbase, hobj⟩ | hfounds | ⟨hinto, hfounds⟩
  · rw [processWrite_into hbase hobj]
  · rw [processWrite_founds hfounds]
  · rw [processWrite_apart hinto hfounds]

theorem pushRecent_suffix {recent ws : List RecentWrite} (h : recent <:+ ws) (w : RecentWrite) :
    pushRecent recent w <:+ ws ++ [w] := by
  have hall : recent ++ [w] <:+ ws ++ [w] := by
    obtain ⟨front, rfl⟩ := h
    exact ⟨front, by simp⟩
  rw [pushRecent]
  split
  · exact (List.drop_suffix 1 _).trans hall
  · exact hall

/-- The window holds the last writes. -/
theorem recentWrites_suffix (calls : List GraphCall) :
    (run (timed calls)).recentWrites <:+ writes (timed calls) := by
  induction calls using List.reverseRecOn with
  | nil => exact List.suffix_refl _
  | append_singleton calls c ih =>
      rw [timed_snoc, run_snoc, ← timed_snoc]
      cases c with
      | write w =>
          rw [writes_timed_write]
          simp only [stamp, call, recentWrites_processWrite]
          exact pushRecent_suffix ih _
      | free addr size =>
          rw [writes_timed_free]
          simp only [stamp, call, recentWrites_onFree]
          exact ih

/-- The write is the last one at its address. -/
def Latest (calls : List GraphCall) (w : RecentWrite) : Prop :=
  w ∈ writes (timed calls) ∧ ∀ v ∈ writes (timed calls), v.addr = w.addr → v.seq ≤ w.seq

/-- The address of a last write has been freed since when a later call frees it. -/
theorem freedSince_iff {w : RecentWrite} (h : Latest calls w) :
    FreedSince calls w.addr ↔ ∃ (i : ℕ) (addr size : UInt64),
      calls[i]? = some (.free addr size) ∧ InBlock addr size w.addr ∧ w.seq < i := by
  obtain ⟨hmem, hlast⟩ := h
  obtain ⟨v, hv, hw⟩ := mem_writes_timed.mp hmem
  constructor
  · rintro ⟨before, addr, size, after, rfl, hfreed, hafter⟩
    refine ⟨before.length, addr, size, by simp, hfreed, ?_⟩
    by_contra hle
    rcases Nat.lt_or_eq_of_le (Nat.le_of_not_lt hle) with hlt | heq
    · rw [List.getElem?_append_right (Nat.le_of_lt hlt), show w.seq - before.length =
        (w.seq - before.length - 1) + 1 by omega, List.getElem?_cons_succ] at hv
      refine hafter v (List.mem_of_getElem? hv) ?_
      rw [hw]
    · rw [← heq, List.getElem?_append_right (Nat.le_refl _)] at hv
      simp at hv
  · rintro ⟨i, addr, size, hi, hfreed, hlt⟩
    obtain ⟨hbound, hget⟩ := List.getElem?_eq_some_iff.mp hi
    refine ⟨calls.take i, addr, size, calls.drop (i + 1), ?_, hfreed, fun u hu haddr => ?_⟩
    · rw [← hget, ← List.drop_eq_getElem_cons hbound, List.take_append_drop]
    · obtain ⟨j, hj⟩ := List.mem_iff_getElem?.mp hu
      rw [List.getElem?_drop] at hj
      have hle := hlast { u with seq := i + 1 + j } (mem_writes_timed.mpr ⟨u, hj, rfl⟩) haddr
      exact absurd hle (by simp only; omega)

end Times

section Fields

variable {g : HeapGraph} {base off : UInt64} {f : HeapFieldInfo}

theorem get?_removeObject (g : HeapGraph) (base b : UInt64) :
    (g.removeObject base).objects.get? b = if b = base then none else g.objects.get? b := by
  rw [removeObject]
  cases hobj : g.objects.get? base with
  | none =>
      by_cases h : b = base
      · rw [if_pos h, h]
        exact hobj
      · rw [if_neg h]
  | some obj => exact SortedMap.get?_erase _ _ _

theorem get?_foldl_removeObject (bases : List UInt64) (g : HeapGraph) (b : UInt64) :
    (bases.foldl removeObject g).objects.get? b = if b ∈ bases then none else g.objects.get? b := by
  induction bases generalizing g with
  | nil => rfl
  | cons base bases ih =>
      rw [List.foldl_cons, ih, get?_removeObject]
      simp only [List.mem_cons]
      split_ifs <;> simp_all

/-- A free takes the objects that start in the block and leaves the others. -/
theorem get?_onFree (g : HeapGraph) (addr size base : UInt64) :
    (g.onFree addr size).objects.get? base =
      if addr ≤ base ∧ base < saturatingAdd addr size then none else g.objects.get? base := by
  have hmem : base ∈ (g.objects.range addr (saturatingAdd addr size)).map Prod.fst ↔
      (g.objects.get? base).isSome ∧ addr ≤ base ∧ base < saturatingAdd addr size := by
    simp only [List.mem_map, SortedMap.mem_range, Prod.exists, Option.isSome_iff_exists,
      SortedMap.get?_eq_some]
    constructor
    · rintro ⟨b, obj, ⟨hobj, hlo, hhi⟩, rfl⟩
      exact ⟨⟨obj, hobj⟩, hlo, hhi⟩
    · rintro ⟨⟨obj, hobj⟩, hlo, hhi⟩
      exact ⟨base, obj, ⟨hobj, hlo, hhi⟩, rfl⟩
  rw [onFree, get?_foldl_removeObject]
  by_cases hrange : addr ≤ base ∧ base < saturatingAdd addr size
  · rw [if_pos hrange]
    cases hobj : g.objects.get? base with
    | none => simp
    | some obj => rw [if_pos (hmem.mpr ⟨by rw [hobj]; rfl, hrange⟩)]
  · rw [if_neg hrange, if_neg fun h => hrange (hmem.mp h).2]

theorem fieldAt_onFree (g : HeapGraph) (addr size base off : UInt64) :
    (g.onFree addr size).fieldAt base off =
      if addr ≤ base ∧ base < saturatingAdd addr size then none else g.fieldAt base off := by
  rw [fieldAt, get?_onFree, fieldAt]
  split <;> rfl

/-- A write into an object leaves the fields, and itself in its own. -/
theorem fieldAt_into {w : RecentWrite} {b : UInt64} {obj : HeapObject}
    (h : g.findObjectBase w.addr = some b) (hobj : g.objects.get? b = some obj)
    (hf : (g.processWrite w).fieldAt base off = some f) :
    f.lastSeq = w.seq ∨ g.fieldAt base off = some f := by
  rw [processWrite_into h hobj, fieldAt, SortedMap.get?_insert] at hf
  split at hf
  · rename_i hb
    subst hb
    simp only [Option.bind_some, writeObject, recordField, SortedMap.get?_insert] at hf
    split at hf
    · cases hf
      exact .inl rfl
    · right
      rw [fieldAt, hobj]
      exact hf
  · exact .inr hf

/-- The fields of a cluster are at the addresses of its writes, the last one counts. -/
theorem get?_foldl_recordField {ws : List RecentWrite}
    (hsorted : ws.Pairwise fun v w => v.seq < w.seq)
    (hf : (ws.foldl (recordField base) SortedMap.empty).get? off = some f) :
    ∃ w ∈ ws, w.addr - base = off ∧ f.lastSeq = w.seq ∧
      ∀ v ∈ ws, v.addr - base = off → v.seq ≤ w.seq := by
  induction ws using List.reverseRecOn with
  | nil => cases hf
  | append_singleton ws w ih =>
      obtain ⟨hfront, -, hlast⟩ := List.pairwise_append.mp hsorted
      rw [List.foldl_append, List.foldl_cons, List.foldl_nil, recordField, SortedMap.get?_insert] at hf
      split at hf
      · rename_i hoff
        cases hf
        refine ⟨w, by simp, hoff.symm, rfl, fun v hv _ => ?_⟩
        rcases List.mem_append.mp hv with hv | hv
        · exact Nat.le_of_lt (hlast v hv w (List.mem_singleton_self w))
        · exact Nat.le_of_eq (congrArg RecentWrite.seq (List.mem_singleton.mp hv))
      · rename_i hoff
        obtain ⟨u, hu, hoffu, hseq, hmax⟩ := ih hfront hf
        refine ⟨u, List.mem_append_left _ hu, hoffu, hseq, fun v hv hoffv => ?_⟩
        rcases List.mem_append.mp hv with hv | hv
        · exact hmax v hv hoffv
        · rw [List.mem_singleton.mp hv] at hoffv
          exact absurd hoffv.symm hoff

theorem isSome_get?_foldl_recordField (base : UInt64) {ws : List RecentWrite} {w : RecentWrite} (hw : w ∈ ws) :
    ((ws.foldl (recordField base) SortedMap.empty).get? (w.addr - base)).isSome := by
  induction ws using List.reverseRecOn with
  | nil => cases hw
  | append_singleton ws u ih =>
      rw [List.foldl_append, List.foldl_cons, List.foldl_nil, recordField, SortedMap.get?_insert]
      split
      · rfl
      · rename_i hne
        rcases List.mem_append.mp hw with hw | hw
        · exact ih hw
        · rw [List.mem_singleton.mp hw] at hne
          exact absurd rfl hne

theorem fieldAt_founds {w : RecentWrite} (h : Founds g w) (base off : UInt64) :
    (g.processWrite w).fieldAt base off =
      if base = g.clusterBase w then
        ((g.clusterOf w).foldl (recordField base) SortedMap.empty).get? off
      else g.fieldAt base off := by
  rw [processWrite_founds h, fieldAt, SortedMap.get?_insert]
  split
  · rename_i hb
    rw [hb]
    rfl
  · rfl

theorem fieldAt_apart {w : RecentWrite} (hinto : ∀ base, g.findObjectBase w.addr = some base →
    g.objects.get? base = none) (hfounds : ¬ Founds g w) (base off : UInt64) :
    (g.processWrite w).fieldAt base off = g.fieldAt base off := by
  rw [processWrite_apart hinto hfounds]
  rfl

end Fields

section Epochs

variable {calls : List GraphCall} {w : RecentWrite}

theorem run_timed_snoc (calls : List GraphCall) (c : GraphCall) :
    run (timed (calls ++ [c])) = (run (timed calls)).call (stamp calls.length c) := by
  rw [timed_snoc, run_snoc]

theorem window_suffix (calls : List GraphCall) (w : RecentWrite) :
    pushRecent (run (timed calls)).recentWrites { w with seq := calls.length } <:+
      writes (timed (calls ++ [.write w])) := by
  rw [writes_timed_write]
  exact pushRecent_suffix (recentWrites_suffix calls) _

theorem sorted_clusterOf (calls : List GraphCall) (w : RecentWrite) :
    ((run (timed calls)).clusterOf { w with seq := calls.length }).Pairwise
      fun u v => u.seq < v.seq :=
  ((sorted_writes_timed _).sublist (window_suffix calls w).sublist).filter _

/-- The last write of a cluster at an address is the last of all. -/
theorem latest_of_cluster {c : RecentWrite}
    (hc : c ∈ (run (timed calls)).clusterOf { w with seq := calls.length })
    (hmax : ∀ v ∈ (run (timed calls)).clusterOf { w with seq := calls.length },
      v.addr = c.addr → v.seq ≤ c.seq) : Latest (calls ++ [.write w]) c := by
  obtain ⟨hwindow, hnear⟩ := List.mem_filter.mp hc
  obtain ⟨front, hfront⟩ := window_suffix calls w
  have hsorted := sorted_writes_timed (calls ++ [.write w])
  rw [Latest, ← hfront]
  rw [← hfront] at hsorted
  refine ⟨List.mem_append_right _ hwindow, fun v hv haddr => ?_⟩
  rcases List.mem_append.mp hv with hv | hv
  · exact Nat.le_of_lt ((List.pairwise_append.mp hsorted).2.2 v hv c hwindow)
  · refine hmax v (List.mem_filter.mpr ⟨hv, ?_⟩) haddr
    rw [haddr]
    exact hnear

theorem seq_lt_of_mem_cluster {c : RecentWrite}
    (hc : c ∈ (run (timed calls)).clusterOf { w with seq := calls.length }) :
    c.seq < calls.length + 1 := by
  have hmem := (window_suffix calls w).subset (List.mem_filter.mp hc).1
  simpa using seq_lt_of_mem_writes hmem

theorem lastSeq_lt {base off : UInt64} {f : HeapFieldInfo}
    (hf : (run (timed calls)).fieldAt base off = some f) : f.lastSeq < calls.length := by
  induction calls using List.reverseRecOn generalizing f with
  | nil => cases hf
  | append_singleton calls c ih =>
      rw [List.length_append, List.length_singleton]
      rw [run_timed_snoc] at hf
      cases c with
      | free addr size =>
          rw [stamp, call, fieldAt_onFree] at hf
          split at hf
          · cases hf
          · exact Nat.lt_succ_of_lt (ih hf)
      | write w =>
          rw [stamp, call] at hf
          rcases processWrite_cases (run (timed calls)) { w with seq := calls.length } with
            ⟨b, obj, hb, hobj⟩ | hfounds | ⟨hinto, hfounds⟩
          · rcases fieldAt_into hb hobj hf with h | h
            · rw [h]
              exact Nat.lt_succ_self _
            · exact Nat.lt_succ_of_lt (ih h)
          · rw [fieldAt_founds hfounds] at hf
            split at hf
            · obtain ⟨c, hc, -, hseq, -⟩ := get?_foldl_recordField (sorted_clusterOf calls w) hf
              rw [hseq]
              exact seq_lt_of_mem_cluster hc
            · exact Nat.lt_succ_of_lt (ih hf)
          · rw [fieldAt_apart hinto hfounds] at hf
            exact Nat.lt_succ_of_lt (ih hf)

/-- Isolation is a fact about the numbered run. -/
theorem isolated_iff : Isolated calls ↔ ∀ (i : ℕ) (addr size : UInt64),
    calls[i]? = some (.free addr size) → ∀ base off f,
      (run (timed calls)).fieldAt base off = some f → InBlock addr size (base + off) →
        i < f.lastSeq := by
  constructor
  · intro h i addr size hi base off f hf hfreed
    have hsome := fieldAt_timed calls base off
    rw [hf] at hsome
    obtain ⟨f', hf'⟩ := Option.isSome_iff_exists.mp hsome.symm
    obtain ⟨n, hn, hlt⟩ := h i addr size hi base off f' hf' hfreed
    rw [writtenAt, hf] at hn
    cases hn
    exact hlt
  · intro h i addr size hi base off f hf hfreed
    have hsome := fieldAt_timed calls base off
    rw [hf] at hsome
    obtain ⟨f', hf'⟩ := Option.isSome_iff_exists.mp hsome
    exact ⟨f'.lastSeq, by rw [writtenAt, hf']; rfl, h i addr size hi base off f' hf' hfreed⟩

theorem isolated_free (h : Isolated calls) (addr size : UInt64) :
    Isolated (calls ++ [.free addr size]) ↔ Settles calls (.free addr size) := by
  rw [isolated_iff] at h ⊢
  rw [run_timed_snoc, stamp, call]
  constructor
  · intro hafter base off f hf hfreed
    by_contra hrange
    have hsome := fieldAt_timed calls base off
    rw [hf] at hsome
    obtain ⟨f', hf'⟩ := Option.isSome_iff_exists.mp hsome
    have hlt := hafter calls.length addr size (by simp) base off f'
      (by rw [fieldAt_onFree, if_neg hrange, hf']) hfreed
    exact absurd (lastSeq_lt hf') (Nat.lt_asymm hlt)
  · intro hsettles i addr' size' hi base off f hf hfreed
    rw [fieldAt_onFree] at hf
    split at hf
    · cases hf
    · rename_i hrange
      rcases Nat.lt_or_ge i calls.length with hlt | hge
      · rw [List.getElem?_append_left hlt] at hi
        exact h i addr' size' hi base off f hf hfreed
      · obtain ⟨hbound, hget⟩ := List.getElem?_eq_some_iff.mp hi
        have hlast : i = calls.length := by
          rw [List.length_append, List.length_singleton] at hbound
          omega
        subst hlast
        simp only [List.getElem_append_right (Nat.le_refl _), Nat.sub_self, List.getElem_singleton,
          GraphCall.free.injEq] at hget
        obtain ⟨rfl, rfl⟩ := hget
        have hsome := fieldAt_timed calls base off
        rw [hf] at hsome
        obtain ⟨f', hf'⟩ := Option.isSome_iff_exists.mp hsome.symm
        exact absurd (hsettles base off f' hf' hfreed) hrange

/-- The cluster of a write and that of its numbered copy have the same addresses. -/
theorem exists_mem_clusterOf_iff (calls : List GraphCall) (w : RecentWrite) (p : UInt64 → Prop) :
    (∀ c ∈ (run calls).clusterOf w, p c.addr) ↔
      ∀ c ∈ (run (timed calls)).clusterOf { w with seq := calls.length }, p c.addr := by
  have hmap := clusterOf_untimed (run (timed calls)) { w with seq := calls.length }
  rw [run_timed_untimed, show untimedWrite { w with seq := calls.length } = untimedWrite w from rfl,
    clusterOf_untimed] at hmap
  have haddrs := congrArg (List.map RecentWrite.addr) hmap
  rw [List.map_map, List.map_map, show RecentWrite.addr ∘ untimedWrite = RecentWrite.addr from rfl]
    at haddrs
  rw [← List.forall_mem_map (f := RecentWrite.addr), haddrs, List.forall_mem_map]

theorem founds_timed (calls : List GraphCall) (w : RecentWrite) :
    Founds (run calls) w ↔ Founds (run (timed calls)) { w with seq := calls.length } := by
  rw [← founds_untimed, ← run_timed_untimed, ← founds_untimed (run (timed calls))]
  rfl

theorem isolated_write (h : Isolated calls) (w : RecentWrite) :
    Isolated (calls ++ [.write w]) ↔ Settles calls (.write w) := by
  have hfree : ∀ (i : ℕ) (addr size : UInt64),
      (calls ++ [GraphCall.write w])[i]? = some (.free addr size) →
        i < calls.length ∧ calls[i]? = some (.free addr size) := by
    intro i addr size hi
    rcases Nat.lt_or_ge i calls.length with hlt | hge
    · rw [List.getElem?_append_left hlt] at hi
      exact ⟨hlt, hi⟩
    · rw [List.getElem?_append_right hge] at hi
      have hmem := List.mem_of_getElem? hi
      simp at hmem
  have hsettles : Settles calls (.write w) ↔
      (Founds (run (timed calls)) { w with seq := calls.length } →
        ∀ c ∈ (run (timed calls)).clusterOf { w with seq := calls.length },
          ¬ FreedSince (calls ++ [.write w]) c.addr) :=
    imp_congr (founds_timed calls w)
      (exists_mem_clusterOf_iff calls w fun x => ¬ FreedSince (calls ++ [.write w]) x)
  rw [hsettles]
  rw [isolated_iff] at h ⊢
  rw [run_timed_snoc, stamp, call]
  rcases processWrite_cases (run (timed calls)) { w with seq := calls.length } with
    ⟨b, obj, hb, hobj⟩ | hfounds | ⟨hinto, hfounds⟩
  · constructor
    · intro _ hfounds
      rw [hfounds.1] at hb
      cases hb
    · intro _ i addr size hi base off f hf hfreed
      obtain ⟨hlt, hi⟩ := hfree i addr size hi
      rcases fieldAt_into hb hobj hf with hnew | hold
      · rw [hnew]
        exact hlt
      · exact h i addr size hi base off f hold hfreed
  · -- the value of a field is that of the last write at its address
    have hlast : ∀ {base off : UInt64} {f : HeapFieldInfo},
        (((run (timed calls)).clusterOf { w with seq := calls.length }).foldl (recordField base)
          SortedMap.empty).get? off = some f →
        ∃ u ∈ (run (timed calls)).clusterOf { w with seq := calls.length },
          u.addr - base = off ∧ f.lastSeq = u.seq ∧ Latest (calls ++ [.write w]) u := by
      intro base off f hf
      obtain ⟨u, hu, hoff, hseq, hmax⟩ := get?_foldl_recordField (sorted_clusterOf calls w) hf
      exact ⟨u, hu, hoff, hseq,
        latest_of_cluster hu fun v hv haddr => hmax v hv (by rw [haddr, hoff])⟩
    constructor
    · intro hafter _ c hc hsince
      obtain ⟨f, hf⟩ := Option.isSome_iff_exists.mp (isSome_get?_foldl_recordField
        (clusterBase (run (timed calls)) { w with seq := calls.length }) hc)
      obtain ⟨u, -, hoff, hseq, hlatest⟩ := hlast hf
      have haddr : u.addr = c.addr := by
        rw [← UInt64.sub_add_cancel u.addr, hoff, UInt64.sub_add_cancel]
      rw [← haddr, freedSince_iff hlatest] at hsince
      obtain ⟨i, addr, size, hi, hfreed, hlt⟩ := hsince
      have hnew := hafter i addr size hi _ (c.addr - _) f
        (by rw [fieldAt_founds hfounds, if_pos rfl, hf])
        (by rwa [UInt64.add_comm, UInt64.sub_add_cancel, ← haddr])
      omega
    · intro hfresh i addr size hi base off f hf hfreed
      rw [fieldAt_founds hfounds] at hf
      split at hf
      · obtain ⟨u, hu, rfl, hseq, hlatest⟩ := hlast hf
        rw [UInt64.add_comm, UInt64.sub_add_cancel] at hfreed
        have hnot := mt (freedSince_iff hlatest).mpr (hfresh hfounds u hu)
        obtain ⟨v, hv, -⟩ := mem_writes_timed.mp hlatest.1
        rw [hseq]
        rcases Nat.lt_trichotomy i u.seq with hlt | heq | hgt
        · exact hlt
        · rw [← heq, hi] at hv
          cases hv
        · exact absurd ⟨i, addr, size, hi, hfreed, hgt⟩ hnot
      · exact h i addr size (hfree i addr size hi).2 base off f hf hfreed
  · constructor
    · exact fun _ hf => absurd hf hfounds
    · intro _ i addr size hi base off f hf hfreed
      rw [fieldAt_apart hinto hfounds] at hf
      exact h i addr size (hfree i addr size hi).2 base off f hf hfreed

theorem isolated_snoc (h : Isolated calls) (c : GraphCall) :
    Isolated (calls ++ [c]) ↔ Settles calls c := by
  cases c with
  | write w => exact isolated_write h w
  | free addr size => exact isolated_free h addr size

end Epochs

/-- Old values stay out of freed blocks exactly when no free meets an object from
outside its block and no object is founded on addresses freed since they were
written. -/
theorem epochs_isolated_iff (calls : List GraphCall) :
    (∀ front, front <+: calls → Isolated front) ↔
      ∀ front c, front ++ [c] <+: calls → Settles front c := by
  have hnil : Isolated [] := by
    intro i addr size hi
    cases hi
  exact forall_prefix_iff hnil (fun _ c h => isolated_snoc h c) calls

/-- A block is written and freed, and two writes follow right behind it. -/
def freedNeighbour : List GraphCall :=
  [.write ⟨0x2000, 8, 7, 1⟩, .free 0x2000 8, .write ⟨0x2008, 8, 0, 2⟩, .write ⟨0x2010, 8, 0, 3⟩]

/-- The object founded by the last write starts in the freed block and has its
value from before the free. -/
theorem freed_value_returns :
    (run freedNeighbour).fieldAt 0x2000 0 = some ⟨8, 7, false, 1⟩ ∧ ¬ Isolated freedNeighbour := by
  have hfield : (run freedNeighbour).fieldAt 0x2000 0 = some ⟨8, 7, false, 1⟩ := by decide +kernel
  have hwritten : writtenAt freedNeighbour 0x2000 0 = some 0 := by decide +kernel
  refine ⟨hfield, fun h => ?_⟩
  obtain ⟨n, hn, hlt⟩ := h 1 0x2000 8 rfl 0x2000 0 _ hfield ⟨by decide, by decide⟩
  rw [hwritten] at hn
  cases hn
  exact absurd hlt (by decide)

end HeapGraph

end Rtmap.Engine
