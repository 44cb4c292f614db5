import Rtmap.Engine.HeapEpochs

/-!
# The address index of the heap graph

`addr_to_base` names an object for the addresses it was founded on. Later clusters
take addresses over and removals drop them by the fields of the removed object; what
is left always names a live object with a field there.
-/
namespace Rtmap.Engine.HeapGraph

/-- The calls that change the graph. -/
inductive UpkeepCall where
  | write (w : RecentWrite)
  | free (addr size : UInt64)
  | gc (currentSeq maxAge : ℕ)

def upkeep (g : HeapGraph) : UpkeepCall → HeapGraph
  | .write w => g.processWrite w
  | .free addr size => g.onFree addr size
  | .gc currentSeq maxAge => g.gcStale currentSeq maxAge

/-- Every entry of the index names an object that starts at or below its address and
has a field there. -/
structure Indexed (g : HeapGraph) : Prop where
  le : ∀ a b, g.addrToBase a = some b → b ≤ a
  field : ∀ a b, g.addrToBase a = some b →
    ∃ obj, g.objects.get? b = some obj ∧ (obj.fields.get? (a - b)).isSome

variable {g : HeapGraph}

theorem foldl_min_le {as : List UInt64} {a b : UInt64} (h : a ∈ as) : as.foldl min b ≤ a := by
  rw [List.foldl_min_eq_min (List.ne_nil_of_mem h)]
  exact UInt64.le_trans Std.min_le_right (List.min_le_of_mem h)

/-- What `process_write` unwraps is there. -/
theorem Indexed.object_of_find (h : Indexed g) {addr base : UInt64}
    (hfind : g.findObjectBase addr = some base) : ∃ obj, g.objects.get? base = some obj := by
  rw [findObjectBase] at hfind
  split at hfind
  · rename_i b hb
    obtain rfl := Option.some.inj hfind
    obtain ⟨obj, hobj, -⟩ := h.field addr b hb
    exact ⟨obj, hobj⟩
  · split at hfind
    · rename_i b obj hfloor
      split at hfind
      · obtain rfl := Option.some.inj hfind
        exact ⟨obj, SortedMap.get?_eq_some.mpr (SortedMap.floor_eq_some.mp hfloor).1⟩
      · cases hfind
    · cases hfind

/-- One value stored at several keys. -/
theorem foldl_update_apply {X K V : Type*} [DecidableEq K] (key : X → K) (v : V) (xs : List X)
    (m : K → V) (a : K) : xs.foldl (fun m x => Function.update m (key x) v) m a =
      if a ∈ xs.map key then v else m a := by
  induction xs generalizing m with
  | nil => rfl
  | cons x xs ih =>
      rw [List.foldl_cons, ih, Function.update_apply]
      by_cases hx : a = key x <;> by_cases hxs : a ∈ xs.map key <;> simp [hx, hxs]

/-- An entry left by a removal was there before, where the object has no field. -/
theorem addrToBase_removeObject {base a b : UInt64} {obj : HeapObject}
    (hobj : g.objects.get? base = some obj)
    (hab : (g.removeObject base).addrToBase a = some b) :
    g.addrToBase a = some b ∧ obj.fields.get? (a - base) = none := by
  rw [removeObject, hobj] at hab
  dsimp only at hab
  rw [foldl_update_apply] at hab
  split at hab
  · cases hab
  · rename_i hnot
    refine ⟨hab, SortedMap.get?_eq_none.mpr fun f hf => hnot ?_⟩
    refine List.mem_map.mpr ⟨a - base, List.mem_map_of_mem hf, ?_⟩
    rw [UInt64.add_comm, UInt64.sub_add_cancel]

theorem Indexed.removeObject (h : Indexed g) (base : UInt64) : Indexed (g.removeObject base) := by
  cases hobj : g.objects.get? base with
  | none =>
      rw [HeapGraph.removeObject, hobj]
      exact h
  | some obj =>
      refine ⟨fun a b hab => h.le a b (addrToBase_removeObject hobj hab).1, fun a b hab => ?_⟩
      obtain ⟨hbefore, hnone⟩ := addrToBase_removeObject hobj hab
      obtain ⟨x, hx, hfield⟩ := h.field a b hbefore
      have hne : b ≠ base := by
        rintro rfl
        obtain rfl := Option.some.inj (hobj.symm.trans hx)
        rw [hnone] at hfield
        cases hfield
      exact ⟨x, by rw [get?_removeObject, if_neg hne, hx], hfield⟩

theorem Indexed.removeObjects (h : Indexed g) (bases : List UInt64) :
    Indexed (bases.foldl HeapGraph.removeObject g) := by
  induction bases generalizing g with
  | nil => exact h
  | cons base bases ih => exact ih (h.removeObject base)

theorem Indexed.processWrite (h : Indexed g) (w : RecentWrite) : Indexed (g.processWrite w) := by
  rcases processWrite_cases g w with ⟨base, obj, hfind, hobj⟩ | hfounds | ⟨hinto, hfounds⟩
  · -- the object keeps its fields and gains the one written
    rw [processWrite_into hfind hobj]
    refine ⟨h.le, fun a b hab => ?_⟩
    obtain ⟨x, hx, hfield⟩ := h.field a b hab
    dsimp only
    rw [SortedMap.get?_insert]
    split
    · rename_i hb
      obtain rfl := Option.some.inj (hobj.symm.trans (hb ▸ hx))
      refine ⟨_, rfl, ?_⟩
      rw [writeObject]
      dsimp only
      rw [recordField, SortedMap.get?_insert]
      split
      · rfl
      · exact hfield
    · exact ⟨x, hx, hfield⟩
  · -- the cluster's addresses go over to the new object, all others keep theirs
    have hentry {a b : UInt64} (hab : (g.clusterOf w).foldl (fun (m : UInt64 → Option UInt64) c =>
        Function.update m c.addr (some (g.clusterBase w))) g.addrToBase a = some b) :
        g.addrToBase a = some b ∨ b = g.clusterBase w ∧ ∃ c ∈ g.clusterOf w, c.addr = a := by
      rw [foldl_update_apply] at hab
      split at hab
      · rename_i hmem
        exact .inr ⟨(Option.some.inj hab).symm, List.mem_map.mp hmem⟩
      · exact .inl hab
    rw [processWrite_founds hfounds]
    constructor
    · intro a b hab
      rcases hentry hab with hbefore | ⟨rfl, c, hc, rfl⟩
      · exact h.le a b hbefore
      · exact foldl_min_le (List.mem_map_of_mem hc)
    · intro a b hab
      dsimp only
      rw [SortedMap.get?_insert]
      rcases hentry hab with hbefore | ⟨rfl, c, hc, rfl⟩
      · obtain ⟨x, hx, hfield⟩ := h.field a b hbefore
        have hne : b ≠ g.clusterBase w := by
          rintro rfl
          refine hfounds.2.2 ?_
          rw [SortedMap.contains, hx]
          rfl
        rw [if_neg hne]
        exact ⟨x, hx, hfield⟩
      · rw [if_pos rfl]
        exact ⟨_, rfl, isSome_get?_foldl_recordField _ hc⟩
  · rw [processWrite_apart hinto hfounds]
    exact ⟨h.le, h.field⟩

theorem Indexed.upkeep (h : Indexed g) (c : UpkeepCall) : Indexed (g.upkeep c) := by
  cases c with
  | write w => exact h.processWrite w
  | free addr size => exact h.removeObjects _
  | gc currentSeq maxAge => exact h.removeObjects _

theorem indexed_run (calls : List UpkeepCall) : Indexed (calls.foldl HeapGraph.upkeep {}) := by
  induction calls using List.reverseRecOn with
  | nil => exact ⟨nofun, nofun⟩
  | append_singleton calls c ih =>
      rw [List.foldl_append]
      exact ih.upkeep c

/-- After any calls each entry of the index names a live object that starts at or
below the address and has a field there, and a write finds the object it unwraps. -/
theorem index_names_live_fields (calls : List UpkeepCall) :
    (∀ a b, (calls.foldl upkeep {}).addrToBase a = some b → b ≤ a ∧
      ∃ obj, (calls.foldl upkeep {}).objects.get? b = some obj ∧
        (obj.fields.get? (a - b)).isSome) ∧
    ∀ w : RecentWrite, ∀ base, HeapGraph.findObjectBase { calls.foldl upkeep {} with
        recentWrites := pushRecent (calls.foldl upkeep {}).recentWrites w } w.addr = some base →
      ∃ obj, (calls.foldl upkeep {}).objects.get? base = some obj := by
  have h := indexed_run calls
  exact ⟨fun a b hab => ⟨h.le a b hab, h.field a b hab⟩, fun w base hfind =>
    h.object_of_find hfind⟩

end Rtmap.Engine.HeapGraph
