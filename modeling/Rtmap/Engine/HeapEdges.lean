import Rtmap.Engine.HeapIndex

/-!
# The edges of the heap graph

An object's fields and its edges are kept by different functions: every write sets its
field anew, but only a plausible pointer reaches the edges. So an edge outlives the
pointer that made it when something else is written over it.
-/
namespace Rtmap.Engine.HeapGraph
open Transition

/-- The field is a pointer field and its value is not null. -/
def points (f : HeapFieldInfo) : Bool := f.isPointer && f.lastValue != 0

/-- Source and target of the edges at an offset. -/
def edgesAt (edges : List HeapEdge) (off : UInt64) : List (UInt64 × UInt64) :=
  (edges.filter fun e => e.fieldOffset = off).map fun e => (e.sourceAddr, e.targetAddr)

/-- Every offset has exactly one edge, from there to the value of the field, if there is a
field that points, and no edge otherwise. -/
def Mirrored (base : UInt64) (obj : HeapObject) : Prop :=
  ∀ off, edgesAt obj.outgoingEdges off =
    ((obj.fields.get? off).filter points).toList.map fun f => (base + off, f.lastValue)

/-- The edges of every object are those of its fields. -/
def EdgesMirror (g : HeapGraph) : Prop :=
  ∀ base obj, g.objects.get? base = some obj → Mirrored base obj

/-- A write into a field that points writes a pointer again. -/
def Repoints (g : HeapGraph) : UpkeepCall → Prop
  | .write w => ∀ base obj f, g.findObjectBase w.addr = some base →
      g.objects.get? base = some obj → obj.fields.get? (w.addr - base) = some f →
      points f = true → isPtr w = true
  | .free .. | .gc .. => True

section Edges
variable {edges : List HeapEdge} {offset source target off : UInt64} {seq : ℕ}

theorem edgesAt_cons (e : HeapEdge) (edges : List HeapEdge) (off : UInt64) :
    edgesAt (e :: edges) off =
      if e.fieldOffset = off then (e.sourceAddr, e.targetAddr) :: edgesAt edges off
      else edgesAt edges off := by
  rw [edgesAt, List.filter_cons]
  by_cases h : e.fieldOffset = off <;> simp [h, edgesAt]

theorem updateEdge_cons (e : HeapEdge) (edges : List HeapEdge) (offset source target : UInt64)
    (seq : ℕ) : updateEdge (e :: edges) offset source target seq =
      if e.fieldOffset = offset then { e with targetAddr := target, lastSeq := seq } :: edges
      else e :: updateEdge edges offset source target seq := by
  rw [updateEdge, updateEdge, List.findIdx?_cons]
  by_cases h : e.fieldOffset = offset
  · simp [h]
  · simp only [h, decide_false, Bool.false_eq_true, if_false]
    cases edges.findIdx? fun e => e.fieldOffset = offset <;> rfl

/-- The edges at the other offsets stay. -/
theorem edgesAt_updateEdge_of_ne (h : off ≠ offset) :
    edgesAt (updateEdge edges offset source target seq) off = edgesAt edges off := by
  induction edges with
  | nil => exact (edgesAt_cons ..).trans (if_neg h.symm)
  | cons e edges ih =>
      rw [updateEdge_cons]
      split
      · rename_i he
        have hne : e.fieldOffset ≠ off := fun heq => h (heq.symm.trans he)
        rw [edgesAt_cons, edgesAt_cons, if_neg hne, if_neg hne]
      · rw [edgesAt_cons, edgesAt_cons, ih]

/-- A first edge is added. -/
theorem edgesAt_updateEdge_of_nil (h : edgesAt edges offset = []) :
    edgesAt (updateEdge edges offset source target seq) offset = [(source, target)] := by
  induction edges with
  | nil => exact (edgesAt_cons ..).trans (if_pos rfl)
  | cons e edges ih =>
      rw [edgesAt_cons] at h
      have he : e.fieldOffset ≠ offset := by
        intro he
        rw [if_pos he] at h
        cases h
      rw [if_neg he] at h
      rw [updateEdge_cons, if_neg he, edgesAt_cons, if_neg he, ih h]

/-- The edge that is there gets the new target. -/
theorem edgesAt_updateEdge_of_singleton {old : UInt64} (h : edgesAt edges offset = [(source, old)]) :
    edgesAt (updateEdge edges offset source target seq) offset = [(source, target)] := by
  induction edges with
  | nil => cases h
  | cons e edges ih =>
      rw [edgesAt_cons] at h
      rw [updateEdge_cons]
      by_cases he : e.fieldOffset = offset
      · rw [if_pos he] at h
        obtain ⟨hhead, htail⟩ := List.cons.inj h
        obtain ⟨hsource, -⟩ := Prod.mk.inj hhead
        rw [if_pos he, edgesAt_cons]
        dsimp only
        rw [if_pos he, htail, hsource]
      · rw [if_neg he] at h
        rw [if_neg he, edgesAt_cons, if_neg he, ih h]

/-- A new object's edges are those of its fields. -/
theorem edgesAt_initialEdges (base : UInt64) (fields : SortedMap UInt64 HeapFieldInfo)
    (off : UInt64) : edgesAt (initialEdges base fields) off =
      ((fields.get? off).filter points).toList.map fun f => (base + off, f.lastValue) := by
  have hentries := fields.filter_entries off
  rw [edgesAt, initialEdges, List.filter_map, List.map_map, List.filter_filter]
  have hswap : (fields.entries.filter fun e =>
      ((fun e : HeapEdge => decide (e.fieldOffset = off)) ∘ fun f : UInt64 × HeapFieldInfo =>
        (⟨base + f.1, f.2.lastValue, f.1, f.2.lastSeq⟩ : HeapEdge)) e &&
          (e.2.isPointer && e.2.lastValue != 0)) =
      (fields.entries.filter fun e => e.1 = off).filter fun e => points e.2 := by
    rw [List.filter_filter]
    refine List.filter_congr fun e _ => ?_
    rw [Bool.and_comm]
    rfl
  rw [hswap, hentries]
  cases fields.get? off with
  | none => rfl
  | some f =>
      cases hf : points f with
      | false =>
          rw [Option.filter_some_neg hf]
          simp [hf]
      | true =>
          rw [Option.filter_some_pos hf]
          simp [hf]

end Edges

section Write
variable {base : UInt64} {w : RecentWrite} {obj : HeapObject}

theorem value_ne_zero_of_isPtr (h : isPtr w = true) : w.value ≠ 0 := by
  intro hzero
  rw [isPtr, hzero] at h
  exact absurd (Bool.and_eq_true_iff.mp h).2 (by decide)

theorem points_fieldOf (w : RecentWrite) (old : Option HeapFieldInfo) :
    points (fieldOf w old) = isPtr w := by
  rw [points, fieldOf]
  cases h : isPtr w with
  | false => rfl
  | true => simpa using value_ne_zero_of_isPtr h

theorem get?_fields_writeObject (off : UInt64) : (writeObject base w obj).fields.get? off =
    if off = w.addr - base then some (fieldOf w (obj.fields.get? (w.addr - base)))
    else obj.fields.get? off := SortedMap.get?_insert ..

/-- A written pointer replaces the edge of the field. -/
theorem Mirrored.writePointer (h : Mirrored base obj) (hptr : isPtr w = true) :
    Mirrored base (writeObject base w obj) := by
  intro off
  have hedges : (writeObject base w obj).outgoingEdges =
      updateEdge obj.outgoingEdges (w.addr - base) w.addr w.value w.seq :=
    if_pos ⟨hptr, value_ne_zero_of_isPtr hptr⟩
  have hplace : base + (w.addr - base) = w.addr := by
    rw [UInt64.add_comm, UInt64.sub_add_cancel]
  rw [hedges, get?_fields_writeObject]
  by_cases hoff : off = w.addr - base
  · subst hoff
    have hbefore := h (w.addr - base)
    rw [hplace] at hbefore
    rw [if_pos rfl, Option.filter_some_pos ((points_fieldOf ..).trans hptr), hplace]
    -- the field had one edge or none
    cases hold : (obj.fields.get? (w.addr - base)).filter points with
    | none =>
        rw [hold] at hbefore
        exact edgesAt_updateEdge_of_nil hbefore
    | some f =>
        rw [hold] at hbefore
        exact edgesAt_updateEdge_of_singleton hbefore
  · rw [if_neg hoff, edgesAt_updateEdge_of_ne hoff]
    exact h off

/-- Another value leaves the edges, of which the field's is one too many. -/
theorem Mirrored.writeOther_iff (h : Mirrored base obj) (hptr : isPtr w = false) :
    Mirrored base (writeObject base w obj) ↔
      ∀ f, obj.fields.get? (w.addr - base) = some f → points f = false := by
  have hedges : (writeObject base w obj).outgoingEdges = obj.outgoingEdges :=
    if_neg fun hp => by
      rw [hptr] at hp
      cases hp.1
  have hnow : ((writeObject base w obj).fields.get? (w.addr - base)).filter points = none := by
    rw [get?_fields_writeObject, if_pos rfl]
    exact Option.filter_some_neg (by rw [points_fieldOf, hptr])
  constructor
  · intro hafter f hf
    by_contra hpoints
    -- the edge of the old pointer is still there
    have hedge := hafter (w.addr - base)
    rw [hnow, hedges, h, hf, Option.filter_some_pos (Bool.not_eq_false _ ▸ hpoints)] at hedge
    cases hedge
  · intro hrepoints off
    by_cases hoff : off = w.addr - base
    · subst hoff
      rw [hnow, hedges, h]
      cases hf : obj.fields.get? (w.addr - base) with
      | none => rfl
      | some f => rw [Option.filter_some_neg (hrepoints f hf)]
    · rw [hedges, get?_fields_writeObject, if_neg hoff]
      exact h off

/-- A write leaves the edges those of the fields exactly if it repoints the field. -/
theorem mirrored_writeObject (h : Mirrored base obj) : Mirrored base (writeObject base w obj) ↔
    ∀ f, obj.fields.get? (w.addr - base) = some f → points f = true → isPtr w = true := by
  cases hptr : isPtr w with
  | true => exact iff_of_true (h.writePointer hptr) fun _ _ _ => rfl
  | false =>
      rw [h.writeOther_iff hptr]
      refine forall₂_congr fun f _ => ?_
      cases points f <;> simp

theorem mirrored_foundObject (base : UInt64) (cluster : List RecentWrite) (seq : ℕ) :
    Mirrored base (foundObject base cluster seq) := edgesAt_initialEdges base _

end Write

variable {g : HeapGraph}

theorem EdgesMirror.removeObjects (h : EdgesMirror g) (bases : List UInt64) :
    EdgesMirror (bases.foldl removeObject g) := by
  intro base obj hobj
  rw [get?_foldl_removeObject] at hobj
  split at hobj
  · cases hobj
  · exact h base obj hobj

/-- A call keeps the mirror exactly if it repoints what it writes. -/
theorem edgesMirror_upkeep (h : EdgesMirror g) (c : UpkeepCall) :
    EdgesMirror (g.upkeep c) ↔ Repoints g c := by
  cases c with
  | free addr size => exact iff_of_true (h.removeObjects _) trivial
  | gc currentSeq maxAge => exact iff_of_true (h.removeObjects _) trivial
  | write w =>
      rw [upkeep]
      rcases processWrite_cases g w with ⟨base, obj, hfind, hobj⟩ | hfounds | ⟨hinto, hfounds⟩
      · rw [processWrite_into hfind hobj]
        constructor
        · intro hafter base' obj' f hfind' hobj' hf hpoints
          obtain rfl := Option.some.inj (hfind.symm.trans hfind')
          obtain rfl := Option.some.inj (hobj.symm.trans hobj')
          have hmirror := hafter base _ (SortedMap.get?_insert_self ..)
          exact (mirrored_writeObject (h base obj hobj)).mp hmirror f hf hpoints
        · intro hrepoints b x hx
          dsimp only at hx
          rw [SortedMap.get?_insert] at hx
          split at hx
          · rename_i hb
            subst hb
            obtain rfl := Option.some.inj hx
            exact (mirrored_writeObject (h b obj hobj)).mpr fun f hf =>
              hrepoints b obj f hfind hobj hf
          · exact h b x hx
      · rw [processWrite_founds hfounds]
        refine iff_of_true (fun b x hx => ?_) fun base obj f hfind => ?_
        · dsimp only at hx
          rw [SortedMap.get?_insert] at hx
          split at hx
          · rename_i hb
            subst hb
            obtain rfl := Option.some.inj hx
            exact mirrored_foundObject _ _ _
          · exact h b x hx
        · rw [hfounds.1] at hfind
          cases hfind
      · rw [processWrite_apart hinto hfounds]
        refine iff_of_true h fun base obj f hfind hobj => ?_
        rw [hinto base hfind] at hobj
        cases hobj

/-- In every run of calls the edges are those of the fields all along exactly if every
write into a pointing field writes a pointer again. -/
theorem edgesMirror_iff (calls : List UpkeepCall) :
    (∀ front, front <+: calls → EdgesMirror (front.foldl upkeep {})) ↔
      ∀ front c, front ++ [c] <+: calls → Repoints (front.foldl upkeep {}) c := by
  refine forall_prefix_iff (P := fun front => EdgesMirror (front.foldl upkeep {}))
    (fun _ _ hobj => by cases hobj) (fun front c h => ?_) calls
  rw [List.foldl_append]
  exact edgesMirror_upkeep h c

/-- An object is founded with a pointer behind two numbers, and NULL is written over the pointer. -/
def clearPointer : List UpkeepCall :=
  [.write ⟨0x20000, 8, 1, 1⟩, .write ⟨0x20008, 8, 2, 2⟩, .write ⟨0x20010, 8, 0x30000, 3⟩,
    .write ⟨0x20010, 8, 0, 4⟩]

/-- The edge to the old target stays. -/
theorem cleared_pointer_keeps_edge :
    ¬ ∀ calls : List UpkeepCall, EdgesMirror (calls.foldl upkeep {}) := by
  intro h
  have hobj : ((clearPointer.foldl upkeep {}).objects.get? 0x20000).isSome := by decide +kernel
  obtain ⟨obj, hobj⟩ := Option.isSome_iff_exists.mp hobj
  have hmirror := h clearPointer 0x20000 obj hobj 0x10
  have hedges : ((clearPointer.foldl upkeep {}).objects.get? 0x20000).map
      (fun o => edgesAt o.outgoingEdges 0x10) = some [(0x20010, 0x30000)] := by decide +kernel
  have hfield : ((clearPointer.foldl upkeep {}).objects.get? 0x20000).map
      (fun o => ((o.fields.get? 0x10).filter points).isSome) = some false := by decide +kernel
  rw [hobj, Option.map_some, Option.some.injEq] at hedges hfield
  have hnone : (obj.fields.get? 0x10).filter points = none :=
    Option.isSome_eq_false_iff.mp hfield |> Option.isNone_iff_eq_none.mp
  rw [hedges, hnone] at hmirror
  cases hmirror

end Rtmap.Engine.HeapGraph
