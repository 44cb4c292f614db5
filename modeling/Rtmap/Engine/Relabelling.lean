import Mathlib.Data.Option.Basic
import Mathlib.Logic.Equiv.Defs
import Rtmap.Engine.TypeMap

/-!
# Scans and the layout of the heap

Address-space randomization moves blocks and with them their projections, the
objects of the heap graph and the pointers stored in them. `scan_relabelled` says
that a scan of the moved heap makes the same stamps in the same order.
-/
namespace Rtmap.Engine

variable {ρ : Equiv.Perm UInt64}

def TypeProjection.relabel (ρ : Equiv.Perm UInt64) (p : TypeProjection) : TypeProjection :=
  { p with baseAddr := ρ p.baseAddr }

namespace ShadowTypeMap

def Candidate.relabel (ρ : Equiv.Perm UInt64) (c : Candidate) : Candidate :=
  { c with value := ρ c.value }

/-- The projections and the element types of `m` at the relabelled addresses. -/
structure Relabelled (ρ : Equiv.Perm UInt64) (m m' : ShadowTypeMap) : Prop where
  map : ∀ a, m'.map.get? (ρ a) = (m.map.get? a).map (TypeProjection.relabel ρ)
  indirect : ∀ a, m'.indirect (ρ a) = m.indirect a

section Stamp
variable {m m' : ShadowTypeMap} {addr : UInt64} {ti : TypeInfo} {source : String} {seq : ℕ}

/-- A stamp is accepted where no projection of the type or of a later stamp is. -/
def Accepts (m : ShadowTypeMap) (addr : UInt64) (ti : TypeInfo) (seq : ℕ) : Prop :=
  addr ≠ 0 ∧ ti.byteSize ≠ 0 ∧
    ∀ e, m.map.get? addr = some e → e.typeInfo.name ≠ ti.name ∧ e.stampSeq ≤ seq

theorem indirect_stampType : (m.stampType addr ti source seq).1.indirect = m.indirect := by
  rw [stampType]
  split
  · rfl
  · split
    · rfl
    · split
      · rfl
      · split
        · rfl
        · dsimp only
          split <;> rfl

theorem map_stampType_of_accepts (h : m.Accepts addr ti seq) :
    (m.stampType addr ti source seq).1.map = m.map.insert addr ⟨addr, ti, source, seq⟩ := by
  obtain ⟨haddr, hsize, hfree⟩ := h
  rw [stampType, if_neg (by simp [haddr, hsize])]
  cases he : m.map.get? addr with
  | none => rfl
  | some e =>
      obtain ⟨hname, hseq⟩ := hfree e he
      simp only [hname, Nat.not_lt.mpr hseq, if_false]
      split <;> rfl

theorem map_stampType_of_not_accepts (h : ¬ m.Accepts addr ti seq) :
    (m.stampType addr ti source seq).1.map = m.map := by
  rw [stampType]
  split
  · rfl
  · rename_i hvalid
    obtain ⟨haddr, hsize⟩ := not_or.mp hvalid
    cases he : m.map.get? addr with
    | none => exact absurd ⟨haddr, hsize, fun e he' => by rw [he] at he'; cases he'⟩ h
    | some e =>
        dsimp only
        split
        · rfl
        · rename_i hname
          split
          · rfl
          · rename_i hseq
            refine absurd ⟨haddr, hsize, fun e' he' => ?_⟩ h
            rw [he] at he'
            obtain rfl := Option.some.inj he'
            exact ⟨hname, Nat.le_of_not_lt hseq⟩

theorem Relabelled.accepts (h : Relabelled ρ m m') (hnull : ρ 0 = 0) :
    m'.Accepts (ρ addr) ti seq ↔ m.Accepts addr ti seq := by
  have hzero : ρ addr = 0 ↔ addr = 0 := by
    rw [← hnull, ρ.injective.eq_iff, hnull]
  have hentries : (∀ e, m'.map.get? (ρ addr) = some e →
      e.typeInfo.name ≠ ti.name ∧ e.stampSeq ≤ seq) ↔
      ∀ e, m.map.get? addr = some e → e.typeInfo.name ≠ ti.name ∧ e.stampSeq ≤ seq := by
    rw [h.map]
    cases m.map.get? addr with
    | none => simp
    | some e => simp [TypeProjection.relabel]
  rw [Accepts, Accepts, hentries, ne_eq, ne_eq, hzero]

/-- Stamps at corresponding addresses are accepted alike. -/
theorem Relabelled.stampType (h : Relabelled ρ m m') (hnull : ρ 0 = 0) :
    Relabelled ρ (m.stampType addr ti source seq).1 (m'.stampType (ρ addr) ti source seq).1 where
  map a := by
    by_cases haccepts : m.Accepts addr ti seq
    · rw [map_stampType_of_accepts haccepts,
        map_stampType_of_accepts ((h.accepts hnull).mpr haccepts), SortedMap.get?_insert,
        SortedMap.get?_insert]
      by_cases ha : a = addr
      · rw [if_pos (congrArg ρ ha), if_pos ha]
        rfl
      · rw [if_neg (ρ.injective.ne ha), if_neg ha]
        exact h.map a
    · rw [map_stampType_of_not_accepts haccepts,
        map_stampType_of_not_accepts fun hacc => haccepts ((h.accepts hnull).mp hacc)]
      exact h.map a
  indirect a := by
    rw [indirect_stampType, indirect_stampType]
    exact h.indirect a

end Stamp

section Scan
variable {src src' : ScanSource} {m m' : ShadowTypeMap}

/-- The field at the offset holds the value. -/
def Holds (o : HeapObject) (offset value : UInt64) : Prop :=
  (o.fields.get? offset).map HeapFieldInfo.lastValue = some value

/-- The address is a live block's. -/
def Live (src : ScanSource) (addr : UInt64) : Prop := (src.allocs.allocSize addr).isSome

/-- `src'` is `src` with its addresses relabelled. Null stays null, an object of the heap
graph moves as one piece with the addresses found in it, and the fields that hold the
address of a live block hold the block's new address. -/
structure Relabels (ρ : Equiv.Perm UInt64) (src src' : ScanSource) : Prop where
  null : ρ 0 = 0
  registry : src'.registry = src.registry
  offline : src.mem = none ∧ src'.mem = none
  blocks : ∀ a, src'.allocs.allocSize (ρ a) = src.allocs.allocSize a
  find : ∀ a, src'.heapGraph.findObjectBase (ρ a) = (src.heapGraph.findObjectBase a).map ρ
  rigid : ∀ a base, src.heapGraph.findObjectBase a = some base → ρ a - ρ base = a - base
  objects : ∀ base, Option.Rel (fun o o' => ∀ offset value, Live src value →
      (Holds o' offset (ρ value) ↔ Holds o offset value))
    (src.heapGraph.objects.get? base) (src'.heapGraph.objects.get? (ρ base))

/-- The pointer that a scan follows from a field: to a live block. -/
def target (src : ScanSource) (base offset : UInt64) : Option UInt64 :=
  (src.fieldValue base offset).filter src.plausibleTarget

theorem target_eq_some (hmem : src.mem = none) {base offset value : UInt64} :
    target src base offset = some value ↔ Live src value ∧ value ≠ 0 ∧
      ∃ b o, src.heapGraph.findObjectBase base = some b ∧
        src.heapGraph.objects.get? b = some o ∧ Holds o ((base - b) + offset) value := by
  have htarget : src.plausibleTarget value = true ↔ Live src value := by
    simp [ScanSource.plausibleTarget, hmem, Live]
  have hrecorded : src.fieldValue base offset = (src.objectAt base).bind fun o =>
      ((o.2.fields.get? ((base - o.1) + offset)).map HeapFieldInfo.lastValue).filter (· ≠ 0) := by
    simp [ScanSource.fieldValue, hmem]
  have hobject : (∃ o, src.objectAt base = some o ∧
      (o.2.fields.get? ((base - o.1) + offset)).map HeapFieldInfo.lastValue = some value) ↔
      ∃ b o, src.heapGraph.findObjectBase base = some b ∧
        src.heapGraph.objects.get? b = some o ∧ Holds o ((base - b) + offset) value := by
    simp only [ScanSource.objectAt, Option.bind_eq_some_iff, Option.map_eq_some_iff]
    constructor
    · rintro ⟨o, ⟨b, hb, obj, hobj, rfl⟩, hvalue⟩
      exact ⟨b, obj, hb, hobj, Option.map_eq_some_iff.mpr hvalue⟩
    · rintro ⟨b, obj, hb, hobj, hvalue⟩
      exact ⟨(b, obj), ⟨b, hb, obj, hobj, rfl⟩, Option.map_eq_some_iff.mp hvalue⟩
  rw [target, hrecorded, Option.filter_eq_some_iff, Option.bind_eq_some_iff, ← hobject, htarget]
  simp only [Option.filter_eq_some_iff, decide_eq_true_iff]
  constructor
  · rintro ⟨⟨o, ho, hvalue, hne⟩, hlive⟩
    exact ⟨hlive, hne, o, ho, hvalue⟩
  · rintro ⟨hlive, hne, o, ho, hvalue⟩
    exact ⟨⟨o, ho, hvalue, hne⟩, hlive⟩

theorem Relabels.live (h : Relabels ρ src src') (a : UInt64) : Live src' (ρ a) ↔ Live src a := by
  rw [Live, Live, h.blocks]

theorem Relabels.target_eq (h : Relabels ρ src src') (base offset : UInt64) :
    target src' (ρ base) offset = (target src base offset).map ρ := by
  obtain ⟨hmem, hmem'⟩ := h.offline
  refine Option.ext fun w => ?_
  obtain ⟨v, rfl⟩ := ρ.surjective w
  have hmap : (target src base offset).map ρ = some (ρ v) ↔ target src base offset = some v := by
    rw [Option.map_eq_some_iff]
    exact ⟨fun ⟨a, ha, heq⟩ => ρ.injective heq ▸ ha, fun hv => ⟨v, hv, rfl⟩⟩
  have hzero : ρ v ≠ 0 ↔ v ≠ 0 := by
    rw [← h.null, ρ.injective.ne_iff, h.null]
  rw [hmap, target_eq_some hmem, target_eq_some hmem', h.live, hzero]
  refine and_congr_right fun hlive => and_congr_right fun _ => ?_
  constructor
  · rintro ⟨b', o', hfind, hobj, hholds⟩
    rw [h.find] at hfind
    obtain ⟨b, hb, rfl⟩ := Option.map_eq_some_iff.mp hfind
    have hrel := h.objects b
    rw [hobj] at hrel
    cases ho : src.heapGraph.objects.get? b with
    | none =>
        rw [ho] at hrel
        cases hrel
    | some o =>
        rw [ho] at hrel
        cases hrel with
        | some hsame =>
            rw [h.rigid base b hb] at hholds
            exact ⟨b, o, hb, ho, (hsame _ v hlive).mp hholds⟩
  · rintro ⟨b, o, hb, hobj, hholds⟩
    have hrel := h.objects b
    rw [hobj] at hrel
    cases ho : src'.heapGraph.objects.get? (ρ b) with
    | none =>
        rw [ho] at hrel
        cases hrel
    | some o' =>
        rw [ho] at hrel
        cases hrel with
        | some hsame =>
            refine ⟨ρ b, o', by rw [h.find, hb]; rfl, ho, ?_⟩
            rw [h.rigid base b hb]
            exact (hsame _ v hlive).mpr hholds

/-- A field is used if it is a pointer that leads to a live block. -/
theorem scanField_eq (base : UInt64) (r : ShadowTypeMap × List Candidate)
    (f : FieldInfo) : scanField src base r f =
      if !f.typeInfo.isPointer || f.byteSize != 8 then r
      else
        match target src base f.byteOffset with
        | none => r
        | some value =>
            match src.registry ((stripPointer f.typeInfo.name).getD "") with
            | some ti =>
                if r.1.map.contains value then r else (r.1, r.2 ++ [⟨f.name, value, ti⟩])
            | none =>
                match (stripPointer ((stripPointer f.typeInfo.name).getD "")).bind src.registry with
                | some inner =>
                    if (r.1.indirect value).isNone then
                      ({ r.1 with
                        indirect := Function.update r.1.indirect value (some inner) }, r.2)
                    else r
                | none => r := by
  rw [scanField, target]
  split
  · rfl
  · cases src.fieldValue base f.byteOffset with
    | none => rfl
    | some value =>
        rw [Option.filter_some]
        by_cases htarget : src.plausibleTarget value
        · rw [if_pos htarget]
          cases hti : src.registry ((stripPointer f.typeInfo.name).getD "") with
          | some ti => simp [htarget, hti]
          | none =>
              cases hinner : (stripPointer ((stripPointer f.typeInfo.name).getD "")).bind
                  src.registry with
              | none => simp only [hti, hinner]
              | some inner => simp [htarget, hti, hinner]
        · rw [if_neg htarget]
          cases hti : src.registry ((stripPointer f.typeInfo.name).getD "") with
          | some ti => simp [htarget, hti]
          | none =>
              cases hinner : (stripPointer ((stripPointer f.typeInfo.name).getD "")).bind
                  src.registry with
              | none => simp only [hti, hinner]
              | some inner => simp [htarget, hti, hinner]

/-- A scan of the relabelled input. -/
structure ScanRelabelled (ρ : Equiv.Perm UInt64) (s s' : Scan) : Prop where
  types : Relabelled ρ s.types s'.types
  queue : s'.queue = s.queue.map ρ
  visited : s'.visited = s.visited.map ρ
  stamped : s'.stamped = s.stamped

theorem Relabelled.contains (h : Relabelled ρ m m') (a : UInt64) :
    m'.map.contains (ρ a) = m.map.contains a := by
  rw [SortedMap.contains, SortedMap.contains, h.map, Option.isSome_map]

theorem Relabelled.register (h : Relabelled ρ m m') (a : UInt64) (ti : TypeInfo) :
    Relabelled ρ { m with indirect := Function.update m.indirect a (some ti) }
      { m' with indirect := Function.update m'.indirect (ρ a) (some ti) } where
  map := h.map
  indirect x := by
    simp only [Function.update_apply, ρ.injective.eq_iff, h.indirect]

/-- One field of corresponding objects. -/
theorem Relabels.scanField (h : Relabels ρ src src') (base : UInt64) (f : FieldInfo)
    {r r' : ShadowTypeMap × List Candidate} (htypes : Relabelled ρ r.1 r'.1)
    (hfound : r'.2 = r.2.map (Candidate.relabel ρ)) :
    Relabelled ρ (scanField src base r f).1 (scanField src' (ρ base) r' f).1 ∧
      (scanField src' (ρ base) r' f).2 = (scanField src base r f).2.map (Candidate.relabel ρ) := by
  rw [scanField_eq, scanField_eq, h.target_eq, h.registry]
  split
  · exact ⟨htypes, hfound⟩
  · cases target src base f.byteOffset with
    | none => exact ⟨htypes, hfound⟩
    | some value =>
        rw [Option.map_some]
        dsimp only
        split
        · rw [htypes.contains]
          split
          · exact ⟨htypes, hfound⟩
          · refine ⟨htypes, ?_⟩
            rw [hfound, List.map_append]
            rfl
        · split
          · rw [htypes.indirect]
            split
            · exact ⟨htypes.register value _, hfound⟩
            · exact ⟨htypes, hfound⟩
          · exact ⟨htypes, hfound⟩

/-- The fields of corresponding objects. -/
theorem Relabels.scanFields (h : Relabels ρ src src') (base : UInt64) (fields : List FieldInfo)
    (r r' : ShadowTypeMap × List Candidate) (htypes : Relabelled ρ r.1 r'.1)
    (hfound : r'.2 = r.2.map (Candidate.relabel ρ)) :
    let found := fields.foldl (ShadowTypeMap.scanField src base) r
    let found' := fields.foldl (ShadowTypeMap.scanField src' (ρ base)) r'
    Relabelled ρ found.1 found'.1 ∧ found'.2 = found.2.map (Candidate.relabel ρ) := by
  induction fields generalizing r r' with
  | nil => exact ⟨htypes, hfound⟩
  | cons f fields ih =>
      obtain ⟨htypes, hfound⟩ := h.scanField base f htypes hfound
      exact ih _ _ htypes hfound

/-- The candidates that are stamped in their turn: those not visited yet. -/
def unvisited : List UInt64 → List Candidate → List Candidate
  | _, [] => []
  | visited, c :: cs =>
      if c.value ∈ visited then unvisited visited cs else c :: unvisited (c.value :: visited) cs

/-- The stamps of a scan, in their order. -/
def stampAll (seq : ℕ) (s : Scan) (stamps : List Candidate) : Scan where
  types := stamps.foldl (fun m c => (m.stampType c.value c.typeInfo c.name seq).1) s.types
  queue := s.queue ++ stamps.map Candidate.value
  visited := (stamps.map Candidate.value).reverse ++ s.visited
  stamped := s.stamped + stamps.length

theorem foldl_scanCandidate (seq : ℕ) (cs : List Candidate) (s : Scan) :
    cs.foldl (scanCandidate seq) s = stampAll seq s (unvisited s.visited cs) := by
  induction cs generalizing s with
  | nil => simp [stampAll, unvisited]
  | cons c cs ih =>
      rw [List.foldl_cons, ih, scanCandidate, unvisited]
      split
      · rfl
      · simp [stampAll, Nat.add_assoc, Nat.add_comm 1]

theorem unvisited_relabel (visited : List UInt64) (cs : List Candidate) :
    unvisited (visited.map ρ) (cs.map (Candidate.relabel ρ)) =
      (unvisited visited cs).map (Candidate.relabel ρ) := by
  induction cs generalizing visited with
  | nil => rfl
  | cons c cs ih =>
      have hmem : (c.relabel ρ).value ∈ visited.map ρ ↔ c.value ∈ visited :=
        List.mem_map_of_injective ρ.injective
      have hcons : ((c.relabel ρ).value :: visited.map ρ) = (c.value :: visited).map ρ := rfl
      rw [List.map_cons, unvisited, unvisited]
      by_cases hv : c.value ∈ visited
      · rw [if_pos (hmem.mpr hv), if_pos hv, ih]
      · rw [if_neg fun hin => hv (hmem.mp hin), if_neg hv, hcons, ih]
        rfl

theorem ScanRelabelled.stampAll {s s' : Scan} (h : ScanRelabelled ρ s s') (hnull : ρ 0 = 0)
    (seq : ℕ) (stamps : List Candidate) :
    ScanRelabelled ρ (stampAll seq s stamps)
      (stampAll seq s' (stamps.map (Candidate.relabel ρ))) where
  types := by
    have hfold : ∀ m m' : ShadowTypeMap, Relabelled ρ m m' →
        Relabelled ρ (stamps.foldl (fun m c => (m.stampType c.value c.typeInfo c.name seq).1) m)
          ((stamps.map (Candidate.relabel ρ)).foldl
            (fun m c => (m.stampType c.value c.typeInfo c.name seq).1) m') := by
      induction stamps with
      | nil => exact fun _ _ hm => hm
      | cons c stamps ih => exact fun m m' hm => ih _ _ (hm.stampType hnull)
    exact hfold _ _ h.types
  queue := by
    simp only [ShadowTypeMap.stampAll, h.queue, List.map_append, List.map_map]
    rfl
  visited := by
    simp only [ShadowTypeMap.stampAll, h.visited, List.map_append, List.map_reverse, List.map_map]
    rfl
  stamped := by
    simp only [ShadowTypeMap.stampAll, h.stamped, List.length_map]

/-- What the scan of one object stamps, after the element types it registers. -/
def objectStamps (src : ScanSource) (base : UInt64) (s : Scan) : List Candidate :=
  match s.types.lookup base with
  | none => []
  | some p =>
      unvisited s.visited
        ((p.typeInfo.fields.foldl (scanField src base) (s.types, [])).2.insertionSort
          fun a b => a.name ≤ b.name)

/-- The stamps of the loop in their order. -/
def loopStamps (src : ScanSource) (seq fuel : ℕ) : ℕ → Scan → List Candidate
  | 0, _ => []
  | rounds + 1, s =>
      match s.queue with
      | [] => []
      | base :: queue =>
          if s.stamped ≥ fuel then []
          else objectStamps src base { s with queue := queue } ++
            loopStamps src seq fuel rounds (scanObject src seq base { s with queue := queue })

/-- The stamps of `retrospective_scan` in their order. -/
def scanStamps (m : ShadowTypeMap) (src : ScanSource) (seed : UInt64) (seq : ℕ) : List Candidate :=
  loopStamps src seq (m.scanFuel seed) (m.scanFuel seed + 1) ⟨m, [seed], [seed], 0⟩

theorem scanObject_eq (seq : ℕ) (base : UInt64) (s : Scan) : scanObject src seq base s =
    stampAll seq { s with types := ((s.types.lookup base).map fun p =>
      (p.typeInfo.fields.foldl (scanField src base) (s.types, [])).1).getD s.types }
      (objectStamps src base s) := by
  rw [scanObject, objectStamps]
  cases s.types.lookup base with
  | none => simp [stampAll]
  | some p => exact foldl_scanCandidate seq _ _

theorem Relabels.scanObject (h : Relabels ρ src src') (seq : ℕ) (base : UInt64) {s s' : Scan}
    (hs : ScanRelabelled ρ s s') :
    objectStamps src' (ρ base) s' = (objectStamps src base s).map (Candidate.relabel ρ) ∧
      ScanRelabelled ρ (ShadowTypeMap.scanObject src seq base s)
        (ShadowTypeMap.scanObject src' seq (ρ base) s') := by
  have hlookup : s'.types.lookup (ρ base) = (s.types.lookup base).map (TypeProjection.relabel ρ) :=
    hs.types.map base
  rw [scanObject_eq, scanObject_eq, objectStamps, objectStamps, hlookup]
  cases s.types.lookup base with
  | none =>
      refine ⟨rfl, ScanRelabelled.stampAll ?_ h.null seq []⟩
      exact ⟨hs.types, hs.queue, hs.visited, hs.stamped⟩
  | some p =>
      obtain ⟨htypes, hfound⟩ := h.scanFields base p.typeInfo.fields (s.types, [])
        (s'.types, []) hs.types rfl
      have hsorted : (p.typeInfo.fields.foldl (ShadowTypeMap.scanField src' (ρ base))
            (s'.types, [])).2.insertionSort (fun a b => a.name ≤ b.name) =
          ((p.typeInfo.fields.foldl (ShadowTypeMap.scanField src base)
            (s.types, [])).2.insertionSort fun a b => a.name ≤ b.name).map
              (Candidate.relabel ρ) := by
        rw [hfound]
        exact (List.map_insertionSort (fun a b : Candidate => a.name ≤ b.name)
          (fun a b : Candidate => a.name ≤ b.name) (Candidate.relabel ρ) _
          fun _ _ _ _ => Iff.rfl).symm
      have hstamps := congrArg (unvisited (s.visited.map ρ)) hsorted
      rw [unvisited_relabel, ← hs.visited] at hstamps
      refine ⟨hstamps, ?_⟩
      simp only [Option.map_some, Option.getD_some]
      rw [show (p.relabel ρ).typeInfo = p.typeInfo from rfl, hstamps]
      refine ScanRelabelled.stampAll ?_ h.null seq _
      exact ⟨htypes, hs.queue, hs.visited, hs.stamped⟩

theorem Relabels.scanLoop (h : Relabels ρ src src') (seq fuel rounds : ℕ) {s s' : Scan}
    (hs : ScanRelabelled ρ s s') :
    loopStamps src' seq fuel rounds s' =
        (loopStamps src seq fuel rounds s).map (Candidate.relabel ρ) ∧
      ScanRelabelled ρ (ShadowTypeMap.scanLoop src seq fuel rounds s)
        (ShadowTypeMap.scanLoop src' seq fuel rounds s') := by
  induction rounds generalizing s s' with
  | zero => exact ⟨rfl, hs⟩
  | succ rounds ih =>
      have hqueue := hs.queue
      rw [loopStamps, loopStamps, ShadowTypeMap.scanLoop, ShadowTypeMap.scanLoop]
      cases hq : s.queue with
      | nil =>
          rw [hq] at hqueue
          simp only [hqueue, List.map_nil]
          exact ⟨trivial, hs⟩
      | cons base queue =>
          rw [hq] at hqueue
          simp only [hqueue, List.map_cons, hs.stamped]
          split
          · exact ⟨rfl, hs⟩
          · have hpopped : ScanRelabelled ρ { s with queue := queue }
                { s' with queue := queue.map ρ, stamped := s.stamped } :=
              ⟨hs.types, rfl, hs.visited, rfl⟩
            obtain ⟨hstamps, hscanned⟩ := h.scanObject seq base hpopped
            obtain ⟨hrest, hdone⟩ := ih hscanned
            exact ⟨by rw [hstamps, hrest, List.map_append], hdone⟩

/-- The scan of the relabelled heap stamps the relabelled addresses with the same types,
sources and number in the same order and leaves the relabelled type map. -/
theorem scan_relabelled (h : Relabels ρ src src') (hm : Relabelled ρ m m') (seed : UInt64)
    (seq : ℕ) :
    scanStamps m' src' (ρ seed) seq = (scanStamps m src seed seq).map (Candidate.relabel ρ) ∧
      Relabelled ρ (m.retrospectiveScan src seed seq) (m'.retrospectiveScan src' (ρ seed) seq) := by
  have hfuel : m'.scanFuel (ρ seed) = m.scanFuel seed := by
    rw [scanFuel, scanFuel, lookup, lookup, hm.map]
    cases m.map.get? seed <;> rfl
  have hstart : ScanRelabelled ρ ⟨m, [seed], [seed], 0⟩ ⟨m', [ρ seed], [ρ seed], 0⟩ :=
    ⟨hm, rfl, rfl, rfl⟩
  rw [scanStamps, scanStamps, retrospectiveScan, retrospectiveScan, hfuel]
  obtain ⟨hstamps, hscan⟩ := h.scanLoop seq (m.scanFuel seed) (m.scanFuel seed + 1) hstart
  exact ⟨hstamps, hscan.types⟩

/-- Where every block is shifted as one piece and the objects lie within blocks, an object
moves as one piece. -/
theorem rigid_of_blocks
    (hshift : ∀ base size, src.allocs.allocSize base = some size → ∀ offset, offset < size →
      ρ (base + offset) = ρ base + offset)
    (hinside : ∀ a b, src.heapGraph.findObjectBase a = some b → ∃ base size,
      src.allocs.allocSize base = some size ∧ a - base < size ∧ b - base < size)
    (a b : UInt64) (h : src.heapGraph.findObjectBase a = some b) : ρ a - ρ b = a - b := by
  obtain ⟨base, size, hlive, ha, hb⟩ := hinside a b h
  have hback (x : UInt64) : base + (x - base) = x := by
    rw [UInt64.add_comm, UInt64.sub_add_cancel]
  have hcancel (x : UInt64) : x + (a - base) - (x + (b - base)) = a - b := by grind
  rw [← hback a, ← hback b, hshift base size hlive _ ha, hshift base size hlive _ hb, hback, hback,
    hcancel]

end Scan

section Moved

/-- Two pages change places. -/
def movePage (a : UInt64) : UInt64 :=
  if 0x1000 ≤ a ∧ a < 0x2000 then a + 0x8000
  else if 0x9000 ≤ a ∧ a < 0xa000 then a - 0x8000
  else a

theorem movePage_cases (a : UInt64) :
    (0x1000 ≤ a.toNat ∧ a.toNat < 0x2000 ∧ (movePage a).toNat = a.toNat + 0x8000) ∨
    (0x9000 ≤ a.toNat ∧ a.toNat < 0xa000 ∧ (movePage a).toNat = a.toNat - 0x8000) ∨
    (¬ (0x1000 ≤ a.toNat ∧ a.toNat < 0x2000) ∧ ¬ (0x9000 ≤ a.toNat ∧ a.toNat < 0xa000) ∧
      (movePage a).toNat = a.toNat) := by
  have hlo : (0x1000 : UInt64).toNat = 0x1000 ∧ (0x2000 : UInt64).toNat = 0x2000 := ⟨rfl, rfl⟩
  have hhi : (0x9000 : UInt64).toNat = 0x9000 ∧ (0xa000 : UInt64).toNat = 0xa000 := ⟨rfl, rfl⟩
  have hshift : (0x8000 : UInt64).toNat = 0x8000 := rfl
  rw [movePage]
  simp only [UInt64.le_iff_toNat_le, UInt64.lt_iff_toNat_lt, hlo, hhi]
  split
  · left
    rw [UInt64.toNat_add, hshift]
    omega
  · split
    · right
      left
      rw [UInt64.toNat_sub, hshift]
      omega
    · right
      right
      omega

theorem movePage_movePage (a : UInt64) : movePage (movePage a) = a := by
  apply UInt64.toNat_inj.mp
  have hcases := movePage_cases a
  have hback := movePage_cases (movePage a)
  omega

def movePages : Equiv.Perm UInt64 := ⟨movePage, movePage, movePage_movePage, movePage_movePage⟩

def nodeType : TypeInfo where
  name := "node"
  byteSize := 16
  fields := [{
    name := "next"
    byteOffset := 8
    byteSize := 8
    typeInfo := { name := "*node", byteSize := 8, isPointer := true } }]

/-- A list of two nodes from `base` on, the first of which the heap graph knows. -/
def listAt (base : UInt64) : ScanSource where
  heapGraph := {
    objects := SortedMap.empty.insert base
      ⟨base, 32, SortedMap.empty.insert 8 ⟨8, base + 0x100, true, 2⟩, [], 1, 2⟩ }
  allocs := ((({} : HeapAllocTracker).onAlloc base 32).1.onAlloc (base + 0x100) 32).1
  registry n := if n = "node" then some nodeType else none
  mem := none

def headAt (base : UInt64) : ShadowTypeMap := ({} : ShadowTypeMap).project base nodeType "head" 5

theorem allocSize_listAt (base a : UInt64) : (listAt base).allocs.allocSize a =
    if a = base + 0x100 then some 32 else if a = base then some 32 else none := by
  simp only [HeapAllocTracker.allocSize, listAt, HeapAllocTracker.onAlloc, SortedMap.get?_insert]
  split
  · rfl
  · split <;> rfl

theorem findObjectBase_listAt (base a : UInt64) : (listAt base).heapGraph.findObjectBase a =
    if base ≤ a ∧ a < base + 32 then some base else none := by
  simp only [HeapGraph.findObjectBase, listAt, SortedMap.floor, SortedMap.upTo, SortedMap.insert,
    SortedMap.insertEntry, SortedMap.empty, List.filter_cons, List.filter_nil]
  by_cases hle : base ≤ a
  · simp [hle]
  · simp [hle]

theorem movePages_eq_base (a : UInt64) : movePages a = 0x9000 ↔ a = 0x1000 := by
  rw [show (0x9000 : UInt64) = movePages 0x1000 from by decide, movePages.injective.eq_iff]

theorem movePages_eq_second (a : UInt64) : movePages a = 0x9000 + 0x100 ↔ a = 0x1000 + 0x100 := by
  rw [show (0x9000 + 0x100 : UInt64) = movePages (0x1000 + 0x100) from by decide,
    movePages.injective.eq_iff]

theorem movePages_in_object (a : UInt64) :
    (0x9000 ≤ movePages a ∧ movePages a < 0x9000 + 32) ↔ 0x1000 ≤ a ∧ a < 0x1000 + 32 := by
  have hbounds : (0x9000 : UInt64).toNat = 0x9000 ∧ (0x9000 + 32 : UInt64).toNat = 0x9020 ∧
      (0x1000 : UInt64).toNat = 0x1000 ∧ (0x1000 + 32 : UInt64).toNat = 0x1020 := by decide
  have hcases := movePage_cases a
  simp only [UInt64.le_iff_toNat_le, UInt64.lt_iff_toNat_lt, hbounds]
  change (0x9000 ≤ (movePage a).toNat ∧ (movePage a).toNat < 0x9020) ↔ _
  omega

/-- The two blocks lie in one page. -/
theorem movePages_add {base size offset : UInt64}
    (hlive : (listAt 0x1000).allocs.allocSize base = some size) (hoffset : offset < size) :
    movePages (base + offset) = movePages base + offset := by
  have hbounds : (0x1000 : UInt64).toNat = 0x1000 ∧ (0x1000 + 0x100 : UInt64).toNat = 0x1100 ∧
      (32 : UInt64).toNat = 32 := by decide
  have hblock : (base.toNat = 0x1100 ∨ base.toNat = 0x1000) ∧ offset.toNat < 32 := by
    rw [allocSize_listAt] at hlive
    rw [UInt64.lt_iff_toNat_lt] at hoffset
    split at hlive
    · rename_i hbase
      obtain rfl := Option.some.inj hlive
      exact ⟨.inl (hbase ▸ hbounds.2.1), hoffset⟩
    · split at hlive
      · rename_i hbase
        obtain rfl := Option.some.inj hlive
        exact ⟨.inr (hbase ▸ hbounds.1), hoffset⟩
      · cases hlive
  have hsum : (base + offset).toNat = base.toNat + offset.toNat := by
    rw [UInt64.toNat_add]
    omega
  have hbase := movePage_cases base
  have hmoved := movePage_cases (base + offset)
  change movePage (base + offset) = movePage base + offset
  apply UInt64.toNat_inj.mp
  rw [UInt64.toNat_add]
  omega

theorem relabels_listAt : Relabels movePages (listAt 0x1000) (listAt 0x9000) where
  null := by decide
  registry := rfl
  offline := ⟨rfl, rfl⟩
  blocks a := by
    simp only [allocSize_listAt, movePages_eq_base, movePages_eq_second]
  find a := by
    simp only [findObjectBase_listAt, movePages_in_object]
    split
    · exact congrArg some (by decide)
    · rfl
  rigid := by
    refine rigid_of_blocks (fun base size hlive offset hoffset => ?_) fun a b hfind => ?_
    · exact movePages_add hlive hoffset
    · rw [findObjectBase_listAt] at hfind
      split at hfind
      · rename_i hin
        obtain rfl := Option.some.inj hfind
        refine ⟨0x1000, 32, by rw [allocSize_listAt]; decide, ?_, by decide⟩
        simp only [UInt64.le_iff_toNat_le, UInt64.lt_iff_toNat_lt] at hin
        have hbounds : (0x1000 : UInt64).toNat = 0x1000 ∧ (0x1000 + 32 : UInt64).toNat = 0x1020 ∧
            (32 : UInt64).toNat = 32 := by decide
        rw [UInt64.lt_iff_toNat_lt, UInt64.toNat_sub]
        omega
      · cases hfind
  objects base := by
    simp only [listAt, SortedMap.get?_insert, movePages_eq_base]
    split
    · refine .some fun offset value _ => ?_
      simp only [Holds, SortedMap.get?_insert]
      split
      · simp only [Option.map_some, Option.some.injEq]
        rw [eq_comm, movePages_eq_second, eq_comm]
      · simp only [SortedMap.get?_empty, Option.map_none, reduceCtorEq]
    · exact .none

/-- The list is scanned at its new place as it was at the old one. -/
theorem moved_list_scanned_alike :
    scanStamps (headAt 0x9000) (listAt 0x9000) (movePages 0x1000) 7 =
        (scanStamps (headAt 0x1000) (listAt 0x1000) 0x1000 7).map (Candidate.relabel movePages) ∧
      Relabelled movePages ((headAt 0x1000).retrospectiveScan (listAt 0x1000) 0x1000 7)
        ((headAt 0x9000).retrospectiveScan (listAt 0x9000) (movePages 0x1000) 7) := by
  refine scan_relabelled relabels_listAt ⟨fun a => ?_, fun _ => rfl⟩ 0x1000 7
  simp only [headAt, project, SortedMap.get?_insert, movePages_eq_base]
  split
  · exact congrArg some (by rfl)
  · rfl

example : (scanStamps (headAt 0x9000) (listAt 0x9000) 0x9000 7).map (fun c => (c.name, c.value)) =
    [("next", 0x9100)] := by decide +kernel

end Moved

end ShadowTypeMap

end Rtmap.Engine
