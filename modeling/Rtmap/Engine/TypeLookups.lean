import Rtmap.Engine.TypeMap

/-!
# What the type map looks up

The names that a propagated write, the replay of deferred writes and a scan look up in the
type registry, each with the answer it gets. A registry that gives the same answers has the
same effect.
-/
namespace Rtmap.Engine

/-- Names that were looked up, with the answers. -/
abbrev Answers := Set (String × Option TypeInfo)

/-- The registry answers alike. -/
def Registry.Gives (r : Registry) (A : Answers) : Prop := ∀ x ∈ A, r x.1 = x.2

namespace Registry
variable {r : Registry} {A B : Answers}

theorem Gives.mono (h : r.Gives B) (hsub : A ⊆ B) : r.Gives A := fun x hx => h x (hsub hx)

theorem gives_union : r.Gives (A ∪ B) ↔ r.Gives A ∧ r.Gives B := by
  constructor
  · intro h
    exact ⟨h.mono Set.subset_union_left, h.mono Set.subset_union_right⟩
  · intro h x hx
    rcases hx with hx | hx
    · exact h.1 x hx
    · exact h.2 x hx

/-- Of the pointee of a pointer, and where it is unknown of what that points to. -/
def pointeeAnswers (r : Registry) (name : String) : Answers :=
  {x | x = (name, r name) ∨ r name = none ∧ ∃ inner, stripPointer name = some inner ∧
    x = (inner, r inner)}

theorem gives_empty : r.Gives ∅ := fun _ hx => absurd hx (Set.notMem_empty _)

/-- A registry gives its own answers. -/
theorem gives_pointeeAnswers (r : Registry) (name : String) : r.Gives (r.pointeeAnswers name) := by
  intro x hx
  rcases hx with hx | ⟨-, inner, -, hx⟩
  · rw [hx]
  · rw [hx]

theorem gives_pointee {r' : Registry} {name : String} (h : r'.Gives (r.pointeeAnswers name)) :
    r' name = r name := h (name, r name) (Or.inl rfl)

theorem gives_inner {r' : Registry} {name inner : String} (h : r'.Gives (r.pointeeAnswers name))
    (hnone : r name = none) (hinner : stripPointer name = some inner) : r' inner = r inner :=
  h (inner, r inner) (Or.inr ⟨hnone, inner, hinner, rfl⟩)

end Registry

namespace ShadowTypeMap
variable {r r' : Registry}

section FieldWrites

theorem propagatePointer_of_gives {m : ShadowTypeMap} {field : FieldInfo} {value : UInt64} {seq : ℕ}
    (h : r'.Gives (r.pointeeAnswers ((stripPointer field.typeInfo.name).getD ""))) :
    m.propagatePointer field value seq r' = m.propagatePointer field value seq r := by
  unfold propagatePointer
  dsimp only
  rw [Registry.gives_pointee h]
  cases hpointee : r ((stripPointer field.typeInfo.name).getD "") with
  | some pointee => rfl
  | none =>
      cases hinner : stripPointer ((stripPointer field.typeInfo.name).getD "") with
      | none => rfl
      | some inner =>
          dsimp only
          rw [Registry.gives_inner h hpointee hinner]

variable (r : Registry) (allocs : HeapAllocTracker)

/-- Of the pointee of the field that is written. -/
def fieldAnswers (p : TypeProjection) (addr : UInt64) : Answers :=
  match fieldMatch p.typeInfo (addr - p.baseAddr) with
  | some field =>
      if field.typeInfo.isPointer then
        r.pointeeAnswers ((stripPointer field.typeInfo.name).getD "")
      else ∅
  | none => ∅

/-- Of a propagated write. -/
def writeAnswers (m : ShadowTypeMap) (addr value : UInt64) (size : UInt32) : Answers :=
  if size ≠ 8 ∨ value = 0 then ∅
  else
    match m.indirectLookup addr allocs with
    | some _ => ∅
    | none =>
        match m.coveringFirst addr with
        | none => ∅
        | some p => if !fresh p allocs then ∅ else fieldAnswers r p addr

/-- Of the deferred writes of a pass, each in the map that those before it leave. -/
def hitsAnswers : List DeferredWrite → ShadowTypeMap → Answers
  | [], _ => ∅
  | d :: hits, m =>
      writeAnswers r allocs m d.writeAddr d.writeValue 8 ∪
        hitsAnswers hits (m.propagateFieldWrite d.writeAddr d.writeValue 8 d.seq r allocs).1

def passAnswers (m : ShadowTypeMap) : Answers :=
  hitsAnswers r allocs (m.deferred.filter fun d => (m.coveringFirst d.writeAddr).isSome)
    { m with deferred := m.deferred.filter fun d => (m.coveringFirst d.writeAddr).isNone }

def passesAnswers : ℕ → ShadowTypeMap → Answers
  | 0, _ => ∅
  | passes + 1, m =>
      passAnswers r allocs m ∪
        if (m.replayPass r allocs).2 = 0 then ∅
        else passesAnswers passes (m.replayPass r allocs).1

/-- Of the replay of the deferred writes. -/
def replayAnswers (m : ShadowTypeMap) : Answers := passesAnswers r allocs REPLAY_MAX_PASSES m

variable {r allocs}

theorem propagateFieldWrite_of_gives {m : ShadowTypeMap} {addr value : UInt64} {size : UInt32}
    {seq : ℕ} (h : r'.Gives (writeAnswers r allocs m addr value size)) :
    m.propagateFieldWrite addr value size seq r' allocs =
      m.propagateFieldWrite addr value size seq r allocs := by
  unfold writeAnswers at h
  unfold propagateFieldWrite
  by_cases hsize : size ≠ 8 ∨ value = 0
  · rw [if_pos hsize, if_pos hsize]
  rw [if_neg hsize] at h ⊢
  rw [if_neg hsize]
  cases hindirect : m.indirectLookup addr allocs with
  | some element => rfl
  | none =>
      rw [hindirect] at h
      cases hp : m.coveringFirst addr with
      | none => rfl
      | some p =>
          rw [hp] at h
          dsimp only at h ⊢
          by_cases hfresh : (!fresh p allocs) = true
          · rw [if_pos hfresh, if_pos hfresh]
          rw [if_neg hfresh] at h ⊢
          rw [if_neg hfresh]
          unfold fieldAnswers at h
          cases hfield : fieldMatch p.typeInfo (addr - p.baseAddr) with
          | none => rfl
          | some field =>
              rw [hfield] at h
              dsimp only at h ⊢
              by_cases hpointer : field.typeInfo.isPointer = true
              · rw [if_pos hpointer] at h ⊢
                rw [if_pos hpointer]
                exact propagatePointer_of_gives h
              · rw [if_neg hpointer, if_neg hpointer]

theorem replayPass_of_gives {m : ShadowTypeMap} (h : r'.Gives (passAnswers r allocs m)) :
    m.replayPass r' allocs = m.replayPass r allocs := by
  have hhits (hits : List DeferredWrite) : ∀ q : ShadowTypeMap × ℕ,
      r'.Gives (hitsAnswers r allocs hits q.1) →
        hits.foldl (fun q d =>
          let p := q.1.propagateFieldWrite d.writeAddr d.writeValue 8 d.seq r' allocs
          (p.1, if p.2 then q.2 + 1 else q.2)) q =
        hits.foldl (fun q d =>
          let p := q.1.propagateFieldWrite d.writeAddr d.writeValue 8 d.seq r allocs
          (p.1, if p.2 then q.2 + 1 else q.2)) q := by
    induction hits with
    | nil => exact fun _ _ => rfl
    | cons d hits ih =>
        intro q hq
        rw [hitsAnswers, Registry.gives_union] at hq
        rw [List.foldl_cons, List.foldl_cons, propagateFieldWrite_of_gives hq.1]
        exact ih _ hq.2
  exact hhits _ (_, 0) h

theorem replayDeferred_of_gives {m : ShadowTypeMap} (h : r'.Gives (replayAnswers r allocs m)) :
    m.replayDeferred r' allocs = m.replayDeferred r allocs := by
  have hpasses (passes : ℕ) : ∀ m : ShadowTypeMap, r'.Gives (passesAnswers r allocs passes m) →
      replayPasses r' allocs passes m = replayPasses r allocs passes m := by
    induction passes with
    | zero => exact fun _ _ => rfl
    | succ passes ih =>
        intro m hm
        rw [passesAnswers, Registry.gives_union] at hm
        rw [replayPasses, replayPasses, replayPass_of_gives hm.1]
        by_cases hnone : (m.replayPass r allocs).2 = 0
        · rw [if_pos hnone, if_pos hnone]
        · rw [if_neg hnone, if_neg hnone]
          apply ih
          have hrest := hm.2
          rwa [if_neg hnone] at hrest
  exact hpasses _ m h

theorem gives_writeAnswers (r : Registry) (allocs : HeapAllocTracker) (m : ShadowTypeMap)
    (addr value : UInt64) (size : UInt32) : r.Gives (writeAnswers r allocs m addr value size) := by
  have hfield (p : TypeProjection) : r.Gives (fieldAnswers r p addr) := by
    unfold fieldAnswers
    split
    · split
      · exact Registry.gives_pointeeAnswers r _
      · exact Registry.gives_empty
    · exact Registry.gives_empty
  unfold writeAnswers
  split
  · exact Registry.gives_empty
  · split
    · exact Registry.gives_empty
    · split
      · exact Registry.gives_empty
      · split
        · exact Registry.gives_empty
        · exact hfield _

theorem gives_replayAnswers (r : Registry) (allocs : HeapAllocTracker) (m : ShadowTypeMap) :
    r.Gives (replayAnswers r allocs m) := by
  have hhits (hits : List DeferredWrite) : ∀ m, r.Gives (hitsAnswers r allocs hits m) := by
    induction hits with
    | nil => exact fun _ => Registry.gives_empty
    | cons d hits ih => exact fun m => Registry.gives_union.mpr ⟨gives_writeAnswers _ _ _ _ _ _, ih _⟩
  have hpasses (passes : ℕ) : ∀ m, r.Gives (passesAnswers r allocs passes m) := by
    induction passes with
    | zero => exact fun _ => Registry.gives_empty
    | succ passes ih =>
        intro m
        rw [passesAnswers, Registry.gives_union]
        refine ⟨hhits _ _, ?_⟩
        split
        · exact Registry.gives_empty
        · exact ih _
  exact hpasses _ m

end FieldWrites

section Scans
variable (src : ScanSource)

/-- Of a pointer field of a scanned object. -/
def scanFieldAnswers (base : UInt64) (f : FieldInfo) : Answers :=
  if !f.typeInfo.isPointer || f.byteSize != 8 then ∅
  else
    match src.fieldValue base f.byteOffset with
    | none => ∅
    | some _ => src.registry.pointeeAnswers ((stripPointer f.typeInfo.name).getD "")

def scanObjectAnswers (base : UInt64) (s : Scan) : Answers :=
  match s.types.lookup base with
  | none => ∅
  | some p => {x | ∃ f ∈ p.typeInfo.fields, x ∈ scanFieldAnswers src base f}

def scanLoopAnswers (seq fuel : ℕ) : ℕ → Scan → Answers
  | 0, _ => ∅
  | rounds + 1, s =>
      match s.queue with
      | [] => ∅
      | base :: queue =>
          if s.stamped ≥ fuel then ∅
          else
            scanObjectAnswers src base { s with queue := queue } ∪
              scanLoopAnswers seq fuel rounds (scanObject src seq base { s with queue := queue })

/-- Of a scan. -/
def scanAnswers (m : ShadowTypeMap) (seed : UInt64) (seq : ℕ) : Answers :=
  scanLoopAnswers src seq (m.scanFuel seed) (m.scanFuel seed + 1) ⟨m, [seed], [seed], 0⟩

variable {src}

theorem scanField_of_gives {base : UInt64} {f : FieldInfo} (h : r'.Gives (scanFieldAnswers src base f))
    (q : ShadowTypeMap × List Candidate) :
    scanField { src with registry := r' } base q f = scanField src base q f := by
  have hvalue : ({ src with registry := r' } : ScanSource).fieldValue base f.byteOffset =
      src.fieldValue base f.byteOffset := rfl
  have htarget (v : UInt64) : ({ src with registry := r' } : ScanSource).plausibleTarget v =
      src.plausibleTarget v := rfl
  unfold scanFieldAnswers at h
  unfold scanField
  rw [hvalue]
  by_cases hpointer : (!f.typeInfo.isPointer || f.byteSize != 8) = true
  · rw [if_pos hpointer, if_pos hpointer]
  rw [if_neg hpointer] at h ⊢
  rw [if_neg hpointer]
  cases hv : src.fieldValue base f.byteOffset with
  | none => rfl
  | some value =>
      rw [hv] at h
      dsimp only [htarget] at h ⊢
      rw [Registry.gives_pointee h]
      cases hpointee : src.registry ((stripPointer f.typeInfo.name).getD "") with
      | some ti => rfl
      | none =>
          cases hinner : stripPointer ((stripPointer f.typeInfo.name).getD "") with
          | none => rfl
          | some inner =>
              dsimp only [Option.bind_some]
              rw [Registry.gives_inner h hpointee hinner]
              rfl

theorem scanObject_of_gives {base : UInt64} {seq : ℕ} {s : Scan}
    (h : r'.Gives (scanObjectAnswers src base s)) :
    scanObject { src with registry := r' } seq base s = scanObject src seq base s := by
  unfold scanObjectAnswers at h
  unfold scanObject
  cases hp : s.types.lookup base with
  | none => rfl
  | some p =>
      rw [hp] at h
      have hfold (fs : List FieldInfo) : (∀ f ∈ fs, f ∈ p.typeInfo.fields) →
          ∀ q, fs.foldl (scanField { src with registry := r' } base) q =
            fs.foldl (scanField src base) q := by
        induction fs with
        | nil => exact fun _ _ => rfl
        | cons f fs ih =>
            intro hsub q
            have hf : r'.Gives (scanFieldAnswers src base f) :=
              fun x hx => h x ⟨f, hsub f List.mem_cons_self, hx⟩
            rw [List.foldl_cons, List.foldl_cons, scanField_of_gives hf]
            exact ih (fun g hg => hsub g (List.mem_cons_of_mem _ hg)) _
      dsimp only
      rw [hfold _ (fun _ hf => hf)]

theorem retrospectiveScan_of_gives {m : ShadowTypeMap} {seed : UInt64} {seq : ℕ}
    (h : r'.Gives (scanAnswers src m seed seq)) :
    m.retrospectiveScan { src with registry := r' } seed seq = m.retrospectiveScan src seed seq := by
  have hloop (fuel rounds : ℕ) : ∀ s : Scan, r'.Gives (scanLoopAnswers src seq fuel rounds s) →
      scanLoop { src with registry := r' } seq fuel rounds s = scanLoop src seq fuel rounds s := by
    induction rounds with
    | zero => exact fun _ _ => rfl
    | succ rounds ih =>
        intro s hs
        unfold scanLoopAnswers at hs
        unfold scanLoop
        cases hqueue : s.queue with
        | nil => rfl
        | cons base queue =>
            rw [hqueue] at hs
            dsimp only at hs ⊢
            by_cases hfuel : s.stamped ≥ fuel
            · rw [if_pos hfuel, if_pos hfuel]
            · rw [if_neg hfuel, Registry.gives_union] at hs
              rw [if_neg hfuel, if_neg hfuel, scanObject_of_gives hs.1]
              exact ih _ hs.2
  unfold retrospectiveScan
  dsimp only
  rw [hloop _ _ _ h]

theorem gives_scanAnswers (src : ScanSource) (m : ShadowTypeMap) (seed : UInt64) (seq : ℕ) :
    src.registry.Gives (scanAnswers src m seed seq) := by
  have hfield (base : UInt64) (f : FieldInfo) : src.registry.Gives (scanFieldAnswers src base f) := by
    unfold scanFieldAnswers
    split
    · exact Registry.gives_empty
    · split
      · exact Registry.gives_empty
      · exact Registry.gives_pointeeAnswers _ _
  have hobject (base : UInt64) (s : Scan) : src.registry.Gives (scanObjectAnswers src base s) := by
    unfold scanObjectAnswers
    split
    · exact Registry.gives_empty
    · rintro x ⟨f, -, hx⟩
      exact hfield base f x hx
  have hloop (fuel rounds : ℕ) : ∀ s, src.registry.Gives (scanLoopAnswers src seq fuel rounds s) := by
    induction rounds with
    | zero => exact fun _ => Registry.gives_empty
    | succ rounds ih =>
        intro s
        unfold scanLoopAnswers
        split
        · exact Registry.gives_empty
        · split
          · exact Registry.gives_empty
          · exact Registry.gives_union.mpr ⟨hobject _ _, ih _⟩
  exact hloop _ _ _

end Scans

end ShadowTypeMap

end Rtmap.Engine
