import Rtmap.Engine.StampHistory

/-!
# What a scan of recorded values adds

`retrospective_scan` without the target's memory follows the values that the heap
graph has recorded. It ends, leaves what it finds alone and projects a type only
where a pointer field of an object reached before it points.
-/
namespace Rtmap.Engine.ShadowTypeMap

/-- The heap graph has the value, which is not null, as the last one stored at the offset from
an address. -/
def ScanSource.Records (src : ScanSource) (base offset value : UInt64) : Prop :=
  value ≠ 0 ∧ ∃ objBase obj field, src.heapGraph.findObjectBase base = some objBase ∧
    src.heapGraph.objects.get? objBase = some obj ∧
    obj.fields.get? ((base - objBase) + offset) = some field ∧ field.lastValue = value

/-- A pointer field of the type projected at the address holds the base of a live block and names
a type of the registry. -/
structure Leads (src : ScanSource) (base : UInt64) (p : TypeProjection) (f : FieldInfo)
    (value : UInt64) (ti : TypeInfo) : Prop where
  field : f ∈ p.typeInfo.fields
  pointer : f.typeInfo.isPointer = true
  wide : f.byteSize = 8
  recorded : src.Records base f.byteOffset value
  live : (src.allocs.allocSize value).isSome
  named : src.registry ((stripPointer f.typeInfo.name).getD "") = some ti

section Source
variable (src : ScanSource) (m : ShadowTypeMap) (seed : UInt64) (seq : ℕ)

/-- The projection is the seed's, or one that such fields lead to from the seed. -/
inductive Reached : UInt64 → TypeProjection → Prop
  | seed {p : TypeProjection} : m.lookup seed = some p → Reached seed p
  | field {base value : UInt64} {p : TypeProjection} {f : FieldInfo} {ti : TypeInfo} :
      Reached base p → Leads src base p f value ti → m.lookup value = none →
        Reached value ⟨value, ti, f.name, seq⟩

/-- What a scan of `m` leaves: but for new projections and element types nothing changes, and
each new projection is what a field of an object reached before it leads to. -/
structure Additive (m' : ShadowTypeMap) : Prop where
  frame : m' = { m with map := m'.map, indirect := m'.indirect }
  kept : ∀ a p, m.lookup a = some p → m'.lookup a = some p
  indirect : ∀ a ti, m.indirect a = some ti → m'.indirect a = some ti
  added : ∀ a q, m'.lookup a = some q → m.lookup a = some q ∨
    m.lookup a = none ∧ ∃ base p f ti, Reached src m seed seq base p ∧ m'.lookup base = some p ∧
      Leads src base p f a ti ∧ q = ⟨a, ti, f.name, seq⟩

end Source

section Fields
variable {src : ScanSource} {base : UInt64} {p : TypeProjection}

/-- Without memory a field's value is the recorded one. -/
theorem fieldValue_eq_some (hmem : src.mem = none) {offset value : UInt64} :
    src.fieldValue base offset = some value ↔ src.Records base offset value := by
  have hrecorded (o : Option UInt64) : (o.orElse fun _ => none) = o := by cases o <;> rfl
  rw [ScanSource.fieldValue, hmem, ScanSource.Records]
  simp only [Option.bind_none, hrecorded, Option.bind_eq_some_iff, Option.filter_eq_some_iff,
    Option.map_eq_some_iff, ScanSource.objectAt]
  constructor
  · rintro ⟨_, ⟨objBase, hbase, obj, hobj, rfl⟩, ⟨field, hfield, hvalue⟩, hne⟩
    exact ⟨of_decide_eq_true hne, objBase, obj, field, hbase, hobj, hfield, hvalue⟩
  · rintro ⟨hne, objBase, obj, field, hbase, hobj, hfield, hvalue⟩
    exact ⟨_, ⟨objBase, hbase, obj, hobj, rfl⟩, ⟨field, hfield, hvalue⟩, decide_eq_true hne⟩

/-- Without memory a candidate is what a field leads to. -/
theorem leads_of_candidate (hmem : src.mem = none) {f : FieldInfo} (hf : f ∈ p.typeInfo.fields)
    {r : ShadowTypeMap × List Candidate} {c : Candidate} (hc : c ∈ (scanField src base r f).2) :
    c ∈ r.2 ∨ c.name = f.name ∧ Leads src base p f c.value c.typeInfo := by
  rw [scanField] at hc
  split at hc
  · exact .inl hc
  · rename_i hpointer
    split at hc
    · exact .inl hc
    · rename_i value hvalue
      dsimp only at hc
      split at hc
      · rename_i ti hti
        split at hc
        · exact .inl hc
        · rename_i hplausible
          rcases List.mem_append.mp hc with hc | hc
          · exact .inl hc
          · obtain rfl := List.mem_singleton.mp hc
            simp only [Bool.or_eq_true, Bool.not_eq_true', bne_iff_ne, not_or, Bool.not_eq_false,
              not_not] at hpointer
            simp only [ScanSource.plausibleTarget, hmem, Bool.or_eq_true, not_or,
              Bool.not_eq_true', Bool.not_eq_false] at hplausible
            have hrecorded := (fieldValue_eq_some hmem).mp hvalue
            refine .inr ⟨rfl, hf, hpointer.1, hpointer.2, hrecorded, ?_, hti⟩
            simpa using hplausible.2
      · split at hc
        · split at hc
          · exact .inl hc
          · exact .inl hc
        · exact .inl hc

theorem leads_of_candidates (hmem : src.mem = none) (fs : List FieldInfo)
    (hfs : ∀ f ∈ fs, f ∈ p.typeInfo.fields) (r : ShadowTypeMap × List Candidate) {c : Candidate}
    (hc : c ∈ (fs.foldl (scanField src base) r).2) :
    c ∈ r.2 ∨ ∃ f, c.name = f.name ∧ Leads src base p f c.value c.typeInfo := by
  induction fs generalizing r with
  | nil => exact .inl hc
  | cons f fs ih =>
      rcases ih (fun g hg => hfs g (List.mem_cons_of_mem _ hg)) _ hc with hc | hlead
      · exact (leads_of_candidate hmem (hfs f List.mem_cons_self) hc).imp id fun h => ⟨f, h⟩
      · exact .inr hlead

end Fields

section Stamps
variable {seq : ℕ}

/-- Candidates stamped in their turn are at different addresses, none of them visited before. -/
theorem unvisited_nodup (cs : List Candidate) (visited : List UInt64) :
    ((unvisited visited cs).map Candidate.value).Nodup ∧
      ∀ c ∈ unvisited visited cs, c ∈ cs ∧ c.value ∉ visited := by
  induction cs generalizing visited with
  | nil => exact ⟨.nil, nofun⟩
  | cons c cs ih =>
      rw [unvisited]
      split
      · obtain ⟨hnodup, hmem⟩ := ih visited
        exact ⟨hnodup, fun d hd => ⟨List.mem_cons_of_mem _ (hmem d hd).1, (hmem d hd).2⟩⟩
      · rename_i hnew
        obtain ⟨hnodup, hmem⟩ := ih (c.value :: visited)
        refine ⟨?_, fun d hd => ?_⟩
        · rw [List.map_cons, List.nodup_cons]
          refine ⟨fun hin => ?_, hnodup⟩
          obtain ⟨d, hd, heq⟩ := List.mem_map.mp hin
          exact (hmem d hd).2 (heq ▸ List.mem_cons_self)
        · rcases List.mem_cons.mp hd with rfl | hd
          · exact ⟨List.mem_cons_self, hnew⟩
          · exact ⟨List.mem_cons_of_mem _ (hmem d hd).1,
              fun hin => (hmem d hd).2 (List.mem_cons_of_mem _ hin)⟩

/-- Stamps at different addresses without a projection project their types there, where these
have a size, and change nothing else. -/
theorem stamps_fresh (cs : List Candidate) (m : ShadowTypeMap)
    (hnone : ∀ c ∈ cs, m.lookup c.value = none) (hnodup : (cs.map Candidate.value).Nodup) :
    let m' := applyStamps (cs.map (Candidate.stamp seq)) m
    m' = { m with map := m'.map } ∧ (∀ a q, m.lookup a = some q → m'.lookup a = some q) ∧
      ∀ a q, m'.lookup a = some q → m.lookup a = some q ∨
        ∃ c ∈ cs, a = c.value ∧ q = (c.stamp seq).projection := by
  induction cs generalizing m with
  | nil => exact ⟨rfl, fun _ _ => id, fun _ _ => .inl⟩
  | cons c cs ih =>
      obtain ⟨hout, hnodup⟩ := List.nodup_cons.mp hnodup
      have hc := hnone c List.mem_cons_self
      have hne : ∀ d ∈ cs, d.value ≠ c.value := fun d hd heq =>
        hout (heq ▸ List.mem_map_of_mem hd)
      -- the stamp of `c` leaves the other candidates' addresses without a projection
      have hstep : (c.stamp seq).apply m = m ∨
          (c.stamp seq).apply m = m.project c.value c.typeInfo c.name seq := by
        rcases (c.stamp seq).apply_cases m with ⟨-, heq⟩ | ⟨-, -, -, heq⟩ | ⟨-, -, ⟨p, hp, -⟩, -⟩
        · exact .inl heq
        · exact .inr heq
        · rw [Candidate.stamp, hc] at hp
          cases hp
      rcases hstep with heq | heq
      · obtain ⟨hframe, hkept, hadded⟩ :=
          ih m (fun d hd => hnone d (List.mem_cons_of_mem _ hd)) hnodup
        rw [List.map_cons, applyStamps, List.foldl_cons, heq]
        refine ⟨hframe, hkept, fun a q hq => ?_⟩
        rcases hadded a q hq with hold | ⟨d, hd, h⟩
        · exact .inl hold
        · exact .inr ⟨d, List.mem_cons_of_mem _ hd, h⟩
      · obtain ⟨hframe, hkept, hadded⟩ := ih (m.project c.value c.typeInfo c.name seq)
          (fun d hd => by
            rw [lookup_project, if_neg (hne d hd)]
            exact hnone d (List.mem_cons_of_mem _ hd)) hnodup
        rw [List.map_cons, applyStamps, List.foldl_cons, heq]
        refine ⟨hframe, fun a q hq => hkept a q ?_, fun a q hq => ?_⟩
        · rw [lookup_project, if_neg, hq]
          rintro rfl
          rw [hc] at hq
          cases hq
        · rcases hadded a q hq with hold | ⟨d, hd, h⟩
          · rw [lookup_project] at hold
            split at hold
            · rename_i ha
              exact .inr ⟨c, List.mem_cons_self, ha, (Option.some.inj hold).symm⟩
            · exact .inl hold
          · exact .inr ⟨d, List.mem_cons_of_mem _ hd, h⟩

end Stamps

section Loop
variable {src : ScanSource} {m : ShadowTypeMap} {seed : UInt64} {seq : ℕ} {s : Scan}

/-- The loop's invariant: what is queued and projected was reached. -/
structure Grown (src : ScanSource) (m : ShadowTypeMap) (seed : UInt64) (seq : ℕ) (s : Scan) :
    Prop where
  additive : Additive src m seed seq s.types
  queue : ∀ b ∈ s.queue, ∀ p, s.types.lookup b = some p → Reached src m seed seq b p

theorem Grown.start (src : ScanSource) (m : ShadowTypeMap) (seed : UInt64) (seq : ℕ) :
    Grown src m seed seq ⟨m, [seed], [seed], 0⟩ where
  additive := ⟨rfl, fun _ _ => id, fun _ _ => id, fun _ _ => .inl⟩
  queue b hb p hp := by
    obtain rfl := List.mem_singleton.mp hb
    exact .seed hp

/-- Fresh stamps of what an object's fields lead to. -/
theorem Additive.stamps {types types' : ShadowTypeMap} {base : UInt64} {p : TypeProjection}
    {indirect : UInt64 → Option TypeInfo} (h : Additive src m seed seq types)
    (hp : types.lookup base = some p) (hreached : Reached src m seed seq base p)
    (hfields : types' = { types with indirect := indirect })
    (hregistered : ∀ a ti, types.indirect a = some ti → indirect a = some ti)
    {cs : List Candidate} (hnone : ∀ c ∈ cs, types.lookup c.value = none)
    (hleads : ∀ c ∈ cs, ∃ f, c.name = f.name ∧ Leads src base p f c.value c.typeInfo)
    (hnodup : (cs.map Candidate.value).Nodup) :
    Additive src m seed seq (applyStamps (cs.map (Candidate.stamp seq)) types') := by
  have hlookup (a : UInt64) : types'.lookup a = types.lookup a := by rw [hfields]; rfl
  obtain ⟨hframe, hkept, hadded⟩ :=
    @stamps_fresh seq cs types' (fun c hc => (hlookup _).trans (hnone c hc)) hnodup
  generalize applyStamps (cs.map (Candidate.stamp seq)) types' = m' at hframe hkept hadded ⊢
  have hkept' (a : UInt64) (q : TypeProjection) (hq : types.lookup a = some q) :
      m'.lookup a = some q := hkept a q ((hlookup a).trans hq)
  have hindirect : m'.indirect = indirect := by
    rw [hframe, hfields]
  refine ⟨?_, fun a q hq => hkept' a q (h.kept a q hq), fun a ti hti => ?_, fun a q hq => ?_⟩
  · rw [hindirect]
    refine hframe.trans ?_
    rw [hfields, h.frame]
  · rw [hindirect]
    exact hregistered a ti (h.indirect a ti hti)
  · rcases hadded a q hq with hold | ⟨c, hc, rfl, rfl⟩
    · refine (h.added a q ((hlookup a).symm.trans hold)).imp id ?_
      rintro ⟨hnew, base', p', f, ti, hr, hp', hleads', rfl⟩
      exact ⟨hnew, base', p', f, ti, hr, hkept' _ _ hp', hleads', rfl⟩
    · obtain ⟨f, hname, hlead⟩ := hleads c hc
      refine .inr ⟨?_, base, p, f, c.typeInfo, hreached, hkept' _ _ hp, hlead, ?_⟩
      · by_contra hsome
        obtain ⟨q, hq⟩ := Option.ne_none_iff_exists'.mp hsome
        have hold := h.kept _ q hq
        rw [hnone c hc] at hold
        cases hold
      · rw [← hname]
        rfl

/-- The scan of an object taken off the queue. -/
theorem Grown.scanObject (hmem : src.mem = none) {base : UInt64} {queue : List UInt64}
    (h : Grown src m seed seq s) (hqueue : s.queue = base :: queue) :
    Grown src m seed seq (scanObject src seq base { s with queue := queue }) := by
  have hrest : ∀ b ∈ queue, ∀ p, s.types.lookup b = some p → Reached src m seed seq b p :=
    fun b hb => h.queue b (hqueue ▸ List.mem_cons_of_mem _ hb)
  cases hp : s.types.lookup base with
  | none =>
      rw [ShadowTypeMap.scanObject]
      simp only [hp]
      exact ⟨h.additive, hrest⟩
  | some p =>
      have hreached := h.queue base (hqueue ▸ List.mem_cons_self) p hp
      obtain ⟨indirect, hfields, hregistered⟩ :=
        foldl_scanField_frame src base p.typeInfo.fields (s.types, [])
      obtain ⟨-, hnew⟩ := foldl_scanField_spec src base p.typeInfo.fields (s.types, [])
      have hstamps : objectStamps src base { s with queue := queue } = unvisited s.visited
          ((p.typeInfo.fields.foldl (scanField src base) (s.types, [])).2.insertionSort
            fun a b => a.name ≤ b.name) := by
        simp only [objectStamps, hp]
      obtain ⟨hnodup, hmem'⟩ := unvisited_nodup
        ((p.typeInfo.fields.foldl (scanField src base) (s.types, [])).2.insertionSort
          fun a b => a.name ≤ b.name) s.visited
      rw [← hstamps] at hnodup hmem'
      have hfound (c : Candidate) (hc : c ∈ objectStamps src base { s with queue := queue }) :
          c ∈ (p.typeInfo.fields.foldl (scanField src base) (s.types, [])).2 :=
        (List.perm_insertionSort _ _).mem_iff.mp (hmem' c hc).1
      have hnone (c : Candidate) (hc : c ∈ objectStamps src base { s with queue := queue }) :
          s.types.lookup c.value = none := by
        have hout := (hnew c (hfound c hc)).resolve_left List.not_mem_nil
        exact Option.not_isSome_iff_eq_none.mp (Bool.not_eq_true _ ▸ hout)
      have hleads (c : Candidate) (hc : c ∈ objectStamps src base { s with queue := queue }) :=
        (leads_of_candidates hmem p.typeInfo.fields (fun _ => id) _ (hfound c hc)).resolve_left
          List.not_mem_nil
      have hadditive := h.additive.stamps hp hreached hfields hregistered hnone hleads hnodup
      rw [scanObject_eq]
      simp only [hp, Option.map_some, Option.getD_some]
      refine ⟨by rw [types_stampAll]; exact hadditive, fun b hb q hq => ?_⟩
      rw [types_stampAll] at hq
      -- what was projected before is as it was; the rest was just led to
      rcases hadditive.added b q hq with hold | ⟨hnew, base', p', f, ti, hr, -, hlead, rfl⟩
      · have hbefore := h.additive.kept b q hold
        rcases List.mem_append.mp hb with hb | hb
        · exact hrest b hb q hbefore
        · obtain ⟨c, hc, rfl⟩ := List.mem_map.mp hb
          rw [hnone c hc] at hbefore
          cases hbefore
      · exact .field hr hlead hnew

/-- The exit condition of the loop. -/
def Scan.stops (fuel : ℕ) (s : Scan) : Prop := s.queue = [] ∨ fuel ≤ s.stamped

/-- A round takes one address off the queue, and what it adds to the queue it adds to the count. -/
theorem stops_scanLoop (src : ScanSource) (seq fuel : ℕ) : ∀ (rounds : ℕ) (s : Scan),
    fuel ≤ s.stamped ∨ fuel - s.stamped + s.queue.length ≤ rounds →
      (scanLoop src seq fuel rounds s).stops fuel := by
  intro rounds
  induction rounds with
  | zero =>
      rintro s (hfuel | hle)
      · exact .inr hfuel
      · have hempty := Nat.eq_zero_of_add_eq_zero_left (Nat.le_zero.mp hle)
        exact .inl (List.length_eq_zero_iff.mp hempty)
  | succ rounds ih =>
      intro s hle
      rw [scanLoop]
      cases hqueue : s.queue with
      | nil => exact .inl hqueue
      | cons base queue =>
          dsimp only
          split
          · rename_i hfuel
            exact .inr hfuel
          · rename_i hfuel
            apply ih
            rw [hqueue, List.length_cons] at hle
            rw [scanObject_eq, stampAll]
            simp only [List.length_append, List.length_map]
            omega

end Loop

/-- A scan of recorded values: the loop meets its exit condition within `fuel + 1` rounds, and what
it leaves is additive. -/
theorem retrospectiveScan_additive (m : ShadowTypeMap) (heapGraph : HeapGraph)
    (allocs : HeapAllocTracker) (registry : Registry) (seed : UInt64) (seq : ℕ) :
    (scanLoop ⟨heapGraph, allocs, registry, none⟩ seq (m.scanFuel seed) (m.scanFuel seed + 1)
      ⟨m, [seed], [seed], 0⟩).stops (m.scanFuel seed) ∧
    Additive ⟨heapGraph, allocs, registry, none⟩ m seed seq
      (m.retrospectiveScan ⟨heapGraph, allocs, registry, none⟩ seed seq) := by
  refine ⟨stops_scanLoop _ seq _ _ _ (.inr (by simp)), ?_⟩
  have hloop (fuel rounds : ℕ) : ∀ s, Grown ⟨heapGraph, allocs, registry, none⟩ m seed seq s →
      Grown ⟨heapGraph, allocs, registry, none⟩ m seed seq
        (scanLoop ⟨heapGraph, allocs, registry, none⟩ seq fuel rounds s) := by
    induction rounds with
    | zero => exact fun s hs => hs
    | succ rounds ih =>
        intro s hs
        rw [scanLoop]
        cases hqueue : s.queue with
        | nil => exact hs
        | cons base queue =>
            dsimp only
            split
            · exact hs
            · exact ih _ (hs.scanObject rfl hqueue)
  exact (hloop _ _ _ (.start _ m seed seq)).additive

end Rtmap.Engine.ShadowTypeMap
