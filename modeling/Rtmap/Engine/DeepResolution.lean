import Rtmap.Engine.Dies

/-!
# Deep resolution of a name

`resolve_deep` reads the ELF file again for a definition with more fields than the registry
entry has. `rightDefinition_iff` says for which lists of definitions it comes to the one of the
entry's size, by the scan of all units as well as by the name index.
-/
namespace Rtmap.Engine

/-- An entry of the file, with the size by its attribute (zero without one) and the fields that
`extract_struct_fields_deep` finds. -/
structure Definition where
  tag : Tag
  name : Option String
  byteSize : UInt64
  fields : List FieldInfo

/-- The file: what `.debug_names` lists under a name, and the entries of all units, in their
order. What cannot be read is left out. -/
structure DeepFile where
  accel : String → List Definition := fun _ => []
  entries : List Definition

/-- The entry that the definition makes of the existing one. -/
def Definition.deepen (existing : TypeInfo) (typeName : String) (d : Definition) : TypeInfo where
  name := typeName
  byteSize := d.byteSize
  isVolatile := existing.isVolatile
  isAtomic := existing.isAtomic
  fields := d.fields

/-- `resolve_deep_at`. -/
def resolveDeepAt (typeName : String) (existing : TypeInfo) (d : Definition) : Option TypeInfo :=
  if d.tag ≠ .structureType ∧ d.tag ≠ .unionType ∧ d.tag ≠ .classType then none
  else if d.name ≠ some typeName ∨ d.byteSize = 0 then none
  else if d.fields.length > existing.fields.length then some (d.deepen existing typeName)
  else none

/-- The scan, `best` being the best definition so far: one of the existing size ends it if it
has more fields than that. -/
def scanDeep (typeName : String) (existing : TypeInfo) :
    Option TypeInfo → List Definition → Option TypeInfo
  | best, [] => best
  | best, d :: ds =>
      if d.tag ≠ .structureType ∧ d.tag ≠ .unionType then scanDeep typeName existing best ds
      else if d.name ≠ some typeName ∨ d.byteSize = 0 then scanDeep typeName existing best ds
      else if d.fields.length > (best.getD existing).fields.length then
        if d.byteSize = existing.byteSize then some (d.deepen existing typeName)
        else scanDeep typeName existing (some (d.deepen existing typeName)) ds
      else scanDeep typeName existing best ds

/-- The entry that a name starts from: without one, one without fields. -/
def deepFloor (registry : Registry) (typeName : String) : TypeInfo :=
  (registry typeName).getD { name := typeName, byteSize := 0, shallow := true }

namespace DeepFile

/-- What the name index gives. -/
def findAccel (file : DeepFile) (typeName : String) (existing : TypeInfo) : Option TypeInfo :=
  (file.accel typeName).findSome? (resolveDeepAt typeName existing)

/-- The file without its name index. -/
def withoutAccel (file : DeepFile) : DeepFile := { file with accel := fun _ => [] }

/-- What is found for the name: by the index, else by the scan. -/
def find (file : DeepFile) (typeName : String) (existing : TypeInfo) : Option TypeInfo :=
  (file.findAccel typeName existing).orElse fun _ => scanDeep typeName existing none file.entries

/-- `resolve_deep`, of a file that can be read. -/
def resolveDeep (file : DeepFile) (registry : Registry) (typeName : String) : Registry × Bool :=
  if (registry typeName).any fun ti => !ti.shallow then (registry, true)
  else
    match file.find typeName (deepFloor registry typeName) with
    | some ti => (Function.update registry typeName (some ti), true)
    | none => (registry, false)

end DeepFile

namespace Definition

/-- A struct or union of the name. -/
def Defines (typeName : String) (d : Definition) : Prop :=
  (d.tag = .structureType ∨ d.tag = .unionType) ∧ d.name = some typeName

/-- One that the scan considers: it has a size, and more fields than so many. -/
def Usable (typeName : String) (floor : ℕ) (d : Definition) : Prop :=
  d.Defines typeName ∧ d.byteSize ≠ 0 ∧ floor < d.fields.length

/-- One that the name index leads to: also a class. -/
def Listed (typeName : String) (floor : ℕ) (d : Definition) : Prop :=
  (d.Defines typeName ∨ d.tag = .classType ∧ d.name = some typeName) ∧ d.byteSize ≠ 0 ∧
    floor < d.fields.length

end Definition

/-- Where a definition has the size of the existing entry and more fields, the entry gets that
size; and the name index leads to an entry of the same size as the scan. -/
structure RightDefinition (file : DeepFile) (registry : Registry) (typeName : String) : Prop where
  exact (existing : TypeInfo) (hexisting : registry typeName = some existing)
    (h : ∃ d ∈ file.entries, d.Defines typeName ∧ d.byteSize = existing.byteSize ∧
      existing.fields.length < d.fields.length) :
    (file.resolveDeep registry typeName).2 = true ∧
      ((file.resolveDeep registry typeName).1 typeName).map TypeInfo.byteSize =
        some existing.byteSize
  accel :
    (file.resolveDeep registry typeName).2 =
        (file.withoutAccel.resolveDeep registry typeName).2 ∧
      ((file.resolveDeep registry typeName).1 typeName).map TypeInfo.byteSize =
        ((file.withoutAccel.resolveDeep registry typeName).1 typeName).map TypeInfo.byteSize

/-- It is usable and has more fields than every usable one before it. -/
def Leads (typeName : String) (floor : ℕ) (ds : List Definition) (d : Definition) : Prop :=
  ∃ before after, ds = before ++ d :: after ∧ d.Usable typeName floor ∧
    ∀ b ∈ before, b.Usable typeName floor → b.fields.length < d.fields.length

/-- The first of those that have the most fields. -/
def FirstBest (typeName : String) (floor : ℕ) (ds : List Definition) (d : Definition) : Prop :=
  Leads typeName floor ds d ∧
    ∀ b ∈ ds, b.Usable typeName floor → b.fields.length ≤ d.fields.length

/-- The first one that the name index leads to. -/
def FirstListed (typeName : String) (floor : ℕ) (ds : List Definition) (a : Definition) : Prop :=
  ∃ before after, ds = before ++ a :: after ∧ a.Listed typeName floor ∧
    ∀ b ∈ before, ¬b.Listed typeName floor

/-- Of the definitions of the existing size with more fields than the existing entry, if there
are any, one has more fields than all before it; and what the name index leads to first has that
size. Where no definition of that size leads, it has the size of the first one that has the
most fields. -/
structure Picks (file : DeepFile) (registry : Registry) (typeName : String) : Prop where
  leads (existing : TypeInfo) (hexisting : registry typeName = some existing)
    (h : ∃ d ∈ file.entries, d.Defines typeName ∧ d.byteSize = existing.byteSize ∧
      existing.fields.length < d.fields.length) :
    ∃ d, Leads typeName existing.fields.length file.entries d ∧ d.byteSize = existing.byteSize
  listed (floor : TypeInfo) (hfloor : floor = deepFloor registry typeName) (a : Definition)
    (ha : FirstListed typeName floor.fields.length (file.accel typeName) a) :
    (∃ d, Leads typeName floor.fields.length file.entries d ∧ d.byteSize = floor.byteSize ∧
      a.byteSize = d.byteSize) ∨
    ((∀ d, Leads typeName floor.fields.length file.entries d → d.byteSize ≠ floor.byteSize) ∧
      ∃ d, FirstBest typeName floor.fields.length file.entries d ∧ a.byteSize = d.byteSize)

section Leading
variable {typeName : String} {floor : ℕ} {d e : Definition} {ds : List Definition}

theorem Definition.Usable.mono {n : ℕ} (h : d.Usable typeName n) (hle : floor ≤ n) :
    d.Usable typeName floor := ⟨h.1, h.2.1, hle.trans_lt h.2.2⟩

theorem leads_cons_of_not (h : ¬d.Usable typeName floor) :
    Leads typeName floor (d :: ds) e ↔ Leads typeName floor ds e := by
  constructor
  · rintro ⟨before, after, hsplit, he, hbefore⟩
    cases before with
    | nil =>
        obtain ⟨rfl, -⟩ := List.cons.inj hsplit
        exact absurd he h
    | cons b before =>
        obtain ⟨-, htail⟩ := List.cons.inj hsplit
        exact ⟨before, after, htail, he, fun c hc => hbefore c (List.mem_cons_of_mem _ hc)⟩
  · rintro ⟨before, after, hsplit, he, hbefore⟩
    refine ⟨d :: before, after, by rw [hsplit, List.cons_append], he, fun c hc husable => ?_⟩
    rcases List.mem_cons.mp hc with rfl | hc
    · exact absurd husable h
    · exact hbefore c hc husable

theorem leads_cons_of_usable (h : d.Usable typeName floor) :
    Leads typeName floor (d :: ds) e ↔ e = d ∨ Leads typeName d.fields.length ds e := by
  constructor
  · rintro ⟨before, after, hsplit, he, hbefore⟩
    cases before with
    | nil => exact .inl (List.cons.inj hsplit).1.symm
    | cons b before =>
        obtain ⟨rfl, htail⟩ := List.cons.inj hsplit
        refine .inr ⟨before, after, htail, ⟨he.1, he.2.1, hbefore d List.mem_cons_self h⟩, ?_⟩
        exact fun c hc husable => hbefore c (List.mem_cons_of_mem _ hc) (husable.mono h.2.2.le)
  · rintro (rfl | ⟨before, after, hsplit, he, hbefore⟩)
    · exact ⟨[], ds, rfl, h, fun c hc => absurd hc List.not_mem_nil⟩
    · refine ⟨d :: before, after, by rw [hsplit, List.cons_append], he.mono h.2.2.le, ?_⟩
      intro c hc husable
      rcases List.mem_cons.mp hc with rfl | hc
      · exact he.2.2
      · by_cases hmore : d.fields.length < c.fields.length
        · exact hbefore c hc ⟨husable.1, husable.2.1, hmore⟩
        · exact (not_lt.mp hmore).trans_lt he.2.2

/-- Where none leads none is usable. -/
theorem not_leads_iff : (∀ e, ¬Leads typeName floor ds e) ↔ ∀ b ∈ ds, ¬b.Usable typeName floor := by
  constructor
  · intro h
    induction ds with
    | nil => exact fun b hb => absurd hb List.not_mem_nil
    | cons d ds ih =>
        have hd : ¬d.Usable typeName floor := fun hd => h d ((leads_cons_of_usable hd).mpr (.inl rfl))
        intro b hb
        rcases List.mem_cons.mp hb with rfl | hb
        · exact hd
        · exact ih (fun e he => h e ((leads_cons_of_not hd).mpr he)) b hb
  · rintro h e ⟨before, after, rfl, he, -⟩
    exact h e (List.mem_append_right _ List.mem_cons_self) he

theorem firstBest_cons_of_not (h : ¬d.Usable typeName floor) :
    FirstBest typeName floor (d :: ds) e ↔ FirstBest typeName floor ds e := by
  rw [FirstBest, FirstBest, leads_cons_of_not h]
  refine and_congr_right fun _ => ⟨fun hmax b hb => hmax b (List.mem_cons_of_mem _ hb), ?_⟩
  intro hmax b hb husable
  rcases List.mem_cons.mp hb with rfl | hb
  · exact absurd husable h
  · exact hmax b hb husable

theorem firstBest_cons_of_usable (h : d.Usable typeName floor) :
    FirstBest typeName floor (d :: ds) e ↔
      (e = d ∧ ∀ c, ¬Leads typeName d.fields.length ds c) ∨
        FirstBest typeName d.fields.length ds e := by
  rw [FirstBest, FirstBest, leads_cons_of_usable h, not_leads_iff]
  constructor
  · rintro ⟨he, hmax⟩
    rcases he with rfl | he
    · refine .inl ⟨rfl, fun b hb husable => ?_⟩
      exact absurd husable.2.2
        (not_lt.mpr (hmax b (List.mem_cons_of_mem _ hb) (husable.mono h.2.2.le)))
    · refine .inr ⟨he, fun b hb husable => ?_⟩
      exact hmax b (List.mem_cons_of_mem _ hb) (husable.mono h.2.2.le)
  · rintro (⟨rfl, hnone⟩ | ⟨he, hmax⟩)
    · refine ⟨.inl rfl, fun b hb husable => ?_⟩
      rcases List.mem_cons.mp hb with rfl | hb
      · exact le_rfl
      · exact not_lt.mp fun hlt => hnone b hb ⟨husable.1, husable.2.1, hlt⟩
    · refine ⟨.inr he, fun b hb husable => ?_⟩
      obtain ⟨before, after, -, hlead, -⟩ := he
      rcases List.mem_cons.mp hb with rfl | hb
      · exact hlead.2.2.le
      · by_cases hmore : d.fields.length < b.fields.length
        · exact hmax b hb ⟨husable.1, husable.2.1, hmore⟩
        · exact (not_lt.mp hmore).trans hlead.2.2.le

end Leading

section Scan
variable {typeName : String} {existing : TypeInfo} {best : Option TypeInfo} {d : Definition}
  {ds : List Definition}

theorem scanDeep_of_not (h : ¬d.Usable typeName (best.getD existing).fields.length) :
    scanDeep typeName existing best (d :: ds) = scanDeep typeName existing best ds := by
  rw [scanDeep]
  split
  · rfl
  · rename_i htag
    split
    · rfl
    · rename_i hname
      rw [not_and_or, not_not, not_not] at htag
      rw [not_or, not_not] at hname
      rw [if_neg fun hmore => h ⟨⟨htag, hname.1⟩, hname.2, hmore⟩]

theorem scanDeep_of_usable (h : d.Usable typeName (best.getD existing).fields.length) :
    scanDeep typeName existing best (d :: ds) =
      if d.byteSize = existing.byteSize then some (d.deepen existing typeName)
      else scanDeep typeName existing (some (d.deepen existing typeName)) ds := by
  obtain ⟨⟨htag, hname⟩, hsize, hmore⟩ := h
  rw [scanDeep, if_neg (by rwa [not_and_or, not_not, not_not]),
    if_neg (by rw [not_or, not_not]; exact ⟨hname, hsize⟩), if_pos hmore]

/-- The size that the scan comes to: of a leading definition that has the existing size, and
where there is none, of the first that has the most fields. -/
theorem scanDeep_size (hbest : ∀ b ∈ best, b.byteSize ≠ existing.byteSize) {size : UInt64} :
    (scanDeep typeName existing best ds).map TypeInfo.byteSize = some size ↔
      (∃ d, Leads typeName (best.getD existing).fields.length ds d ∧
        d.byteSize = existing.byteSize ∧ size = d.byteSize) ∨
      ((∀ d, Leads typeName (best.getD existing).fields.length ds d →
          d.byteSize ≠ existing.byteSize) ∧
        ((∃ d, FirstBest typeName (best.getD existing).fields.length ds d ∧ size = d.byteSize) ∨
          (∀ d, ¬Leads typeName (best.getD existing).fields.length ds d) ∧
            best.map TypeInfo.byteSize = some size)) := by
  induction ds generalizing best with
  | nil =>
      have hnone (n : ℕ) : ∀ e, ¬Leads typeName n [] e :=
        not_leads_iff.mpr fun b hb => absurd hb List.not_mem_nil
      rw [scanDeep]
      constructor
      · exact fun h => .inr ⟨fun e he => absurd he (hnone _ e), .inr ⟨hnone _, h⟩⟩
      · rintro (⟨e, he, -⟩ | ⟨-, ⟨e, he, -⟩ | ⟨-, h⟩⟩)
        · exact absurd he (hnone _ e)
        · exact absurd he.1 (hnone _ e)
        · exact h
  | cons d ds ih =>
      by_cases hd : d.Usable typeName (best.getD existing).fields.length
      · rw [scanDeep_of_usable hd]
        by_cases hsize : d.byteSize = existing.byteSize
        · -- the scan ends here
          have hlead : Leads typeName (best.getD existing).fields.length (d :: ds) d :=
            (leads_cons_of_usable hd).mpr (.inl rfl)
          rw [if_pos hsize]
          constructor
          · intro h
            exact .inl ⟨d, hlead, hsize, (Option.some.inj h).symm⟩
          · rintro (⟨e, -, he, hs⟩ | ⟨hnone, -⟩)
            · rw [hs, he, ← hsize]
              rfl
            · exact absurd hsize (hnone d hlead)
        · have hfloor : ((some (d.deepen existing typeName)).getD existing).fields.length =
              d.fields.length := rfl
          have hnext : ∀ b ∈ some (d.deepen existing typeName),
              b.byteSize ≠ existing.byteSize := fun b hb => Option.some.inj hb ▸ hsize
          rw [if_neg hsize, ih hnext, hfloor]
          simp only [leads_cons_of_usable hd, firstBest_cons_of_usable hd]
          constructor
          · rintro (⟨e, he, hs⟩ | ⟨hnone, hrest⟩)
            · exact .inl ⟨e, .inr he, hs⟩
            · refine .inr ⟨fun e he => ?_, .inl ?_⟩
              · rcases he with rfl | he
                · exact hsize
                · exact hnone e he
              · rcases hrest with ⟨e, he, hs⟩ | ⟨hlast, hs⟩
                · exact ⟨e, .inr he, hs⟩
                · exact ⟨d, .inl ⟨rfl, hlast⟩, (Option.some.inj hs).symm⟩
          · rintro (⟨e, he, hs, hsize'⟩ | ⟨hnone, hrest⟩)
            · rcases he with rfl | he
              · exact absurd hs hsize
              · exact .inl ⟨e, he, hs, hsize'⟩
            · refine .inr ⟨fun e he => hnone e (.inr he), ?_⟩
              rcases hrest with ⟨e, ⟨rfl, hlast⟩ | he, hs⟩ | ⟨hno, -⟩
              · exact .inr ⟨hlast, congrArg some hs.symm⟩
              · exact .inl ⟨e, he, hs⟩
              · exact absurd (.inl rfl) (hno d)
      · rw [scanDeep_of_not hd, ih hbest]
        simp only [leads_cons_of_not hd, firstBest_cons_of_not hd]

end Scan

theorem resolveDeepAt_eq_some {typeName : String} {existing t : TypeInfo} {d : Definition} :
    resolveDeepAt typeName existing d = some t ↔
      d.Listed typeName existing.fields.length ∧ t = d.deepen existing typeName := by
  unfold resolveDeepAt
  constructor
  · intro h
    split at h
    · cases h
    · rename_i htag
      split at h
      · cases h
      · rename_i hname
        split at h
        · rename_i hmore
          rw [not_or, not_not] at hname
          refine ⟨⟨?_, hname.2, hmore⟩, (Option.some.inj h).symm⟩
          rw [not_and_or, not_and_or, not_not, not_not, not_not] at htag
          rcases htag with htag | htag | htag
          · exact .inl ⟨.inl htag, hname.1⟩
          · exact .inl ⟨.inr htag, hname.1⟩
          · exact .inr ⟨htag, hname.1⟩
        · cases h
  · rintro ⟨⟨hdef, hsize, hmore⟩, rfl⟩
    have htag : ¬(d.tag ≠ .structureType ∧ d.tag ≠ .unionType ∧ d.tag ≠ .classType) := by
      rintro ⟨hs, hu, hc⟩
      rcases hdef with ⟨h | h, -⟩ | ⟨h, -⟩
      · exact hs h
      · exact hu h
      · exact hc h
    have hname : d.name = some typeName := by
      rcases hdef with ⟨-, h⟩ | ⟨-, h⟩ <;> exact h
    rw [if_neg htag, if_neg (by rw [not_or, not_not]; exact ⟨hname, hsize⟩), if_pos hmore]

/-- The name index gives what it leads to first. -/
theorem findAccel_eq_some {file : DeepFile} {typeName : String} {existing t : TypeInfo} :
    file.findAccel typeName existing = some t ↔
      ∃ a, FirstListed typeName existing.fields.length (file.accel typeName) a ∧
        t = a.deepen existing typeName := by
  have hnone (b : Definition) : resolveDeepAt typeName existing b = none ↔
      ¬b.Listed typeName existing.fields.length := by
    rw [Option.eq_none_iff_forall_ne_some]
    constructor
    · exact fun h hb => h _ (resolveDeepAt_eq_some.mpr ⟨hb, rfl⟩)
    · exact fun h t ht => h (resolveDeepAt_eq_some.mp ht).1
  rw [DeepFile.findAccel, List.findSome?_eq_some_iff]
  constructor
  · rintro ⟨before, a, after, hsplit, ha, hbefore⟩
    obtain ⟨hlisted, ht⟩ := resolveDeepAt_eq_some.mp ha
    exact ⟨a, ⟨before, after, hsplit, hlisted, fun b hb => (hnone b).mp (hbefore b hb)⟩, ht⟩
  · rintro ⟨a, ⟨before, after, hsplit, hlisted, hbefore⟩, ht⟩
    exact ⟨before, a, after, hsplit, resolveDeepAt_eq_some.mpr ⟨hlisted, ht⟩,
      fun b hb => (hnone b).mpr (hbefore b hb)⟩

/-- The registry holds the name with all its fields. -/
def Registry.Deep (registry : Registry) (typeName : String) : Prop :=
  ∃ ti, registry typeName = some ti ∧ ti.shallow = false

section Resolve
variable {file : DeepFile} {registry : Registry} {typeName : String}

theorem resolveDeep_of_deep (h : registry.Deep typeName) :
    file.resolveDeep registry typeName = (registry, true) := by
  obtain ⟨ti, hti, hdeep⟩ := h
  rw [DeepFile.resolveDeep, hti]
  exact if_pos (by rw [Option.any_some, hdeep]; rfl)

/-- What is found is installed; without it the registry stays as it is. -/
theorem resolveDeep_of_not_deep (file : DeepFile) (h : ¬registry.Deep typeName) :
    (file.resolveDeep registry typeName).2 =
        (file.find typeName (deepFloor registry typeName)).isSome ∧
      (file.resolveDeep registry typeName).1 typeName =
        (file.find typeName (deepFloor registry typeName)).or (registry typeName) := by
  have hshallow : ¬((registry typeName).any fun ti => !ti.shallow) = true := by
    intro hany
    cases hti : registry typeName with
    | none =>
        rw [hti] at hany
        cases hany
    | some ti =>
        rw [hti, Option.any_some] at hany
        exact h ⟨ti, hti, by simpa using hany⟩
  rw [DeepFile.resolveDeep, if_neg hshallow]
  cases file.find typeName (deepFloor registry typeName) with
  | none => exact ⟨rfl, rfl⟩
  | some ti => exact ⟨rfl, Function.update_self ..⟩

theorem deepFloor_of_some {existing : TypeInfo} (h : registry typeName = some existing) :
    deepFloor registry typeName = existing := by
  rw [deepFloor, h]
  rfl

/-- The size that the scan comes to: that of the first leading definition of the floor's size,
else that of the first one with the most fields. -/
theorem scanDeep_none_size (typeName : String) (floor : TypeInfo) (ds : List Definition)
    (size : UInt64) :
    (scanDeep typeName floor none ds).map TypeInfo.byteSize = some size ↔
      (∃ d, Leads typeName floor.fields.length ds d ∧ d.byteSize = floor.byteSize ∧
          size = d.byteSize) ∨
        ((∀ d, Leads typeName floor.fields.length ds d → d.byteSize ≠ floor.byteSize) ∧
          ∃ d, FirstBest typeName floor.fields.length ds d ∧ size = d.byteSize) := by
  rw [scanDeep_size fun b hb => by cases hb]
  simp

/-- Without the name index it is the scan that counts. -/
theorem find_withoutAccel (file : DeepFile) (typeName : String) (floor : TypeInfo) :
    file.withoutAccel.find typeName floor = scanDeep typeName floor none file.entries := rfl

theorem picks_of_rightDefinition (hdeep : ¬registry.Deep typeName)
    (h : RightDefinition file registry typeName) : Picks file registry typeName := by
  obtain ⟨hfound, hentry⟩ := resolveDeep_of_not_deep file hdeep
  obtain ⟨hfound', hentry'⟩ := resolveDeep_of_not_deep file.withoutAccel hdeep
  rw [find_withoutAccel] at hfound' hentry'
  have hsame (hres : (file.resolveDeep registry typeName).2 = true) :
      (scanDeep typeName (deepFloor registry typeName) none file.entries).map TypeInfo.byteSize =
        ((file.resolveDeep registry typeName).1 typeName).map TypeInfo.byteSize := by
    obtain ⟨t, ht⟩ := Option.isSome_iff_exists.mp (hfound' ▸ h.accel.1 ▸ hres)
    rw [h.accel.2, hentry', ht]
    rfl
  constructor
  · intro existing hexisting hrich
    obtain ⟨hres, hexact⟩ := h.exact existing hexisting hrich
    have hscan := (hsame hres).trans hexact
    rw [deepFloor_of_some hexisting, scanDeep_none_size] at hscan
    rcases hscan with ⟨d, hd, heq, -⟩ | ⟨hno, d, hd, heq⟩
    · exact ⟨d, hd, heq⟩
    · exact absurd heq.symm (hno d hd.1)
  · rintro floor rfl a ha
    have hfind : file.find typeName (deepFloor registry typeName) =
        some (a.deepen (deepFloor registry typeName) typeName) := by
      rw [DeepFile.find, findAccel_eq_some.mpr ⟨a, ha, rfl⟩]
      rfl
    rw [hfind] at hfound hentry
    refine (scanDeep_none_size _ _ _ a.byteSize).mp ((hsame hfound).trans ?_)
    rw [hentry]
    rfl

theorem rightDefinition_of_picks (hdeep : ¬registry.Deep typeName)
    (h : Picks file registry typeName) : RightDefinition file registry typeName := by
  obtain ⟨hfound, hentry⟩ := resolveDeep_of_not_deep file hdeep
  obtain ⟨hfound', hentry'⟩ := resolveDeep_of_not_deep file.withoutAccel hdeep
  rw [find_withoutAccel] at hfound' hentry'
  have haccel : (file.find typeName (deepFloor registry typeName)).map TypeInfo.byteSize =
      (scanDeep typeName (deepFloor registry typeName) none file.entries).map
        TypeInfo.byteSize := by
    rw [DeepFile.find]
    cases hfirst : file.findAccel typeName (deepFloor registry typeName) with
    | none => rfl
    | some t =>
        obtain ⟨a, ha, rfl⟩ := findAccel_eq_some.mp hfirst
        exact ((scanDeep_none_size _ _ _ a.byteSize).mpr (h.listed _ rfl a ha)).symm
  have hboth : (file.resolveDeep registry typeName).2 =
        (file.withoutAccel.resolveDeep registry typeName).2 ∧
      ((file.resolveDeep registry typeName).1 typeName).map TypeInfo.byteSize =
        ((file.withoutAccel.resolveDeep registry typeName).1 typeName).map TypeInfo.byteSize := by
    rw [hfound, hfound', hentry, hentry', Option.map_or, Option.map_or, haccel]
    exact ⟨by rw [← Option.isSome_map, haccel, Option.isSome_map], rfl⟩
  refine ⟨fun existing hexisting hrich => ?_, hboth⟩
  obtain ⟨d, hd, heq⟩ := h.leads existing hexisting hrich
  have hexact := (scanDeep_none_size typeName existing file.entries existing.byteSize).mpr
    (.inl ⟨d, hd, heq, heq.symm⟩)
  obtain ⟨t, ht, hbytes⟩ := Option.map_eq_some_iff.mp hexact
  rw [hboth.1, hboth.2, hfound', hentry', deepFloor_of_some hexisting, ht]
  exact ⟨rfl, congrArg some hbytes⟩

/-- The definition of the right size is found, by either path, exactly if the name is deep
already or the definitions are in an order in which it leads. -/
theorem rightDefinition_iff (file : DeepFile) (registry : Registry) (typeName : String) :
    RightDefinition file registry typeName ↔
      registry.Deep typeName ∨ Picks file registry typeName := by
  by_cases hdeep : registry.Deep typeName
  · refine ⟨fun _ => .inl hdeep, fun _ => ⟨fun existing hexisting _ => ?_, ?_⟩⟩
    · rw [resolveDeep_of_deep hdeep]
      exact ⟨rfl, congrArg (Option.map TypeInfo.byteSize) hexisting⟩
    · rw [resolveDeep_of_deep hdeep, resolveDeep_of_deep hdeep]
      exact ⟨rfl, rfl⟩
  · rw [or_iff_right hdeep]
    exact ⟨picks_of_rightDefinition hdeep, rightDefinition_of_picks hdeep⟩

end Resolve

namespace BiggerFirst

/-- A pointer-free field of eight bytes. -/
def word (offset : UInt64) : FieldInfo where
  name := "w"
  byteOffset := offset
  byteSize := 8
  typeInfo := { name := "long", byteSize := 8 }

/-- A struct of eight bytes whose fields were left out. -/
def registry : Registry := fun n =>
  if n = "S" then some { name := "S", byteSize := 8, shallow := true } else none

/-- A definition of sixteen bytes with two fields comes before the one of eight bytes. -/
def file : DeepFile where
  entries := [⟨.structureType, some "S", 16, [word 0, word 8]⟩,
    ⟨.structureType, some "S", 8, [word 0]⟩]

/-- The bigger one is installed, although one has the entry's size and more fields than it. -/
theorem not_rightDefinition : ¬∀ file registry typeName, RightDefinition file registry typeName := by
  intro h
  have hexact := ((h file registry "S").exact { name := "S", byteSize := 8, shallow := true } rfl
    ⟨⟨.structureType, some "S", 8, [word 0]⟩, by simp [file], ⟨.inl rfl, rfl⟩, rfl,
      Nat.zero_lt_one⟩).2
  have hbigger : ((file.resolveDeep registry "S").1 "S").map TypeInfo.byteSize = some 16 := rfl
  rw [hbigger] at hexact
  exact absurd (Option.some.inj hexact) (by decide)

end BiggerFirst

end Rtmap.Engine
