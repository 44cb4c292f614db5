import Rtmap.Engine.SettledTypes
import Rtmap.Engine.TypeHarvest
import Rtmap.Lib.Unfolding

/-!
# Patching of shallow fields

`patch_shallow_fields` replaces a shallow field by the registry's entry of its name and goes on
with what it put there, as deep as it comes. `patches_iff` says of which registries and types
it comes to an end.
-/
namespace Rtmap.Engine
open Unfolding

/-- The entry that takes the place of a shallow type: one with more fields. -/
def replacement (registry : Registry) (ti : TypeInfo) : Option TypeInfo :=
  if ti.shallow then
    (registry ti.name).filter fun full => !full.shallow && full.fields.length > ti.fields.length
  else none

/-- The type by which the loop goes on with a field. -/
def upgraded (registry : Registry) (ti : TypeInfo) : TypeInfo := (replacement registry ti).getD ti

/-- A field of the upgraded type, which is patched if it has fields. -/
def patchField (registry : Registry) (patch : TypeInfo → Option TypeInfo) (f : FieldInfo) :
    Option FieldInfo :=
  let fieldType := upgraded registry f.typeInfo
  (if fieldType.fields = [] then some fieldType else patch fieldType).map fun t =>
    { f with typeInfo := t }

/-- `patch_shallow_fields`, if no more than `depth` calls are open at a time. -/
def patchShallowFields (registry : Registry) : ℕ → TypeInfo → Option TypeInfo
  | 0, _ => none
  | depth + 1, ti =>
      (ti.fields.mapM (patchField registry (patchShallowFields registry depth))).map fun fields =>
        { ti with fields }

def FieldOf.place (f : FieldInfo) : String × UInt64 × UInt64 := (f.name, f.byteOffset, f.byteSize)

/-- From some depth on the call returns, always with the same type, whose own fields are called
and lie as before. -/
def Patches (registry : Registry) (ti : TypeInfo) : Prop :=
  ∃ depth ti', (∀ more ≥ depth, patchShallowFields registry more ti = some ti') ∧
    ti'.fields.map FieldOf.place = ti.fields.map FieldOf.place

/-- The entry of the name takes the place of a field of the type, or of one inside its fields. -/
inductive TakesIn (registry : Registry) : TypeInfo → String → Prop
  | here {ti : TypeInfo} {f : FieldInfo} (hf : f ∈ ti.fields)
      (h : (replacement registry f.typeInfo).isSome) : TakesIn registry ti f.typeInfo.name
  | inside {ti : TypeInfo} {f : FieldInfo} {n : String} (hf : f ∈ ti.fields)
      (h : replacement registry f.typeInfo = none) (hn : TakesIn registry f.typeInfo n) :
      TakesIn registry ti n

/-- The second entry takes the place of something in the first. -/
def EntryTakesIn (registry : Registry) (a b : String) : Prop :=
  ∃ full, registry a = some full ∧ TakesIn registry full b

/-- No entry that comes in, be it by another one, comes in by itself. -/
def Unlooped (registry : Registry) (ti : TypeInfo) : Prop :=
  ∀ n m, TakesIn registry ti n → Relation.ReflTransGen (EntryTakesIn registry) n m →
    ¬Relation.TransGen (EntryTakesIn registry) m m

/-- The types that the loop calls itself for. -/
def callees (registry : Registry) (ti : TypeInfo) : List TypeInfo :=
  (ti.fields.map fun f => upgraded registry f.typeInfo).filter fun t => t.fields ≠ []

section Patch
variable {registry : Registry} {ti full : TypeInfo} {f : FieldInfo}

theorem replacement_eq_some (h : replacement registry ti = some full) :
    registry ti.name = some full ∧ full.fields ≠ [] := by
  unfold replacement at h
  split at h
  · obtain ⟨hentry, hmore⟩ := Option.filter_eq_some_iff.mp h
    rw [Bool.and_eq_true, decide_eq_true_eq] at hmore
    exact ⟨hentry, List.ne_nil_of_length_pos (Nat.zero_lt_of_lt hmore.2)⟩
  · cases h

theorem upgraded_of_some (h : replacement registry ti = some full) :
    upgraded registry ti = full := by
  rw [upgraded, h, Option.getD_some]

theorem upgraded_of_none (h : replacement registry ti = none) :
    upgraded registry ti = ti := by
  rw [upgraded, h, Option.getD_none]

theorem mem_callees {t : TypeInfo} :
    t ∈ callees registry ti ↔
      (∃ f ∈ ti.fields, upgraded registry f.typeInfo = t) ∧ t.fields ≠ [] := by
  rw [callees, List.mem_filter, List.mem_map, decide_eq_true_eq]

theorem replaced_mem_callees (hf : f ∈ ti.fields)
    (h : replacement registry f.typeInfo = some full) : full ∈ callees registry ti :=
  mem_callees.mpr ⟨⟨f, hf, upgraded_of_some h⟩, (replacement_eq_some h).2⟩

theorem kept_mem_callees (hf : f ∈ ti.fields) (h : replacement registry f.typeInfo = none)
    (hne : f.typeInfo.fields ≠ []) : f.typeInfo ∈ callees registry ti :=
  mem_callees.mpr ⟨⟨f, hf, upgraded_of_none h⟩, hne⟩

theorem TakesIn.fields_ne_nil {n : String} (h : TakesIn registry ti n) : ti.fields ≠ [] := by
  cases h with
  | here hf _ => exact List.ne_nil_of_mem hf
  | inside hf _ _ => exact List.ne_nil_of_mem hf

theorem TakesIn.isSome {n : String} (h : TakesIn registry ti n) : (registry n).isSome := by
  induction h with
  | here hf h =>
      obtain ⟨full, hfull⟩ := Option.isSome_iff_exists.mp h
      rw [(replacement_eq_some hfull).1]
      rfl
  | inside _ _ _ ih => exact ih

theorem isSome_patchField (patch : TypeInfo → Option TypeInfo) :
    (patchField registry patch f).isSome ↔ ((upgraded registry f.typeInfo).fields ≠ [] →
      (patch (upgraded registry f.typeInfo)).isSome) := by
  rw [patchField, Option.isSome_map]
  split
  · rename_i hempty
    exact iff_of_true rfl fun h => absurd hempty h
  · rename_i hne
    exact ⟨fun h _ => h, fun h => h hne⟩

theorem isSome_patchShallowFields {depth : ℕ} :
    (patchShallowFields registry depth ti).isSome ↔ EndsWithin (callees registry) depth ti := by
  induction depth generalizing ti with
  | zero => exact iff_of_false Bool.false_ne_true id
  | succ depth ih =>
      rw [patchShallowFields, Option.isSome_map, isSome_mapM_iff, EndsWithin]
      constructor
      · intro h u hu
        obtain ⟨⟨f, hf, rfl⟩, hne⟩ := mem_callees.mp hu
        exact ih.mp ((isSome_patchField _).mp (h f hf) hne)
      · intro h f hf
        refine (isSome_patchField _).mpr fun hne => ih.mpr ?_
        exact h _ (mem_callees.mpr ⟨⟨f, hf, rfl⟩, hne⟩)

theorem patchShallowFields_succ {depth : ℕ} {ti' : TypeInfo} :
    patchShallowFields registry (depth + 1) ti = some ti' ↔
      ∃ fields, List.Forall₂ (fun f f' =>
          patchField registry (patchShallowFields registry depth) f = some f') ti.fields fields ∧
        { ti with fields } = ti' := by
  rw [patchShallowFields, Option.map_eq_some_iff]
  simp only [mapM_eq_some_iff]

/-- A field that is patched by one function is patched the same by one that goes further. -/
theorem patchField_mono {patch patch' : TypeInfo → Option TypeInfo} {f' : FieldInfo}
    (hpatch : ∀ t t', patch t = some t' → patch' t = some t')
    (h : patchField registry patch f = some f') : patchField registry patch' f = some f' := by
  unfold patchField at h ⊢
  dsimp only at h ⊢
  split
  · rename_i hempty
    rwa [if_pos hempty] at h
  · rename_i hne
    rw [if_neg hne] at h
    obtain ⟨t, ht, rfl⟩ := Option.map_eq_some_iff.mp h
    rw [hpatch _ t ht, Option.map_some]

theorem patchShallowFields_mono {depth more : ℕ} {ti' : TypeInfo} (hle : depth ≤ more)
    (h : patchShallowFields registry depth ti = some ti') :
    patchShallowFields registry more ti = some ti' := by
  induction depth generalizing ti ti' more with
  | zero => cases h
  | succ depth ih =>
      obtain ⟨more, rfl⟩ : ∃ n, more = n + 1 := ⟨more - 1, by omega⟩
      obtain ⟨fields, hfields, rfl⟩ := patchShallowFields_succ.mp h
      refine patchShallowFields_succ.mpr ⟨fields, hfields.imp fun f f' hf => ?_, rfl⟩
      exact patchField_mono (fun t t' ht => ih (Nat.le_of_succ_le_succ hle) ht) hf

theorem place_of_patchField {patch : TypeInfo → Option TypeInfo} {f' : FieldInfo}
    (h : patchField registry patch f = some f') : f'.place = f.place := by
  obtain ⟨t, -, rfl⟩ := Option.map_eq_some_iff.mp h
  rfl

theorem places_of_patchShallowFields {depth : ℕ} {ti' : TypeInfo}
    (h : patchShallowFields registry depth ti = some ti') :
    ti'.fields.map FieldOf.place = ti.fields.map FieldOf.place := by
  cases depth with
  | zero => cases h
  | succ depth =>
      obtain ⟨fields, hfields, rfl⟩ := patchShallowFields_succ.mp h
      clear h
      dsimp only
      generalize ti.fields = fs at hfields
      induction hfields with
      | nil => rfl
      | cons hf _ ih => rw [List.map_cons, List.map_cons, place_of_patchField hf, ih]

theorem patches_iff_acc :
    Patches registry ti ↔ Acc (fun u t => u ∈ callees registry t) ti := by
  rw [← exists_endsWithin_iff]
  constructor
  · rintro ⟨depth, ti', h, -⟩
    exact ⟨depth, isSome_patchShallowFields.mp (Option.isSome_of_eq_some (h depth le_rfl))⟩
  · rintro ⟨depth, h⟩
    obtain ⟨ti', hti'⟩ := Option.isSome_iff_exists.mp (isSome_patchShallowFields.mpr h)
    exact ⟨depth, ti', fun more hle => patchShallowFields_mono hle hti',
      places_of_patchShallowFields hti'⟩

end Patch

/-- A type has what all types have whose fields have it. -/
theorem TypeInfo.induction_fields {P : TypeInfo → Prop}
    (h : ∀ ti : TypeInfo, (∀ f ∈ ti.fields, P f.typeInfo) → P ti) (ti : TypeInfo) : P ti := by
  induction hsize : sizeOf ti using Nat.strong_induction_on generalizing ti with
  | _ size ih =>
      refine h ti fun f hf => ih _ ?_ f.typeInfo rfl
      obtain ⟨name, byteSize, isPointer, isVolatile, isAtomic, shallow, fields⟩ := ti
      have hfield := List.sizeOf_lt_of_mem hf
      rw [← hsize]
      cases f
      simp only [FieldOf.mk.sizeOf_spec, TypeInfo.mk.sizeOf_spec] at hfield ⊢
      omega

section Entries
variable {registry : Registry} {ti : TypeInfo}

/-- The loop comes to an end with a type if it does with all that takes a place in it. -/
theorem acc_of_takesIn
    (h : ∀ n full, TakesIn registry ti n → registry n = some full →
      Acc (fun u t => u ∈ callees registry t) full) :
    Acc (fun u t => u ∈ callees registry t) ti := by
  induction ti using TypeInfo.induction_fields with
  | _ ti ih =>
      refine Acc.intro ti fun u hu => ?_
      obtain ⟨⟨f, hf, rfl⟩, -⟩ := mem_callees.mp hu
      cases hreplaced : replacement registry f.typeInfo with
      | some full =>
          rw [upgraded_of_some hreplaced]
          exact h _ full (.here hf (Option.isSome_of_eq_some hreplaced))
            (replacement_eq_some hreplaced).1
      | none =>
          rw [upgraded_of_none hreplaced]
          exact ih f hf fun n full hn => h n full (.inside hf hreplaced hn)

theorem acc_entry {n : String} {full : TypeInfo} (hentry : registry n = some full)
    (h : ∀ m, TakesIn registry full m → Acc (fun y x => EntryTakesIn registry x y) m) :
    Acc (fun y x => EntryTakesIn registry x y) n := by
  refine Acc.intro n fun m hm => ?_
  obtain ⟨full', hentry', hm⟩ := hm
  obtain rfl := Option.some.inj (hentry.symm.trans hentry')
  exact h m hm

/-- The calls come to an end if the entries that come in do. -/
theorem acc_callees_iff :
    Acc (fun u t => u ∈ callees registry t) ti ↔
      ∀ n, TakesIn registry ti n → Acc (fun y x => EntryTakesIn registry x y) n := by
  constructor
  · intro h
    induction h with
    | intro ti _ ih =>
        intro n hn
        cases hn with
        | @here _ f hf hsome =>
            obtain ⟨full, hfull⟩ := Option.isSome_iff_exists.mp hsome
            exact acc_entry (replacement_eq_some hfull).1 (ih full (replaced_mem_callees hf hfull))
        | inside hf hnone hn => exact ih _ (kept_mem_callees hf hnone hn.fields_ne_nil) n hn
  · intro h
    refine acc_of_takesIn fun n full hn hentry => ?_
    have hacc := h n hn
    clear h hn
    induction hacc generalizing full with
    | intro n _ ih =>
        exact acc_of_takesIn fun m full' hm hentry' => ih m ⟨full, hentry, hm⟩ full' hentry'

theorem finite_reached (hfinite : registry.names.Finite) (n : String) :
    {m | Relation.ReflTransGen (EntryTakesIn registry) n m}.Finite := by
  refine (hfinite.insert n).subset fun m hm => ?_
  cases hm with
  | refl => exact .inl rfl
  | tail _ hlast =>
      obtain ⟨full, -, hm⟩ := hlast
      exact .inr hm.isSome

theorem patches_iff_unlooped (hfinite : registry.names.Finite) :
    Patches registry ti ↔ Unlooped registry ti := by
  have hacyclic (n : String) := acc_iff_acyclic (finite_reached hfinite n)
  rw [patches_iff_acc, acc_callees_iff]
  constructor
  · exact fun h n m hn => (hacyclic n).mp (h n hn) m
  · exact fun h n hn => (hacyclic n).mpr fun m => h n m hn

end Entries

/-- Patching a type by a registry that was read of a file comes to an end exactly if no entry
that comes in comes in by itself. -/
theorem patches_iff (elf : ElfTypes) (asked : List String) (ti : TypeInfo) :
    Patches (elf.registry asked) ti ↔ Unlooped (elf.registry asked) ti :=
  patches_iff_unlooped (elf.finite_names_registry asked)

namespace Looped

def structType (name : String) : Die :=
  .ofList .structureType [(.name, .string name), (.byteSize, .udata 8)]

def member (name : String) (off : UnitOffset) : Die :=
  .ofList .member [(.name, .string name), (.type, .unitRef off)]

/-- Three structs, each with a pointer, by a typedef, to a struct that holds the next one. -/
def unit : ScannedUnit where
  entry off :=
    if off = 1 then some (structType "a")
    else if off = 2 then some (structType "b")
    else if off = 3 then some (structType "c")
    else if 11 ≤ off ∧ off ≤ 13 then
      some (.ofList .pointerType [(.byteSize, .udata 8), (.type, .unitRef (off + 10))])
    else if 21 ≤ off ∧ off ≤ 23 then some (.ofList .typedef [(.type, .unitRef (off + 10))])
    else if off = 31 then some (structType "a_box")
    else if off = 32 then some (structType "b_box")
    else if off = 33 then some (structType "c_box")
    else none
  children off :=
    if 1 ≤ off ∧ off ≤ 3 then [member "next" (off + 10)]
    else if off = 31 then [member "held" 2]
    else if off = 32 then [member "held" 3]
    else if off = 33 then [member "held" 1]
    else []
  entries := [1, 2, 3, 11, 12, 13, 21, 22, 23, 31, 32, 33]

def elf : ElfTypes where
  units := [unit]

/-- A struct at the limit of the depth. -/
def cutOff (name : String) : TypeInfo where
  name := name
  byteSize := 8
  shallow := true

def field (name : String) (t : TypeInfo) : FieldInfo where
  name := name
  byteOffset := 0
  byteSize := 8
  typeInfo := t

/-- A struct with a pointer to the struct that holds `t`. -/
def linked (name : String) (t : TypeInfo) : TypeInfo where
  name := name
  byteSize := 8
  fields := [field "next" {
    name := "*" ++ name ++ "_box"
    byteSize := 8
    isPointer := true
    fields := [field "<pointee>" {
      name := name ++ "_box"
      byteSize := 8
      fields := [field "held" t] }] }]

def entry (name second third : String) : TypeInfo := linked name (linked second (cutOff third))

theorem registry_a : elf.registry [] "a" = some (entry "a" "b" "c") := rfl

theorem registry_b : elf.registry [] "b" = some (entry "b" "c" "a") := rfl

theorem registry_c : elf.registry [] "c" = some (entry "c" "a" "b") := rfl

theorem takesIn_entry {name second third fourth fifth : String}
    (h : elf.registry [] third = some (entry third fourth fifth)) :
    TakesIn (elf.registry []) (entry name second third) third := by
  have hreplaced : replacement (elf.registry []) (cutOff third) =
      some (entry third fourth fifth) := by
    rw [replacement, cutOff, if_pos rfl, h]
    rfl
  have hsecond : TakesIn (elf.registry []) (linked second (cutOff third)) third :=
    .inside (List.mem_singleton.mpr rfl) rfl <|
      .inside (List.mem_singleton.mpr rfl) rfl <|
        .here (f := field "held" (cutOff third)) (List.mem_singleton.mpr rfl)
          (Option.isSome_of_eq_some hreplaced)
  exact .inside (List.mem_singleton.mpr rfl) rfl <|
    .inside (List.mem_singleton.mpr rfl) rfl <|
      .inside (List.mem_singleton.mpr rfl) rfl hsecond

/-- Three structs that lead to each other in a ring go on for ever. -/
theorem not_patches : ¬∀ (elf : ElfTypes) (asked : List String) (ti : TypeInfo),
    Patches (elf.registry asked) ti := by
  intro h
  have hcb : EntryTakesIn (elf.registry []) "c" "b" := ⟨_, registry_c, takesIn_entry registry_b⟩
  have hba : EntryTakesIn (elf.registry []) "b" "a" := ⟨_, registry_b, takesIn_entry registry_a⟩
  have hac : EntryTakesIn (elf.registry []) "a" "c" := ⟨_, registry_a, takesIn_entry registry_c⟩
  have hunlooped := (patches_iff_unlooped (elf.finite_names_registry [])).mp
    (h elf [] (entry "a" "b" "c"))
  exact hunlooped "c" "c" (takesIn_entry registry_c) .refl (.tail (.tail (.single hcb) hba) hac)

end Looped

end Rtmap.Engine
