import Mathlib.Data.Set.Finite.Basic
import Rtmap.Engine.TypeClosure
import Rtmap.Engine.TypeResolution

/-!
# The registry by the file

`parse_elf` harvests the structs and unions of all units, then what the types of the variables
hold, then the types of the needed libraries. `ensure_type` adds to that while a recording is
replayed. Which variables have an address is left to a parameter.
-/
namespace Rtmap.Engine

namespace Registry

/-- The one with more fields, an equal one stays. -/
def fuller (existing : Option TypeInfo) (ti : TypeInfo) : TypeInfo :=
  match existing with
  | some e => if ti.fields.length > e.fields.length then ti else e
  | none => ti

/-- `entry(name).and_modify(..).or_insert(ti)`. -/
def enter (r : Registry) (name : String) (ti : TypeInfo) : Registry :=
  Function.update r name (some (fuller (r name) ti))

/-- Every type of the library is entered. -/
def merge (r lib : Registry) : Registry := fun n =>
  match lib n with
  | some ti => some (fuller (r n) ti)
  | none => r n

def names (r : Registry) : Set String := {n | (r n).isSome}

end Registry

mutual

/-- `register_recursive`. -/
def registerRecursive : TypeInfo → Registry → Registry
  | ⟨name, byteSize, isPointer, isVolatile, isAtomic, shallow, fields⟩, reg =>
      let ti : TypeInfo := ⟨name, byteSize, isPointer, isVolatile, isAtomic, shallow, fields⟩
      let reg := if byteSize > 0 && !name.isEmpty && !isPointer then reg.enter name ti else reg
      let reg := registerMembers fields reg
      let pointeeName := (stripPointer name).getD ""
      if isPointer && byteSize > 0 && !pointeeName.isEmpty && pointeeName != "void" then
        registerPointee fields reg
      else reg

def registerMembers : List (FieldOf TypeInfo) → Registry → Registry
  | [], reg => reg
  | ⟨_, _, _, typeInfo, _⟩ :: fields, reg => registerMembers fields (registerRecursive typeInfo reg)

/-- The first field that is called `<pointee>`. -/
def registerPointee : List (FieldOf TypeInfo) → Registry → Registry
  | [], reg => reg
  | ⟨name, _, _, typeInfo, _⟩ :: fields, reg =>
      if name = "<pointee>" then registerRecursive typeInfo reg else registerPointee fields reg

end

/-- A unit and the offsets of its entries in the order of the scan. -/
structure ScannedUnit extends DieUnit where
  entries : List UnitOffset

/-- A struct or union entry that has a name, a size and fields. -/
def harvestEntry (unit : DieUnit) (r : Registry) (off : UnitOffset) : Registry :=
  if (unit.entry off).any Die.isAggregate then
    match (resolveTypeAt unit 17 off ∅).1 with
    | some ti =>
        if ti.name ≠ "" ∧ ti.name ≠ "<anon>" ∧ !ti.isPointer ∧ ti.byteSize > 0 ∧ ti.fields ≠ [] then
          r.enter ti.name ti
        else r
    | none => r
  else r

def harvest (units : List ScannedUnit) : Registry :=
  units.foldl (fun r unit => unit.entries.foldl (harvestEntry unit.toDieUnit) r) fun _ => none

/-- What of a file the registry is made of: its units; the variables whose types are registered,
the globals before the locals; what `.debug_names` lists; and the units of its libraries. -/
structure ElfTypes where
  units : List ScannedUnit
  typed : List (DieUnit × Die) := []
  typeEntries : String → List (DieUnit × UnitOffset) := fun _ => []
  libs : List (List ScannedUnit) := []

namespace ElfTypes

/-- The registry after `parse_elf`. -/
def parse (elf : ElfTypes) : Registry :=
  let r := elf.typed.foldl
    (fun r v => registerRecursive ((resolveType v.1 v.2).getD .unknown) r) (harvest elf.units)
  elf.libs.foldl (fun r units => r.merge (harvest units)) r

/-- An entry as `resolve_deep` reads it. -/
def definition (unit : DieUnit) (off : UnitOffset) : Option Definition :=
  (unit.entry off).map fun d =>
    { tag := d.tag
      name := d.attrName
      byteSize := (d.udata .byteSize).getD 0
      fields := (extractStructFieldsDeep unit 65 off ∅).1 }

def deepFile (elf : ElfTypes) : DeepFile where
  accel n := (elf.typeEntries n).filterMap fun e => definition e.1 e.2
  entries := elf.units.flatMap fun unit => unit.entries.filterMap (definition unit.toDieUnit)

/-- The registry once `ensure_type` was asked for the names. -/
def registry (elf : ElfTypes) (asked : List String) : Registry :=
  asked.foldl (fun r n => (DwarfInfo.ensureTypeInner elf.deepFile.resolver.ask 7 r n).1) elf.parse

end ElfTypes

namespace Registry
variable {r : Registry}

theorem finite_names_update (h : r.names.Finite) (n : String) (entry : Option TypeInfo) :
    (names (Function.update r n entry)).Finite := by
  refine (h.insert n).subset fun m hm => ?_
  by_cases hmn : m = n
  · exact .inl hmn
  · refine .inr ?_
    rwa [names, Set.mem_ofPred_eq, Function.update_of_ne hmn] at hm

theorem finite_names_merge {lib : Registry} (h : r.names.Finite) (hlib : lib.names.Finite) :
    (r.merge lib).names.Finite := by
  refine (h.union hlib).subset fun m hm => ?_
  rw [names, Set.mem_ofPred_eq, merge] at hm
  cases hentry : lib m with
  | some ti => exact .inr (by rw [names, Set.mem_ofPred_eq, hentry]; rfl)
  | none =>
      rw [hentry] at hm
      exact .inl hm

/-- A loop keeps the entries finitely many if its body does. -/
theorem finite_names_foldl {A : Type*} {step : Registry → A → Registry}
    (hstep : ∀ r : Registry, r.names.Finite → ∀ a, (step r a).names.Finite) (h : r.names.Finite)
    (l : List A) : (l.foldl step r).names.Finite :=
  List.foldlRecOn (motive := fun r => r.names.Finite) l step h fun r h a _ => hstep r h a

mutual

theorem finite_names_registerRecursive {r : Registry} (h : r.names.Finite) :
    (ti : TypeInfo) → (registerRecursive ti r).names.Finite
  | ⟨name, byteSize, isPointer, _, _, _, fields⟩ => by
      unfold registerRecursive
      have hself (b : Bool) (ti : TypeInfo) : (if b then r.enter name ti else r).names.Finite := by
        cases b
        · exact h
        · exact finite_names_update h name _
      dsimp only
      split
      · exact finite_names_registerPointee (finite_names_registerMembers (hself _ _) fields) fields
      · exact finite_names_registerMembers (hself _ _) fields

theorem finite_names_registerMembers {r : Registry} (h : r.names.Finite) :
    (fields : List (FieldOf TypeInfo)) → (registerMembers fields r).names.Finite
  | [] => by
      unfold registerMembers
      exact h
  | ⟨_, _, _, typeInfo, _⟩ :: fields => by
      unfold registerMembers
      exact finite_names_registerMembers (finite_names_registerRecursive h typeInfo) fields

theorem finite_names_registerPointee {r : Registry} (h : r.names.Finite) :
    (fields : List (FieldOf TypeInfo)) → (registerPointee fields r).names.Finite
  | [] => by
      unfold registerPointee
      exact h
  | ⟨_, _, _, typeInfo, _⟩ :: fields => by
      unfold registerPointee
      split
      · exact finite_names_registerRecursive h typeInfo
      · exact finite_names_registerPointee h fields

end

theorem finite_names_harvestEntry (unit : DieUnit) (r : Registry) (h : r.names.Finite)
    (off : UnitOffset) : (harvestEntry unit r off).names.Finite := by
  unfold harvestEntry
  split
  · split
    · split
      · exact finite_names_update h _ _
      · exact h
    · exact h
  · exact h

theorem finite_names_harvest (units : List ScannedUnit) : (harvest units).names.Finite := by
  have hempty : (names fun _ => none).Finite := Set.finite_empty.subset fun n hn => by cases hn
  exact finite_names_foldl
    (fun r h unit => finite_names_foldl (finite_names_harvestEntry unit.toDieUnit) h unit.entries)
    hempty units

theorem finite_names_ensureTypeInner (deep : Registry → String → Option TypeInfo) (fuel : ℕ) :
    ∀ r : Registry, r.names.Finite → ∀ n : String,
      (DwarfInfo.ensureTypeInner deep fuel r n).1.names.Finite := by
  induction fuel with
  | zero => exact fun r h _ => h
  | succ fuel ih =>
      intro r h n
      have hfound (ti : TypeInfo) (targets : List String) :=
        finite_names_foldl ih (finite_names_update h n (some ti)) targets
      rw [DwarfInfo.ensureTypeInner]
      dsimp only
      cases r n with
      | none =>
          cases deep r n with
          | none => exact h
          | some ti => exact hfound ti _
      | some entry =>
          dsimp only
          split
          · cases deep r n with
            | none => exact h
            | some ti => exact hfound ti _
          · exact finite_names_foldl ih h _

end Registry

/-- A registry has finitely many entries. -/
theorem ElfTypes.finite_names_registry (elf : ElfTypes) (asked : List String) :
    (elf.registry asked).names.Finite := by
  have htyped := Registry.finite_names_foldl
    (fun r h (v : DieUnit × Die) =>
      Registry.finite_names_registerRecursive h ((resolveType v.1 v.2).getD .unknown))
    (Registry.finite_names_harvest elf.units) elf.typed
  have hparse := Registry.finite_names_foldl
    (fun r h units => Registry.finite_names_merge h (Registry.finite_names_harvest units))
    htyped elf.libs
  exact Registry.finite_names_foldl (Registry.finite_names_ensureTypeInner _ 7) hparse asked

end Rtmap.Engine
