import Mathlib.Algebra.Group.Nat.Defs
import Mathlib.Data.Nat.Notation
import Mathlib.Logic.Function.Basic
import Rtmap.Lib.SortedMap

/-!
# Type, variable and function descriptions

What the reconciler reads of the DWARF data: types with their fields, functions
with their locals, the type registry with its on-demand materializer and the
allocation-site oracle. Reading the ELF file itself is a parameter.
-/
namespace Rtmap.Engine

instance linearOrderUInt64 : LinearOrder UInt64 where
  le_refl := UInt64.le_refl
  le_trans _ _ _ := UInt64.le_trans
  le_antisymm _ _ := UInt64.le_antisymm
  le_total := UInt64.le_total
  lt_iff_le_not_ge a b := by
    simp only [UInt64.lt_iff_toNat_lt, UInt64.le_iff_toNat_le]
    omega
  toDecidableLE := inferInstance
  toDecidableEq := inferInstance
  toDecidableLT := inferInstance

-- every test of membership of an address asks for it
instance lawfulBEqUInt64 : LawfulBEq UInt64 := inferInstance

/-- `u64::saturating_add`. -/
def saturatingAdd (a b : UInt64) : UInt64 := if a.toNat + b.toNat < 2 ^ 64 then a + b else -1

theorem toNat_saturatingAdd (a b : UInt64) :
    (saturatingAdd a b).toNat = min (a.toNat + b.toNat) (2 ^ 64 - 1) := by
  rw [saturatingAdd]
  split
  · rw [UInt64.toNat_add, Nat.mod_eq_of_lt (by assumption)]
    omega
  · have hmax : (-1 : UInt64).toNat = 2 ^ 64 - 1 := rfl
    omega

/-- The address is one of the block's. -/
def InBlock (addr size x : UInt64) : Prop := addr ≤ x ∧ x.toNat < addr.toNat + size.toNat

theorem inBlock_of_range {addr size x : UInt64} (hlo : addr ≤ x) (hhi : x < saturatingAdd addr size) :
    InBlock addr size x := by
  rw [UInt64.lt_iff_toNat_lt, toNat_saturatingAdd] at hhi
  exact ⟨hlo, by omega⟩

/-- A range that saturates leaves out the last address only. -/
theorem eq_last_of_inBlock {addr size x : UInt64} (h : InBlock addr size x)
    (hout : ¬ x < saturatingAdd addr size) : x = -1 := by
  rw [UInt64.lt_iff_toNat_lt, toNat_saturatingAdd] at hout
  have hmax : (-1 : UInt64).toNat = 2 ^ 64 - 1 := rfl
  have hlt := x.toNat_lt
  have hin := h.2
  apply UInt64.toNat_inj.mp
  omega

structure FieldOf (T : Type) where
  name : String
  byteOffset : UInt64
  byteSize : UInt64
  typeInfo : T
  alignment : UInt64 := 0

structure TypeInfo where
  name : String
  byteSize : UInt64
  isPointer : Bool := false
  isVolatile : Bool := false
  isAtomic : Bool := false
  shallow : Bool := false
  fields : List (FieldOf TypeInfo) := []

abbrev FieldInfo := FieldOf TypeInfo

/-- The field spans the byte at `offset`. -/
def FieldOf.covers (f : FieldInfo) (offset : UInt64) : Bool :=
  offset ≥ f.byteOffset && offset < f.byteOffset + f.byteSize

/-- `strip_prefix('*')`. -/
def stripPointer (name : String) : Option String :=
  match name.toList with
  | '*' :: rest => some (String.ofList rest)
  | _ => none

/-- `strip_prefix('*')` until it fails. -/
def stripPointers (name : String) : String := String.ofList (name.toList.dropWhile (· == '*'))

inductive ExprStep where
  | lit (v : UInt64)
  | signedLit (v : Int64)
  | reg (r : UInt16)
  | breg (r : UInt16) (off : Int64)
  | frameBase (off : Int64)
  | addr (a : UInt64)
  | cfa
  | deref (size : UInt8)
  | plus | minus | mul | div | mod | neg | abs | and | or | xor | shl | shr | shra | not
  | drop
  | pick (idx : UInt8)
  | swap | rot
  | plusConst (c : UInt64)
  | stackValue
  | piece (size : UInt64)

inductive DwarfExprOp where
  | derefRegOffset (reg : UInt16) (offset : Int64) (derefSize : UInt8)
  | regPlusReg (r1 : UInt16) (off1 : Int64) (r2 : UInt16) (off2 : Int64)
  | stackMachine (steps : List ExprStep)

inductive LocationPiece where
  | address (a : UInt64)
  | frameBaseOffset (off : Int64)
  | register (r : UInt16)
  | registerOffset (r : UInt16) (off : Int64)
  | implicitValue (v : UInt64)
  | cfa
  | expr (op : DwarfExprOp)

structure LocationEntry where
  first : UInt64
  last : UInt64
  piece : LocationPiece

structure LocationTable where
  entries : List LocationEntry := []

def LocationTable.lookup (t : LocationTable) (pc : UInt64) : Option LocationPiece :=
  (t.entries.find? fun e => pc ≥ e.first && pc < e.last).map LocationEntry.piece

structure GlobalVar where
  name : String
  addr : UInt64
  size : UInt64
  typeInfo : TypeInfo

structure LocalVar where
  frameOffset : Int64
  name : String
  size : UInt64
  typeInfo : TypeInfo
  location : LocationTable := {}

structure FunctionMeta where
  name : String
  lowPc : UInt64
  highPc : UInt64
  frameBaseIsCfa : Bool := false
  locals : List LocalVar := []

/-- Functions by entry address: each is filed under its own `low_pc`. -/
structure FunctionMap extends SortedMap UInt64 FunctionMeta where
  keyed : ∀ pc f, toSortedMap.get? pc = some f → f.lowPc = pc

namespace FunctionMap

def empty : FunctionMap := ⟨SortedMap.empty, by simp⟩

/-- `functions.insert(f.low_pc, f)`. -/
def add (m : FunctionMap) (f : FunctionMeta) : FunctionMap where
  toSortedMap := m.toSortedMap.insert f.lowPc f
  keyed pc g hg := by
    rw [SortedMap.get?_insert] at hg
    split at hg
    · obtain rfl := Option.some.inj hg
      exact Eq.symm (by assumption)
    · exact m.keyed pc g hg

theorem get?_add (m : FunctionMap) (f : FunctionMeta) (pc : UInt64) :
    (m.add f).get? pc = if pc = f.lowPc then some f else m.get? pc :=
  SortedMap.get?_insert _ _ _ _

end FunctionMap

structure CfiEntry where
  startPc : UInt64
  endPc : UInt64
  savedRegs : List ℕ

structure LibDwarf where
  libPath : String
  elfBaseVaddr : UInt64
  globals : List GlobalVar := []
  functions : FunctionMap

structure CallSite where
  lowPc : UInt64
  highPc : UInt64
  allocSize : UInt64
  typeInfo : TypeInfo

/-- The two tiers of the allocation-site oracle. -/
structure AllocSiteOracle where
  unique : UInt64 → Option TypeInfo := fun _ => none
  ambiguous : UInt64 → Option (List TypeInfo) := fun _ => none
  callsite : List CallSite := []

/-- `AllocSiteOracle::resolve`: the unique type of the size, else the type of the
first call site, taking the callers in order. -/
def AllocSiteOracle.resolve (o : AllocSiteOracle) (allocSize : UInt64)
    (callerPcs : List UInt64) : Option TypeInfo :=
  match o.unique allocSize with
  | some ti => some ti
  | none =>
      if (o.ambiguous allocSize).isNone then none
      else callerPcs.findSome? fun pc =>
        (o.callsite.find? fun c => c.allocSize == allocSize && pc ≥ c.lowPc && pc < c.highPc).map
          CallSite.typeInfo

abbrev Registry := String → Option TypeInfo

structure DwarfInfo where
  globals : List GlobalVar := []
  functions : FunctionMap := FunctionMap.empty
  elfBaseVaddr : UInt64 := 0
  typeRegistry : Registry := fun _ => none
  cfi : List CfiEntry := []
  libGlobals : List LibDwarf := []
  allocOracle : AllocSiteOracle := {}

namespace DwarfInfo

/-- `func_containing`: the function that starts last at or below `pc`, if it spans `pc`. -/
def funcContaining (info : DwarfInfo) (pc : UInt64) : Option FunctionMeta :=
  match info.functions.floor pc with
  | some (_, f) => if pc < f.highPc then some f else none
  | none => none

/-- `CfiTable::saved_regs_at`. -/
def savedRegsAt (info : DwarfInfo) (pc : UInt64) : Option (List ℕ) :=
  (info.cfi.find? fun e => pc ≥ e.startPc && pc < e.endPc).map CfiEntry.savedRegs

/-- The names at the end of the pointer fields that the registry does not hold. -/
def pointerTargets (registry : Registry) (ti : TypeInfo) : List String :=
  (ti.fields.filter fun f => f.typeInfo.isPointer).filterMap fun f =>
    let n := stripPointers f.typeInfo.name
    if n.isEmpty || n == "void" || (registry n).isSome then none else some n

/-- `ensure_type_inner`, with `fuel` levels left of the seven (`depth` 0 to 6).
`deep` is what `resolve_deep` finds in the ELF file for a name that is absent
from the registry or shallow in it. -/
def ensureTypeInner (deep : Registry → String → Option TypeInfo) :
    ℕ → Registry → String → Registry × Bool
  | 0, registry, _ => (registry, false)
  | fuel + 1, registry, typeName =>
      let chase (registry : Registry) (ti : TypeInfo) : Registry :=
        (pointerTargets registry ti).foldl (fun r t => (ensureTypeInner deep fuel r t).1) registry
      let materialize : Registry × Bool :=
        match deep registry typeName with
        | none => (registry, false)
        | some ti => (chase (Function.update registry typeName (some ti)) ti, true)
      match registry typeName with
      | some ti => if ti.shallow then materialize else (chase registry ti, true)
      | none => materialize

/-- `ensure_type`. -/
def ensureType (deep : Registry → String → Option TypeInfo) (info : DwarfInfo)
    (typeName : String) : DwarfInfo :=
  { info with typeRegistry := (ensureTypeInner deep 7 info.typeRegistry typeName).1 }

@[simp] theorem ensureType_functions (deep : Registry → String → Option TypeInfo)
    (info : DwarfInfo) (n : String) : (info.ensureType deep n).functions = info.functions := rfl

end DwarfInfo

end Rtmap.Engine
