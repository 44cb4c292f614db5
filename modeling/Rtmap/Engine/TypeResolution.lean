import Mathlib.Data.Finset.Insert
import Rtmap.Engine.Dies

/-!
# Type resolution

`resolve_type_at` follows the type references of a unit, `resolve_type_at_deep` does it
again for one name with higher limits. All members of a struct share one set of visited
structs. The limits on the depth are the recursion's fuel here: `levels` counts what is
left of them.
-/
namespace Rtmap.Engine

/-- A resolved type, if any, and the structs and unions visited by then. -/
abbrev Resolution := Option TypeInfo × Finset UnitOffset

section Members
variable (resolve : UnitOffset → Finset UnitOffset → Resolution)

/-- The field of a member entry. -/
def memberField (d : Die) (visited : Finset UnitOffset) : FieldInfo × Finset UnitOffset :=
  let r :=
    match d.ref .type with
    | some off => resolve off visited
    | none => (none, visited)
  let ti := r.1.getD .unknown
  ({ name := d.attrName.getD "<anon>"
     byteOffset := (d.udata .dataMemberLocation).getD 0
     byteSize := ti.byteSize
     typeInfo := ti
     alignment := (d.udata .alignment).getD 0 }, r.2)

/-- The fields of the member entries, each resolved with what those before it visited. -/
def memberFields : List Die → Finset UnitOffset → List FieldInfo × Finset UnitOffset
  | [], visited => ([], visited)
  | d :: ds, visited =>
      if d.tag = .member then
        let f := memberField resolve d visited
        let r := memberFields ds f.2
        (f.1 :: r.1, r.2)
      else memberFields ds visited

/-- What the type attribute refers to. -/
def resolveRef (d : Die) (visited : Finset UnitOffset) : Resolution :=
  match d.ref .type with
  | some off => resolve off visited
  | none => (none, visited)

end Members

/-- The elements of one dimension: a count, else one more than an upper bound. -/
def Die.elements (d : Die) : UInt64 :=
  ((d.udata .count).orElse fun _ => (d.udata .upperBound).map (· + 1)).getD 0

/-- The size of an array by its dimensions: each that has elements sets it anew. -/
def subrangeSize (elemSize : UInt64) (children : List Die) : UInt64 :=
  children.foldl (fun size d =>
    if d.tag = .subrangeType ∧ d.elements > 0 then d.elements * elemSize else size) 0

/-- The array's own size, else the one by its dimensions. -/
def arraySize (d : Die) (children : List Die) (elemSize : UInt64) : UInt64 :=
  let own := (d.udata .byteSize).getD 0
  if own = 0 ∧ elemSize > 0 then subrangeSize elemSize children else own

/-- A field for each of the first elements. -/
def elementFields (element : TypeInfo) (size : UInt64) : List FieldInfo :=
  if element.byteSize > 0 ∧ size > 0 ∧ element.fields ≠ [] then
    (List.range (min (size / element.byteSize).toNat 64)).map fun i =>
      { name := "[" ++ toString i ++ "]"
        byteOffset := UInt64.ofNat i * element.byteSize
        byteSize := element.byteSize
        typeInfo := element }
  else []

/-- The array type over an element type, if that resolved. -/
def arrayType (d : Die) (children : List Die) (element : Option TypeInfo) : TypeInfo :=
  let elemName := (element.map TypeInfo.name).getD "?"
  let elemSize := (element.map TypeInfo.byteSize).getD 0
  let size := arraySize d children elemSize
  { name :=
      if size > 0 ∧ elemSize > 0 then
        elemName ++ "[" ++ toString (size / elemSize).toNat ++ "]"
      else elemName ++ "[]"
    byteSize := size
    fields := (element.map fun et => elementFields et size).getD [] }

/-- A pointer carries the fields of its pointee in one of its own. -/
def pointerType (d : Die) (pointee : Option TypeInfo) : TypeInfo where
  name := (pointee.map fun t => "*" ++ t.name).getD "*void"
  byteSize := (d.udata .byteSize).getD 8
  isPointer := true
  fields := ((pointee.filter fun t => !t.fields.isEmpty).map fun t =>
    { name := "<pointee>", byteOffset := 0, byteSize := t.byteSize, typeInfo := t }).toList

/-- A typedef names a type without a name, a qualifier marks it. -/
def qualify (d : Die) (ti : TypeInfo) : TypeInfo :=
  { ti with
    isVolatile := ti.isVolatile || d.tag = .volatileType
    isAtomic := ti.isAtomic || d.tag = .atomicType
    name :=
      match d.attrName with
      | some name => if ti.name = "<anon>" ∨ ti.name = "" then name else ti.name
      | none => ti.name }

/-- `resolve_type_at`, with `levels` left of the seventeen (`depth` 0 to 16). From depth 8
on a struct gets no fields. -/
def resolveTypeAt (unit : DieUnit) : ℕ → UnitOffset → Finset UnitOffset → Resolution
  | 0, _, visited => (none, visited)
  | levels + 1, off, visited =>
      if off ∈ visited then (none, visited)
      else
        match unit.entry off with
        | none => (none, insert off visited)
        | some d =>
            match d.tag with
            | .baseType | .enumerationType =>
                (some {
                  name := d.attrName.getD "<anon>"
                  byteSize := (d.udata .byteSize).getD 0 }, visited)
            | .structureType | .unionType =>
                let size := (d.udata .byteSize).getD 0
                let r :=
                  if levels < 9 then ([], insert off visited)
                  else
                    memberFields (resolveTypeAt unit levels) (unit.children off)
                      (insert off visited)
                (some {
                  name := d.attrName.getD "<anon>"
                  byteSize := size
                  shallow := r.1.isEmpty && size > 0 && levels < 9
                  fields := r.1 }, r.2)
            | .pointerType =>
                let r := resolveRef (resolveTypeAt unit levels) d visited
                (some (pointerType d r.1), r.2)
            | .typedef | .constType | .volatileType | .atomicType | .restrictType =>
                let r := resolveRef (resolveTypeAt unit levels) d visited
                (r.1.map (qualify d), r.2)
            | .arrayType =>
                let r := resolveRef (resolveTypeAt unit levels) d visited
                (some (arrayType d (unit.children off) r.1), r.2)
            | _ => (none, visited)

/-- `extract_struct_fields`, with `levels` left of the seventeen. -/
def extractStructFields (unit : DieUnit) (levels : ℕ) (off : UnitOffset)
    (visited : Finset UnitOffset) : List FieldInfo × Finset UnitOffset :=
  if levels ≤ 9 then ([], visited)
  else memberFields (resolveTypeAt unit (levels - 1)) (unit.children off) visited

/-- `resolve_type`. -/
def resolveType (unit : DieUnit) (d : Die) : Option TypeInfo :=
  (d.ref .type).bind fun off => (resolveTypeAt unit 17 off ∅).1

/-- `resolve_type_at_deep`, with `levels` left of the sixty-five (`depth` 0 to 64). From
depth 32 on a struct gets no fields. -/
def resolveTypeAtDeep (unit : DieUnit) : ℕ → UnitOffset → Finset UnitOffset → Resolution
  | 0, _, visited => (none, visited)
  | levels + 1, off, visited =>
      if off ∈ visited then (none, visited)
      else
        match unit.entry off with
        | none => (none, insert off visited)
        | some d =>
            match d.tag with
            | .baseType | .enumerationType =>
                (some {
                  name := d.attrName.getD "<prim>"
                  byteSize := (d.udata .byteSize).getD 0 }, visited)
            | .structureType | .unionType =>
                let r :=
                  if levels < 33 then ([], insert off visited)
                  else
                    memberFields (resolveTypeAtDeep unit levels) (unit.children off)
                      (insert off visited)
                (some {
                  name := d.attrName.getD "<anon>"
                  byteSize := (d.udata .byteSize).getD 0
                  fields := r.1 }, r.2)
            | .pointerType =>
                let r := resolveRef (resolveTypeAtDeep unit levels) d visited
                (some { pointerType d r.1 with fields := [] }, r.2)
            | .typedef | .constType | .volatileType | .atomicType | .restrictType =>
                resolveRef (resolveTypeAtDeep unit levels) d visited
            | _ => (none, visited)

/-- `extract_struct_fields_deep`, with `levels` left of the sixty-five. -/
def extractStructFieldsDeep (unit : DieUnit) (levels : ℕ) (off : UnitOffset)
    (visited : Finset UnitOffset) : List FieldInfo × Finset UnitOffset :=
  if levels ≤ 33 then ([], visited)
  else memberFields (resolveTypeAtDeep unit (levels - 1)) (unit.children off) visited

end Rtmap.Engine
