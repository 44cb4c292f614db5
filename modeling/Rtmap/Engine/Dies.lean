import Rtmap.Engine.LocalPlaces

/-!
# Debugging information entries

The entries of a compilation unit as the DWARF reader delivers them: a tag, the values of
the attributes, and their place in the tree. What the reader does to the bytes is not
modelled.
-/
namespace Rtmap.Engine

/-- The tags that are told apart. -/
inductive Tag where
  | subprogram | inlinedSubroutine | lexicalBlock | variable | formalParameter
  | structureType | unionType | classType | member
  | baseType | enumerationType | pointerType
  | typedef | constType | volatileType | atomicType | restrictType
  | arrayType | subrangeType
  | other (code : ℕ)
deriving DecidableEq, Repr

/-- The attributes that are read. -/
inductive At where
  | name | lowPc | highPc | entryPc | abstractOrigin | frameBase | location
  | type | byteSize | dataMemberLocation | alignment | count | upperBound
deriving DecidableEq, Repr

abbrev UnitOffset := ℕ

/-- The value of an attribute. Of an expression or a list of locations it has what
`decode_location` makes of it, of an expression also whether its first operation is
`DW_OP_call_frame_cfa`. -/
inductive AttrValue where
  | string (s : String)
  | addr (a : UInt64)
  | udata (v : UInt64)
  | sdata (v : Int64)
  | unitRef (off : UnitOffset)
  | exprloc (table : LocationTable) (startsWithCfa : Bool)
  | locations (table : LocationTable)
  | other

/-- `udata_value`. -/
def AttrValue.udataValue : AttrValue → Option UInt64
  | .udata v => some v
  | .sdata v => if v < 0 then none else some v.toUInt64
  | _ => none

def AttrValue.addr? : AttrValue → Option UInt64
  | .addr a => some a
  | _ => none

def AttrValue.unitRef? : AttrValue → Option UnitOffset
  | .unitRef off => some off
  | _ => none

/-- `decode_location`. -/
def AttrValue.table : AttrValue → LocationTable
  | .exprloc t _ => t
  | .locations t => t
  | _ => {}

/-- An entry without its place. -/
structure Die where
  tag : Tag
  attrValue : At → Option AttrValue := fun _ => none

namespace Die

/-- An entry by the list of its attributes. -/
def ofList (tag : Tag) (attrs : List (At × AttrValue)) : Die where
  tag := tag
  attrValue a := (attrs.find? fun e => e.1 = a).map Prod.snd

/-- `attr_name`. -/
def attrName (d : Die) : Option String :=
  match d.attrValue .name with
  | some (.string s) => some s
  | _ => none

/-- An attribute as an unsigned number. -/
def udata (d : Die) (a : At) : Option UInt64 := (d.attrValue a).bind AttrValue.udataValue

/-- The entry that the attribute refers to in the same unit. -/
def ref (d : Die) (a : At) : Option UnitOffset := (d.attrValue a).bind AttrValue.unitRef?

/-- A struct or union, whose visit ends cycles. -/
def isAggregate (d : Die) : Bool := d.tag = .structureType || d.tag = .unionType

end Die

/-- A unit: the entry at an offset and its children in their order. -/
structure DieUnit where
  entry : UnitOffset → Option Die
  children : UnitOffset → List Die

end Rtmap.Engine
