import Rtmap.Lib.Blocks
import Rtmap.Lib.Grouping
import Rtmap.Lint.Divergence

/-!
# The lint of a struct

`analyze_struct` puts the leaf fields of a struct on the cachelines that they span and warns of
the lines that fields share which had better not.
-/
namespace Rtmap.Lint
open Rtmap.Engine Rtmap.Str

/-- The writer groups of an annotation file, each field with one. -/
structure Annotations where
  fieldToGroup : List (String × String)
  nodup : (fieldToGroup.map Prod.fst).Nodup

def Annotations.empty : Annotations := ⟨[], List.nodup_nil⟩

/-- A field is looked up by its path, and then by its last segment. -/
def Annotations.groupFor (a : Annotations) (field : String) : Option String :=
  (a.fieldToGroup.lookup field).orElse fun _ =>
    a.fieldToGroup.lookup (String.ofList ((field.toList.splitOn '.').getLastD []))

def Annotations.hasAnnotations (a : Annotations) : Bool := !a.fieldToGroup.isEmpty

inductive Severity where
  | warning | info
deriving DecidableEq, Repr

structure Diagnostic where
  severity : Severity
  cacheline : UInt64
  message : String
  fields : List String
deriving DecidableEq, Repr

section Texts

/-- `{}` -/
def dec (n : UInt64) : String := String.ofList (Nat.toDigits 10 n.toNat)

/-- `{:#x}` -/
def hex (n : UInt64) : String := "0x" ++ String.ofList (Nat.toDigits 16 n.toNat)

/-- `{:<width}` -/
def padRight (width : ℕ) (s : String) : String :=
  s ++ String.ofList (List.replicate (width - s.length) ' ')

/-- `{:>width}` -/
def padLeft (width : ℕ) (s : String) : String :=
  String.ofList (List.replicate (width - s.length) ' ') ++ s

/-- `{:#06x}` -/
def hex06 (n : UInt64) : String :=
  let digits := Nat.toDigits 16 n.toNat
  "0x" ++ String.ofList (List.replicate (4 - digits.length) '0' ++ digits)

/-- `div_ceil`. -/
def divCeil (n d : UInt64) : UInt64 := if n % d = 0 then n / d else n / d + 1

/-- The names of the fields that are chosen. -/
def namesOf (p : FieldLayout → Bool) (fields : List FieldLayout) : String :=
  ", ".intercalate ((fields.filter p).map FieldLayout.name)

/-- The bytes of a cacheline. -/
def bytesOf (clSize cl : UInt64) : String := hex (cl * clSize) ++ "-" ++ hex ((cl + 1) * clSize - 1)

end Texts

section Tiers
variable (toLowercase : Text → Text) (clSize cl : UInt64)

def isLockName (f : FieldLayout) : Bool :=
  LOCK_KEYWORDS.any fun kw => (after kw (toLowercase f.name.toList)).isSome

/-- Some of the fields are chosen and some are not. -/
def mixed (p : FieldLayout → Bool) (fields : List FieldLayout) : Bool :=
  fields.any p && fields.any fun f => !p f

/-- What is said of a cacheline and the fields on it. -/
def sharing (severity : Severity) (fields : List FieldLayout) (text : String) : Diagnostic where
  severity := severity
  cacheline := cl
  message := "CL" ++ dec cl ++ " (" ++ bytesOf clSize cl ++ "): " ++ text
  fields := fields.map FieldLayout.name

/-- The three tiers that are looked at without annotations. -/
def tiers (fields : List FieldLayout) : Option Diagnostic :=
  let isScalar (f : FieldLayout) : Bool := !f.isPointer && f.size ≤ 8
  if mixed FieldLayout.isWriteHot fields then
    some (sharing clSize cl .warning fields ("volatile/atomic [" ++
      namesOf FieldLayout.isWriteHot fields ++ "] shares line with [" ++
      namesOf (fun f => !f.isWriteHot) fields ++ "]"))
  else if mixed FieldLayout.hasAlignment fields then
    some (sharing clSize cl .warning fields ("aligned field(s) [" ++
      namesOf FieldLayout.hasAlignment fields ++ "] share line with [" ++
      namesOf (fun f => !f.hasAlignment) fields ++ "] — isolation intent violated"))
  else if mixed (isLockName toLowercase) fields then
    some (sharing clSize cl .warning fields ("lock/atomic [" ++
      namesOf (isLockName toLowercase) fields ++ "] shares line with [" ++
      namesOf (fun f => !isLockName toLowercase f) fields ++ "]"))
  else if fields.any FieldLayout.isPointer && fields.any isScalar && !fields.all isScalar then
    some (sharing clSize cl .info fields ("scalar [" ++ namesOf isScalar fields ++
      "] adjacent to pointer [" ++ namesOf FieldLayout.isPointer fields ++
      "] — potential write/read contention"))
  else none

/-- The writer groups that meet on a cacheline; the map lists them in an order of its own. -/
def collision (annotations : Annotations) (fields : List FieldLayout) : Option Diagnostic :=
  let groups := Grouping.group Prod.fst (fields.filterMap fun f =>
    (annotations.groupFor f.name).map fun g => (g, f.name))
  if groups.length > 1 then
    some {
      severity := .warning
      cacheline := cl
      message := "cacheline " ++ dec cl ++ " (bytes " ++ bytesOf clSize cl ++ "): " ++
        dec (UInt64.ofNat groups.length) ++ " writer groups collide" ++
        String.join (groups.map fun g => "\n    group '" ++ g.1 ++ "': " ++
          ", ".intercalate (g.2.map Prod.snd))
      fields := fields.map FieldLayout.name }
  else none

def lineDiagnostic (annotations : Annotations) (fields : List FieldLayout) : Option Diagnostic :=
  if fields.length < 2 then none
  else if annotations.hasAnnotations then collision clSize cl annotations fields
  else tiers toLowercase clSize cl fields

end Tiers

/-- What is said of fields at one place that differ in their qualifiers. -/
def overlap (clSize offset : UInt64) (fields : List FieldLayout) : Diagnostic where
  severity := .warning
  cacheline := offset / clSize
  message := "union at offset " ++ hex offset ++ ": volatile/atomic [" ++
    namesOf FieldLayout.isWriteHot fields ++ "] overlaps with [" ++
    namesOf (fun f => !f.isWriteHot) fields ++ "] — type-confused contention"
  fields := fields.map FieldLayout.name

/-- `check_union_overlaps`. -/
def checkUnionOverlaps (ls : List FieldLayout) (clSize : UInt64) : List Diagnostic :=
  (((ls.map FieldLayout.offset).insertionSort (· ≤ ·)).dedup).filterMap fun offset =>
    let fields := ls.filter fun f => f.offset = offset
    if fields.length < 2 then none
    else if mixed FieldLayout.isWriteHot fields then some (overlap clSize offset fields)
    else none

/-- The rows of a layout, each cacheline with a heading where it starts. -/
def layoutRows (clSize : UInt64) (annotations : Annotations) :
    Option UInt64 → List FieldLayout → String
  | _, [] => ""
  | current, f :: fs =>
      let cl := f.offset / clSize
      let heading := if current ≠ some cl then
        "  --- cacheline " ++ dec cl ++ " (" ++ hex (cl * clSize) ++ ") ---\n" else ""
      let group := ((annotations.groupFor f.name).map fun g => "  [" ++ g ++ "]").getD ""
      heading ++ "    " ++ padRight 40 f.name ++ " " ++ hex06 f.offset ++ "  CL" ++ dec cl ++ "+" ++
        padRight 3 (dec (f.offset % clSize)) ++ "  " ++ padLeft 4 (dec f.size) ++ "B  " ++
        f.typeName ++ group ++ "\n" ++ layoutRows clSize annotations (some cl) fs

/-- `format_layout`. -/
def formatLayout (ti : TypeInfo) (ls : List FieldLayout) (clSize : UInt64)
    (annotations : Annotations) : String :=
  "struct " ++ ti.name ++ " (" ++ dec ti.byteSize ++ " bytes, " ++
    dec (divCeil ti.byteSize clSize) ++ " cachelines at " ++ dec clSize ++ "B/line)\n" ++
    layoutRows clSize annotations none ls

/-- The cachelines that fields are on, with the fields on each. -/
def clFields (ls : List FieldLayout) : List (UInt64 × List FieldLayout) :=
  (((ls.flatMap FieldLayout.cachelines).insertionSort (· ≤ ·)).dedup).map fun cl =>
    (cl, fieldsOn ls cl)

/-- `analyze_struct`; a cacheline size of 0 is divided by. -/
def analyzeStruct (toLowercase : Text → Text) (ti : TypeInfo) (clSize : UInt64)
    (annotations : Annotations) : Option (List Diagnostic) :=
  if clSize = 0 then none
  else
    let ls := layouts ti clSize
    some ((clFields ls).filterMap (fun l => lineDiagnostic toLowercase clSize l.1 annotations l.2) ++
      checkUnionOverlaps ls clSize ++ [{
        severity := .info
        cacheline := 0
        message := formatLayout ti ls clSize annotations
        fields := [] }])

end Rtmap.Lint
