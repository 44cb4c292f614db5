import Mathlib.Algebra.GroupWithZero.Nat
import Mathlib.Data.List.Sort
import Mathlib.Data.List.Dedup
import Rtmap.Engine.Types
import Rtmap.Lib.Str

/-!
# The divergence report of the linter

`rtmap-lint --heatmap` lays the leaf fields of a struct out over cachelines and looks up,
under the dotted path and the offset of each, the threads that a heatmap has for it.
-/
namespace Rtmap.Lint
open Rtmap.Engine Rtmap.Str

structure FieldLayout where
  name : String
  offset : UInt64
  size : UInt64
  typeName : String
  clStart : UInt64
  clEnd : UInt64
  isPointer : Bool
  isVolatile : Bool
  isAtomic : Bool
  hasAlignment : Bool
deriving DecidableEq, Repr

def FieldLayout.isWriteHot (f : FieldLayout) : Bool := f.isVolatile || f.isAtomic

/-- The field spans bytes of the cacheline. -/
def FieldLayout.on (f : FieldLayout) (cl : UInt64) : Bool := f.clStart ≤ cl && cl ≤ f.clEnd

/-- `cachelines`. -/
def FieldLayout.cachelines (f : FieldLayout) : List UInt64 :=
  (List.range (f.clEnd.toNat + 1 - f.clStart.toNat)).map fun i => f.clStart + UInt64.ofNat i

theorem mem_cachelines {f : FieldLayout} {cl : UInt64} : cl ∈ f.cachelines ↔ f.on cl = true := by
  have hend := f.clEnd.toNat_lt
  have hlt := cl.toNat_lt
  rw [FieldLayout.on, Bool.and_eq_true, decide_eq_true_eq, decide_eq_true_eq,
    UInt64.le_iff_toNat_le, UInt64.le_iff_toNat_le, FieldLayout.cachelines, List.mem_map]
  constructor
  · rintro ⟨i, hi, rfl⟩
    rw [List.mem_range] at hi
    rw [UInt64.toNat_add, UInt64.toNat_ofNat', Nat.mod_eq_of_lt (by omega),
      Nat.mod_eq_of_lt (by omega)]
    omega
  · rintro ⟨hstart, hle⟩
    refine ⟨cl.toNat - f.clStart.toNat, by rw [List.mem_range]; omega, ?_⟩
    apply UInt64.toNat_inj.mp
    rw [UInt64.toNat_add, UInt64.toNat_ofNat', Nat.mod_eq_of_lt (by omega),
      Nat.mod_eq_of_lt (by omega)]
    omega

/-- The layout of a leaf field. -/
def leafLayout (clSize absOffset : UInt64) (path : String) (f : FieldInfo) : FieldLayout where
  name := path
  offset := absOffset
  size := f.byteSize
  typeName := f.typeInfo.name
  clStart := absOffset / clSize
  clEnd := (absOffset + max f.byteSize 1 - 1) / clSize
  isPointer := f.typeInfo.isPointer
  isVolatile := f.typeInfo.isVolatile
  isAtomic := f.typeInfo.isAtomic
  hasAlignment := f.alignment > 0 && f.alignment ≥ clSize

/-- `flatten_fields`, down to a depth. -/
def flattenFields (clSize : UInt64) : ℕ → List FieldInfo → UInt64 → String → List FieldLayout
  | 0, _, _, _ => []
  | depth + 1, fields, baseOffset, pre =>
      fields.flatMap fun f =>
        let absOffset := baseOffset + f.byteOffset
        let path := if pre = "" then f.name else pre ++ "." ++ f.name
        if f.typeInfo.fields.isEmpty || f.typeInfo.isPointer then [leafLayout clSize absOffset path f]
        else flattenFields clSize depth f.typeInfo.fields absOffset path

/-- The depths from 0 to the last one that is flattened, 8. -/
def DEPTHS : ℕ := 9

/-- The layouts of a struct by offset. -/
def layouts (ti : TypeInfo) (clSize : UInt64) : List FieldLayout :=
  (flattenFields clSize DEPTHS ti.fields 0 "").insertionSort fun a b => a.offset ≤ b.offset

/-- The fields on a cacheline. -/
def fieldsOn (ls : List FieldLayout) (cl : UInt64) : List FieldLayout := ls.filter fun f => f.on cl

structure HeatEntry where
  typeName : String
  fieldName : String
  fieldOffset : UInt64
  threadId : UInt16
  writes : ℕ
deriving DecidableEq, Repr

/-- A line of the table that has five columns. -/
def parseRow (line : Text) : Option HeatEntry :=
  match line.splitOn '\t' with
  | typeName :: fieldName :: offset :: thread :: writes :: _ =>
      some {
        typeName := String.ofList typeName
        fieldName := String.ofList fieldName
        fieldOffset := UInt64.ofNat ((parse offset).getD 0)
        threadId := UInt16.ofNat (((parse thread).filter fun n => n < 2 ^ 16).getD 0)
        writes := (parse writes).getD 0 }
  | _ => none

/-- `parse_heatmap`: a first line that starts with `type` is the header. -/
def parseHeatmap (contents : Text) : List HeatEntry :=
  match lines contents with
  | [] => []
  | first :: rest =>
      if "type".toList.isPrefixOf first then rest.filterMap parseRow
      else (first :: rest).filterMap parseRow

/-- The writes of each thread, each once. -/
def totals (writes : List (UInt16 × ℕ)) : List (UInt16 × ℕ) :=
  (writes.map Prod.fst).dedup.map fun t =>
    (t, ((writes.filter fun w => w.1 = t).map Prod.snd).sum)

structure ObservedField where
  threads : List (UInt16 × ℕ)
deriving DecidableEq, Repr

def ObservedField.isMultiWriter (f : ObservedField) : Bool := f.threads.length > 1

/-- The keys of a heatmap's entries for a struct, each once. -/
def observedKeys (structName : String) (heatmap : List HeatEntry) : List (String × UInt64) :=
  ((heatmap.filter fun e => e.typeName = structName).map fun e =>
    (e.fieldName, e.fieldOffset)).dedup

/-- What a heatmap has for a struct under a field's name and offset. -/
def observed (structName : String) (heatmap : List HeatEntry) (key : String × UInt64) :
    Option ObservedField :=
  match heatmap.filter fun e => e.typeName = structName ∧ (e.fieldName, e.fieldOffset) = key with
  | [] => none
  | es => some ⟨totals (es.map fun e => (e.threadId, e.writes))⟩

inductive DivergenceClass where
  | confirmed | silentKiller | falseAlarm
deriving DecidableEq, Repr

/-- What is printed of a cacheline. -/
structure ReportLine where
  cacheline : UInt64
  lintFlagged : Bool
  cls : DivergenceClass
  writers : List (UInt16 × ℕ)
  hot : List (String × ObservedField)
  fields : List String
deriving DecidableEq, Repr

structure Report where
  lines : List ReportLine
  orphans : List ((String × UInt64) × ObservedField)
deriving DecidableEq, Repr

def LOCK_KEYWORDS : List Text :=
  ["lock".toList, "rwlock".toList, "mutex".toList, "atomic".toList, "spinlock".toList]

/-- The linter would warn about the field. -/
def isFlagged (toLowercase : Text → Text) (f : FieldLayout) : Bool :=
  f.isWriteHot || f.hasAlignment ||
    LOCK_KEYWORDS.any fun kw => (after kw (toLowercase f.name.toList)).isSome

def classify : Bool → Bool → Option DivergenceClass
  | true, true => some .confirmed
  | false, true => some .silentKiller
  | true, false => some .falseAlarm
  | false, false => none

section Report
variable (toLowercase : Text → Text) (structName : String) (heatmap : List HeatEntry)

/-- What is observed of the fields on a cacheline. -/
def observedOn (fields : List FieldLayout) : List (String × ObservedField) :=
  fields.filterMap fun f => (observed structName heatmap (f.name, f.offset)).map fun o => (f.name, o)

/-- The threads that write to the fields on a cacheline. -/
def writersOn (fields : List FieldLayout) : List (UInt16 × ℕ) :=
  totals ((observedOn structName heatmap fields).flatMap fun o => o.2.threads)

/-- What is printed of a cacheline with two fields or more. -/
def reportLine (ls : List FieldLayout) (cl : UInt64) : Option ReportLine :=
  let fields := fieldsOn ls cl
  if fields.length < 2 then none
  else
    let writers := writersOn structName heatmap fields
    let lintFlagged := fields.any (isFlagged toLowercase)
    (classify lintFlagged (writers.length > 1)).map fun cls =>
      { cacheline := cl
        lintFlagged
        cls
        writers
        hot := (observedOn structName heatmap fields).filter fun o => o.2.isMultiWriter
        fields := fields.map FieldLayout.name }

/-- The fields that more than one thread writes to, on no cacheline with two fields. -/
def orphans (ls : List FieldLayout) (clSize : UInt64) : List ((String × UInt64) × ObservedField) :=
  (observedKeys structName heatmap).filterMap fun key =>
    (observed structName heatmap key).bind fun o =>
      if o.isMultiWriter && (fieldsOn ls (key.2 / clSize)).length < 2 then some (key, o) else none

/-- `divergence_report`; a cacheline size of 0 is divided by. -/
def divergenceReport (ti : TypeInfo) (clSize : UInt64) : Option Report :=
  if clSize = 0 then none
  else
    let ls := layouts ti clSize
    let cls := ((ls.flatMap FieldLayout.cachelines).insertionSort (· ≤ ·)).dedup
    some {
      lines := cls.filterMap (reportLine toLowercase structName heatmap ls)
      orphans := orphans structName heatmap ls clSize }

end Report

end Rtmap.Lint
