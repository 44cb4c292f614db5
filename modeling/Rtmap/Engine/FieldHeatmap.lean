import Rtmap.Engine.BlockLines
import Rtmap.Lib.Str

/-!
# The field heatmap

Each WRITE to a heap address under a projection is counted for its thread and the field of
the projected type that spans it: the outermost one. The counts are exported as a table of
tab-separated columns.
-/
namespace Rtmap.Engine
open Rtmap.Ring

structure FieldHeatKey where
  threadId : UInt16
  typeName : String
  fieldName : String
  fieldOffset : UInt64
deriving DecidableEq, Repr

/-- The writes of each key, in the order in which the keys came up. -/
structure FieldHeatmap where
  counts : List (FieldHeatKey × ℕ) := []

namespace FieldHeatmap

def record (h : FieldHeatmap) (k : FieldHeatKey) : FieldHeatmap :=
  if h.counts.any fun e => e.1 = k then
    { counts := h.counts.map fun e => if e.1 = k then (e.1, e.2 + 1) else e }
  else { counts := h.counts ++ [(k, 1)] }

/-- Some write is counted for the key. -/
def Records (h : FieldHeatmap) (k : FieldHeatKey) : Prop := ∃ e ∈ h.counts, e.1 = k

instance (h : FieldHeatmap) : DecidablePred h.Records :=
  fun k => inferInstanceAs (Decidable (∃ e ∈ h.counts, e.1 = k))

def HEADER : Str.Text := "type\tfield\toffset\tthread\twrites".toList

/-- A row of the table. -/
def row (e : FieldHeatKey × ℕ) : Str.Text :=
  ['\t'].intercalate [e.1.typeName.toList, e.1.fieldName.toList,
    Nat.toDigits 10 e.1.fieldOffset.toNat, Nat.toDigits 10 e.1.threadId.toNat, Nat.toDigits 10 e.2]

/-- `export_tsv`, of the entries in the order of the table. -/
def exportTsv (entries : List (FieldHeatKey × ℕ)) : Str.Text :=
  HEADER ++ '\n' :: entries.flatMap fun e => row e ++ ['\n']

end FieldHeatmap

/-- The field that a write under a projection is counted for. -/
def heatKey (tid : UInt16) (addr : UInt64) (p : TypeProjection) : FieldHeatKey :=
  match p.typeInfo.fields.find? fun f => f.covers (addr - p.baseAddr) with
  | some f => ⟨tid, p.typeInfo.name, f.name, f.byteOffset⟩
  | none => ⟨tid, p.typeInfo.name, "<unresolved>", addr - p.baseAddr⟩

/-- What an event counts for: a WRITE to a heap address under a projection. -/
def heatOf (ev : Event) (s : State) : Option FieldHeatKey :=
  if kindOf ev = .write ∧ s.heapOracle.isHeap ev.addr = true then
    (s.world.stm.covering ev.addr).map (heatKey ev.threadId ev.addr)
  else none

/-- The heatmap of a run. -/
def heatmapOf (start : State) (events : List HostEvent) : FieldHeatmap :=
  (events.foldl (fun (r : State × FieldHeatmap) e =>
    (processEvent e.1 e.2 r.1, (heatOf e.2 r.1).elim r.2 r.2.record)) (start, {})).2

end Rtmap.Engine
