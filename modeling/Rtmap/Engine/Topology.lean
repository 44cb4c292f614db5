import Rtmap.Engine.World

/-!
# Topology lines

The JSON lines of the topology stream as data, with the fields each one prints.
-/
namespace Rtmap.Engine

/-- What ended a type's epoch, as the stream names it. -/
inductive CloseReason where
  | free | realloc | schism | poolReuse
deriving DecidableEq, Repr

inductive Line where
  | alloc (seq : ℕ) (tid : UInt16) (addr size : UInt64)
  | free (seq : ℕ) (tid : UInt16) (addr size : UInt64)
  | stamp (seq : ℕ) (addr : UInt64) (typeName : String) (typeSize : UInt64) (source : String)
      (fieldCount : ℕ)
  | link (seq : ℕ) (fromName : String) (fromAddr toAddr : UInt64) (pointeeType edgeField : String)
  | hazard (seq : ℕ) (kind : HazardKind) (writeAddr : UInt64) (writeSize : UInt32)
      (allocBase allocSize overflow : UInt64) (typeName fieldName : String)
  | processFork (seq : ℕ) (childPid parentPid : UInt32)
  | crossProcessWrite (seq : ℕ) (tid : UInt16) (addr : UInt64) (size : UInt32) (region : String)
  | seqGap (seq : ℕ) (tid : UInt16) (expected actual : UInt32)
  | typeSchism (seq : ℕ) (addr : UInt64) (oldType newType oldSource newSource : String)
  | typeViolation (seq : ℕ) (kind : ViolationKind) (writeAddr : UInt64) (writeSize : UInt32)
      (baseAddr offset : UInt64) (typeName field : String) (pc : UInt64)
  | typeEpochClose (seq : ℕ) (addr : UInt64) (typeName source : String) (openSeq closeSeq : ℕ)
      (reason : CloseReason)
  | summary (totalEvents nodes edges stmProjections liveAllocs hazards : ℕ)
deriving DecidableEq, Repr

/-- The stream when `--topology` is given, oldest line first. -/
abbrev Topology := Option (List Line)

/-- One more line, where there is a stream. -/
def Topology.emit (t : Topology) (l : Line) : Topology := t.map fun ls => ls ++ [l]

def Topology.emitAll (t : Topology) (new : List Line) : Topology := t.map fun ls => ls ++ new

@[simp] theorem Topology.emitAll_nil (t : Topology) : t.emitAll [] = t := by
  cases t <;> simp [emitAll]

/-- The lines of a kind after one more line. -/
theorem Topology.filter_emit (p : Line → Bool) (t : Topology) (l : Line) :
    (t.emit l).map (fun ls => ls.filter p) =
      (t.map fun ls => ls.filter p).map (· ++ [l].filter p) := by
  simp only [emit, Option.map_map]
  congr 1
  funext ls
  exact List.filter_append ls [l]

end Rtmap.Engine
