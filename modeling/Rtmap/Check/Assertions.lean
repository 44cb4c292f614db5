import Rtmap.Check.Graph
import Rtmap.Engine.Types
import Mathlib.Data.Finset.Lattice.Fold
import Mathlib.Order.Lattice.Nat

/-!
# The assertions

The assertion language, its parser line by line, and what each assertion says of the
graph. A line that is no assertion is warned about and left out.
-/
namespace Rtmap.Check
open Rtmap.Str

inductive Assertion where
  | noHazards
  | liveAllocsLt (limit : ℕ)
  | maxChain (typeName field : String) (limit : ℕ)
  | typeStable (source expectedType : String)
  | noFalseSharing (nameA nameB : String)
  | stmProjectionsGt (min : ℕ)
  | allocBeforeStamp
  | noUseAfterFree
  | monotonicSeq
  | stampBeforeLink
deriving DecidableEq, Repr

section Parser

/-- The text between the first two quotes. -/
def extractPlainQuoted (s : Text) : Option String := do
  let rest ← after ['"'] s
  if '"' ∈ rest then some (String.ofList (rest.takeWhile fun c => c ≠ '"')) else none

def extractQuotedAfter (s pre : Text) : Option String := do
  let rest ← s.dropPrefix? pre
  extractPlainQuoted rest

/-- The text up to the parenthesis that closes the one opened `depth` levels below, and
what follows it. -/
def closeParen : ℕ → Text → Option (Text × Text)
  | _, [] => none
  | depth, c :: cs =>
      if c = '(' then (closeParen (depth + 1) cs).map fun r => (c :: r.1, r.2)
      else if c = ')' then
        if depth = 1 then some ([], cs)
        else (closeParen (depth - 1) cs).map fun r => (c :: r.1, r.2)
      else (closeParen depth cs).map fun r => (c :: r.1, r.2)

/-- `word op N` -/
def parseCompare (word : String) (op : Char) (s : Text) : Option ℕ := do
  let rest := trim (← s.dropPrefix? word.toList)
  let rest := trim (← rest.dropPrefix? [op])
  parse rest

/-- `type("X"), "Y") < N`, behind the opening parenthesis -/
def parseMaxChain (rest : Text) : Option Assertion := do
  let (args, rest) ← closeParen 1 rest
  let limit ← parse (trim (← (trim rest).dropPrefix? ['<']))
  let typeName ← extractQuotedAfter args "type(".toList
  let commaRest := trim (← after [','] args)
  let field ← extractPlainQuoted commaRest
  return .maxChain typeName field limit

/-- `global("X"), "Y")`, behind the opening parenthesis -/
def parseTypeStable (rest : Text) : Option Assertion := do
  let inner ← rest.dropSuffix? [')']
  let source ← extractQuotedAfter inner "global(".toList
  let expected ← extractPlainQuoted (trim (← after [','] inner))
  return .typeStable source expected

/-- `"X", "Y")`, behind the opening parenthesis -/
def parseNoFalseSharing (rest : Text) : Option Assertion := do
  let inner ← rest.dropSuffix? [')']
  match inner.splitOn ',' with
  | [a, b] => return .noFalseSharing (← extractPlainQuoted (trim a)) (← extractPlainQuoted (trim b))
  | _ => none

/-- `parse_one`. -/
def parseOne (s : Text) : Option Assertion :=
  if s = "no_hazards".toList then some .noHazards
  else if "live_allocs".toList.isPrefixOf s then
    (parseCompare "live_allocs" '<' s).map .liveAllocsLt
  else if "stm_projections".toList.isPrefixOf s then
    (parseCompare "stm_projections" '>' s).map .stmProjectionsGt
  else
    match s.dropPrefix? "max_chain(".toList, s.dropPrefix? "type_stable(".toList with
    | some rest, _ => parseMaxChain rest
    | none, some rest => parseTypeStable rest
    | none, none =>
        if s = "alloc_before_stamp".toList then some .allocBeforeStamp
        else if s = "no_use_after_free".toList then some .noUseAfterFree
        else if s = "monotonic_seq".toList then some .monotonicSeq
        else if s = "stamp_before_link".toList then some .stampBeforeLink
        else (s.dropPrefix? "no_false_sharing(".toList).bind parseNoFalseSharing

/-- What is printed about a line that is left out. -/
inductive Warning where
  | unrecognized (lineno : ℕ) (line : Text)
  | couldNotParse (lineno : ℕ) (body : Text)
deriving DecidableEq, Repr

inductive Reading where
  | skipped
  | warned (w : Warning)
  | parsed (lineno : ℕ) (a : Assertion)
deriving DecidableEq, Repr

/-- A line that is blank or a comment. -/
def isBlankOrComment (line : Text) : Bool := trim line = [] || (trim line).head? = some '#'

def readAssertion (lineno : ℕ) (line : Text) : Reading :=
  if isBlankOrComment line then .skipped
  else if "assert ".toList.isPrefixOf (trim line) then
    let body := trim ((trim line).drop 7)
    match parseOne body with
    | some a => .parsed lineno a
    | none => .warned (.couldNotParse lineno body)
  else .warned (.unrecognized lineno (trim line))

/-- Each line of the content as it is read, numbered from 1. -/
def readings (content : Text) : List Reading :=
  (lines content).zipIdx.map fun x => readAssertion (x.2 + 1) x.1

def assertionsOf (content : Text) : List (ℕ × Assertion) :=
  (readings content).filterMap fun
    | .parsed lineno a => some (lineno, a)
    | _ => none

def warningsOf (content : Text) : List Warning :=
  (readings content).filterMap fun
    | .warned w => some w
    | _ => none

/-- `parse_assertions`: the assertions of a file and the warnings printed. -/
def parseAssertions (file : Text.Bytes) : Option (List (ℕ × Assertion) × List Warning) :=
  (Text.decode file).map fun content => (assertionsOf content.toList, warningsOf content.toList)

end Parser

namespace TopoGraph

def liveAllocCount (g : TopoGraph) : ℕ := (g.allocs.filter fun a => !a.freed).length

/-- The objects on the path from `cur`, up to one that was visited. -/
def chainFrom (next : UInt64 → Option UInt64) : ℕ → List UInt64 → UInt64 → ℕ
  | 0, _, _ => 0
  | fuel + 1, visited, cur =>
      if cur ∈ visited then 0
      else
        match next cur with
        | some target => if target ≠ 0 then chainFrom next fuel (cur :: visited) target + 1 else 1
        | none => 1

/-- `chain_length`: a path visits its start and targets of links, each once. -/
def chainLength (g : TopoGraph) (startType edgeField : String) : ℕ :=
  (g.typeAddrs startType).sup fun start =>
    chainFrom (fun cur => g.edges (cur, edgeField)) (g.links.length + 2) [] start

def typeStable (g : TopoGraph) (sourceName expectedType : String) : Bool :=
  (g.stamps.filter fun s => s.source = sourceName).all fun s => s.typeName = expectedType

/-- The number under which each address was freed, the last entry of an address counting. -/
def freeSeqs (g : TopoGraph) : UInt64 → Option ℕ :=
  g.allocs.foldl (fun freed a =>
    if a.freed ∧ a.freeSeq > 0 then Function.update freed a.addr (some a.freeSeq) else freed)
    fun _ => none

/-- The stamp or link is later than the last free of its target. -/
def isLate (freed : UInt64 → Option ℕ) (seq : ℕ) (addr : UInt64) : Bool :=
  match freed addr with
  | some freeSeq => seq > freeSeq
  | none => false

def useAfterFrees (g : TopoGraph) : ℕ :=
  (g.stamps.filter fun s => isLate g.freeSeqs s.seq s.addr).length +
    (g.links.filter fun l => isLate g.freeSeqs l.seq l.toAddr).length

def stampsBeforeAlloc (g : TopoGraph) : ℕ :=
  (g.stamps.filter fun s => (g.allocs.any fun a => a.addr = s.addr) &&
    !g.allocs.any fun a => a.addr = s.addr && a.seq ≤ s.seq).length

/-- How many numbers are below the one before them. -/
def descents (seqs : List ℕ) : ℕ :=
  (seqs.foldl (fun (r : ℕ × ℕ) seq => (if seq < r.2 then r.1 + 1 else r.1, seq)) (0, 0)).1

/-- A stamp at an allocation site. -/
def isAllocSite (s : StampEvent) : Bool := "alloc@".toList.isPrefixOf s.source.toList

def orderViolations (g : TopoGraph) : ℕ :=
  descents (g.allocs.map AllocEvent.seq) +
    descents ((g.stamps.filter fun s => !isAllocSite s).map StampEvent.seq) +
    descents (g.links.map LinkEvent.seq)

/-- The number of the first stamp of the address that is not one at an allocation site. -/
def firstStampSeq (g : TopoGraph) (addr : UInt64) : Option ℕ :=
  (g.stamps.find? fun s => !isAllocSite s && s.addr == addr).map StampEvent.seq

/-- The link is earlier than the first stamp of its target. -/
def isEarly (g : TopoGraph) (l : LinkEvent) : Bool :=
  match g.firstStampSeq l.toAddr with
  | some stampSeq => l.seq < stampSeq
  | none => false

def linksBeforeStamp (g : TopoGraph) : ℕ :=
  (g.links.filter fun l => l.toAddr != 0 && g.isEarly l).length

/-- The address that a name of `no_false_sharing` stands for. -/
def namedAddr (g : TopoGraph) (name : String) : Option UInt64 :=
  (g.sourceTargets name).orElse fun _ =>
    (g.stamps.find? fun s => s.source = name || s.typeName = name).map StampEvent.addr

def shareNoLine (g : TopoGraph) (nameA nameB : String) : Bool :=
  match g.namedAddr nameA, g.namedAddr nameB with
  | some a, some b => a >>> 6 != b >>> 6
  | _, _ => true

end TopoGraph

/-- `eval_one`. -/
def evalOne (g : TopoGraph) : Assertion → Bool
  | .noHazards => g.hazards.length = 0
  | .liveAllocsLt limit => g.liveAllocCount < limit
  | .stmProjectionsGt min => g.summary.stmProjections > min
  | .maxChain typeName field limit => g.chainLength typeName field < limit
  | .typeStable source expectedType => g.typeStable source expectedType
  | .allocBeforeStamp => g.stampsBeforeAlloc = 0
  | .noUseAfterFree => g.useAfterFrees = 0
  | .monotonicSeq => g.orderViolations = 0
  | .stampBeforeLink => g.linksBeforeStamp = 0
  | .noFalseSharing nameA nameB => g.shareNoLine nameA nameB

/-- `evaluate`: how many assertions hold and how many do not. -/
def evaluate (g : TopoGraph) (assertions : List (ℕ × Assertion)) : ℕ × ℕ :=
  assertions.foldl (fun r a => if evalOne g a.2 then (r.1 + 1, r.2) else (r.1, r.2 + 1)) (0, 0)

/-- `main` of `rtmap-check`: the exit status, where `files` reads a file. -/
def main (args : List String) (files : String → Option Text.Bytes) : ℕ :=
  match args with
  | _ :: topoPath :: assertPath :: _ =>
      match (files topoPath).bind TopoGraph.build with
      | none => 1
      | some g =>
          match (files assertPath).bind parseAssertions with
          | none => 1
          | some (assertions, _) => if (evaluate g assertions).2 > 0 then 1 else 0
  | _ => 1

end Rtmap.Check
