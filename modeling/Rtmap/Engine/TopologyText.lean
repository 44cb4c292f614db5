import Rtmap.Engine.Topology
import Rtmap.Lib.FlatJson
import Rtmap.Lib.TextLines

/-!
# The text of the topology stream

Each line as the emitters print it: one flat JSON object with its names escaped. What is
escaped has a backslash before each of its quotes, and no line ends inside a line.
-/
namespace Rtmap.Engine
open Rtmap.Str Rtmap.FlatJson

/-- A name between the quotes of a line. -/
def esc (s : Text) : Text :=
  replace ['\t'] ['\\', 't'] <| replace ['\r'] ['\\', 'r'] <| replace ['\n'] ['\\', 'n'] <|
    replace ['"'] ['\\', '"'] <| replace ['\\'] ['\\', '\\'] s

def escChar (c : Char) : Text :=
  if c = '\\' then ['\\', '\\']
  else if c = '"' then ['\\', '"']
  else if c = '\n' then ['\\', 'n']
  else if c = '\r' then ['\\', 'r']
  else if c = '\t' then ['\\', 't']
  else [c]

/-- What one replacement puts in, the later ones leave alone. -/
theorem esc_eq_flatMap (s : Text) : esc s = s.flatMap escChar := by
  simp only [esc, replace_singleton, List.flatMap_assoc]
  congr 1
  funext c
  unfold escChar
  split_ifs <;> simp_all

def Line.field (key : String) (value : Value) : Field := ⟨key.toList, value⟩

/-- `"key":n` -/
def Line.num (key : String) (n : ℕ) : Field := field key (.num n)

/-- `"key":"0xaddr"` -/
def Line.hex (key : String) (addr : UInt64) : Field :=
  field key (.text ('0' :: 'x' :: Nat.toDigits 16 addr.toNat))

/-- `"key":"s"`, the name escaped -/
def Line.name (key s : String) : Field := field key (.text (esc s.toList))

/-- `"key":"word"`, a word of the emitter's own -/
def Line.word (key word : String) : Field := field key (.text word.toList)

def HazardKind.text : HazardKind → String
  | .outOfBounds => "OOB"
  | .heapHole => "HOLE"

def ViolationKind.text : ViolationKind → String
  | .interstitial => "INTERSTICE"
  | .spanning => "SPANNING"

def CloseReason.text : CloseReason → String
  | .free => "free"
  | .realloc => "realloc"
  | .schism => "schism"
  | .poolReuse => "pool_reuse"

/-- The fields of a line, in the order its emitter prints them. -/
def Line.fields : Line → List Field
  | .alloc seq tid addr size =>
      [num "seq" seq, num "tid" tid.toNat, word "type" "ALLOC", hex "addr" addr,
        num "size" size.toNat]
  | .free seq tid addr size =>
      [num "seq" seq, num "tid" tid.toNat, word "type" "FREE", hex "addr" addr,
        num "size" size.toNat]
  | .stamp seq addr typeName typeSize source fieldCount =>
      [num "seq" seq, word "type" "STAMP", hex "addr" addr, name "type_name" typeName,
        num "type_size" typeSize.toNat, name "source" source, num "fields" fieldCount]
  | .link seq fromName fromAddr toAddr pointeeType edgeField =>
      [num "seq" seq, word "type" "LINK", name "from" fromName, hex "from_addr" fromAddr,
        hex "to_addr" toAddr, name "pointee_type" pointeeType, name "edge" edgeField]
  | .hazard seq kind writeAddr writeSize allocBase allocSize overflow typeName fieldName =>
      [num "seq" seq, word "type" "HAZARD", word "kind" kind.text, hex "write_addr" writeAddr,
        num "write_size" writeSize.toNat, hex "alloc_base" allocBase,
        num "alloc_size" allocSize.toNat, num "overflow" overflow.toNat,
        name "type_name" typeName, name "field_name" fieldName]
  | .processFork seq childPid parentPid =>
      [num "seq" seq, word "type" "PROCESS_FORK", num "child_pid" childPid.toNat,
        num "parent_pid" parentPid.toNat]
  | .crossProcessWrite seq tid addr size region =>
      [num "seq" seq, num "tid" tid.toNat, word "type" "CROSS_PROCESS_WRITE",
        hex "addr" addr, num "size" size.toNat, name "region" region]
  | .seqGap seq tid expected actual =>
      [num "seq" seq, num "tid" tid.toNat, word "type" "SEQ_GAP",
        num "expected" expected.toNat, num "actual" actual.toNat,
        num "dropped" (actual - expected).toNat]
  | .typeSchism seq addr oldType newType oldSource newSource =>
      [num "seq" seq, word "type" "TYPE_SCHISM", hex "addr" addr, name "old_type" oldType,
        name "new_type" newType, name "old_source" oldSource, name "new_source" newSource]
  | .typeViolation seq kind writeAddr writeSize baseAddr offset typeName fieldName pc =>
      [num "seq" seq, word "type" "TYPE_VIOLATION", word "kind" kind.text,
        hex "write_addr" writeAddr, num "write_size" writeSize.toNat, hex "base_addr" baseAddr,
        num "offset" offset.toNat, name "type_name" typeName, name "field" fieldName,
        hex "pc" pc]
  | .typeEpochClose seq addr typeName source openSeq closeSeq reason =>
      [num "seq" seq, word "type" "TYPE_EPOCH_CLOSE", hex "addr" addr,
        name "type_name" typeName, name "source" source, num "open_seq" openSeq,
        num "close_seq" closeSeq, word "reason" reason.text]
  | .summary totalEvents nodes edges stmProjections liveAllocs hazards =>
      [word "type" "SUMMARY", num "total_events" totalEvents, num "nodes" nodes,
        num "edges" edges, num "stm_projections" stmProjections,
        num "live_allocs" liveAllocs, num "hazards" hazards]

def Line.text (l : Line) : Text := print l.fields

/-- The bytes of the stream's file. -/
def topologyFile (ls : List Line) : Text.Bytes :=
  ls.flatMap fun l => Text.encode (String.ofList l.text) ++ [Text.NEWLINE]

section WellFormed

theorem guarded_escChar (c : Char) : Guarded (escChar c) := by
  unfold escChar
  split_ifs with h1 h2
  · exact .of_not_mem (by decide)
  · exact .quote .nil
  · exact .of_not_mem (by decide)
  · exact .of_not_mem (by decide)
  · exact .of_not_mem (by decide)
  · exact .char h2 .nil

theorem guarded_esc (s : Text) : Guarded (esc s) := by
  rw [esc_eq_flatMap]
  induction s with
  | nil => exact .nil
  | cons c cs ih =>
      rw [List.flatMap_cons]
      exact (guarded_escChar c).append ih

theorem newline_not_mem_esc (s : Text) : '\n' ∉ esc s := by
  rw [esc_eq_flatMap, List.mem_flatMap]
  rintro ⟨c, -, h⟩
  unfold escChar at h
  split_ifs at h with h1 h2 h3 h4 h5
  · exact absurd h (by decide)
  · exact absurd h (by decide)
  · exact absurd h (by decide)
  · exact absurd h (by decide)
  · exact absurd h (by decide)
  · exact h3 (List.mem_singleton.mp h).symm

namespace Line

theorem wellFormed_num {key : String} (hkey : IsKey key.toList) (n : ℕ) :
    (num key n).WellFormed where
  key := hkey
  text := nofun
  line := nofun

theorem wellFormed_name {key : String} (hkey : IsKey key.toList) (s : String) :
    (name key s).WellFormed where
  key := hkey
  text raw h := by
    rw [← Value.text.inj h]
    exact guarded_esc _
  line raw h := by
    rw [← Value.text.inj h]
    exact newline_not_mem_esc _

theorem wellFormed_word {key s : String} (hkey : IsKey key.toList) (hs : '"' ∉ s.toList)
    (hline : '\n' ∉ s.toList) : (word key s).WellFormed where
  key := hkey
  text raw h := by
    rw [← Value.text.inj h]
    exact .of_not_mem hs
  line raw h := by
    rw [← Value.text.inj h]
    exact hline

theorem wellFormed_hex {key : String} (hkey : IsKey key.toList) (addr : UInt64) :
    (hex key addr).WellFormed where
  key := hkey
  text raw h := by
    rw [← Value.text.inj h]
    exact .char (by decide) (.char (by decide)
      (.of_not_mem (not_mem_toDigits (.inr rfl) (by decide) _)))
  line raw h := by
    rw [← Value.text.inj h]
    have hdigits : '\n' ∉ Nat.toDigits 16 addr.toNat := not_mem_toDigits (.inr rfl) (by decide) _
    simpa using hdigits

/-- Whatever the names of a line contain, its keys can be found. -/
theorem wellFormed_fields (l : Line) : ∀ f ∈ l.fields, f.WellFormed := by
  have hhazard (kind : HazardKind) : '"' ∉ kind.text.toList ∧ '\n' ∉ kind.text.toList := by
    cases kind <;> decide
  have hviolation (kind : ViolationKind) :
      '"' ∉ kind.text.toList ∧ '\n' ∉ kind.text.toList := by
    cases kind <;> decide
  have hreason (reason : CloseReason) :
      '"' ∉ reason.text.toList ∧ '\n' ∉ reason.text.toList := by
    cases reason <;> decide
  cases l <;> simp only [fields, List.forall_mem_cons, List.not_mem_nil, IsEmpty.forall_iff,
    implies_true, and_true]
  all_goals
    repeat' apply And.intro
    all_goals first
      | with_reducible exact wellFormed_num (by decide) _
      | with_reducible exact wellFormed_hex (by decide) _
      | with_reducible exact wellFormed_name (by decide) _
      | with_reducible exact wellFormed_word (by decide) (by decide) (by decide)
      | with_reducible exact wellFormed_word (by decide) (hhazard _).1 (hhazard _).2
      | with_reducible exact wellFormed_word (by decide) (hviolation _).1 (hviolation _).2
      | with_reducible exact wellFormed_word (by decide) (hreason _).1 (hreason _).2

end Line

end WellFormed

end Rtmap.Engine
