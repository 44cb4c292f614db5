import Mathlib.Algebra.Group.Nat.Defs
import Mathlib.Data.Nat.Notation
import Mathlib.Tactic.Common

/-!
# Events of the ring protocol

The 32-byte v3 event, the decoders the engine applies to it and the words both
sides build. A slot is not written or read atomically: `Field` names the parts
that one store or load moves, and `Event.put` moves one of them.
-/
namespace Rtmap.Ring

def EVENT_WRITE : UInt8 := 0
def EVENT_READ : UInt8 := 1
def EVENT_CALL : UInt8 := 2
def EVENT_RETURN : UInt8 := 3
def EVENT_REG_SNAPSHOT : UInt8 := 5
def EVENT_MODULE_LOAD : UInt8 := 7
def EVENT_TAIL_CALL : UInt8 := 8
def EVENT_ALLOC : UInt8 := 9
def EVENT_FREE : UInt8 := 10
def EVENT_BB_ENTRY : UInt8 := 11
def EVENT_RELOAD : UInt8 := 12
def EVENT_PROCESS_FORK : UInt8 := 13
def EVENT_SHARED_MAP : UInt8 := 14

def FLAG_TRUNCATED : UInt8 := 0x80
def FLAG_COMPOUND : UInt8 := 0x40
def FLAG_CONTINUATION : UInt8 := 0x20
def COMPOUND_MAX_SLOTS : ℕ := 8
def REG_SNAPSHOT_SLOTS : ℕ := 7
def REG_COUNT : ℕ := 18

structure Event where
  addr : UInt64
  size : UInt32
  threadId : UInt16
  seq : UInt16
  value : UInt64
  kindFlags : UInt32
  ripLo : UInt32
deriving DecidableEq, Repr, Inhabited

namespace Event

def zero : Event := ⟨0, 0, 0, 0, 0, 0, 0⟩

def kind (e : Event) : UInt8 := (e.kindFlags &&& 0xFF).toUInt8
def flags (e : Event) : UInt8 := ((e.kindFlags >>> 8) &&& 0xFF).toUInt8
def isTruncated (e : Event) : Bool := e.flags &&& 0x80 != 0
def isCompound (e : Event) : Bool := e.flags &&& 0x40 != 0
def isContinuation (e : Event) : Bool := e.flags &&& 0x20 != 0

/-- Total ring slots consumed by this event: one, or the run of a compound header. -/
def compoundSlots (e : Event) : ℕ :=
  if !e.isCompound then 1 else min ((e.size.toNat + 7) / 8) COMPOUND_MAX_SLOTS

def seq32 (e : Event) : UInt32 := ((e.kindFlags >>> 16) <<< 16) ||| e.seq.toUInt32

end Event

/-- `rtmap_v3_make_kf`: kind:8 | flags:8 | seq_hi:16. -/
def makeKf (kind flags : UInt8) (seqHi : UInt16) : UInt32 :=
  kind.toUInt32 ||| (flags.toUInt32 <<< 8) ||| (seqHi.toUInt32 <<< 16)

private theorem low_byte_bit : ∀ (i : ℕ) (hi : i < 8), (255#8)[i] = true := by
  decide

theorem kind_makeKf (kind flags : UInt8) (seqHi : UInt16) :
    (makeKf kind flags seqHi &&& 0xFF).toUInt8 = kind := by
  apply UInt8.toBitVec_inj.mp
  ext i hi
  simp [makeKf, low_byte_bit i hi]

theorem flags_makeKf (kind flags : UInt8) (seqHi : UInt16) :
    ((makeKf kind flags seqHi >>> 8) &&& 0xFF).toUInt8 = flags := by
  apply UInt8.toBitVec_inj.mp
  ext i hi
  have h₁ : 8 + i < 32 := by omega
  have h₂ : 8 + i < 16 := by omega
  have h₃ : i < 32 := by omega
  simp [makeKf, low_byte_bit i hi, h₁, h₂, h₃, BitVec.getLsbD_eq_getElem hi]

/-- The parts of a slot that one load or store moves. -/
inductive Field where
  | addr | size | threadId | seq | value | kindFlags | ripLo
deriving DecidableEq, Repr

def Field.all : List Field := [.addr, .size, .threadId, .seq, .value, .kindFlags, .ripLo]

@[simp] theorem Field.mem_all (f : Field) : f ∈ Field.all := by
  cases f <;> simp [all]

/-- The fields still to be moved after `f`. -/
def Field.drop (f : Field) (todo : List Field) : List Field := todo.filter (· != f)

@[simp] theorem Field.mem_drop {f g : Field} {todo : List Field} :
    g ∈ f.drop todo ↔ g ∈ todo ∧ g ≠ f := by
  simp [drop]

namespace Event

/-- Store one field of `src` into `dst`. -/
def put : Field → Event → Event → Event
  | .addr, src, dst => { dst with addr := src.addr }
  | .size, src, dst => { dst with size := src.size }
  | .threadId, src, dst => { dst with threadId := src.threadId }
  | .seq, src, dst => { dst with seq := src.seq }
  | .value, src, dst => { dst with value := src.value }
  | .kindFlags, src, dst => { dst with kindFlags := src.kindFlags }
  | .ripLo, src, dst => { dst with ripLo := src.ripLo }

/-- The two events hold the same word in one field. -/
def Agree : Field → Event → Event → Prop
  | .addr, a, b => a.addr = b.addr
  | .size, a, b => a.size = b.size
  | .threadId, a, b => a.threadId = b.threadId
  | .seq, a, b => a.seq = b.seq
  | .value, a, b => a.value = b.value
  | .kindFlags, a, b => a.kindFlags = b.kindFlags
  | .ripLo, a, b => a.ripLo = b.ripLo

theorem Agree.refl (f : Field) (a : Event) : Agree f a a := by
  cases f <;> rfl

theorem eq_of_agree {a b : Event} (h : ∀ f, Agree f a b) : a = b := by
  cases a
  cases b
  have h₁ := h .addr
  have h₂ := h .size
  have h₃ := h .threadId
  have h₄ := h .seq
  have h₅ := h .value
  have h₆ := h .kindFlags
  have h₇ := h .ripLo
  simp only [Agree] at h₁ h₂ h₃ h₄ h₅ h₆ h₇
  simp only [h₁, h₂, h₃, h₄, h₅, h₆, h₇]

theorem agree_put_self (f : Field) (src dst : Event) : Agree f (put f src dst) src := by
  cases f <;> rfl

theorem agree_put_ne {f g : Field} (h : g ≠ f) {src dst c : Event} :
    Agree g (put f src dst) c ↔ Agree g dst c := by
  cases f <;> cases g <;> simp_all [put, Agree]

end Event

end Rtmap.Ring
