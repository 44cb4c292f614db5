import Rtmap.Lib.Layout
import Rtmap.Ring.System

/-!
# Rings in shared memory

A ring is a header and slots in the bytes of a segment. What `from_shm` accepts can be
used without a look at its bounds again, and stores of members into the bytes are the
stores of fields that the protocol is about.
-/
namespace Rtmap.Ring
open Layout

/-- `rtmap_event_v3_t`. -/
def rtmapEventV3 : Struct := ⟨32, [⟨8, 8⟩, ⟨4, 4⟩, ⟨2, 2⟩, ⟨2, 2⟩, ⟨8, 8⟩, ⟨4, 4⟩, ⟨4, 4⟩]⟩

/-- The engine's `Event`. -/
def Event.layout : Struct := ⟨32, [⟨8, 8⟩, ⟨4, 4⟩, ⟨2, 2⟩, ⟨2, 2⟩, ⟨8, 8⟩, ⟨4, 4⟩, ⟨4, 4⟩]⟩

/-- `rtmap_ring_header_t`: `head` and `tail` are aligned to cache lines. -/
def rtmapRingHeader : Struct :=
  ⟨64, [⟨8, 8⟩, ⟨4, 4⟩, ⟨4, 4⟩, ⟨8, 8⟩, ⟨4, 4⟩, ⟨4, 4⟩, ⟨4, 4⟩, ⟨28, 1⟩, ⟨8, 64⟩, ⟨56, 1⟩, ⟨8, 64⟩,
    ⟨56, 1⟩]⟩

/-- The engine's `RingHeader`: padding alone places `head` and `tail`. -/
def RingHeader : Struct :=
  ⟨8, [⟨8, 8⟩, ⟨4, 4⟩, ⟨4, 4⟩, ⟨8, 8⟩, ⟨4, 4⟩, ⟨4, 4⟩, ⟨4, 4⟩, ⟨28, 1⟩, ⟨8, 8⟩, ⟨56, 1⟩, ⟨8, 8⟩,
    ⟨56, 1⟩]⟩

inductive HeaderField where
  | magic | capacity | entrySize | flags | backpressure | protoVersion | status | head | tail
deriving DecidableEq

/-- The place among the members. -/
def HeaderField.index : HeaderField → ℕ
  | .magic => 0
  | .capacity => 1
  | .entrySize => 2
  | .flags => 3
  | .backpressure => 4
  | .protoVersion => 5
  | .status => 6
  | .head => 8
  | .tail => 10

def Field.index : Field → ℕ
  | .addr => 0
  | .size => 1
  | .threadId => 2
  | .seq => 3
  | .value => 4
  | .kindFlags => 5
  | .ripLo => 6

def RTMAP_MAGIC : ℕ := 0x52544D4150425200
def RTMAP_PROTO_VERSION : ℕ := 3

/-- A mapping: its length and its bytes. -/
structure Segment where
  len : ℕ
  mem : ℕ → UInt8

/-- Why `from_shm` turns a mapping down. -/
inductive Rejection where
  | header | magic | proto | capacity | entrySize | truncated
deriving DecidableEq

namespace Segment

/-- A field of the header as the engine reads it. -/
def field (s : Segment) (f : HeaderField) : ℕ := RingHeader.read s.mem 0 f.index

theorem field_capacity_lt (s : Segment) : s.field .capacity < 2 ^ 32 :=
  LeBytes.contents_lt s.mem _ 4

/-- The bytes that a ring of so many slots needs. -/
def need (capacity : ℕ) : ℕ := RingHeader.size + capacity * Event.layout.size

def fromShm (s : Segment) : Except Rejection Capacity :=
  if s.len < RingHeader.size then .error .header
  else if s.field .magic ≠ RTMAP_MAGIC then .error .magic
  else if s.field .protoVersion ≠ RTMAP_PROTO_VERSION then .error .proto
  else if h : ¬ (s.field .capacity).isPowerOfTwo then .error .capacity
  else if s.field .entrySize ≠ Event.layout.size then .error .entrySize
  else if s.len < need (s.field .capacity) then .error .truncated
  else .ok ⟨s.field .capacity, not_not.mp h, s.field_capacity_lt⟩

/-- `rtmap_shm_size`. -/
def shmSize (capacity : UInt32) : ℕ := rtmapRingHeader.size + capacity.toNat * rtmapEventV3.size

/-- `memset` to 0. -/
def cleared (s : Segment) (n : ℕ) : Segment := { s with mem := fun x => if x < n then 0 else s.mem x }

/-- A store of the tracer to the header. -/
def setField (f : HeaderField) (v : ℕ) (s : Segment) : Segment :=
  { s with mem := rtmapRingHeader.write s.mem 0 f.index v }

/-- `rtmap_ring_init`. -/
def ringInit (capacity : UInt32) (flags : UInt64) (s : Segment) : Segment :=
  let s := s.cleared rtmapRingHeader.size
  if capacity = 0 ∨ capacity &&& (capacity - 1) ≠ 0 then s
  else
    ((((((s.setField .magic RTMAP_MAGIC).setField .capacity capacity.toNat).setField .entrySize
      rtmapEventV3.size).setField .flags flags.toNat).setField .protoVersion
      RTMAP_PROTO_VERSION).setField .head 0).setField .tail 0

/-- Where slot `k` starts, behind the header. -/
def slotBase (k : ℕ) : ℕ := RingHeader.size + k * Event.layout.size

/-- A slot as the engine copies it. -/
def slot (s : Segment) (k : ℕ) : Event where
  addr := .ofNat (Event.layout.read s.mem (slotBase k) Field.addr.index)
  size := .ofNat (Event.layout.read s.mem (slotBase k) Field.size.index)
  threadId := .ofNat (Event.layout.read s.mem (slotBase k) Field.threadId.index)
  seq := .ofNat (Event.layout.read s.mem (slotBase k) Field.seq.index)
  value := .ofNat (Event.layout.read s.mem (slotBase k) Field.value.index)
  kindFlags := .ofNat (Event.layout.read s.mem (slotBase k) Field.kindFlags.index)
  ripLo := .ofNat (Event.layout.read s.mem (slotBase k) Field.ripLo.index)

end Segment

/-- The word that a field of the event holds. -/
def Event.word (e : Event) : Field → ℕ
  | .addr => e.addr.toNat
  | .size => e.size.toNat
  | .threadId => e.threadId.toNat
  | .seq => e.seq.toNat
  | .value => e.value.toNat
  | .kindFlags => e.kindFlags.toNat
  | .ripLo => e.ripLo.toNat

/-- Who stores to a slot: a push, or inline code with the mask in its scratch pad. -/
inductive Writer where
  | push
  | inline
deriving DecidableEq

/-- The slot of a counter. The 64-bit load of the scratch pad's `ring_mask` takes in the
nesting level behind it, which is 0 when a slot is filled. -/
def Writer.slotIndex (capacity : UInt32) (nestingLevel : UInt32) (i : UInt64) : Writer → UInt64
  | .push => i &&& (capacity - 1).toUInt64
  | .inline => i &&& ((capacity - 1).toUInt64 ||| (nestingLevel.toUInt64 <<< 32))

/-- The slot of a counter in `consume_batch`. -/
def consumeIndex (capacity : UInt32) (i : UInt64) : UInt64 := i &&& (capacity.toUInt64 - 1)

/-- The stores behind `rtmap_ring_init`: fields of slots, the published head and the status
by the tracer, the tail and the backpressure by the engine. -/
inductive Store where
  | slot (w : Writer) (nestingLevel : UInt32) (i : UInt64) (f : Field) (e : Event)
  | head (v : UInt64)
  | status (v : UInt32)
  | tail (v : UInt64)
  | backpressure (v : UInt32)

namespace Store

/-- A field of a struct: where it starts and where it ends. -/
def place (capacity : UInt32) : Store → ℕ × ℕ
  | .slot w nestingLevel i f _ =>
      let start := rtmapRingHeader.size +
        (w.slotIndex capacity nestingLevel i).toNat * rtmapEventV3.size +
        rtmapEventV3.offset f.index
      (start, start + rtmapEventV3.sizeOf f.index)
  | .head _ => header rtmapRingHeader .head
  | .status _ => header rtmapRingHeader .status
  | .tail _ => header RingHeader .tail
  | .backpressure _ => header RingHeader .backpressure
where
  header (struct : Struct) (f : HeaderField) : ℕ × ℕ :=
    (struct.offset f.index, struct.offset f.index + struct.sizeOf f.index)

/-- The number that is stored. -/
def value : Store → ℕ
  | .slot _ _ _ f e => e.word f
  | .head v | .tail v => v.toNat
  | .status v | .backpressure v => v.toNat

/-- The stored bytes. -/
def run (capacity : UInt32) (st : Store) (s : Segment) : Segment :=
  let place := st.place capacity
  { s with mem := LeBytes.store s.mem place.1 (place.2 - place.1) st.value }

end Store

/-- What the protocol says about a ring. -/
structure View where
  slots : ℕ → Event
  head : ℕ
  tail : ℕ
  status : ℕ
  backpressure : ℕ

def Segment.view (s : Segment) : View :=
  ⟨s.slot, s.field .head, s.field .tail, s.field .status, s.field .backpressure⟩

/-- The store in the protocol's terms. -/
def Store.onView (c : Capacity) : Store → View → View
  | .slot _ _ i f e, v =>
      { v with slots := Function.update v.slots (c.index i.toNat) (.put f e (v.slots (c.index i.toNat))) }
  | .head n, v => { v with head := n.toNat }
  | .status n, v => { v with status := n.toNat }
  | .tail n, v => { v with tail := n.toNat }
  | .backpressure n, v => { v with backpressure := n.toNat }

/-- The nesting level does not get into the slot's index. -/
def Store.Unnested : Store → Prop
  | .slot .inline nestingLevel i .. => i &&& (nestingLevel.toUInt64 <<< 32) = 0
  | _ => True

section Layouts

/-- Both sides place the members of the header alike. -/
theorem ringHeader_same : ∀ i < 12, rtmapRingHeader.offset i = RingHeader.offset i ∧
    rtmapRingHeader.sizeOf i = RingHeader.sizeOf i := by decide

theorem aligned_ringHeader : RingHeader.Aligned := ⟨by decide, by decide⟩

theorem aligned_layout : Event.layout.Aligned := ⟨by decide, by decide⟩

theorem HeaderField.index_lt (f : HeaderField) : f.index < RingHeader.members.length := by
  cases f <;> decide

theorem Field.index_lt (f : Field) : f.index < Event.layout.members.length := by
  cases f <;> decide

theorem HeaderField.index_inj {f g : HeaderField} : f.index = g.index ↔ f = g := by
  cases f <;> cases g <;> decide

theorem Field.index_inj {f g : Field} : f.index = g.index ↔ f = g := by
  cases f <;> cases g <;> decide

theorem Event.word_lt (e : Event) (f : Field) : e.word f < 256 ^ Event.layout.sizeOf f.index := by
  cases f
  · exact e.addr.toNat_lt
  · exact e.size.toNat_lt
  · exact e.threadId.toNat_lt
  · exact e.seq.toNat_lt
  · exact e.value.toNat_lt
  · exact e.kindFlags.toNat_lt
  · exact e.ripLo.toNat_lt

end Layouts

section Indices
variable {c : Capacity} {i : UInt64}

theorem toNat_ofNat_size (c : Capacity) : (UInt32.ofNat c.size).toNat = c.size :=
  (UInt32.toNat_ofNat' ..).trans (Nat.mod_eq_of_lt c.fits)

/-- The engine's mask picks the slot of the counter. -/
theorem toNat_consumeIndex : (consumeIndex (.ofNat c.size) i).toNat = c.index i.toNat := by
  have hpos := c.size_pos
  have hsize : (UInt32.ofNat c.size).toUInt64.toNat = c.size := by
    rw [UInt32.toNat_toUInt64, toNat_ofNat_size]
  rw [consumeIndex, UInt64.toNat_and, UInt64.toNat_sub_of_le, hsize]
  · rfl
  · rw [UInt64.le_iff_toNat_le, hsize]
    exact hpos

/-- A push and inline code pick the same one. -/
theorem slotIndex_eq {w : Writer} {nestingLevel : UInt32} {f : Field} {e : Event}
    (h : (Store.slot w nestingLevel i f e).Unnested) :
    w.slotIndex (.ofNat c.size) nestingLevel i = consumeIndex (.ofNat c.size) i := by
  have hpos := c.size_pos
  have hmask : (UInt32.ofNat c.size - 1).toUInt64 = (UInt32.ofNat c.size).toUInt64 - 1 := by
    have hle : (1 : UInt32) ≤ UInt32.ofNat c.size := by
      rw [UInt32.le_iff_toNat_le, toNat_ofNat_size]
      exact hpos
    have hle' : (1 : UInt64) ≤ (UInt32.ofNat c.size).toUInt64 := by
      rw [UInt64.le_iff_toNat_le, UInt32.toNat_toUInt64, toNat_ofNat_size]
      exact hpos
    rw [← UInt64.toNat_inj, UInt32.toNat_toUInt64, UInt32.toNat_sub_of_le _ _ hle,
      UInt64.toNat_sub_of_le _ _ hle', UInt32.toNat_toUInt64]
    rfl
  cases w with
  | push => rw [Writer.slotIndex, hmask, consumeIndex]
  | inline =>
      have hor (a b d : UInt64) (hzero : a &&& d = 0) : a &&& (b ||| d) = a &&& b := by
        have hbits := congrArg UInt64.toBitVec hzero
        rw [UInt64.toBitVec_and] at hbits
        rw [← UInt64.toBitVec_inj, UInt64.toBitVec_and, UInt64.toBitVec_or, UInt64.toBitVec_and,
          BitVec.and_or_distrib_left, hbits]
        exact BitVec.or_zero
      rw [Writer.slotIndex, hor _ _ _ h, hmask, consumeIndex]

end Indices

namespace Segment
variable {s : Segment} {c : Capacity}

/-- A store of a field to slot `k`. -/
def setSlot (k : ℕ) (f : Field) (e : Event) (s : Segment) : Segment :=
  { s with mem := Event.layout.write s.mem (slotBase k) f.index (e.word f) }

def setHeader (f : HeaderField) (v : ℕ) (s : Segment) : Segment :=
  { s with mem := RingHeader.write s.mem 0 f.index v }

theorem setField_eq (f : HeaderField) (v : ℕ) (s : Segment) : s.setField f v = s.setHeader f v := by
  obtain ⟨hoffset, hsize⟩ := ringHeader_same f.index f.index_lt
  rw [setField, setHeader, Struct.write, Struct.write, hoffset, hsize]

theorem field_setHeader_self {f : HeaderField} {v : ℕ} (hv : v < 256 ^ RingHeader.sizeOf f.index) :
    (s.setHeader f v).field f = v :=
  Struct.read_write_self hv

theorem field_setHeader_of_ne {f g : HeaderField} (h : f ≠ g) (v : ℕ) :
    (s.setHeader g v).field f = s.field f :=
  Struct.read_write_of_ne aligned_ringHeader f.index_lt g.index_lt
    fun hindex => h (HeaderField.index_inj.mp hindex)

/-- The slots lie behind the header. -/
theorem size_le_slotBase (k : ℕ) : 0 + RingHeader.size ≤ slotBase k := by
  rw [slotBase]
  omega

theorem field_setSlot (f : HeaderField) (k : ℕ) (g : Field) (e : Event) :
    (s.setSlot k g e).field f = s.field f :=
  Struct.read_write_of_disjoint aligned_ringHeader aligned_layout f.index_lt g.index_lt
    (.inl (size_le_slotBase k))

theorem slot_setHeader (k : ℕ) (f : HeaderField) (v : ℕ) : (s.setHeader f v).slot k = s.slot k := by
  have hread (g : Field) : Event.layout.read (s.setHeader f v).mem (slotBase k) g.index =
      Event.layout.read s.mem (slotBase k) g.index :=
    Struct.read_write_of_disjoint aligned_layout aligned_ringHeader g.index_lt f.index_lt
      (.inr (size_le_slotBase k))
  simp only [slot, hread]

theorem slot_setSlot_of_ne {j k : ℕ} (h : j ≠ k) (f : Field) (e : Event) :
    (s.setSlot k f e).slot j = s.slot j := by
  have hread (g : Field) : Event.layout.read (s.setSlot k f e).mem (slotBase j) g.index =
      Event.layout.read s.mem (slotBase j) g.index := by
    refine Struct.read_write_of_disjoint aligned_layout aligned_layout g.index_lt f.index_lt ?_
    have hsize : Event.layout.size = 32 := by decide
    rw [slotBase, slotBase, hsize]
    omega
  simp only [slot, hread]

theorem slot_setSlot_self (k : ℕ) (f : Field) (e : Event) :
    (s.setSlot k f e).slot k = .put f e (s.slot k) := by
  have hself : Event.layout.read (s.setSlot k f e).mem (slotBase k) f.index = e.word f :=
    Struct.read_write_self (e.word_lt f)
  have hother (g : Field) (h : g ≠ f) : Event.layout.read (s.setSlot k f e).mem (slotBase k) g.index =
      Event.layout.read s.mem (slotBase k) g.index :=
    Struct.read_write_of_ne aligned_layout g.index_lt f.index_lt
      fun hindex => h (Field.index_inj.mp hindex)
  cases f <;> simp [slot, hself, hother, Event.put, Event.word]

/-- The view after a store to the header or to a slot. -/
theorem view_setSlot (k : ℕ) (f : Field) (e : Event) :
    (s.setSlot k f e).view =
      { s.view with slots := Function.update s.slot k (.put f e (s.slot k)) } := by
  have hslots : (s.setSlot k f e).slot = Function.update s.slot k (.put f e (s.slot k)) := by
    funext j
    by_cases h : j = k
    · rw [h, slot_setSlot_self, Function.update_self]
    · rw [slot_setSlot_of_ne h, Function.update_of_ne h]
  simp only [view, hslots, field_setSlot]

theorem slots_setHeader (f : HeaderField) (v : ℕ) : (s.setHeader f v).slot = s.slot :=
  funext fun k => slot_setHeader k f v

/-- What `from_shm` looks at. -/
theorem fromShm_congr {s' : Segment} (hlen : s'.len = s.len)
    (hfield : ∀ f, f = .magic ∨ f = .capacity ∨ f = .entrySize ∨ f = .protoVersion →
      s'.field f = s.field f) : s'.fromShm = s.fromShm := by
  simp only [fromShm, hlen, hfield .magic (by simp), hfield .capacity (by simp),
    hfield .entrySize (by simp), hfield .protoVersion (by simp)]

/-- What is accepted holds its slots. -/
theorem need_le_of_fromShm (h : s.fromShm = .ok c) :
    need c.size ≤ s.len ∧ RingHeader.size ≤ s.len := by
  unfold fromShm at h
  split at h
  · cases h
  · rename_i hheader
    split at h
    · cases h
    · split at h
      · cases h
      · split at h
        · cases h
        · split at h
          · cases h
          · split at h
            · cases h
            · rename_i hlen
              obtain rfl := Except.ok.inj h
              exact ⟨Nat.le_of_not_lt hlen, Nat.le_of_not_lt hheader⟩

theorem index_lt (c : Capacity) (p : ℕ) : c.index p < c.size := by
  rw [Capacity.index_eq_mod]
  exact Nat.mod_lt _ c.size_pos

/-- No slot of an accepted mapping ends behind it. -/
theorem slotBase_add_size_le (h : s.fromShm = .ok c) (p : ℕ) :
    slotBase (c.index p) + Event.layout.size ≤ s.len := by
  have hindex : (c.index p + 1) * Event.layout.size ≤ c.size * Event.layout.size :=
    Nat.mul_le_mul_right _ (index_lt c p)
  have hneed := (need_le_of_fromShm h).1
  rw [Nat.succ_mul] at hindex
  rw [need] at hneed
  rw [slotBase]
  omega

end Segment

namespace Store
variable {s : Segment} {c : Capacity} {st : Store}

theorem run_slot {w : Writer} {nestingLevel : UInt32} {i : UInt64} {f : Field} {e : Event}
    (h : (Store.slot w nestingLevel i f e).Unnested) :
    (Store.slot w nestingLevel i f e).run (.ofNat c.size) s =
      s.setSlot (c.index i.toNat) f e := by
  simp only [run, place, slotIndex_eq h, toNat_consumeIndex, Nat.add_sub_cancel_left]
  rfl

theorem run_header {struct : Struct} (f : HeaderField) (v : ℕ)
    (hstruct : struct.offset f.index = RingHeader.offset f.index ∧
      struct.sizeOf f.index = RingHeader.sizeOf f.index) :
    Segment.mk s.len (LeBytes.store s.mem (place.header struct f).1
      ((place.header struct f).2 - (place.header struct f).1) v) = s.setHeader f v := by
  rw [place.header, Nat.add_sub_cancel_left, hstruct.1, hstruct.2, Segment.setHeader, Struct.write,
    Nat.zero_add]

/-- A store is one to a slot or to a field of the header that changes in a run. -/
theorem run_cases (h : st.Unnested) (s : Segment) :
    (∃ w nestingLevel i f e, st = .slot w nestingLevel i f e ∧
      st.run (.ofNat c.size) s = s.setSlot (c.index i.toNat) f e) ∨
    ∃ f v, st.run (.ofNat c.size) s = s.setHeader f v ∧ v < 256 ^ RingHeader.sizeOf f.index ∧
      (f = .head ∨ f = .status ∨ f = .tail ∨ f = .backpressure) ∧
      (st.place (.ofNat c.size)).2 = RingHeader.offset f.index + RingHeader.sizeOf f.index ∧
      ∀ view, st.onView c view = { view with
        head := if f = .head then v else view.head
        tail := if f = .tail then v else view.tail
        status := if f = .status then v else view.status
        backpressure := if f = .backpressure then v else view.backpressure } := by
  have hplace (f : HeaderField) : (place.header rtmapRingHeader f).2 =
      RingHeader.offset f.index + RingHeader.sizeOf f.index := by
    obtain ⟨hoffset, hsize⟩ := ringHeader_same f.index f.index_lt
    rw [place.header, hoffset, hsize]
  cases st with
  | slot w nestingLevel i f e => exact .inl ⟨w, nestingLevel, i, f, e, rfl, run_slot h⟩
  | head v =>
      exact .inr ⟨.head, v.toNat, run_header .head v.toNat (by decide), v.toNat_lt, .inl rfl,
        hplace .head, fun _ => rfl⟩
  | status v =>
      exact .inr ⟨.status, v.toNat, run_header .status v.toNat (by decide), v.toNat_lt,
        .inr (.inl rfl), hplace .status, fun _ => rfl⟩
  | tail v =>
      exact .inr ⟨.tail, v.toNat, run_header .tail v.toNat ⟨rfl, rfl⟩, v.toNat_lt,
        .inr (.inr (.inl rfl)), rfl, fun _ => rfl⟩
  | backpressure v =>
      exact .inr ⟨.backpressure, v.toNat, run_header .backpressure v.toNat ⟨rfl, rfl⟩, v.toNat_lt,
        .inr (.inr (.inr rfl)), rfl, fun _ => rfl⟩

/-- A store into the bytes is the store of the protocol. -/
theorem view_run (h : st.Unnested) (s : Segment) :
    (st.run (.ofNat c.size) s).view = st.onView c s.view := by
  rcases run_cases (c := c) h s with ⟨w, nestingLevel, i, f, e, rfl, hrun⟩ |
    ⟨f, v, hrun, hv, -, -, hview⟩
  · rw [hrun]
    exact Segment.view_setSlot ..
  · have hfield (g : HeaderField) : (s.setHeader f v).field g = if f = g then v else s.field g := by
      split
      · rename_i hg
        rw [← hg]
        exact Segment.field_setHeader_self hv
      · rename_i hg
        exact Segment.field_setHeader_of_ne (Ne.symm hg) v
    rw [hrun, hview]
    simp only [Segment.view, hfield, Segment.slots_setHeader]

/-- No store touches what `from_shm` has checked. -/
theorem fromShm_run (h : st.Unnested) (s : Segment) :
    (st.run (.ofNat c.size) s).fromShm = s.fromShm := by
  refine Segment.fromShm_congr rfl fun g hg => ?_
  rcases run_cases (c := c) h s with ⟨w, nestingLevel, i, f, e, rfl, hrun⟩ |
    ⟨f, v, hrun, hv, hf, -, -⟩
  · rw [hrun]
    exact Segment.field_setSlot ..
  · rw [hrun]
    refine Segment.field_setHeader_of_ne ?_ v
    rintro rfl
    rcases hf with rfl | rfl | rfl | rfl <;> simp at hg

/-- The stored bytes are in the mapping. -/
theorem place_le (hs : s.fromShm = .ok c) (h : st.Unnested) :
    (st.place (.ofNat c.size)).2 ≤ s.len := by
  rcases run_cases (c := c) h s with ⟨w, nestingLevel, i, f, e, rfl, -⟩ |
    ⟨f, -, -, -, -, hplace, -⟩
  · have hslot := Segment.slotBase_add_size_le hs i.toNat
    have hfield := Struct.offset_add_sizeOf_le aligned_layout f.index_lt
    have hend : ((Store.slot w nestingLevel i f e).place (.ofNat c.size)).2 =
        Segment.slotBase (c.index i.toNat) + Event.layout.offset f.index +
          Event.layout.sizeOf f.index := by
      simp only [place, slotIndex_eq h, toNat_consumeIndex]
      rfl
    rw [hend]
    omega
  · have hfield := Struct.offset_add_sizeOf_le aligned_ringHeader f.index_lt
    have hheader := (Segment.need_le_of_fromShm hs).2
    rw [hplace]
    omega

end Store

namespace Segment
variable {s : Segment} {capacity : UInt32} {flags : UInt64}

theorem field_setField {g : HeaderField} {v : ℕ} (hv : v < 256 ^ RingHeader.sizeOf g.index)
    (f : HeaderField) : (s.setField g v).field f = if f = g then v else s.field f := by
  rw [setField_eq]
  split
  · rename_i hfg
    rw [hfg]
    exact field_setHeader_self hv
  · rename_i hfg
    exact field_setHeader_of_ne hfg v

theorem slot_setField (f : HeaderField) (v : ℕ) : (s.setField f v).slot = s.slot := by
  rw [setField_eq, slots_setHeader]

theorem field_cleared (f : HeaderField) : (s.cleared rtmapRingHeader.size).field f = 0 := by
  have hend := Struct.offset_add_sizeOf_le aligned_ringHeader f.index_lt
  have hsize : rtmapRingHeader.size = RingHeader.size := by decide
  have hzero (a n : ℕ) (ha : a + n ≤ rtmapRingHeader.size) :
      LeBytes.contents (s.cleared rtmapRingHeader.size).mem a n = 0 := by
    induction n generalizing a with
    | zero => rfl
    | succ n ih =>
        have hbyte : (s.cleared rtmapRingHeader.size).mem a = 0 := if_pos (by omega)
        rw [LeBytes.contents, hbyte, ih (a + 1) (by omega)]
        rfl
  refine hzero _ _ ?_
  omega

theorem slot_cleared : (s.cleared rtmapRingHeader.size).slot = s.slot := by
  have hread (k i : ℕ) : Event.layout.read (s.cleared rtmapRingHeader.size).mem (slotBase k) i =
      Event.layout.read s.mem (slotBase k) i := by
    refine contents_congr fun x hx _ => if_neg ?_
    have hsize : rtmapRingHeader.size = RingHeader.size := by decide
    have hbase := size_le_slotBase k
    omega
  funext k
  simp only [slot, hread]

/-- The macro of the tracer and the test of the engine agree. -/
theorem isPowerOfTwo_toNat (capacity : UInt32) :
    capacity.toNat.isPowerOfTwo ↔ ¬(capacity = 0 ∨ capacity &&& (capacity - 1) ≠ 0) := by
  have hzero : capacity.toNat = 0 ↔ capacity = 0 := (UInt32.toNat_inj (b := 0))
  rw [← Nat.ne_zero_and_sub_one_eq_zero_iff_isPowerOfTwo, not_or, not_not, ne_eq, hzero]
  refine and_congr_right fun hne => ?_
  have hle : (1 : UInt32) ≤ capacity := by
    rw [UInt32.le_iff_toNat_le]
    exact Nat.pos_of_ne_zero (mt hzero.mp hne)
  have hsub : (capacity - 1).toNat = capacity.toNat - 1 := UInt32.toNat_sub_of_le _ _ hle
  rw [← UInt32.toNat_inj, UInt32.toNat_and, hsub]
  rfl

/-- The header as `rtmap_ring_init` leaves it. -/
theorem field_ringInit (hpow : capacity.toNat.isPowerOfTwo) (f : HeaderField) :
    (s.ringInit capacity flags).field f = match f with
      | .magic => RTMAP_MAGIC
      | .capacity => capacity.toNat
      | .entrySize => rtmapEventV3.size
      | .flags => flags.toNat
      | .protoVersion => RTMAP_PROTO_VERSION
      | _ => 0 := by
  have hcapacity : capacity.toNat < 256 ^ RingHeader.sizeOf HeaderField.capacity.index :=
    capacity.toNat_lt
  have hflags : flags.toNat < 256 ^ RingHeader.sizeOf HeaderField.flags.index := flags.toNat_lt
  rw [ringInit, if_neg ((isPowerOfTwo_toNat capacity).mp hpow), field_setField (by decide),
    field_setField (by decide), field_setField (by decide), field_setField hflags,
    field_setField (by decide), field_setField hcapacity, field_setField (by decide), field_cleared]
  cases f <;> rfl

theorem slot_ringInit : (s.ringInit capacity flags).slot = s.slot := by
  rw [ringInit]
  split
  · exact slot_cleared
  · simp only [slot_setField, slot_cleared]

theorem len_ringInit (hlen : s.len = shmSize capacity) :
    (s.ringInit capacity flags).len = need capacity.toNat := by
  rw [ringInit]
  split
  · exact hlen
  · exact hlen

theorem accepted_ringInit (hlen : s.len = shmSize capacity) (hpow : capacity.toNat.isPowerOfTwo) :
    (s.ringInit capacity flags).fromShm = .ok ⟨capacity.toNat, hpow, capacity.toNat_lt⟩ := by
  have hfield := fun f => @field_ringInit s capacity flags hpow f
  have hlen' : (s.ringInit capacity flags).len = need capacity.toNat := len_ringInit hlen
  have hheader : ¬ (s.ringInit capacity flags).len < RingHeader.size := by
    rw [hlen', need]
    omega
  have hentry : rtmapEventV3.size = Event.layout.size := by decide
  rw [fromShm, if_neg hheader]
  simp only [hfield, hlen', hpow, hentry, ne_eq, not_true_eq_false, if_false, dif_neg,
    not_false_eq_true, Nat.lt_irrefl]

/-- A ring that the tracer creates is empty, and accepted with its capacity: the engine
turns down only what is no power of two. -/
theorem fromShm_ringInit (hlen : s.len = shmSize capacity) (c : Capacity) :
    ((s.ringInit capacity flags).fromShm = .ok c ↔ c.size = capacity.toNat) ∧
      (s.ringInit capacity flags).view = ⟨s.slot, 0, 0, 0, 0⟩ := by
  by_cases hpow : capacity.toNat.isPowerOfTwo
  · refine ⟨?_, ?_⟩
    · rw [accepted_ringInit hlen hpow]
      refine ⟨fun h => by rw [← Except.ok.inj h], fun h => ?_⟩
      obtain ⟨size, hisPow, hfits⟩ := c
      subst h
      rfl
    · simp only [view, slot_ringInit, field_ringInit hpow]
  · have hcleared : s.ringInit capacity flags = s.cleared rtmapRingHeader.size := by
      rw [ringInit, if_pos (not_not.mp (mt (isPowerOfTwo_toNat capacity).mpr hpow))]
    have hheader : ¬ (s.ringInit capacity flags).len < RingHeader.size := by
      rw [len_ringInit hlen, need]
      omega
    refine ⟨⟨fun h => ?_, fun h => absurd (h ▸ c.isPow) hpow⟩, ?_⟩
    · have hmagic : ¬ (0 : ℕ) = RTMAP_MAGIC := by decide
      rw [fromShm, if_neg hheader, hcleared, field_cleared, if_pos hmagic] at h
      cases h
    · rw [hcleared]
      simp only [view, slot_cleared, field_cleared]

/-- What `alloc_thread_ring` maps, before it is a ring. -/
def fresh : Segment := ⟨shmSize 0x100000, fun _ => 0⟩

theorem fresh_created :
    (fresh.ringInit 0x100000 0).fromShm = .ok THREAD_RING_CAPACITY :=
  (fromShm_ringInit (s := fresh) rfl THREAD_RING_CAPACITY).1.mpr rfl

end Segment

/-- Stores to a segment, in any order. -/
def Segment.run (capacity : UInt32) (stores : List Store) (s : Segment) : Segment :=
  stores.foldl (fun s st => st.run capacity s) s

/-- A mapping that `from_shm` accepts stays one, whatever tracer and engine store after
that. They store inside of it, each slot that `consume_batch` copies lies inside of it, and
the bytes mean what the protocol says. -/
theorem Segment.stores_refine {s : Segment} {c : Capacity} (hs : s.fromShm = .ok c)
    {stores : List Store} (h : ∀ st ∈ stores, st.Unnested) :
    (∀ st ∈ stores, (st.place (.ofNat c.size)).2 ≤ s.len) ∧
      (∀ i, slotBase (consumeIndex (.ofNat c.size) i).toNat + Event.layout.size ≤ s.len) ∧
      (s.run (.ofNat c.size) stores).fromShm = .ok c ∧
      (s.run (.ofNat c.size) stores).view = stores.foldl (fun v st => st.onView c v) s.view := by
  refine ⟨fun st hst => Store.place_le hs (h st hst), fun i => ?_, ?_⟩
  · rw [toNat_consumeIndex]
    exact slotBase_add_size_le hs i.toNat
  · induction stores generalizing s with
    | nil => exact ⟨hs, rfl⟩
    | cons st stores ih =>
        have hst := h st List.mem_cons_self
        have hnext := ih (s := st.run (.ofNat c.size) s) ((Store.fromShm_run hst s).trans hs)
          fun x hx => h x (List.mem_cons_of_mem _ hx)
        rw [Store.view_run hst] at hnext
        exact hnext

/-- The tracer fills a word of slot 1 and publishes two events, the engine frees one. -/
def Segment.exchange : List Store :=
  [.slot .inline 0 0x100001 .addr ⟨0x2000, 8, 7, 0, 1, 0, 0⟩, .head 2, .tail 1]

theorem Segment.exchange_refines :
    ((fresh.ringInit 0x100000 0).run (.ofNat THREAD_RING_CAPACITY.size) exchange).view.tail = 1 := by
  have haccepted : (fresh.ringInit 0x100000 0).fromShm = .ok THREAD_RING_CAPACITY :=
    accepted_ringInit rfl ⟨20, rfl⟩
  have hunnested : ∀ st ∈ exchange, st.Unnested := by simp [exchange, Store.Unnested]
  rw [(stores_refine haccepted hunnested).2.2.2]
  rfl

end Rtmap.Ring
