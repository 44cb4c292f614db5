import Rtmap.Ring.Event

/-!
# Producer operations and the slots they fill

One `Op` is one producer operation of the tracer with the arguments it is called
with; `Op.slots` are the events it stores, in slot order. The inline operations
(`write`, `wideWrite`, `bbEntry`) are emitted into the code cache and have no
fullness check; the pushes are the clean-call functions of the bridge header.
-/
namespace Rtmap.Ring

inductive Op where
  /-- Inline store of at most 8 bytes (or a clean-call fallback): one slot. -/
  | write (addr : UInt64) (size : UInt32) (tid : UInt16) (seq : UInt32) (value : UInt64)
      (ripLo : UInt32)
  /-- Inline wide store: compound header and its continuation slots. -/
  | wideWrite (addr : UInt64) (size : UInt32) (tid : UInt16) (seq : UInt32) (value : UInt64)
      (ripLo : UInt32) (chunk : ℕ → UInt64)
  | bbEntry (pc : UInt64) (tid : UInt16) (seq : UInt32) (ripOffset : UInt32)
  | pushExFlags (addr : UInt64) (size : UInt32) (value : UInt64) (kind flags : UInt8)
      (tid : UInt16) (seq : UInt32)
  | pushAlloc (ptr : UInt64) (sizeLo : UInt32) (sizeFull : UInt64) (kind : UInt8)
      (tid : UInt16) (seq : UInt32) (callerRipLo : UInt32)
  | pushRegSnapshot (insnCounter : UInt64) (regs : ℕ → UInt64) (tid : UInt16) (seq : UInt32)

def seqLo (seq : UInt32) : UInt16 := (seq &&& 0xFFFF).toUInt16
def seqHi (seq : UInt32) : UInt16 := (seq >>> 16).toUInt16

/-- `(write_size + 7) / 8`, capped at the compound maximum; 32-bit arithmetic. -/
def totalSlots (size : UInt32) : ℕ := min ((size + 7) / 8).toNat COMPOUND_MAX_SLOTS

/-- Continuation slot `k` of a compound write at `ea`. -/
def continuation (ea : UInt64) (size : UInt32) (tid : UInt16) (chunk : ℕ → UInt64) (k : ℕ) :
    Event where
  addr := ea + (k + 1 : ℕ).toUInt64 * 8
  size := min (size - (k + 1 : ℕ).toUInt32 * 8) 8
  threadId := tid
  seq := 0
  value := chunk k
  kindFlags := makeKf EVENT_WRITE FLAG_CONTINUATION 0
  ripLo := 0

/-- Slot `s + 1` of a register snapshot: three registers. -/
def snapshotSlot (regs : ℕ → UInt64) (tid : UInt16) (seq : UInt32) (s : ℕ) : Event where
  addr := regs (s * 3)
  size := (regs (s * 3 + 1)).toUInt32
  threadId := tid
  seq := 0
  value := regs (s * 3 + 2)
  kindFlags := makeKf EVENT_REG_SNAPSHOT 0 (seqHi seq)
  ripLo := 0

namespace Op

def slots : Op → List Event
  | write addr size tid seq value rip =>
      [⟨addr, size, tid, seqLo seq, value, makeKf EVENT_WRITE 0 (seqHi seq), rip⟩]
  | wideWrite addr size tid seq value rip chunk =>
      ⟨addr, size, tid, seqLo seq, value, makeKf EVENT_WRITE FLAG_COMPOUND (seqHi seq), rip⟩ ::
        (List.range (totalSlots size - 1)).map (continuation addr size tid chunk)
  | bbEntry pc tid seq rip =>
      [⟨pc, 0, tid, seqLo seq, 0, makeKf EVENT_BB_ENTRY 0 (seqHi seq), rip⟩]
  | pushExFlags addr size value kind flags tid seq =>
      [⟨addr, size, tid, seqLo seq, value, makeKf kind flags (seqHi seq), 0⟩]
  | pushAlloc ptr sizeLo sizeFull kind tid seq caller =>
      [⟨ptr, sizeLo, tid, seqLo seq, sizeFull, makeKf kind 0 (seqHi seq), caller⟩]
  | pushRegSnapshot insn regs tid seq =>
      ⟨insn, 0, tid, seqLo seq, 0, makeKf EVENT_REG_SNAPSHOT 0 (seqHi seq), 0⟩ ::
        (List.range 6).map (snapshotSlot regs tid seq)

/-- Inline operations write at the cached head and check nothing. -/
def isInline : Op → Bool
  | write .. | wideWrite .. | bbEntry .. => true
  | _ => false

def isSnapshot : Op → Bool
  | pushRegSnapshot .. => true
  | _ => false

/-- A register snapshot is a push. -/
theorem isSnapshot_of_isInline {op : Op} (h : op.isInline = true) : op.isSnapshot = false := by
  cases op with
  | pushRegSnapshot => cases h
  | _ => rfl

/-- The fullness test a push makes against the head and tail it loaded; the
counters are unsigned 64-bit words, so the difference wraps. -/
def admits (op : Op) (capacity head tail : ℕ) : Bool :=
  let used := (head + 2 ^ 64 - tail) % 2 ^ 64
  match op with
  | pushRegSnapshot .. => (used + REG_SNAPSHOT_SLOTS) % 2 ^ 64 ≤ capacity
  | _ => used < capacity

/-- A refused push retries when the ring was created with the spin flag. -/
def spins : Op → Bool
  | pushRegSnapshot .. => false
  | _ => true

/-- The operation publishes a whole run: no single-slot push carries the
snapshot kind or the compound flag, and a wide write is wider than a word. -/
def Whole : Op → Prop
  | wideWrite _ size _ _ _ _ _ => 8 < size.toNat ∧ size.toNat + 7 < 2 ^ 32
  | pushExFlags _ _ _ kind flags _ _ => kind ≠ EVENT_REG_SNAPSHOT ∧ flags &&& FLAG_COMPOUND = 0
  | pushAlloc _ _ _ kind _ _ _ => kind ≠ EVENT_REG_SNAPSHOT
  | _ => True

theorem slots_ne_nil (op : Op) : op.slots ≠ [] := by
  cases op <;> simp [slots]

theorem slots_length_pos (op : Op) : 0 < op.slots.length :=
  List.length_pos_iff.mpr op.slots_ne_nil

theorem slots_length_snapshot {op : Op} (h : op.isSnapshot = true) :
    op.slots.length = REG_SNAPSHOT_SLOTS := by
  cases op <;> simp_all [isSnapshot, slots, REG_SNAPSHOT_SLOTS]

theorem totalSlots_le (size : UInt32) : totalSlots size ≤ 8 := Nat.min_le_right _ _

theorem slots_length_le (op : Op) : op.slots.length ≤ 8 := by
  cases op with
  | wideWrite _ size =>
      simp only [slots, List.length_cons, List.length_map, List.length_range]
      have := totalSlots_le size
      omega
  | _ => simp [slots]

/-- A push admitted against any tail not beyond the real one fits below it. -/
theorem admits_room {op : Op} {capacity head tail : ℕ} (h : op.admits capacity head tail = true)
    (hin : op.isInline = false) (ht : tail ≤ head) (hh : head + op.slots.length < 2 ^ 64) :
    head + op.slots.length ≤ tail + capacity := by
  have hsub : (head + 2 ^ 64 - tail) % 2 ^ 64 = head - tail := by
    rw [show head + 2 ^ 64 - tail = (head - tail) + 2 ^ 64 by omega, Nat.add_mod_right]
    exact Nat.mod_eq_of_lt (by omega)
  cases op with
  | write | wideWrite | bbEntry => simp [isInline] at hin
  | pushExFlags | pushAlloc =>
      simp only [admits, hsub, decide_eq_true_eq] at h
      simp only [slots, List.length_singleton]
      omega
  | pushRegSnapshot =>
      simp only [slots, List.length_cons, List.length_map, List.length_range] at hh ⊢
      simp only [admits, hsub, REG_SNAPSHOT_SLOTS, decide_eq_true_eq] at h
      rw [Nat.mod_eq_of_lt (by omega)] at h
      omega

end Op

/-- Slots consumed from the batch by a run that starts at `e`, as the batch loop
decides it: 7 for a snapshot kind, the compound size, or one. -/
def runLength (e : Event) : ℕ :=
  if e.kind = EVENT_REG_SNAPSHOT then REG_SNAPSHOT_SLOTS else e.compoundSlots

section Decode

private theorem kind_mk (addr : UInt64) (size : UInt32) (tid seq : UInt16) (value : UInt64)
    (kind flags : UInt8) (hi : UInt16) (rip : UInt32) :
    Event.kind ⟨addr, size, tid, seq, value, makeKf kind flags hi, rip⟩ = kind :=
  kind_makeKf kind flags hi

private theorem flags_mk (addr : UInt64) (size : UInt32) (tid seq : UInt16) (value : UInt64)
    (kind flags : UInt8) (hi : UInt16) (rip : UInt32) :
    Event.flags ⟨addr, size, tid, seq, value, makeKf kind flags hi, rip⟩ = flags :=
  flags_makeKf kind flags hi

theorem kind_continuation (ea : UInt64) (size : UInt32) (tid : UInt16) (chunk : ℕ → UInt64)
    (k : ℕ) : (continuation ea size tid chunk k).kind = EVENT_WRITE :=
  kind_makeKf _ _ _

theorem isCompound_continuation (ea : UInt64) (size : UInt32) (tid : UInt16)
    (chunk : ℕ → UInt64) (k : ℕ) : (continuation ea size tid chunk k).isCompound = false := by
  have hf : (continuation ea size tid chunk k).flags = FLAG_CONTINUATION := flags_makeKf _ _ _
  rw [Event.isCompound, hf]
  decide

theorem kind_snapshotSlot (regs : ℕ → UInt64) (tid : UInt16) (seq : UInt32) (s : ℕ) :
    (snapshotSlot regs tid seq s).kind = EVENT_REG_SNAPSHOT :=
  kind_makeKf _ _ _

/-- Every slot of a snapshot carries the snapshot kind, header or not. -/
theorem Op.kind_of_snapshot {op : Op} (h : op.isSnapshot = true) {e : Event}
    (he : e ∈ op.slots) : e.kind = EVENT_REG_SNAPSHOT := by
  cases op with
  | pushRegSnapshot insn regs tid seq =>
      simp only [slots, List.mem_cons, List.mem_map] at he
      rcases he with rfl | ⟨s, _, rfl⟩
      · exact kind_mk ..
      · exact kind_snapshotSlot ..
  | _ => simp [isSnapshot] at h

/-- No slot of another whole operation carries the snapshot kind. -/
theorem Op.kind_of_not_snapshot {op : Op} (hw : op.Whole) (h : op.isSnapshot = false) {e : Event}
    (he : e ∈ op.slots) : e.kind ≠ EVENT_REG_SNAPSHOT := by
  cases op with
  | write | bbEntry =>
      simp only [slots, List.mem_singleton] at he
      subst he
      rw [kind_mk]
      decide
  | wideWrite addr size tid seq value rip chunk =>
      simp only [slots, List.mem_cons, List.mem_map] at he
      rcases he with rfl | ⟨k, _, rfl⟩
      · rw [kind_mk]
        decide
      · rw [kind_continuation]
        decide
  | pushExFlags =>
      simp only [slots, List.mem_singleton] at he
      subst he
      rw [kind_mk]
      exact hw.1
  | pushAlloc =>
      simp only [slots, List.mem_singleton] at he
      subst he
      rw [kind_mk]
      exact hw
  | pushRegSnapshot => simp [isSnapshot] at h

private theorem compoundSlots_of_not_compound {e : Event} (h : e.isCompound = false) :
    e.compoundSlots = 1 := by
  simp [Event.compoundSlots, h]

private theorem isCompound_mk (addr : UInt64) (size : UInt32) (tid seq : UInt16) (value : UInt64)
    (kind flags : UInt8) (hi : UInt16) (rip : UInt32) :
    Event.isCompound ⟨addr, size, tid, seq, value, makeKf kind flags hi, rip⟩ =
      (flags &&& 0x40 != 0) := by
  rw [Event.isCompound, flags_mk]

/-- The first slot of a whole operation announces the operation's length. -/
theorem Op.runLength_first {op : Op} (hw : op.Whole) {e : Event} (he : op.slots[0]? = some e) :
    runLength e = op.slots.length := by
  cases op with
  | write | bbEntry =>
      simp only [slots, List.getElem?_cons_zero, Option.some.injEq] at he
      subst he
      simp [runLength, kind_mk, isCompound_mk, Event.compoundSlots, EVENT_WRITE, EVENT_BB_ENTRY,
        EVENT_REG_SNAPSHOT, slots]
  | wideWrite addr size tid seq value rip chunk =>
      simp only [slots, List.getElem?_cons_zero, Option.some.injEq] at he
      subst he
      have hsize : ((size + 7) / 8).toNat = (size.toNat + 7) / 8 := by
        simp only [UInt32.toNat_div, UInt32.toNat_add, UInt32.reduceToNat]
        rw [Nat.mod_eq_of_lt hw.2]
      have hone : 1 ≤ (size.toNat + 7) / 8 := by
        have := hw.1
        omega
      simp only [runLength, kind_mk, isCompound_mk, Event.compoundSlots, EVENT_WRITE,
        EVENT_REG_SNAPSHOT, FLAG_COMPOUND, slots, List.length_cons, List.length_map,
        List.length_range, totalSlots, hsize, COMPOUND_MAX_SLOTS]
      simp
      omega
  | pushExFlags addr size value kind flags tid seq =>
      simp only [slots, List.getElem?_cons_zero, Option.some.injEq] at he
      subst he
      have hf : flags &&& 0x40 = 0 := hw.2
      simp [runLength, kind_mk, isCompound_mk, Event.compoundSlots, hw.1, hf, slots]
  | pushAlloc ptr sizeLo sizeFull kind tid seq caller =>
      simp only [slots, List.getElem?_cons_zero, Option.some.injEq] at he
      subst he
      have hk : kind ≠ EVENT_REG_SNAPSHOT := hw
      simp [runLength, kind_mk, isCompound_mk, Event.compoundSlots, hk, slots]
  | pushRegSnapshot insn regs tid seq =>
      simp only [slots, List.getElem?_cons_zero, Option.some.injEq] at he
      subst he
      simp [runLength, kind_mk, slots, REG_SNAPSHOT_SLOTS]

/-- A later slot of a whole operation other than a snapshot announces nothing. -/
theorem Op.runLength_later {op : Op} (hw : op.Whole) (h : op.isSnapshot = false) {i : ℕ}
    {e : Event} (hi : 0 < i) (he : op.slots[i]? = some e) : runLength e = 1 := by
  have hmem : e ∈ op.slots := List.mem_of_getElem? he
  rw [runLength, if_neg (op.kind_of_not_snapshot hw h hmem)]
  cases op with
  | wideWrite addr size tid seq value rip chunk =>
      obtain ⟨j, rfl⟩ : ∃ j, i = j + 1 := ⟨i - 1, by omega⟩
      simp only [slots, List.getElem?_cons_succ] at he
      obtain ⟨k, _, rfl⟩ := List.mem_map.mp (List.mem_of_getElem? he)
      exact compoundSlots_of_not_compound (isCompound_continuation ..)
  | pushRegSnapshot => simp [isSnapshot] at h
  | _ =>
      obtain ⟨j, rfl⟩ : ∃ j, i = j + 1 := ⟨i - 1, by omega⟩
      simp [slots] at he

theorem seqHi_makeKf (kind flags : UInt8) (high : UInt16) :
    makeKf kind flags high >>> 16 = high.toUInt32 := by
  apply UInt32.toBitVec_inj.mp
  ext i hi
  have hkind : kind.toBitVec.getLsbD (16 + i) = false := BitVec.getLsbD_of_ge _ _ (by omega)
  have hflags : flags.toBitVec.getLsbD (16 + i - 8) = false := BitVec.getLsbD_of_ge _ _ (by omega)
  by_cases hin : i < 16
  · have hword : 16 + i < 32 := by omega
    simp [makeKf, hkind, hflags, hword]
  · have hhigh : high.toBitVec.getLsbD i = false := BitVec.getLsbD_of_ge _ _ (by omega)
    simp [makeKf, hkind, hflags, hhigh]

theorem toNat_seq32 (addr : UInt64) (size : UInt32) (tid lo : UInt16) (value : UInt64)
    (kind flags : UInt8) (hi : UInt16) (rip : UInt32) :
    (Event.seq32 ⟨addr, size, tid, lo, value, makeKf kind flags hi, rip⟩).toNat =
      hi.toNat * 65536 + lo.toNat := by
  have hlo := lo.toNat_lt
  have hhi := hi.toNat_lt
  simp only [Event.seq32, seqHi_makeKf, UInt32.toNat_or, UInt32.toNat_shiftLeft,
    UInt16.toNat_toUInt32]
  have hshift : hi.toNat <<< (UInt32.toNat 16 % 32) % 2 ^ 32 = hi.toNat <<< 16 := by
    rw [show UInt32.toNat 16 % 32 = 16 from rfl, Nat.shiftLeft_eq]
    exact Nat.mod_eq_of_lt (by omega)
  rw [hshift, ← Nat.shiftLeft_add_eq_or_of_lt hlo, Nat.shiftLeft_eq]

theorem toNat_seqHi (s : UInt32) : (seqHi s).toNat = s.toNat / 65536 := by
  have hs := s.toNat_lt
  simp only [seqHi, UInt32.toNat_toUInt16, UInt32.toNat_shiftRight]
  rw [show UInt32.toNat 16 % 32 = 16 from rfl, Nat.shiftRight_eq_div_pow]
  omega

theorem toNat_seqLo (s : UInt32) : (seqLo s).toNat = s.toNat % 65536 := by
  have hmask : s.toNat &&& (2 ^ 16 - 1) = s.toNat % 2 ^ 16 := Nat.and_two_pow_sub_one_eq_mod _ _
  simp only [seqLo, UInt32.toNat_toUInt16, UInt32.toNat_and]
  rw [show UInt32.toNat 0xFFFF = 2 ^ 16 - 1 from rfl, hmask]
  omega

/-- The two halves of a number give it back. -/
theorem seq32_split (addr : UInt64) (size : UInt32) (tid : UInt16) (seq : UInt32) (value : UInt64)
    (kind flags : UInt8) (rip : UInt32) :
    Event.seq32 ⟨addr, size, tid, seqLo seq, value, makeKf kind flags (seqHi seq), rip⟩ = seq := by
  rw [← UInt32.toNat_inj, toNat_seq32, toNat_seqHi, toNat_seqLo]
  omega

end Decode

end Rtmap.Ring
