import Rtmap.Engine.Coherence
import Rtmap.Engine.Recording
import Rtmap.Engine.Replay
import Rtmap.Ring.Accounting
import Rtmap.Tracer.WritePath

/-!
# The registers in a snapshot

Three registers go into a slot, the second of them into the 32 bits of its size field.
The same layout is written to the ring and to recordings, and read by one decoder.
-/
namespace Rtmap.Engine
open Rtmap.Ring Recording

/-- What a slot has room for of a register. -/
def packed (regs : RegIdx → UInt64) (i : RegIdx) : UInt64 :=
  if i.val % 3 = 1 then (regs i).toUInt32.toUInt64 else regs i

/-- The state behind `apply_reg_snapshot` on these slots. -/
def decodeSlots (evs : List Event) (s : State) : State :=
  (applyRegSnapshot evs).2.elim s fun u => applySnapshotUpdate u s

/-- The register file of the world and that of the thread hold the values. -/
structure HoldsRegs (s : State) (tid : UInt16) (values : RegIdx → UInt64) : Prop where
  world : s.world.regs = values
  thread : (s.regFile tid).values = values

theorem HoldsRegs.of_same {s t : State} {tid : UInt16} {values : RegIdx → UInt64}
    (h : HoldsRegs s tid values) (hworld : t.world.regs = s.world.regs)
    (hshadow : t.shadowRegs = s.shadowRegs) : HoldsRegs t tid values where
  world := hworld.trans h.world
  thread := by
    rw [regFile_of_shadowRegs hshadow]
    exact h.thread

/-- The end of a batch leaves the registers alone. -/
theorem HoldsRegs.endBatch {r : Replay} {tid : UInt16} {values : RegIdx → UInt64}
    (h : HoldsRegs r.engine tid values) (orders : IndexOrders) :
    HoldsRegs (Replay.endBatch orders r).engine tid values := by
  rw [Replay.endBatch_engine]
  exact h.of_same rfl rfl

section Packed
variable {regs : RegIdx → UInt64}

theorem packed_packed (regs : RegIdx → UInt64) : packed (packed regs) = packed regs := by
  funext i
  unfold packed
  split
  · rw [UInt32.toUInt32_toUInt64]
  · rfl

theorem packed_eq_iff : packed regs = regs ↔ ∀ i : RegIdx, i.val % 3 = 1 → (regs i).toNat < 2 ^ 32 := by
  have hone (x : UInt64) : x.toUInt32.toUInt64 = x ↔ x.toNat < 2 ^ 32 := by
    rw [← UInt64.toNat_inj, UInt32.toNat_toUInt64, UInt64.toNat_toUInt32]
    exact ⟨fun h => h ▸ Nat.mod_lt _ (by decide), Nat.mod_eq_of_lt⟩
  rw [funext_iff]
  refine forall_congr' fun i => ?_
  unfold packed
  split
  · rename_i hi
    rw [hone]
    exact ⟨fun h _ => h, fun h => h hi⟩
  · rename_i hi
    exact ⟨fun _ h => absurd h hi, fun _ => rfl⟩

end Packed

section Decode
variable {header : Event} {slot : Fin 6 → Event} {values : RegIdx → UInt64}

theorem addrReg_lt (i : Fin 6) : i.val * 3 < 18 := by omega
theorem sizeReg_lt (i : Fin 6) : i.val * 3 + 1 < 18 := by omega
theorem valueReg_lt (i : Fin 6) : i.val * 3 + 2 < 18 := by omega

/-- A continuation that carries the registers from `3 * i` on. -/
structure CarriesRegs (values : RegIdx → UInt64) (i : Fin 6) (e : Event) : Prop where
  kind : e.kind = EVENT_REG_SNAPSHOT
  addr : e.addr = values ⟨i * 3, addrReg_lt i⟩
  size : e.size.toUInt64 = values ⟨i * 3 + 1, sizeReg_lt i⟩
  value : e.value = values ⟨i * 3 + 2, valueReg_lt i⟩

theorem applyRegSnapshot_spec (hkind : header.kind = EVENT_REG_SNAPSHOT)
    (hslot : ∀ i, CarriesRegs values i (slot i)) :
    applyRegSnapshot (header :: List.ofFn slot) = (7, some {
      regs := List.ofFn values
      insnCounter := header.addr
      threadId := header.threadId
      seq := header.seq.toUInt64 }) := by
  have hkinds : (List.ofFn slot).all (·.kind == EVENT_REG_SNAPSHOT) = true := by
    rw [List.all_eq_true]
    intro e he
    obtain ⟨i, rfl⟩ := List.mem_ofFn.mp he
    exact beq_iff_eq.mpr (hslot i).kind
  have hregs : (List.ofFn slot).flatMap (fun c => [c.addr, c.size.toUInt64, c.value]) =
      List.ofFn values := by
    have hvalues (i : Fin 6) : [(slot i).addr, (slot i).size.toUInt64, (slot i).value] =
        [values ⟨i * 3, by omega⟩, values ⟨i * 3 + 1, by omega⟩, values ⟨i * 3 + 2, by omega⟩] := by
      rw [(hslot i).addr, (hslot i).size, (hslot i).value]
    simp only [List.ofFn_succ, List.ofFn_zero, List.flatMap_cons, List.flatMap_nil, hvalues]
    rfl
  have htake : (List.ofFn slot).take 6 = List.ofFn slot :=
    List.take_of_length_le (by rw [List.length_ofFn])
  rw [applyRegSnapshot, if_neg (not_not.mpr hkind), if_neg (by rw [List.length_ofFn]; decide),
    htake, if_pos hkinds, hregs]

theorem decodeSlots_spec (hkind : header.kind = EVENT_REG_SNAPSHOT)
    (hslot : ∀ i, CarriesRegs values i (slot i)) (s : State) :
    HoldsRegs (decodeSlots (header :: List.ofFn slot) s) header.threadId values := by
  have hregs : (fun i : RegIdx => (List.ofFn values).getD i.val 0) = values := by
    funext i
    rw [List.getD_eq_getElem?_getD, List.getElem?_ofFn, dif_pos i.isLt]
    rfl
  have hfile := regFile_withRegs { s with world := { s.world with regs := values } }
    header.threadId header.threadId fun f =>
      f.applySnapshot values header.seq.toUInt64.toNat header.addr
  rw [if_pos rfl] at hfile
  rw [decodeSlots, applyRegSnapshot_spec hkind hslot]
  simp only [Option.elim, applySnapshotUpdate, hregs]
  exact ⟨rfl, by rw [hfile]; rfl⟩

/-- The slots of a push carry the registers as far as the slots have room for them. -/
theorem carriesRegs_snapshotSlot (regs : ℕ → UInt64) (tid : UInt16) (seq : UInt32) (i : Fin 6) :
    CarriesRegs (packed fun i => regs i) i (snapshotSlot regs tid seq i) where
  kind := kind_makeKf ..
  addr := by
    rw [packed, if_neg (by dsimp only; omega)]
    rfl
  size := by
    rw [packed, if_pos (by dsimp only; omega)]
    rfl
  value := by
    rw [packed, if_neg (by dsimp only; omega)]
    rfl

/-- And so do those of a recorded snapshot. -/
theorem carriesRegs_snapshotRecord (hkind : header.kind = EVENT_REG_SNAPSHOT)
    (regs : RegIdx → UInt64) (i : Fin 6) : CarriesRegs (packed regs) i {
      addr := regs ⟨i * 3, addrReg_lt i⟩
      size := (regs ⟨i * 3 + 1, sizeReg_lt i⟩).toUInt32
      threadId := header.threadId
      seq := header.seq
      value := regs ⟨i * 3 + 2, valueReg_lt i⟩
      kindFlags := header.kindFlags
      ripLo := 0 } where
  kind := hkind
  addr := by
    rw [packed, if_neg (by dsimp only; omega)]
  size := by
    rw [packed, if_pos (by dsimp only; omega)]
  value := by
    rw [packed, if_neg (by dsimp only; omega)]

end Decode

section Ring
variable {c : Capacity} {insn : UInt64} {regs : ℕ → UInt64} {tid : UInt16} {seq : UInt32}

/-- A call that finds the snapshot at its tail takes it whole. -/
theorem drained_snapshot (slots : ℕ → Event) (h outLen : ℕ) (hroom : 7 ≤ c.size)
    (hlen : 7 ≤ outLen) :
    let op := Op.pushRegSnapshot insn regs tid seq
    (Cursor.consumeBatch ⟨outLen, h + 7,
      fun n => Tracer.storeRun c slots h op.slots (c.index (h + n)), h + 7⟩ ⟨c, h, 0, 0⟩).2 =
        op.slots := by
  intro op
  have hop : op.slots.length = 7 := rfl
  have hslot (n : ℕ) (hn : n < 7) :
      Tracer.storeRun c slots h op.slots (c.index (h + n)) = op.slot n := by
    exact Tracer.storeRun_at (op.getElem?_slots (by omega)) (by omega)
  have hhead : (op.slot 0).kind = EVENT_REG_SNAPSHOT := kind_makeKf ..
  have hresync : Cursor.resync (h + 7) ⟨c, h, 0, 0⟩ = (⟨c, h, 0, 0⟩, h) := by
    rw [Cursor.resync, if_neg (by dsimp only; omega)]
  have hlimit : Cursor.limit ⟨outLen, h + 7,
      fun n => Tracer.storeRun c slots h op.slots (c.index (h + n)), h + 7⟩ ⟨c, h, 0, 0⟩ = 7 := by
    rw [Cursor.limit, hresync]
    dsimp only
    omega
  have hcopy : Cursor.copy (fun n => Tracer.storeRun c slots h op.slots (c.index (h + n)))
      7 7 0 0 = op.slots := by
    simp only [Cursor.copy, runTailAfter, hslot, Nat.reduceLT, Nat.reduceAdd, hhead, if_true]
    rfl
  rw [Cursor.consumeBatch, if_neg (by rw [hlimit]; decide), hlimit, hresync, hcopy, Cursor.finish,
    if_neg (by dsimp only; omega)]

end Ring

/-- Seven slots of the kind are one piece of a buffer. -/
theorem pieces_snapshot {noBb : Bool} {x : Slot} {six rest : List Slot}
    (hx : x.2.kind = EVENT_REG_SNAPSHOT) (hlen : six.length = 6)
    (hsix : ∀ y ∈ six, y.2.kind = EVENT_REG_SNAPSHOT) :
    pieces noBb 0 (x :: (six ++ rest)) = .snapshot x.2 (six.map Prod.snd) :: pieces noBb 0 rest := by
  have hbb : x.2.kind ≠ EVENT_BB_ENTRY := by
    rw [hx]
    decide
  have htake : (six ++ rest).take 6 = six := by
    rw [← hlen, List.take_left]
  have hmap : (six.map Prod.snd).length = 6 := by rw [List.length_map, hlen]
  have hall : (six.map Prod.snd).all (·.kind == EVENT_REG_SNAPSHOT) = true := by
    rw [List.all_eq_true]
    intro e he
    obtain ⟨y, hy, rfl⟩ := List.mem_map.mp he
    exact beq_iff_eq.mpr (hsix y hy)
  have hconsumed : consumed x.2 (six.map Prod.snd) = 7 := by
    rw [consumed, applyRegSnapshot, if_neg (not_not.mpr hx), if_neg (by omega),
      List.take_of_length_le hmap.le, if_pos hall]
    rfl
  have hskip : pieces noBb 6 (six ++ rest) = pieces noBb 0 rest := by
    rw [pieces_drop, ← hlen, List.drop_left]
  rw [pieces, if_neg (by simp [hbb]), if_pos hx, htake]
  simp only [hconsumed]
  rw [← hskip]

section Replayed
variable {header : Event} {regs : RegIdx → UInt64}

/-- The seven slots are one piece of a batch, which the replay decodes. -/
theorem replayed_snapshot (noBb : Bool) (orders : IndexOrders) (r : Replay) (host : Host)
    (hkind : header.kind = EVENT_REG_SNAPSHOT) :
    HoldsRegs (Replay.run noBb orders r
      (Replay.steps [(snapshotRecord header regs).map (host, ·)])).engine header.threadId
        (packed regs) := by
  have hslot := carriesRegs_snapshotRecord hkind regs
  have hholds := decodeSlots_spec hkind hslot r.engine
  have hpieces : pieces false 0 ((snapshotRecord header regs).map (host, ·)) =
      [.snapshot header (snapshotRecord header regs).tail] := by
    have hall : ∀ y ∈ (snapshotRecord header regs).tail.map (host, ·),
        (y : Slot).2.kind = EVENT_REG_SNAPSHOT := by
      intro y hy
      obtain ⟨e, he, rfl⟩ := List.mem_map.mp hy
      obtain ⟨i, rfl⟩ := List.mem_ofFn.mp he
      exact (hslot i).kind
    have hone := @pieces_snapshot false (host, header) _ [] hkind
      (by rw [List.length_map]; rfl) hall
    rw [List.append_nil] at hone
    rw [snapshotRecord, List.map_cons]
    refine hone.trans ?_
    rw [List.map_map]
    exact congrArg (fun l => [Piece.snapshot header l]) (List.map_id _)
  rw [Replay.steps, List.flatMap_singleton, hpieces, Replay.run]
  simp only [List.map_cons, List.map_nil, List.cons_append, List.nil_append, List.foldl_cons,
    List.foldl_nil]
  refine HoldsRegs.endBatch ?_ orders
  exact hholds.of_same rfl rfl

end Replayed

/-- What comes out of the ring, and out of a recording, of the registers pushed: every
third one, from the second on, has lost its upper half. -/
theorem register_snapshot_round_trip (c : Capacity) (slots : ℕ → Event) (h outLen : ℕ)
    (insn : UInt64) (regs : ℕ → UInt64) (tid : UInt16) (seq : UInt32) (s : State)
    (hroom : (Op.pushRegSnapshot insn regs tid seq).admits c.size h h = true) (hlen : 7 ≤ outLen) :
    let op := Op.pushRegSnapshot insn regs tid seq
    let drained := (Cursor.consumeBatch ⟨outLen, h + 7,
      fun n => Tracer.storeRun c slots h op.slots (c.index (h + n)), h + 7⟩ ⟨c, h, 0, 0⟩).2
    let live := decodeSlots drained s
    HoldsRegs live tid (packed fun i => regs i) ∧
    (∀ header file, header.kind = EVENT_REG_SNAPSHOT →
      recordedFile (snapshotRecord header live.world.regs) = some file →
        ∃ p, EventPlayer.openFile file = .ok p ∧ ∀ max, 7 ≤ max → ∀ noBb orders r host,
          HoldsRegs (Replay.run noBb orders r (Replay.steps [(p.readBatch max).2.map (host, ·)])).engine
            header.threadId live.world.regs) ∧
    ((packed fun i => regs i) = (fun i : RegIdx => regs i) ↔
      ∀ i : RegIdx, i.val % 3 = 1 → (regs i).toNat < 2 ^ 32) := by
  have hsize : 7 ≤ c.size := by
    have hsame : (h + 2 ^ 64 - h) % 2 ^ 64 = 0 := by
      rw [Nat.add_sub_cancel_left, Nat.mod_self]
    simpa [Op.admits, hsame, REG_SNAPSHOT_SLOTS] using hroom
  intro op drained live
  have hlive : live = decodeSlots op.slots s := by
    rw [← drained_snapshot slots h outLen hsize hlen]
  have hholds : HoldsRegs live tid (packed fun i => regs i) := by
    rw [hlive]
    have hkind : (op.slot 0).kind = EVENT_REG_SNAPSHOT := kind_makeKf ..
    exact decodeSlots_spec hkind (carriesRegs_snapshotSlot regs tid seq) s
  refine ⟨hholds, fun header file hkind hfile => ?_, packed_eq_iff⟩
  obtain ⟨p, hopen, -, hplays⟩ := openFile_recorded hfile
  refine ⟨p, hopen, fun max hmax noBb orders r host => ?_⟩
  have hbatch : (p.readBatch max).2 = snapshotRecord header live.world.regs := by
    rw [(readBatch_spec max hplays).1]
    exact List.take_of_length_le hmax
  have hreplayed := @replayed_snapshot _ live.world.regs noBb orders r host hkind
  rw [hbatch]
  rwa [hholds.world, packed_packed, ← hholds.world] at hreplayed

/-- Every register holds an address of the stack. -/
def stackRegs : ℕ → UInt64 := fun _ => 0x7ffd00001000

/-- What a drain of a fresh ring makes of them. -/
def stackSlots : List Event :=
  (Cursor.consumeBatch ⟨8, 0 + 7, fun n => Tracer.storeRun THREAD_RING_CAPACITY (fun _ => .zero) 0
    (Op.pushRegSnapshot 0 stackRegs 1 0).slots (THREAD_RING_CAPACITY.index (0 + n)), 0 + 7⟩
    ⟨THREAD_RING_CAPACITY, 0, 0, 0⟩).2

theorem stack_registers_arrive :
    HoldsRegs (decodeSlots stackSlots {}) 1 (packed fun i => stackRegs i) :=
  (register_snapshot_round_trip THREAD_RING_CAPACITY (fun _ => .zero) 0 8 0 stackRegs 1 0 {}
    (by decide) (by decide)).1

/-- The stack pointer has lost its upper half. -/
theorem stack_pointer_is_cut :
    ¬ HoldsRegs (decodeSlots stackSlots {}) 1 fun i => stackRegs i := by
  intro hclaim
  have hslots : stackSlots = (Op.pushRegSnapshot 0 stackRegs 1 0).slots :=
    drained_snapshot (fun _ => .zero) 0 8 (by decide) (by decide)
  have hkind : ((Op.pushRegSnapshot 0 stackRegs 1 0).slot 0).kind = EVENT_REG_SNAPSHOT :=
    kind_makeKf ..
  have hlive := decodeSlots_spec hkind (carriesRegs_snapshotSlot stackRegs 1 0) {}
  rw [hslots] at hclaim
  have hsame := congrFun (hclaim.world.symm.trans hlive.world) 7
  exact absurd hsame (by decide)

end Rtmap.Engine
