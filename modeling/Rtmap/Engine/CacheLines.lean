import Rtmap.Engine.World
import Rtmap.Lib.Transition

/-!
# The cache-line tracker

Which threads write to a line is kept in a slot that the line shares with others. Counts
saturate and are halved, and lines evict each other; a slot's writer mask still is the
set of the writers with a count, each of whom wrote the line while it was in the slot.
-/
namespace Rtmap.Engine.ClTracker

/-- The writer's bit is set. -/
def isWriter (s : ClSlot) (k : Fin 16) : Bool := s.writers.toNat.testBit k

/-- `writer_breakdown`: the writers of the line with their counts. -/
def writerBreakdown (t : ClTracker) (addr : UInt64) : List (Fin 16 × UInt16) :=
  if (t (index addr)).clAddr = line addr then
    ((List.finRange 16).filter (isWriter (t (index addr)))).map fun k =>
      (k, (t (index addr)).perWriter k)
  else []

/-- The calls that change the tracker. -/
inductive LineCall where
  | write (addr : UInt64) (tid : UInt16)
  | tick

def call (t : ClTracker) : LineCall → ClTracker
  | .write addr tid => (t.recordWrite addr tid).1
  | .tick => t.tick

def run (calls : List LineCall) : ClTracker := calls.foldl call fun _ => {}

/-- The mask is the set of the writers with a count, no count is above that of all writes,
and a slot is empty or holds a line that belongs there. -/
structure SlotInv (i : Fin CL_SLOTS) (s : ClSlot) : Prop where
  mask : ∀ k, isWriter s k = true ↔ 0 < s.perWriter k
  bounded : ∀ k, s.perWriter k ≤ s.writeCount
  filed : s = {} ∨ s.clAddr.toNat % CL_SLOTS = i.val ∧ 1 ≤ s.writeCount

/-- The line is in its slot. -/
def Holds (t : ClTracker) (addr : UInt64) : Prop :=
  (t (index addr)).clAddr = line addr ∧ 0 < (t (index addr)).writeCount

section Bits

theorem toNat_bit : ∀ k : Fin 16, ((1 : UInt16) <<< UInt16.ofNat k.val).toNat = 2 ^ k.val := by
  decide

theorem testBit_or_bit (mask : UInt16) (i k : Fin 16) :
    (mask ||| 1 <<< UInt16.ofNat i.val).toNat.testBit k = (mask.toNat.testBit k || i == k) := by
  rw [UInt16.toNat_or, Nat.testBit_or, toNat_bit, Nat.testBit_two_pow]
  congr 1
  exact decide_eq_decide.mpr Fin.val_inj

/-- The mask of the writers that pass a test. -/
theorem testBit_foldl (p : Fin 16 → Prop) [DecidablePred p] (ks : List (Fin 16)) (mask : UInt16)
    (k : Fin 16) : (ks.foldl (fun m i => if p i then m ||| 1 <<< UInt16.ofNat i.val else m)
      mask).toNat.testBit k = true ↔ mask.toNat.testBit k = true ∨ k ∈ ks ∧ p k := by
  induction ks generalizing mask with
  | nil => simp
  | cons i ks ih =>
      rw [List.foldl_cons, ih]
      by_cases hi : p i
      · rw [if_pos hi, testBit_or_bit, Bool.or_eq_true, beq_iff_eq, List.mem_cons]
        constructor
        · rintro ((h | rfl) | h)
          · exact .inl h
          · exact .inr ⟨.inl rfl, hi⟩
          · exact .inr ⟨.inr h.1, h.2⟩
        · rintro (h | ⟨rfl | h, hk⟩)
          · exact .inl (.inl h)
          · exact .inl (.inr rfl)
          · exact .inr ⟨h, hk⟩
      · rw [if_neg hi, List.mem_cons]
        refine or_congr_right ⟨fun h => ⟨.inr h.1, h.2⟩, ?_⟩
        rintro ⟨rfl | h, hk⟩
        · exact absurd hk hi
        · exact ⟨h, hk⟩

end Bits

section Counts

theorem toNat_satSucc (n : UInt16) : (satSucc n).toNat = min (n.toNat + 1) 65535 := by
  rw [satSucc]
  have hlt := n.toNat_lt
  split
  · rename_i h
    subst h
    rfl
  · rename_i h
    have hne : n.toNat ≠ 65535 := fun heq => h (UInt16.toNat_inj.mp heq)
    rw [UInt16.toNat_add]
    change (n.toNat + 1) % 2 ^ 16 = _
    omega

theorem toNat_half (n : UInt16) : (n >>> 1).toNat = n.toNat / 2 := by
  rw [UInt16.toNat_shiftRight]
  exact Nat.shiftRight_eq_div_pow n.toNat 1

theorem satSucc_pos (n : UInt16) : 0 < satSucc n := by
  rw [UInt16.lt_iff_toNat_lt, toNat_satSucc]
  change 0 < _
  omega

theorem one_le_of_pos {n : UInt16} (h : 0 < n) : 1 ≤ n := by
  rw [UInt16.lt_iff_toNat_lt] at h
  rw [UInt16.le_iff_toNat_le]
  exact h

theorem satSucc_mono {m n : UInt16} (h : m ≤ n) : satSucc m ≤ satSucc n := by
  rw [UInt16.le_iff_toNat_le] at h ⊢
  rw [toNat_satSucc, toNat_satSucc]
  omega

theorem le_satSucc (n : UInt16) : n ≤ satSucc n := by
  have hlt := n.toNat_lt
  rw [UInt16.le_iff_toNat_le, toNat_satSucc]
  omega

end Counts

section Slot
variable {i : Fin CL_SLOTS} {s : ClSlot} {addr : UInt64} {tid : UInt16}

theorem slotInv_empty (i : Fin CL_SLOTS) : SlotInv i {} where
  mask k := by simp [isWriter]
  bounded k := UInt16.le_refl _
  filed := .inl rfl

/-- A line's first writer in the slot. -/
theorem isWriter_recordSlot_of_ne (h : s.clAddr ≠ line addr) (k : Fin 16) :
    isWriter (recordSlot s addr tid) k = (writerIndex tid == k) := by
  have hzero := testBit_or_bit 0 (writerIndex tid) k
  rw [recordSlot, if_pos h]
  simpa [isWriter, writerBit] using hzero

theorem isWriter_recordSlot_of_eq (h : s.clAddr = line addr) (k : Fin 16) :
    isWriter (recordSlot s addr tid) k = (isWriter s k || writerIndex tid == k) := by
  rw [recordSlot, if_neg (not_not.mpr h)]
  exact testBit_or_bit s.writers (writerIndex tid) k

theorem slotInv_recordSlot_of_eq (h : SlotInv (index addr) s) (hline : s.clAddr = line addr) :
    SlotInv (index addr) (recordSlot s addr tid) := by
  have hcounts : (recordSlot s addr tid).perWriter = Function.update s.perWriter
      (writerIndex tid) (satSucc (s.perWriter (writerIndex tid))) := by
    rw [recordSlot, if_neg (not_not.mpr hline)]
  have htotal : (recordSlot s addr tid).writeCount = satSucc s.writeCount := by
    rw [recordSlot, if_neg (not_not.mpr hline)]
  have hheld : (recordSlot s addr tid).clAddr = line addr := by
    rw [recordSlot, if_neg (not_not.mpr hline)]
    exact hline
  refine ⟨fun k => ?_, fun k => ?_, .inr ⟨by rw [hheld]; rfl, ?_⟩⟩
  · rw [isWriter_recordSlot_of_eq hline, hcounts, Bool.or_eq_true, beq_iff_eq, h.mask]
    by_cases hk : writerIndex tid = k
    · subst hk
      rw [Function.update_self]
      exact iff_of_true (.inr rfl) (satSucc_pos _)
    · rw [Function.update_of_ne (Ne.symm hk)]
      exact or_iff_left hk
  · rw [hcounts, htotal]
    by_cases hk : k = writerIndex tid
    · subst hk
      rw [Function.update_self]
      exact satSucc_mono (h.bounded _)
    · rw [Function.update_of_ne hk]
      exact UInt16.le_trans (h.bounded k) (le_satSucc _)
  · rw [htotal]
    exact one_le_of_pos (satSucc_pos _)

/-- A line that comes into the slot begins with one writer, whatever was there. -/
theorem slotInv_recordSlot_of_ne (hline : s.clAddr ≠ line addr) :
    SlotInv (index addr) (recordSlot s addr tid) := by
  have hslot : recordSlot s addr tid = ⟨line addr, 1, writerBit tid,
      Function.update (fun _ => 0) (writerIndex tid) 1⟩ := by
    rw [recordSlot, if_pos hline]
  refine ⟨fun k => ?_, fun k => ?_, .inr ⟨?_, ?_⟩⟩
  · rw [isWriter_recordSlot_of_ne hline, hslot, beq_iff_eq]
    dsimp only
    by_cases hk : writerIndex tid = k
    · subst hk
      rw [Function.update_self]
      exact iff_of_true rfl (by decide)
    · rw [Function.update_of_ne (Ne.symm hk)]
      exact iff_of_false hk (by decide)
  · rw [hslot]
    dsimp only
    by_cases hk : k = writerIndex tid
    · subst hk
      rw [Function.update_self]
      exact UInt16.le_refl 1
    · rw [Function.update_of_ne hk]
      decide
  · rw [hslot]
    rfl
  · rw [hslot]
    exact UInt16.le_refl 1

theorem slotInv_recordSlot (h : SlotInv (index addr) s) :
    SlotInv (index addr) (recordSlot s addr tid) := by
  by_cases hline : s.clAddr = line addr
  · exact slotInv_recordSlot_of_eq h hline
  · exact slotInv_recordSlot_of_ne hline

theorem isWriter_tickSlot (h : (s.writeCount >>> 1) ≠ 0) (k : Fin 16) :
    isWriter (tickSlot s) k = true ↔ (0 : UInt16) < s.perWriter k >>> 1 := by
  have hmask := testBit_foldl (fun k => s.perWriter k >>> 1 > 0) (List.finRange 16) 0 k
  rw [tickSlot, if_neg h, isWriter]
  dsimp only
  rw [hmask]
  simp

/-- Ageing leaves some of the writers. -/
theorem isWriter_of_tickSlot (h : SlotInv i s) {k : Fin 16} (hk : isWriter (tickSlot s) k = true) :
    isWriter s k = true := by
  by_cases hcount : s.writeCount >>> 1 = 0
  · rw [tickSlot, if_pos hcount] at hk
    simp [isWriter] at hk
  · rw [isWriter_tickSlot hcount] at hk
    rw [h.mask, UInt16.lt_iff_toNat_lt]
    rw [UInt16.lt_iff_toNat_lt, toNat_half] at hk
    change 0 < _ at hk ⊢
    omega

theorem slotInv_tickSlot (h : SlotInv i s) : SlotInv i (tickSlot s) := by
  by_cases hcount : s.writeCount >>> 1 = 0
  · rw [tickSlot, if_pos hcount]
    exact slotInv_empty i
  · have hcounts (k : Fin 16) : (tickSlot s).perWriter k = s.perWriter k >>> 1 := by
      rw [tickSlot, if_neg hcount]
    have htotal : (tickSlot s).writeCount = s.writeCount >>> 1 := by
      rw [tickSlot, if_neg hcount]
    refine ⟨fun k => ?_, fun k => ?_, .inr ⟨?_, ?_⟩⟩
    · rw [isWriter_tickSlot hcount, hcounts]
    · rw [hcounts, htotal, UInt16.le_iff_toNat_le, toNat_half, toNat_half]
      exact Nat.div_le_div_right (UInt16.le_iff_toNat_le.mp (h.bounded k))
    · rw [tickSlot, if_neg hcount]
      dsimp only
      rcases h.filed with rfl | ⟨hfiled, -⟩
      · exact absurd rfl hcount
      · exact hfiled
    · rw [htotal, UInt16.le_iff_toNat_le]
      have hne : (s.writeCount >>> 1).toNat ≠ 0 := fun hz => hcount (UInt16.toNat_inj.mp hz)
      change 1 ≤ _
      omega

end Slot

section Runs
variable {t : ClTracker} {addr : UInt64}

theorem slotInv_call (h : ∀ i, SlotInv i (t i)) (c : LineCall) (i : Fin CL_SLOTS) :
    SlotInv i (t.call c i) := by
  cases c with
  | tick => exact slotInv_tickSlot (h i)
  | write a tid =>
      rw [call, recordWrite]
      dsimp only
      by_cases hi : i = index a
      · subst hi
        rw [Function.update_self]
        exact slotInv_recordSlot (h _)
      · rw [Function.update_of_ne hi]
        exact h i

theorem run_snoc (calls : List LineCall) (c : LineCall) : run (calls ++ [c]) = (run calls).call c := by
  rw [run, List.foldl_append]
  rfl

theorem slotInv_run (calls : List LineCall) (i : Fin CL_SLOTS) : SlotInv i (run calls i) := by
  induction calls using List.reverseRecOn generalizing i with
  | nil => exact slotInv_empty i
  | append_singleton calls c ih =>
      rw [run_snoc]
      exact slotInv_call ih c i

/-- The writers reported for a line. -/
def Reports (t : ClTracker) (addr : UInt64) (k : Fin 16) : Prop :=
  (t (index addr)).clAddr = line addr ∧ isWriter (t (index addr)) k = true

theorem mem_writerBreakdown {x : Fin 16 × UInt16} : x ∈ t.writerBreakdown addr ↔
    Reports t addr x.1 ∧ x.2 = (t (index addr)).perWriter x.1 := by
  rw [writerBreakdown, Reports]
  split
  · rename_i h
    simp only [List.mem_map, List.mem_filter, List.mem_finRange, true_and, h]
    constructor
    · rintro ⟨k, hk, rfl⟩
      exact ⟨hk, rfl⟩
    · rintro ⟨hk, hn⟩
      exact ⟨x.1, hk, by rw [← hn]⟩
  · rename_i h
    exact iff_of_false List.not_mem_nil fun hx => h hx.1.1

/-- A line that is not in its slot has no writers. -/
theorem not_reports_of_not_holds (h : SlotInv (index addr) (t (index addr)))
    (hout : ¬ Holds t addr) (k : Fin 16) : ¬ Reports t addr k := by
  rintro ⟨hline, hk⟩
  refine hout ⟨hline, ?_⟩
  have hpos := (h.mask k).mp hk
  exact UInt16.lt_of_lt_of_le hpos (h.bounded k)

/-- A call writes the line as this writer. -/
def LineCall.Writes (addr : UInt64) (k : Fin 16) : LineCall → Prop
  | .write a tid => line a = line addr ∧ writerIndex tid = k
  | .tick => False

/-- A call adds the writer to the line's writers only by writing it. -/
theorem reports_call (h : ∀ i, SlotInv i (t i)) {c : LineCall} {k : Fin 16}
    (hk : Reports (t.call c) addr k) : Reports t addr k ∨ c.Writes addr k := by
  cases c with
  | tick =>
      obtain ⟨hline, hwriter⟩ := hk
      have hbefore : isWriter (t (index addr)) k = true := isWriter_of_tickSlot (h _) hwriter
      refine .inl ⟨?_, hbefore⟩
      have hcount : (t (index addr)).writeCount >>> 1 ≠ 0 := by
        intro hzero
        rw [call, tick, tickSlot, if_pos hzero] at hwriter
        simp [isWriter] at hwriter
      rw [call, tick, tickSlot, if_neg hcount] at hline
      exact hline
  | write a tid =>
      rw [Reports, call, recordWrite] at hk
      dsimp only at hk
      by_cases hi : index addr = index a
      · rw [← hi, Function.update_self] at hk
        obtain ⟨hline, hwriter⟩ := hk
        by_cases hheld : (t (index addr)).clAddr = line a
        · rw [isWriter_recordSlot_of_eq hheld, Bool.or_eq_true, beq_iff_eq] at hwriter
          rw [recordSlot, if_neg (not_not.mpr hheld)] at hline
          rcases hwriter with hwriter | hwriter
          · exact .inl ⟨hline, hwriter⟩
          · exact .inr ⟨hheld.symm.trans hline, hwriter⟩
        · rw [isWriter_recordSlot_of_ne hheld, beq_iff_eq] at hwriter
          rw [recordSlot, if_pos hheld] at hline
          exact .inr ⟨hline, hwriter⟩
      · rw [Function.update_of_ne hi] at hk
        exact .inl hk

/-- From any time at which the line was not in its slot, each of its writers has written it. -/
theorem reports_run (front back : List LineCall) (hout : ¬ Holds (run front) addr) {k : Fin 16}
    (hk : Reports (run (front ++ back)) addr k) : ∃ c ∈ back, c.Writes addr k := by
  induction back using List.reverseRecOn with
  | nil =>
      rw [List.append_nil] at hk
      exact absurd hk (not_reports_of_not_holds (slotInv_run front _) hout k)
  | append_singleton back c ih =>
      rw [← List.append_assoc, run_snoc] at hk
      rcases reports_call (slotInv_run _) hk with hbefore | hwrites
      · obtain ⟨d, hd, hwrites⟩ := ih hbefore
        exact ⟨d, List.mem_append_left _ hd, hwrites⟩
      · exact ⟨c, by simp, hwrites⟩

/-- After any calls every slot keeps its invariant, and each writer reported for a line has
written it since the line was last out of its slot. -/
theorem tracker_sound (calls : List LineCall) : (∀ i, SlotInv i (run calls i)) ∧
    ∀ front back addr, calls = front ++ back → ¬ Holds (run front) addr →
      ∀ x ∈ (run calls).writerBreakdown addr, ∃ c ∈ back, c.Writes addr x.1 := by
  refine ⟨slotInv_run calls, ?_⟩
  rintro front back addr rfl hout x hx
  exact reports_run front back hout (mem_writerBreakdown.mp hx).1

end Runs

end Rtmap.Engine.ClTracker
