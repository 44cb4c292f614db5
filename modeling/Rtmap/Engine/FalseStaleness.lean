import Rtmap.Engine.ShadowRegs
import Rtmap.Lib.LeBytes

/-!
# Registers lowered without a change

`check_coherence` finds the registers whose source a write meets and compares their value
with the written one, as whole numbers. A write that stores the bytes that are there
already still differs as a number if it is narrower than the source or starts elsewhere.
-/
namespace Rtmap.Engine
open LeBytes

/-- The register was loaded from so many bytes at the address, which hold its value. -/
def ShadowReg.LoadedFrom (mem : ℕ → UInt8) (r : ShadowReg) (src : UInt64) : Prop :=
  r.memSource = some src ∧ r.memSourceSize.toNat ≤ 8 ∧
    r.value.toNat = contents mem src.toNat r.memSourceSize.toNat

/-- The check takes the register from above Stale to Stale. -/
def ShadowReg.Lowered (r r' : ShadowReg) : Prop :=
  Confidence.stale.rank < r.confidence.rank ∧ r'.confidence = .stale

/-- The write changes a byte of the source. -/
def WriteChanges (mem : ℕ → UInt8) (writtenAddr writtenValue : UInt64) (writeSize : UInt32)
    (src : UInt64) (size : UInt32) : Prop :=
  ∃ x, (src.toNat ≤ x ∧ x < src.toNat + size.toNat) ∧
    (writtenAddr.toNat ≤ x ∧ x < writtenAddr.toNat + writeSize.toNat) ∧
      store mem writtenAddr.toNat writeSize.toNat writtenValue.toNat x ≠ mem x

/-- The two numbers are equal, or they differ in the part that the ranges have in common. -/
def ComparesRight (value src : UInt64) (size : UInt32) (writtenValue writtenAddr : UInt64)
    (writeSize : UInt32) : Prop :=
  let k := common src.toNat size.toNat writtenAddr.toNat writeSize.toNat
  value = writtenValue ∨ part value.toNat src.toNat writtenAddr.toNat k ≠
    part writtenValue.toNat writtenAddr.toNat src.toNat k

namespace ShadowRegisterFile
variable {mem : ℕ → UInt8} {r : ShadowReg} {src writtenAddr writtenValue : UInt64}
  {writeSize : UInt32}

theorem lowered_coherent_iff (hsize : writeSize.toNat ≤ 8) :
    r.Lowered (coherent r writtenAddr writtenValue writeSize) ↔
      Confidence.stale.rank < r.confidence.rank ∧ overlaps r writtenAddr writeSize = true ∧
        r.value ≠ writtenValue := by
  have hnarrow : ¬ writeSize > 8 := by
    rw [gt_iff_lt, UInt32.lt_iff_toNat_lt]
    exact Nat.not_lt.mpr hsize
  refine and_congr_right fun habove => ?_
  rw [coherent]
  split
  · rename_i h
    exact iff_of_true rfl ⟨h.1, h.2.1.resolve_left hnarrow⟩
  · rename_i h
    refine iff_of_false (fun hstale => ?_) fun hmet => h ⟨hmet.1, .inr hmet.2, habove⟩
    rw [hstale] at habove
    exact absurd habove (Nat.lt_irrefl _)

/-- What the write does to the source shows in the part that the numbers have in common. -/
theorem writeChanges_iff (hload : r.LoadedFrom mem src) :
    WriteChanges mem writtenAddr writtenValue writeSize src r.memSourceSize ↔
      part r.value.toNat src.toNat writtenAddr.toNat
          (common src.toNat r.memSourceSize.toNat writtenAddr.toNat writeSize.toNat) ≠
        part writtenValue.toNat writtenAddr.toNat src.toNat
          (common src.toNat r.memSourceSize.toNat writtenAddr.toNat writeSize.toNat) :=
  exists_store_ne_iff hload.2.2

/-- A write of exactly the source compares right. -/
theorem comparesRight_of_same_range (hload : r.LoadedFrom mem src)
    (hfits : writtenValue.toNat < 256 ^ r.memSourceSize.toNat) :
    ComparesRight r.value src r.memSourceSize writtenValue src r.memSourceSize := by
  have hvalue : r.value.toNat < 256 ^ r.memSourceSize.toNat := by
    rw [hload.2.2]
    exact contents_lt mem ..
  rw [ComparesRight, common, min_self, max_self, Nat.add_sub_cancel_left, part, part,
    Nat.sub_self, Nat.pow_zero, Nat.div_one, Nat.div_one, Nat.mod_eq_of_lt hvalue,
    Nat.mod_eq_of_lt hfits, ne_eq, UInt64.toNat_inj]
  exact em _

/-- Registers are lowered only by writes that change their source, exactly if each one that a
write meets compares right with it. -/
theorem no_false_staleness_iff (mem : ℕ → UInt8) (f : ShadowRegisterFile)
    (writtenAddr writtenValue : UInt64) (writeSize : UInt32) (hsize : writeSize.toNat ≤ 8) :
    (∀ i src, (f.regs i).LoadedFrom mem src →
      (f.regs i).Lowered ((f.checkCoherence writtenAddr writtenValue writeSize).regs i) →
        WriteChanges mem writtenAddr writtenValue writeSize src (f.regs i).memSourceSize) ↔
    ∀ i src, (f.regs i).LoadedFrom mem src →
      Confidence.stale.rank < (f.regs i).confidence.rank →
      overlaps (f.regs i) writtenAddr writeSize = true →
        ComparesRight (f.regs i).value src (f.regs i).memSourceSize writtenValue writtenAddr
          writeSize := by
  refine forall₃_congr fun i src hload => ?_
  change ((f.regs i).Lowered (coherent (f.regs i) ..) → _) ↔ _
  rw [lowered_coherent_iff hsize, writeChanges_iff hload]
  constructor
  · intro h habove hmeets
    by_cases hvalue : (f.regs i).value = writtenValue
    · exact .inl hvalue
    · exact .inr (h ⟨habove, hmeets, hvalue⟩)
  · intro h hlowered
    obtain ⟨habove, hmeets, hvalue⟩ := hlowered
    exact (h habove hmeets).resolve_left hvalue

/-- r12 holds the eight bytes at 0x3000. -/
def loadsWord : ShadowRegisterFile := ({} : ShadowRegisterFile).onReload 12 0x1122 0x3000 8 1 0x40

/-- The bytes that are there. -/
def holdsWord : ℕ → UInt8 := store (fun _ => 0) 0x3000 8 0x1122

theorem loadsWord_loadedFrom : (loadsWord.regs 12).LoadedFrom holdsWord 0x3000 :=
  ⟨rfl, by decide, by decide⟩

/-- A write of another word is judged right: it lowers r12 and changes its source. -/
theorem whole_write_judged_right :
    (loadsWord.regs 12).Lowered ((loadsWord.checkCoherence 0x3000 0x1123 8).regs 12) ∧
      WriteChanges holdsWord 0x3000 0x1123 8 0x3000 (loadsWord.regs 12).memSourceSize := by
  have hlowered : (loadsWord.regs 12).Lowered
      ((loadsWord.checkCoherence 0x3000 0x1123 8).regs 12) := ⟨by decide, by decide⟩
  refine ⟨hlowered, ?_⟩
  refine (no_false_staleness_iff holdsWord loadsWord 0x3000 0x1123 8 (by decide)).mpr ?_ 12 0x3000
    loadsWord_loadedFrom hlowered
  intro i src hload habove _
  by_cases hi : i = 12
  · subst hi
    obtain rfl : 0x3000 = src := Option.some.inj hload.1
    exact comparesRight_of_same_range hload (by decide)
  · have hreg : loadsWord.regs i = {} := Function.update_of_ne hi ..
    rw [hreg] at habove
    exact absurd habove (by decide)

/-- The lowest byte is stored again, and r12 is lowered. -/
theorem byte_stored_again_lowers :
    ¬ ∀ (mem : ℕ → UInt8) (f : ShadowRegisterFile) (writtenAddr writtenValue : UInt64)
      (writeSize : UInt32), writeSize.toNat ≤ 8 → ∀ i src, (f.regs i).LoadedFrom mem src →
        (f.regs i).Lowered ((f.checkCoherence writtenAddr writtenValue writeSize).regs i) →
          WriteChanges mem writtenAddr writtenValue writeSize src (f.regs i).memSourceSize := by
  intro h
  have hlowered : (loadsWord.regs 12).Lowered ((loadsWord.checkCoherence 0x3000 0x22 1).regs 12) :=
    ⟨by decide, by decide⟩
  have hchanges := h holdsWord loadsWord 0x3000 0x22 1 (by decide) 12 0x3000 loadsWord_loadedFrom
    hlowered
  exact absurd ((writeChanges_iff loadsWord_loadedFrom).mp hchanges) (by decide)

end ShadowRegisterFile

end Rtmap.Engine
