import Mathlib.Data.Bool.AllAny
import Rtmap.Lib.Fnv
import Rtmap.Ring.Segment

/-!
# The attach handshake

Tracer and engine hash the layouts that they were compiled with. A tracer of which one
hashed size or offset has drifted is turned down, by both paths that read a control ring.
-/
namespace Rtmap.Ring
open Layout Fnv

/-- `rtmap_scratch_pad_t`. -/
def rtmapScratchPad : Struct :=
  ⟨64, [⟨16, 8⟩, ⟨8, 8⟩, ⟨4, 4⟩, ⟨4, 4⟩, ⟨8, 8⟩, ⟨8, 8⟩, ⟨8, 8⟩, ⟨8, 8⟩, ⟨8, 8⟩, ⟨8, 8⟩, ⟨8, 8⟩,
    ⟨8, 8⟩, ⟨8, 8⟩, ⟨8, 8⟩, ⟨8, 8⟩, ⟨8, 8⟩]⟩

/-- The engine's mirror of it. -/
def ScratchPadMirror : Struct :=
  ⟨64, [⟨16, 8⟩, ⟨8, 8⟩, ⟨4, 4⟩, ⟨4, 4⟩, ⟨8, 8⟩, ⟨8, 8⟩, ⟨8, 8⟩, ⟨8, 8⟩, ⟨8, 8⟩, ⟨8, 8⟩, ⟨8, 8⟩,
    ⟨8, 8⟩, ⟨8, 8⟩, ⟨8, 8⟩, ⟨8, 8⟩, ⟨8, 8⟩]⟩

/-- What one side was compiled with. -/
structure Abi where
  event : Struct
  ring : Struct
  pad : Struct

/-- The sizes and offsets that both sides hash. -/
def Abi.words (a : Abi) : List UInt32 :=
  [a.event.size, a.event.offset Field.addr.index, a.event.offset Field.value.index,
    a.event.offset Field.kindFlags.index, a.event.offset Field.ripLo.index,
    a.ring.size, a.ring.offset HeaderField.head.index, a.ring.offset HeaderField.tail.index,
    a.ring.offset HeaderField.status.index,
    a.pad.size, a.pad.offset 3, a.pad.offset 4, a.pad.offset 5].map UInt32.ofNat

def tracerAbi : Abi := ⟨rtmapEventV3, rtmapRingHeader, rtmapScratchPad⟩
def engineAbi : Abi := ⟨Event.layout, RingHeader, ScratchPadMirror⟩

/-- `rtmap_build_hash_compute` of a tracer compiled so. -/
def Abi.buildHashCompute (a : Abi) : UInt32 := hash a.words

def rtmapAbiHash : UInt32 := hash engineAbi.words

def RTMAP_CTL_MAGIC : UInt64 := 0x5254435430303032

/-- The fields of the control ring that the handshake reads. -/
structure CtlHeader where
  magic : UInt64
  protoVersion : UInt32
  buildHash : UInt32
  targetPid : UInt32
  parentPid : UInt32
deriving DecidableEq

/-- `rtmap_ctl_init`. -/
def ctlInit (a : Abi) : CtlHeader where
  magic := RTMAP_CTL_MAGIC
  protoVersion := .ofNat RTMAP_PROTO_VERSION
  buildHash := a.buildHashCompute
  targetPid := 0
  parentPid := 0

/-- `map_ctl_ring`: a segment with the magic is taken over as it is. -/
def mapCtlRing (a : Abi) (pid parentPid : UInt32) (old : CtlHeader) : CtlHeader :=
  let ctl := if old.magic ≠ RTMAP_CTL_MAGIC then ctlInit a else old
  { ctl with targetPid := pid, parentPid := parentPid }

/-- `attach_ctl_shm`. -/
def attachCtlShm (hdr : CtlHeader) : Bool :=
  if hdr.magic ≠ RTMAP_CTL_MAGIC then false
  else if hdr.protoVersion ≠ .ofNat RTMAP_PROTO_VERSION then false
  else if hdr.buildHash ≠ rtmapAbiHash then false
  else true

def peekCtlIdentity (hdr : CtlHeader) : Option (UInt32 × UInt32) :=
  if hdr.magic ≠ RTMAP_CTL_MAGIC ∨ hdr.protoVersion ≠ .ofNat RTMAP_PROTO_VERSION ∨
      hdr.buildHash ≠ rtmapAbiHash then none
  else some (hdr.targetPid, hdr.parentPid)

/-- Both sides of the repository hash the same words. -/
theorem words_same : tracerAbi.words = engineAbi.words := by decide

/-- `test_abi_hash_frozen`. -/
example : rtmapAbiHash = 0x8d1fdff5 := by decide +kernel

section Drift
variable {a : Abi}

theorem small_engineAbi : ∀ w ∈ engineAbi.words, w < 65536 :=
  List.all_iff_forall_prop.mp (by decide +kernel)

/-- Where at most one word differs, the hashes tell. -/
theorem hash_eq_iff (hsmall : ∀ w ∈ a.words, w < 65536)
    (hone : ∃ i w, a.words = engineAbi.words.set i w) :
    a.buildHashCompute = rtmapAbiHash ↔ a.words = engineAbi.words := by
  refine ⟨fun heq => ?_, fun heq => congrArg hash heq⟩
  obtain ⟨i, w, hset⟩ := hone
  by_cases hi : i < engineAbi.words.length
  · have hsplit : engineAbi.words = engineAbi.words.take i ++
        engineAbi.words[i] :: engineAbi.words.drop (i + 1) := by
      rw [← List.drop_eq_getElem_cons hi, List.take_append_drop]
    rw [List.set_eq_take_append_cons_drop, if_pos hi] at hset
    by_contra hne
    have hword : w ≠ engineAbi.words[i] := by
      rintro rfl
      exact hne (hset.trans hsplit.symm)
    have hw : w < 65536 := hsmall w (by rw [hset]; simp)
    have hdrift := hash_ne_of_drift (engineAbi.words.take i) (engineAbi.words.drop (i + 1)) hw
      (small_engineAbi _ (List.getElem_mem hi)) hword
    rw [← hset, ← hsplit] at hdrift
    exact hdrift heq
  · rw [hset, List.set_eq_of_length_le (Nat.le_of_not_lt hi)]

/-- A tracer on a fresh segment of which at most one hashed word differs from the engine's
is attached if none does, and neither path takes it otherwise. -/
theorem drift_rejected (hsmall : ∀ w ∈ a.words, w < 65536)
    (hone : ∃ i w, a.words = engineAbi.words.set i w) {old : CtlHeader}
    (hfresh : old.magic ≠ RTMAP_CTL_MAGIC) (pid parentPid : UInt32) :
    (attachCtlShm (mapCtlRing a pid parentPid old) = true ↔ a.words = engineAbi.words) ∧
      peekCtlIdentity (mapCtlRing a pid parentPid old) =
        if a.words = engineAbi.words then some (pid, parentPid) else none := by
  have hhash := hash_eq_iff hsmall hone
  have hmapped : mapCtlRing a pid parentPid old =
      { ctlInit a with targetPid := pid, parentPid := parentPid } := by
    rw [mapCtlRing, if_pos hfresh]
  rw [hmapped]
  by_cases hwords : a.words = engineAbi.words
  · simp [attachCtlShm, peekCtlIdentity, ctlInit, hwords, hhash.mpr hwords]
  · simp [attachCtlShm, peekCtlIdentity, ctlInit, hwords, mt hhash.mp hwords]

end Drift

/-- A ring header with a `proto_version` of 8 bytes, which moves `status`. -/
def movedStatus : Abi where
  event := rtmapEventV3
  ring := ⟨64, [⟨8, 8⟩, ⟨4, 4⟩, ⟨4, 4⟩, ⟨8, 8⟩, ⟨4, 4⟩, ⟨8, 4⟩, ⟨4, 4⟩, ⟨24, 1⟩, ⟨8, 64⟩, ⟨56, 1⟩,
    ⟨8, 64⟩, ⟨56, 1⟩]⟩
  pad := rtmapScratchPad

theorem movedStatus_rejected :
    attachCtlShm (mapCtlRing movedStatus 100 0 ⟨0, 0, 0, 0, 0⟩) = false := by
  have hsmall : ∀ w ∈ movedStatus.words, w < 65536 :=
    List.all_iff_forall_prop.mp (by decide +kernel)
  have hfresh : (⟨0, 0, 0, 0, 0⟩ : CtlHeader).magic ≠ RTMAP_CTL_MAGIC := by decide
  have hdrift := (drift_rejected hsmall ⟨8, 36, by decide⟩ hfresh 100 0).1
  have hwords : movedStatus.words ≠ engineAbi.words := by decide
  rw [← Bool.not_eq_true, hdrift]
  exact hwords

end Rtmap.Ring
