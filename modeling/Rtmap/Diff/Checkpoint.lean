import Mathlib.Data.Finset.SymmDiff
import Mathlib.Data.Finset.Dedup
import Rtmap.Engine.ReplayBatches
import Rtmap.Engine.BlockLines

/-!
# The comparison of two recordings

`rtmap-diff` replays a baseline and a subject and takes checkpoints of both: the stamps
and the hazards with no address in them. Checkpoints are compared in pairs, as far as the
shorter list goes, and stamps that both replays end with are let through in every pair but
the last.
-/
namespace Rtmap.Diff
open Rtmap.Engine

structure CanonicalStamp where
  source : String
  typeName : String
  typeSize : UInt64
  fieldCount : ℕ
deriving DecidableEq, Repr

structure CanonicalHazard where
  kind : String
  writeSize : UInt32
  typeName : Option String
  fieldName : Option String
  pc : UInt64
deriving DecidableEq, Repr

/-- The registers at a hazard, which do not tell it from another. -/
structure HazardRegContext where
  pc : UInt64
  rax : UInt64
  rdi : UInt64
  rsi : UInt64
  rdx : UInt64
  rsp : UInt64
deriving DecidableEq, Repr

structure TopologyCheckpoint where
  seq : ℕ
  stamps : Finset CanonicalStamp
  hazards : List CanonicalHazard
  hazardRegs : List (Option HazardRegContext)
  stampCount : ℕ
  allocCount : ℕ

def canonicalStamp (p : TypeProjection) : CanonicalStamp where
  source := p.sourceName
  typeName := p.typeInfo.name
  typeSize := p.typeInfo.byteSize
  fieldCount := p.typeInfo.fields.length

def kindText : HazardKind → String
  | .outOfBounds => "OOB"
  | .heapHole => "HOLE"

def canonicalHazard (h : HeapHazard) : CanonicalHazard where
  kind := kindText h.kind
  writeSize := h.writeSize
  typeName := h.typeName
  fieldName := h.fieldName
  pc := h.pc

def regContext (h : HeapHazard) : Option HazardRegContext :=
  h.regSnapshot.map fun r => ⟨h.pc, r 0, r 5, r 4, r 3, r 7⟩

/-- The stamps of a world. -/
def stamps (w : World) : Finset CanonicalStamp :=
  (w.stm.map.entries.map fun e => canonicalStamp e.2).toFinset

/-- Its hazards, once each. -/
def hazards (w : World) : Finset CanonicalHazard := (w.hazards.map canonicalHazard).toFinset

def takeCheckpoint (seq : ℕ) (w : World) (_ : HeapGraph) : TopologyCheckpoint where
  seq := seq
  stamps := stamps w
  hazards := w.hazards.map canonicalHazard
  hazardRegs := w.hazards.map regContext
  stampCount := (stamps w).card
  allocCount := w.heapAllocs.liveCount

/-- A recording, and what the program meets as it replays it. -/
structure Recording where
  host : Host
  orders : IndexOrders
  slots : List Slot

def replayToCheckpoints (r : Recording) (info : Option DwarfInfo) (interval : ℕ) :
    Checkpoints TopologyCheckpoint :=
  Checkpoints.replay takeCheckpoint interval r.orders r.host info (Streams.cut READ_BATCH r.slots)

structure CheckpointDiff where
  seqA : ℕ
  seqB : ℕ
  stampsOnlyA : Finset CanonicalStamp
  stampsOnlyB : Finset CanonicalStamp
  hazardsOnlyA : Finset (CanonicalHazard × Option HazardRegContext)
  hazardsOnlyB : Finset (CanonicalHazard × Option HazardRegContext)
  allocCountA : ℕ
  allocCountB : ℕ
  stampCountA : ℕ
  stampCountB : ℕ
  identical : Bool

/-- The hazards of the one checkpoint that the other does not have, each with the registers
at its first occurrence. -/
def hazardsOnly (a b : TopologyCheckpoint) : Finset (CanonicalHazard × Option HazardRegContext) :=
  (a.hazards.toFinset \ b.hazards.toFinset).image fun h =>
    (h, (a.hazardRegs[a.hazards.idxOf h]?).join)

/-- `diff_checkpoints`. -/
def diffCheckpoints (a b : TopologyCheckpoint) (commonMask : Option (Finset CanonicalStamp)) :
    CheckpointDiff :=
  let rawOnlyA := a.stamps \ b.stamps
  let rawOnlyB := b.stamps \ a.stamps
  let stampsOnlyA := commonMask.elim rawOnlyA fun mask => rawOnlyA \ mask
  let stampsOnlyB := commonMask.elim rawOnlyB fun mask => rawOnlyB \ mask
  let hazardsOnlyA := hazardsOnly a b
  let hazardsOnlyB := hazardsOnly b a
  { seqA := a.seq
    seqB := b.seq
    stampsOnlyA
    stampsOnlyB
    hazardsOnlyA
    hazardsOnlyB
    allocCountA := a.allocCount
    allocCountB := b.allocCount
    stampCountA := a.stampCount
    stampCountB := b.stampCount
    identical := decide (stampsOnlyA = ∅) && decide (stampsOnlyB = ∅) &&
      decide (hazardsOnlyA = ∅) && decide (hazardsOnlyB = ∅) }

/-- The stamps in the last checkpoint of both, if there are any. -/
def commonMask (as bs : List TopologyCheckpoint) : Option (Finset CanonicalStamp) :=
  match as.getLast?, bs.getLast? with
  | some fa, some fb => if fa.stamps ∩ fb.stamps = ∅ then none else some (fa.stamps ∩ fb.stamps)
  | _, _ => none

/-- The comparisons that `main` makes of the checkpoints of two replays. -/
def diffs (as bs : List TopologyCheckpoint) : List CheckpointDiff :=
  let pairs := min as.length bs.length
  (as.zip bs).mapIdx fun i p =>
    diffCheckpoints p.1 p.2 (if i = pairs - 1 then none else commonMask as bs)

/-- The counts that `print_summary` prints. -/
structure Summary where
  total : ℕ
  identical : ℕ
  diverged : ℕ
deriving DecidableEq, Repr

def summary (ds : List CheckpointDiff) : Summary where
  total := ds.length
  identical := (ds.filter CheckpointDiff.identical).length
  diverged := ds.length - (ds.filter CheckpointDiff.identical).length

/-- The summary says that the topologies are identical across all checkpoints. -/
def Summary.allIdentical (s : Summary) : Prop := s.diverged = 0

instance (s : Summary) : Decidable s.allIdentical := inferInstanceAs (Decidable (_ = _))

/-- The two replays of a run; the second starts with the types that the first has found. -/
def baseline (a : Recording) (info : Option DwarfInfo) (interval : ℕ) :
    Checkpoints TopologyCheckpoint :=
  replayToCheckpoints a info interval

def subject (a b : Recording) (info : Option DwarfInfo) (interval : ℕ) :
    Checkpoints TopologyCheckpoint :=
  replayToCheckpoints b (baseline a info interval).engine.dwarfInfo interval

/-- `main`, to the summary. -/
def verdict (a b : Recording) (info : Option DwarfInfo) (interval : ℕ) : Summary :=
  summary (diffs (baseline a info interval).checkpoints (subject a b info interval).checkpoints)

theorem summary_allIdentical_iff (ds : List CheckpointDiff) :
    (summary ds).allIdentical ↔ ∀ d ∈ ds, d.identical = true := by
  unfold Summary.allIdentical summary
  have hle : (ds.filter CheckpointDiff.identical).length ≤ ds.length := List.length_filter_le _ _
  rw [Nat.sub_eq_zero_iff_le, ← List.length_filter_eq_length_iff]
  omega

/-- The last checkpoint is of the end of the replay. -/
theorem getLast?_checkpoints (r : Recording) (info : Option DwarfInfo) (interval : ℕ) :
    (replayToCheckpoints r info interval).checkpoints.getLast? =
      some (takeCheckpoint (replayToCheckpoints r info interval).seq
        (replayToCheckpoints r info interval).engine.world
        (replayToCheckpoints r info interval).engine.heapGraph) := by
  unfold replayToCheckpoints Checkpoints.replay Checkpoints.takeCheckpoint
  exact List.getLast?_concat ..

section Pair
variable (a b : TopologyCheckpoint)

theorem hazardsOnly_eq_empty_iff :
    hazardsOnly a b = ∅ ↔ a.hazards.toFinset ⊆ b.hazards.toFinset := by
  rw [hazardsOnly, Finset.image_eq_empty, Finset.sdiff_eq_empty_iff_subset]

/-- A pair compared as the last one. -/
theorem identical_unmasked_iff : (diffCheckpoints a b none).identical = true ↔
    a.stamps = b.stamps ∧ a.hazards.toFinset = b.hazards.toFinset := by
  unfold diffCheckpoints
  simp only [Option.elim_none, Bool.and_eq_true, decide_eq_true_eq,
    Finset.sdiff_eq_empty_iff_subset, hazardsOnly_eq_empty_iff]
  constructor
  · intro h
    exact ⟨h.1.1.1.antisymm h.1.1.2, h.1.2.antisymm h.2⟩
  · intro h
    exact ⟨⟨⟨h.1.subset, h.1.symm.subset⟩, h.2.subset⟩, h.2.symm.subset⟩

theorem identical_masked_iff (mask : Finset CanonicalStamp) :
    (diffCheckpoints a b (some mask)).identical = true ↔
      symmDiff a.stamps b.stamps ⊆ mask ∧ a.hazards.toFinset = b.hazards.toFinset := by
  unfold diffCheckpoints
  simp only [Option.elim_some, Bool.and_eq_true, decide_eq_true_eq,
    Finset.sdiff_eq_empty_iff_subset, hazardsOnly_eq_empty_iff]
  rw [show symmDiff a.stamps b.stamps = (a.stamps \ b.stamps) ∪ (b.stamps \ a.stamps) from rfl,
    Finset.union_subset_iff]
  constructor
  · intro h
    exact ⟨h.1.1, h.1.2.antisymm h.2⟩
  · intro h
    exact ⟨⟨h.1, h.2.subset⟩, h.2.symm.subset⟩

end Pair

/-- Two checkpoints that differ at most in stamps of `noise`. -/
structure AgreeUpTo (noise : Finset CanonicalStamp) (a b : TopologyCheckpoint) : Prop where
  stamps : symmDiff a.stamps b.stamps ⊆ noise
  hazards : a.hazards.toFinset = b.hazards.toFinset

theorem agreeUpTo_empty_iff (a b : TopologyCheckpoint) : AgreeUpTo ∅ a b ↔
    a.stamps = b.stamps ∧ a.hazards.toFinset = b.hazards.toFinset := by
  constructor
  · intro h
    exact ⟨symmDiff_eq_bot.mp (Finset.subset_empty.mp h.stamps), h.hazards⟩
  · intro h
    refine ⟨?_, h.2⟩
    rw [h.1, symmDiff_self]
    exact Finset.empty_subset _

section Pairs
variable {as bs : List TopologyCheckpoint} {fa fb : TopologyCheckpoint}

theorem identical_common_iff (ha : as.getLast? = some fa) (hb : bs.getLast? = some fb)
    (x y : TopologyCheckpoint) : (diffCheckpoints x y (commonMask as bs)).identical = true ↔
      AgreeUpTo (fa.stamps ∩ fb.stamps) x y := by
  unfold commonMask
  rw [ha, hb]
  by_cases hnone : fa.stamps ∩ fb.stamps = ∅
  · simp only [hnone, if_true]
    rw [identical_unmasked_iff, agreeUpTo_empty_iff]
  · simp only [hnone, if_false]
    rw [identical_masked_iff]
    exact ⟨fun h => ⟨h.1, h.2⟩, fun h => ⟨h.stamps, h.hazards⟩⟩

/-- What `main` lets through at a place. -/
def allowed (as bs : List TopologyCheckpoint) (fa fb : TopologyCheckpoint) (i : ℕ) :
    Finset CanonicalStamp :=
  if i = min as.length bs.length - 1 then ∅ else fa.stamps ∩ fb.stamps

/-- The summary says identical of checkpoints that agree in pairs, up to the stamps that
both replays end with, and agree exactly in the last pair. -/
theorem allIdentical_iff (ha : as.getLast? = some fa) (hb : bs.getLast? = some fb) :
    (summary (diffs as bs)).allIdentical ↔ ∀ i x y, as[i]? = some x → bs[i]? = some y →
      AgreeUpTo (allowed as bs fa fb i) x y := by
  have hpair (i : ℕ) (x y : TopologyCheckpoint) : (diffCheckpoints x y
      (if i = min as.length bs.length - 1 then none else commonMask as bs)).identical = true ↔
        AgreeUpTo (allowed as bs fa fb i) x y := by
    unfold allowed
    split_ifs
    · rw [identical_unmasked_iff, agreeUpTo_empty_iff]
    · exact identical_common_iff ha hb x y
  have hmem (d : CheckpointDiff) : d ∈ diffs as bs ↔ ∃ i x y, as[i]? = some x ∧
      bs[i]? = some y ∧ d = diffCheckpoints x y
        (if i = min as.length bs.length - 1 then none else commonMask as bs) := by
    unfold diffs
    rw [List.mem_iff_getElem?]
    simp only [List.getElem?_mapIdx, Option.map_eq_some_iff, List.getElem?_zip_eq_some]
    constructor
    · rintro ⟨i, p, ⟨hx, hy⟩, hd⟩
      exact ⟨i, p.1, p.2, hx, hy, hd.symm⟩
    · rintro ⟨i, x, y, hx, hy, hd⟩
      exact ⟨i, (x, y), ⟨hx, hy⟩, hd.symm⟩
  rw [summary_allIdentical_iff]
  constructor
  · intro h i x y hx hy
    exact (hpair i x y).mp (h _ ((hmem _).mpr ⟨i, x, y, hx, hy, rfl⟩))
  · intro h d hd
    obtain ⟨i, x, y, hx, hy, rfl⟩ := (hmem d).mp hd
    exact (hpair i x y).mpr (h i x y hx hy)

end Pairs

end Rtmap.Diff
