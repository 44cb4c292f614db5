import Mathlib.Data.Prod.Lex
import Mathlib.Order.Bounds.Basic
import Rtmap.Engine.EpochLog
import Rtmap.Lib.BinarySearch

/-!
# The rings of snapshots and of epochs

`SnapshotRing` and `TypeEpochLog` keep the last entries pushed, each in a vector that is
overwritten in turn. Read from the oldest on, both are bounded queues, and a search by a key
that never decreases finds the last snapshot at or before a time.
-/
namespace Rtmap.Engine

section Ids

/-- An id as `Ord` compares it: by the variant, then by the numbers. -/
def NodeId.key : NodeId → ℕ ×ₗ ℕ ×ₗ ℕ
  | .global gi => toLex (0, toLex (gi.toNat, 0))
  | .field gi fi => toLex (1, toLex (gi.toNat, fi.toNat))
  | .local fid li => toLex (2, toLex (fid, li.toNat))

theorem NodeId.key_injective : Function.Injective NodeId.key := by
  intro a b h
  have hrank := congrArg (fun k => (ofLex k).1) h
  have hfirst := congrArg (fun k => (ofLex (ofLex k).2).1) h
  have hsecond := congrArg (fun k => (ofLex (ofLex k).2).2) h
  cases a <;> cases b <;>
    simp_all [NodeId.key, UInt32.toNat_inj, UInt16.toNat_inj]

instance linearOrderNodeId : LinearOrder NodeId where
  le a b := a.key ≤ b.key
  lt a b := a.key < b.key
  le_refl a := le_refl a.key
  le_trans _ _ _ := le_trans
  le_antisymm _ _ hab hba := NodeId.key_injective (le_antisymm hab hba)
  le_total a b := le_total a.key b.key
  lt_iff_le_not_ge _ _ := lt_iff_le_not_ge
  toDecidableLE a b := inferInstanceAs (Decidable (a.key ≤ b.key))
  toDecidableEq := inferInstance
  toDecidableLT a b := inferInstanceAs (Decidable (a.key < b.key))

end Ids

/-- What a snapshot shares with the world it was taken of. -/
structure WorldInner where
  nodes : SortedMap NodeId Node := SortedMap.empty
  edges : SortedMap NodeId PointerEdge := SortedMap.empty
  insnCounter : UInt64 := 0

structure SnapEntry where
  snap : WorldInner
  insn : UInt64
  tick : UInt64
  eventSeq : UInt64

structure SnapshotRing where
  buf : List SnapEntry := []
  cap : ℕ
  writePos : ℕ := 0
  len : ℕ := 0

/-- The arguments of a `push`. -/
structure Pushed where
  snap : WorldInner
  tick : UInt64
  eventSeq : UInt64

def Pushed.entry (x : Pushed) : SnapEntry := ⟨x.snap, x.snap.insnCounter, x.tick, x.eventSeq⟩

namespace SnapshotRing

def push (r : SnapshotRing) (x : Pushed) : SnapshotRing :=
  { r with
    buf := if r.buf.length < r.cap then r.buf ++ [x.entry] else r.buf.set r.writePos x.entry
    writePos := (r.writePos + 1) % r.cap
    len := min (r.len + 1) r.cap }

/-- The entry at an index: 0 is the oldest. -/
def slot (r : SnapshotRing) (idx : ℕ) : Option SnapEntry :=
  if idx ≥ r.len then none
  else
    let start := if r.len < r.cap then 0 else r.writePos
    r.buf[(start + idx) % r.cap]?

/-- The last index with a key up to the target, by halving; `none` is a panic. -/
def findBy (key : SnapEntry → UInt64) (r : SnapshotRing) (target : UInt64) : Option (Option ℕ) :=
  if r.len = 0 then some none
  else
    (BinarySearch.split (fun mid => (r.slot mid).map fun e => decide (key e ≤ target))
      r.len 0 r.len).map fun lo => if lo > 0 then some (lo - 1) else none

def findByInsn : SnapshotRing → UInt64 → Option (Option ℕ) := findBy SnapEntry.insn
def findByTick : SnapshotRing → UInt64 → Option (Option ℕ) := findBy SnapEntry.tick
def findBySeq : SnapshotRing → UInt64 → Option (Option ℕ) := findBy SnapEntry.eventSeq

/-- A ring of a capacity after these pushes. -/
def run (cap : ℕ) (pushes : List Pushed) : SnapshotRing := pushes.foldl push { cap }

def ring (r : SnapshotRing) : RingLog SnapEntry := ⟨r.buf, r.cap, r.writePos⟩

end SnapshotRing

/-- The log after these epochs closed. -/
def TypeEpochLog.run (cap : ℕ) (epochs : List TypeEpoch) : TypeEpochLog :=
  epochs.foldl closeEpoch { cap }

/-- The result is the greatest index of the queue with a key up to the target. -/
def Locates (key : SnapEntry → UInt64) (queue : List SnapEntry) (target : UInt64) :
    Option ℕ → Prop
  | some i => IsGreatest {i | ∃ e, queue[i]? = some e ∧ key e ≤ target} i
  | none => ∀ e ∈ queue, ¬ key e ≤ target

/-- A search finds its place in the queue whenever the keys never decreased. -/
def Finds (key : SnapEntry → UInt64) (pushed queue : List SnapEntry)
    (find : UInt64 → Option (Option ℕ)) : Prop :=
  pushed.Pairwise (fun a b => key a ≤ key b) →
    ∀ target, ∃ found, find target = some found ∧ Locates key queue target found

section Queues
variable {cap : ℕ} {pushes : List Pushed} {key : SnapEntry → UInt64} {r : SnapshotRing}

namespace SnapshotRing

theorem run_snoc (cap : ℕ) (pushes : List Pushed) (x : Pushed) :
    run cap (pushes ++ [x]) = (run cap pushes).push x := by
  rw [run, List.foldl_append]
  rfl

/-- The ring holds the last entries, and `len` counts them. -/
structure Holds (r : SnapshotRing) (cap : ℕ) (xs : List SnapEntry) : Prop where
  sized : r.cap = cap
  ring : r.ring.Holds xs
  len : r.len = r.buf.length

theorem holds_run (hcap : 1 ≤ cap) (pushes : List Pushed) :
    (run cap pushes).Holds cap (pushes.map Pushed.entry) := by
  induction pushes using List.reverseRecOn with
  | nil => exact ⟨rfl, RingLog.Holds.empty hcap, rfl⟩
  | append_singleton pushes x ih =>
      rw [run_snoc, List.map_append]
      obtain ⟨hsized, hring, hlen⟩ := ih
      have hfits : (run cap pushes).buf.length ≤ (run cap pushes).cap := hring.good.fits
      refine ⟨hsized, hring.push x.entry, ?_⟩
      rw [push]
      dsimp only
      split
      · rw [List.length_append, List.length_singleton]
        omega
      · rw [List.length_set]
        omega

namespace Holds
variable {xs : List SnapEntry} (h : r.Holds cap xs)
include h

theorem slot_eq (i : ℕ) : r.slot i = (xs.rtake cap)[i]? := by
  have hslot : r.slot i = r.ring.slot i := by
    rw [slot, RingLog.slot, h.len]
    simp only [ge_iff_le, ← Nat.not_lt, ite_not]
    rfl
  have hiter : r.ring.iter = xs.rtake cap := by
    rw [h.ring.iter, ← h.sized]
    rfl
  rw [hslot, RingLog.slot_eq h.ring.good, hiter]

theorem len_eq : r.len = (xs.rtake cap).length := by
  rw [h.len, ← h.sized]
  exact (RingLog.length_iter r.ring).symm.trans (congrArg List.length h.ring.iter)

/-- The search splits the queue where the keys pass the target. -/
theorem finds (key : SnapEntry → UInt64) : Finds key xs (xs.rtake cap) (r.findBy key) := by
  intro hmono target
  obtain ⟨queue, hqueue⟩ : ∃ queue, xs.rtake cap = queue := ⟨_, rfl⟩
  have hsorted : queue.Pairwise fun a b => key a ≤ key b := by
    rw [← hqueue, List.rtake]
    exact hmono.sublist (List.drop_sublist _ _)
  have hlen := h.len_eq
  rw [hqueue] at hlen ⊢
  rw [findBy]
  by_cases hempty : r.len = 0
  · obtain rfl := List.eq_nil_of_length_eq_zero (hlen.symm.trans hempty)
    rw [if_pos hempty]
    exact ⟨none, rfl, fun e he => absurd he List.not_mem_nil⟩
  · have hread (i : ℕ) (hi : i < r.len) : ((r.slot i).map fun e => decide (key e ≤ target)) =
        some ((queue[i]?.map fun e => decide (key e ≤ target)).getD false) := by
      rw [h.slot_eq, hqueue, List.getElem?_eq_getElem (by omega)]
      rfl
    have hfirst (i j : ℕ) (hij : i ≤ j) (hj : j < r.len)
        (hp : (queue[j]?.map fun e => decide (key e ≤ target)).getD false = true) :
        (queue[i]?.map fun e => decide (key e ≤ target)).getD false = true := by
      have hjlt : j < queue.length := by omega
      have hilt : i < queue.length := by omega
      rw [List.getElem?_eq_getElem hjlt, Option.map_some, Option.getD_some,
        decide_eq_true_eq] at hp
      rw [List.getElem?_eq_getElem hilt, Option.map_some, Option.getD_some, decide_eq_true_eq]
      rcases Nat.eq_or_lt_of_le hij with rfl | hlt
      · exact hp
      · exact le_trans (List.pairwise_iff_getElem.mp hsorted i j hilt hjlt hlt) hp
    obtain ⟨k, hk, hsplit, hiff⟩ := BinarySearch.exists_split hread hfirst (Nat.zero_le r.len)
      (Nat.le_refl _) (fun i hi => absurd hi (Nat.not_lt_zero i))
      (fun i hi hn => absurd hn (Nat.not_lt.mpr hi)) (Nat.sub_le ..)
    have hbelow {i : ℕ} {e : SnapEntry} (he : queue[i]? = some e) : key e ≤ target ↔ i < k := by
      obtain ⟨hi, -⟩ := List.getElem?_eq_some_iff.mp he
      rw [← hiff i (by omega), he, Option.map_some, Option.getD_some, decide_eq_true_eq]
    rw [if_neg hempty, hsplit, Option.map_some]
    refine ⟨_, rfl, ?_⟩
    split
    · rename_i hpos
      have hget : queue[k - 1]? = some queue[k - 1] := List.getElem?_eq_getElem (by omega)
      refine ⟨⟨_, hget, (hbelow hget).mpr (by omega)⟩, ?_⟩
      rintro i ⟨e, he, hle⟩
      have hi := (hbelow he).mp hle
      omega
    · rename_i hzero
      intro e he hle
      obtain ⟨i, hi⟩ := List.mem_iff_getElem?.mp he
      have hi' := (hbelow hi).mp hle
      omega

end Holds

end SnapshotRing

theorem TypeEpochLog.iter_run (hcap : 1 ≤ cap) (epochs : List TypeEpoch) :
    (run cap epochs).iter = epochs.rtake cap := by
  have hholds : (run cap epochs).cap = cap ∧ (run cap epochs).ring.Holds epochs := by
    induction epochs using List.reverseRecOn with
    | nil => exact ⟨rfl, RingLog.Holds.empty hcap⟩
    | append_singleton epochs e ih =>
        have hsnoc : run cap (epochs ++ [e]) = (run cap epochs).closeEpoch e := by
          rw [run, List.foldl_append]
          rfl
        rw [hsnoc]
        exact ⟨ih.1, ih.2.push e⟩
  have hiter := hholds.2.iter
  rw [show (run cap epochs).ring.cap = cap from hholds.1] at hiter
  exact hiter

/-- The rings present the last entries pushed from the oldest to the newest, and the searches of
the snapshots return the greatest index with a key up to the target. -/
theorem rings_refine_queues (cap : ℕ) (hcap : 1 ≤ cap) :
    (∀ pushes : List Pushed,
      let r := SnapshotRing.run cap pushes
      let pushed := pushes.map Pushed.entry
      let queue := pushed.rtake cap
      r.len = min pushes.length cap ∧ (∀ i, r.slot i = queue[i]?) ∧
        Finds SnapEntry.insn pushed queue r.findByInsn ∧
        Finds SnapEntry.tick pushed queue r.findByTick ∧
        Finds SnapEntry.eventSeq pushed queue r.findBySeq) ∧
    ∀ epochs : List TypeEpoch, (TypeEpochLog.run cap epochs).iter = epochs.rtake cap := by
  refine ⟨fun pushes => ?_, TypeEpochLog.iter_run hcap⟩
  have hholds := SnapshotRing.holds_run hcap pushes
  refine ⟨?_, hholds.slot_eq, hholds.finds _, hholds.finds _, hholds.finds _⟩
  rw [hholds.len_eq, List.rtake, List.length_drop, List.length_map]
  omega

/-- Three snapshots, the last two of one number. -/
def threeSnapshots : List Pushed :=
  [⟨{ insnCounter := 5 }, 0, 10⟩, ⟨{ insnCounter := 5 }, 1, 20⟩, ⟨{ insnCounter := 9 }, 2, 20⟩]

/-- A ring of two keeps the last two of them, and the search finds the later one. -/
theorem two_snapshots_kept : (SnapshotRing.run 2 threeSnapshots).len = 2 ∧
    (∀ i, (SnapshotRing.run 2 threeSnapshots).slot i =
      ((threeSnapshots.map Pushed.entry).rtake 2)[i]?) ∧
    (SnapshotRing.run 2 threeSnapshots).findBySeq 20 = some (some 1) ∧
    ∃ found, (SnapshotRing.run 2 threeSnapshots).findBySeq 20 = some found ∧
      Locates SnapEntry.eventSeq ((threeSnapshots.map Pushed.entry).rtake 2) 20 found := by
  obtain ⟨hlen, hslot, -, -, hseq⟩ := (rings_refine_queues 2 (by decide)).1 threeSnapshots
  refine ⟨hlen, hslot, rfl, hseq ?_ 20⟩
  simp [threeSnapshots, Pushed.entry]

end Queues

end Rtmap.Engine
