import Rtmap.Diff.Checkpoint
import Rtmap.Engine.Freshness

/-!
# What an identical summary says

A summary that says identical has compared the checkpoints at common places. The last
comparison is of the end of the shorter replay, and of what may be the middle of the other.
-/
namespace Rtmap.Diff
open Rtmap.Engine
open Rtmap.Ring (EVENT_ALLOC EVENT_WRITE EVENT_PROCESS_FORK)

/-- The last place that has a checkpoint of both replays. -/
def lastCommon (a b : Checkpoints TopologyCheckpoint) : ℕ :=
  min a.checkpoints.length b.checkpoints.length - 1

/-- From a checkpoint on, the stamps and the hazards of a replay are those it ends with. -/
def SettledAt (c : Checkpoints TopologyCheckpoint) (i : ℕ) : Prop :=
  ∀ x, c.checkpoints[i]? = some x →
    x.stamps = stamps c.engine.world ∧ x.hazards.toFinset = hazards c.engine.world

/-- At some common place the replays are apart: in their hazards, or in stamps that are not
in both final states; in any stamps at the last common place. -/
def Apart (a b : Checkpoints TopologyCheckpoint) : Prop :=
  ∃ i x y, a.checkpoints[i]? = some x ∧ b.checkpoints[i]? = some y ∧
    ¬ AgreeUpTo (if i = lastCommon a b then ∅ else
      stamps a.engine.world ∩ stamps b.engine.world) x y

/-- What a summary that says identical is read as. -/
structure SameTopologies (a b : Checkpoints TopologyCheckpoint) : Prop where
  finalStamps : stamps a.engine.world = stamps b.engine.world
  finalHazards : hazards a.engine.world = hazards b.engine.world
  passing : ∀ (i : ℕ) (x y : TopologyCheckpoint), a.checkpoints[i]? = some x →
    b.checkpoints[i]? = some y →
      symmDiff x.stamps y.stamps ⊆ stamps a.engine.world ∩ stamps b.engine.world

section Replays
variable (a b : Recording) (info : Option DwarfInfo) (interval : ℕ)

theorem verdict_allIdentical_iff : (verdict a b info interval).allIdentical ↔
    ¬ Apart (baseline a info interval) (subject a b info interval) := by
  have ha : (baseline a info interval).checkpoints.getLast? = _ := getLast?_checkpoints a info interval
  have hb : (subject a b info interval).checkpoints.getLast? = _ := getLast?_checkpoints b _ interval
  unfold verdict
  rw [allIdentical_iff ha hb]
  unfold Apart
  push Not
  rfl

/-- There is a last common place. -/
theorem lastCommon_checkpoints : ∃ x y,
    (baseline a info interval).checkpoints[lastCommon (baseline a info interval)
      (subject a b info interval)]? = some x ∧
    (subject a b info interval).checkpoints[lastCommon (baseline a info interval)
      (subject a b info interval)]? = some y := by
  have hne (r : Recording) (i : Option DwarfInfo) :
      0 < (replayToCheckpoints r i interval).checkpoints.length := by
    have hlast := getLast?_checkpoints r i interval
    exact List.length_pos_iff.mpr fun hnil => by
      rw [hnil] at hlast
      cases hlast
  have ha := hne a info
  have hb := hne b (baseline a info interval).engine.dwarfInfo
  have hless : lastCommon (baseline a info interval) (subject a b info interval) <
      min (baseline a info interval).checkpoints.length
        (subject a b info interval).checkpoints.length :=
    Nat.sub_lt (lt_min ha hb) Nat.one_pos
  exact ⟨_, _, List.getElem?_eq_getElem (lt_of_lt_of_le hless (min_le_left _ _)),
    List.getElem?_eq_getElem (lt_of_lt_of_le hless (min_le_right _ _))⟩

/-- One of the replays ends at the last common place. -/
theorem settledAt_lastCommon :
    SettledAt (baseline a info interval)
        (lastCommon (baseline a info interval) (subject a b info interval)) ∨
      SettledAt (subject a b info interval)
        (lastCommon (baseline a info interval) (subject a b info interval)) := by
  have hsettled (r : Recording) (i : Option DwarfInfo) : SettledAt (replayToCheckpoints r i interval)
      ((replayToCheckpoints r i interval).checkpoints.length - 1) := by
    intro x hx
    rw [← List.getLast?_eq_getElem?, getLast?_checkpoints] at hx
    cases hx
    exact ⟨rfl, rfl⟩
  rcases le_total (baseline a info interval).checkpoints.length
      (subject a b info interval).checkpoints.length with hle | hle
  · left
    rw [lastCommon, min_eq_left hle]
    exact hsettled a info
  · right
    rw [lastCommon, min_eq_right hle]
    exact hsettled b _

/-- An identical summary speaks for the final states if and only if the replays are apart
somewhere it would tell, or both have settled at the last common place. -/
theorem identical_sound_iff :
    ((verdict a b info interval).allIdentical →
      SameTopologies (baseline a info interval) (subject a b info interval)) ↔
    Apart (baseline a info interval) (subject a b info interval) ∨
      SettledAt (baseline a info interval)
          (lastCommon (baseline a info interval) (subject a b info interval)) ∧
        SettledAt (subject a b info interval)
          (lastCommon (baseline a info interval) (subject a b info interval)) := by
  rw [verdict_allIdentical_iff, ← or_iff_not_imp_left]
  by_cases hapart : Apart (baseline a info interval) (subject a b info interval)
  · simp only [hapart, true_or]
  simp only [hapart, false_or]
  have hagree : ∀ i x y, (baseline a info interval).checkpoints[i]? = some x →
      (subject a b info interval).checkpoints[i]? = some y →
      AgreeUpTo (if i = lastCommon (baseline a info interval) (subject a b info interval) then ∅
        else stamps (baseline a info interval).engine.world ∩
          stamps (subject a b info interval).engine.world) x y := by
    intro i x y hx hy
    by_contra h
    exact hapart ⟨i, x, y, hx, hy, h⟩
  obtain ⟨x, y, hx, hy⟩ := lastCommon_checkpoints a b info interval
  have hlast := hagree _ x y hx hy
  rw [if_pos rfl, agreeUpTo_empty_iff] at hlast
  constructor
  · intro h
    rcases settledAt_lastCommon a b info interval with hset | hset
    · refine ⟨hset, fun y' hy' => ?_⟩
      cases hy.symm.trans hy'
      have hend := hset x hx
      exact ⟨hlast.1.symm.trans (hend.1.trans h.finalStamps),
        hlast.2.symm.trans (hend.2.trans h.finalHazards)⟩
    · refine ⟨fun x' hx' => ?_, hset⟩
      cases hx.symm.trans hx'
      have hend := hset y hy
      exact ⟨hlast.1.trans (hend.1.trans h.finalStamps.symm),
        hlast.2.trans (hend.2.trans h.finalHazards.symm)⟩
  · intro h
    have hendA := h.1 x hx
    have hendB := h.2 y hy
    refine ⟨hendA.1.symm.trans (hlast.1.trans hendB.1), hendA.2.symm.trans (hlast.2.trans hendB.2),
      fun i u v hu hv => ?_⟩
    have hi := (hagree i u v hu hv).stamps
    split_ifs at hi
    · exact hi.trans (Finset.empty_subset _)
    · exact hi

end Replays

section Shorter

/-- The replay of events with no hash map to iterate over. -/
def recorded (events : List Rtmap.Ring.Event) : Recording where
  host := .plain
  orders := Host.plain.orders
  slots := events.map fun ev => (.plain, ev)

def oneFork : Recording := recorded [plainEvent EVENT_PROCESS_FORK 0 0]

/-- A block and, two events later, a write over its end. -/
def lateOverrun : Recording :=
  recorded [plainEvent EVENT_ALLOC 0x10000 0x10, plainEvent EVENT_PROCESS_FORK 0 0,
    plainEvent EVENT_WRITE 0x1000C 0]

/-- With a checkpoint after every event the summary says identical, and the subject alone
ends with a hazard. -/
theorem identical_of_shorter : ¬ ∀ a b info interval, (verdict a b info interval).allIdentical →
    SameTopologies (baseline a info interval) (subject a b info interval) := by
  intro hall
  have hverdict : (verdict oneFork lateOverrun none 1).allIdentical := by decide +kernel
  have hhazards := (hall _ _ _ _ hverdict).finalHazards
  revert hhazards
  decide +kernel

end Shorter

end Rtmap.Diff
