import Rtmap.Lib.Stabbing
import Rtmap.Engine.Bounds
import Rtmap.Engine.StampHistory

/-!
# What the searches by start find

`covering`, the searches inlined in `propagate_field_write` and `replay_deferred`
and `containing_alloc` look at one or two of the ranges that start last at or
below an address. Which projection or block over the address they miss.
-/
namespace Rtmap.Engine

/-- A range that does not wrap. -/
theorem lt_add_iff {base size x : UInt64} (hle : base ≤ x) :
    x < base + size ↔ InBlock base size x ∧ base.toNat + size.toNat < 2 ^ 64 := by
  have hbase := base.toNat_lt
  have hsize := size.toNat_lt
  rw [UInt64.le_iff_toNat_le] at hle
  rw [InBlock, UInt64.lt_iff_toNat_lt, UInt64.le_iff_toNat_le, UInt64.toNat_add]
  omega

namespace ShadowTypeMap

/-- The projection spans the address. -/
def Spans (p : TypeProjection) (addr : UInt64) : Prop :=
  InBlock p.baseAddr p.typeInfo.byteSize addr

/-- `covering` answers where some projection spans the address, and the inlined searches
answer alike. -/
structure Found (m : ShadowTypeMap) (addr : UInt64) : Prop where
  covered : (m.covering addr).isSome ↔ ∃ a p, m.lookup a = some p ∧ Spans p addr
  inlined : m.coveringFirst addr = m.covering addr

/-- Where some projection spans the address, the one that starts last at or below the address
does, and ends below 2⁶⁴. -/
def LastSpans (m : ShadowTypeMap) (addr : UInt64) : Prop :=
  (∃ a p, m.lookup a = some p ∧ Spans p addr) →
    ∃ a p, Stabbing.StartsLast Prod.fst m.map.entries addr (a, p) ∧ Spans p addr ∧
      p.baseAddr.toNat + p.typeInfo.byteSize.toNat < 2 ^ 64

section Found
variable {m : ShadowTypeMap} {addr : UInt64} {p : TypeProjection}

theorem spans_of_covers (hle : p.baseAddr ≤ addr) (h : p.covers addr = true) : Spans p addr :=
  ((lt_add_iff hle).mp (of_decide_eq_true h)).1

/-- What `covering` finds is filed at or below the address. -/
theorem spans_of_covering (h : Keyed m) (hp : m.covering addr = some p) :
    ∃ a, m.lookup a = some p ∧ Spans p addr := by
  rw [covering] at hp
  have hcovers := List.find?_some hp
  obtain ⟨e, he, rfl⟩ := List.mem_map.mp (List.mem_of_find?_eq_some hp)
  obtain ⟨hin, hle⟩ := SortedMap.mem_upTo.mp (List.mem_of_mem_take he)
  have hlookup : m.lookup e.1 = some e.2 := SortedMap.get?_eq_some.mpr hin
  exact ⟨e.1, hlookup, spans_of_covers ((h _ _ hlookup).1 ▸ hle) hcovers⟩

/-- The inlined search sees the projection that starts last. -/
theorem coveringFirst_eq_some : m.coveringFirst addr = some p ↔
    ∃ a, Stabbing.StartsLast Prod.fst m.map.entries addr (a, p) ∧ p.covers addr = true := by
  rw [coveringFirst]
  constructor
  · intro h
    cases hfloor : m.map.floor addr with
    | none => simp [hfloor] at h
    | some e =>
        simp only [hfloor] at h
        split at h
        · rename_i hcovers
          obtain rfl := Option.some.inj h
          exact ⟨e.1, Stabbing.floor_iff_startsLast.mp hfloor, hcovers⟩
        · cases h
  · rintro ⟨a, hlast, hcovers⟩
    rw [Stabbing.floor_iff_startsLast.mpr hlast]
    exact if_pos hcovers

theorem covering_of_coveringFirst (h : m.coveringFirst addr = some p) :
    m.covering addr = some p := by
  rw [coveringFirst, SortedMap.floor] at h
  rw [covering]
  cases hup : m.map.upTo addr with
  | nil => simp [hup] at h
  | cons e below =>
      simp only [hup, List.head?_cons] at h
      split at h
      · rename_i hcovers
        obtain rfl := Option.some.inj h
        simp [hcovers]
      · cases h

theorem found_iff_of_keyed (h : Keyed m) : Found m addr ↔ LastSpans m addr := by
  constructor
  · intro hfound hsome
    obtain ⟨p, hp⟩ := Option.isSome_iff_exists.mp (hfound.covered.mpr hsome)
    obtain ⟨a, hlast, hcovers⟩ := coveringFirst_eq_some.mp (hfound.inlined.trans hp)
    have hbase := (h a p (SortedMap.get?_eq_some.mpr hlast.mem)).1
    have hle : p.baseAddr ≤ addr := hbase ▸ hlast.le
    exact ⟨a, p, hlast, (lt_add_iff hle).mp (of_decide_eq_true hcovers)⟩
  · intro hlast
    by_cases hsome : ∃ a p, m.lookup a = some p ∧ Spans p addr
    · obtain ⟨a, p, hstarts, hspans, hend⟩ := hlast hsome
      have hcovers : p.covers addr = true :=
        decide_eq_true ((lt_add_iff hspans.1).mpr ⟨hspans, hend⟩)
      have hfirst := coveringFirst_eq_some.mpr ⟨a, hstarts, hcovers⟩
      have hcovering := covering_of_coveringFirst hfirst
      exact ⟨by simp [hcovering, hsome], hfirst.trans hcovering.symm⟩
    · have hnone : m.covering addr = none := by
        by_contra hne
        obtain ⟨p, hp⟩ := Option.ne_none_iff_exists'.mp hne
        obtain ⟨a, ha⟩ := spans_of_covering h hp
        exact hsome ⟨a, p, ha⟩
      have hfirst : m.coveringFirst addr = none := by
        by_contra hne
        obtain ⟨p, hp⟩ := Option.ne_none_iff_exists'.mp hne
        rw [covering_of_coveringFirst hp] at hnone
        cases hnone
      exact ⟨by simp [hnone, hsome], hfirst.trans hnone.symm⟩

end Found

theorem keyed_runCalls (calls : List StmCall) : Keyed (runCalls calls) := by
  intro a p hp
  have hbare : (runCalls calls).bare.lookup a = some p := hp
  rw [bare_runCalls] at hbare
  exact Keyed.after _ a p hbare

/-- After any calls the searches agree with each other and find what spans an address exactly
if the projection that starts last does. -/
theorem found_runCalls_iff (calls : List StmCall) (addr : UInt64) :
    Found (runCalls calls) addr ↔ LastSpans (runCalls calls) addr :=
  found_iff_of_keyed (keyed_runCalls calls)

/-- An object of 256 bytes with two of its parts stamped as well. -/
def parts : List StmCall :=
  [.stampType ⟨0x1000, { name := "arena", byteSize := 0x100 }, "a", 1⟩,
    .stampType ⟨0x1010, { name := "node", byteSize := 16 }, "b", 2⟩,
    .stampType ⟨0x1030, { name := "node", byteSize := 16 }, "c", 3⟩]

/-- Past the second part nothing is found; past the first one only `covering` finds the object. -/
theorem parts_not_found :
    ((runCalls parts).covering 0x1050).isNone ∧ ((runCalls parts).covering 0x1028).isSome ∧
      ((runCalls parts).coveringFirst 0x1028).isNone := by
  decide

theorem not_always_found : ¬ ∀ (calls : List StmCall) (addr : UInt64),
    Found (runCalls calls) addr := by
  intro h
  obtain ⟨-, hsome, hnone⟩ := parts_not_found
  rw [(h parts 0x1028).inlined, Option.isNone_iff_eq_none] at hnone
  rw [hnone] at hsome
  cases hsome

end ShadowTypeMap

namespace HeapAllocTracker

/-- The block is live and the address is one of its own. -/
def Holds (t : HeapAllocTracker) (base size addr : UInt64) : Prop :=
  t.allocSize base = some size ∧ InBlock base size addr

/-- `containing_alloc` finds a block where one holds the address, the innermost of them, and no
hole is reported there. -/
structure Located (t : HeapAllocTracker) (addr : UInt64) : Prop where
  found : (t.containingAlloc addr).isSome ↔ ∃ base size, t.Holds base size addr
  innermost : ∀ base size, t.containingAlloc addr = some (base, size) → t.Holds base size addr ∧
    ∀ base' size', t.Holds base' size' addr → base ≤ base' →
      base'.toNat + size'.toNat ≤ base.toNat + size.toNat → base' = base
  solid : ∀ (size : UInt32) (stm : ShadowTypeMap) (h : HeapHazard),
    t.checkWriteBounds addr size stm = some h → h.kind = .heapHole →
      ¬ ∃ base size, t.Holds base size addr

/-- Where some block holds the address, the one that starts last at or below the address does;
the last address of all belongs to none. -/
def LastHolds (t : HeapAllocTracker) (addr : UInt64) : Prop :=
  (∃ base size, t.Holds base size addr) → addr ≠ -1 ∧
    ∃ base size, t.Holds base size addr ∧
      ∀ base', (t.allocSize base').isSome → base' ≤ addr → base' ≤ base

section Located
variable {t : HeapAllocTracker} {addr base size : UInt64}

theorem ne_last_of_lt (h : addr < saturatingAdd base size) : addr ≠ -1 := by
  rintro rfl
  have hmax : (-1 : UInt64).toNat = 2 ^ 64 - 1 := rfl
  rw [UInt64.lt_iff_toNat_lt, toNat_saturatingAdd] at h
  omega

theorem holds_of_containingAlloc (h : t.containingAlloc addr = some (base, size)) :
    t.Holds base size addr := by
  obtain ⟨hsize, hle, -, hlt⟩ := containingAlloc_eq_some.mp h
  exact ⟨hsize, inBlock_of_range hle hlt⟩

/-- A hole is reported only where `containing_alloc` finds nothing. -/
theorem containingAlloc_of_hole {writeSize : UInt32} {stm : ShadowTypeMap} {h : HeapHazard}
    (hcheck : t.checkWriteBounds addr writeSize stm = some h) (hkind : h.kind = .heapHole) :
    t.containingAlloc addr = none := by
  rw [checkWriteBounds] at hcheck
  split at hcheck
  · cases hcheck
  · split at hcheck
    · dsimp only at hcheck
      split at hcheck
      · obtain rfl := Option.some.inj hcheck
        cases hkind
      · cases hcheck
    · assumption

/-- The search is exact at an address exactly if the block that starts last holds it, where any
block does. -/
theorem located_iff (t : HeapAllocTracker) (addr : UInt64) :
    Located t addr ↔ LastHolds t addr := by
  constructor
  · intro h hsome
    obtain ⟨⟨base, size⟩, hfound⟩ := Option.isSome_iff_exists.mp (h.found.mpr hsome)
    obtain ⟨-, -, hlast, hlt⟩ := containingAlloc_eq_some.mp hfound
    exact ⟨ne_last_of_lt hlt, base, size, holds_of_containingAlloc hfound, hlast⟩
  · intro h
    have hfound : (∃ base size, t.Holds base size addr) → (t.containingAlloc addr).isSome := by
      intro hsome
      obtain ⟨hlast, base, size, hholds, hmax⟩ := h hsome
      have hlt : addr < saturatingAdd base size := by
        by_contra hout
        exact hlast (eq_last_of_inBlock hholds.2 hout)
      rw [containingAlloc_eq_some.mpr ⟨hholds.1, hholds.2.1, hmax, hlt⟩]
      rfl
    refine ⟨⟨fun hsome => ?_, hfound⟩, fun base size hblock => ?_,
      fun size stm hazard hcheck hkind => ?_⟩
    · obtain ⟨⟨base, size⟩, hblock⟩ := Option.isSome_iff_exists.mp hsome
      exact ⟨base, size, holds_of_containingAlloc hblock⟩
    · refine ⟨holds_of_containingAlloc hblock, fun base' size' hholds hle _ => ?_⟩
      obtain ⟨-, -, hmax, -⟩ := containingAlloc_eq_some.mp hblock
      exact le_antisymm (hmax base' (by rw [hholds.1]; rfl) hholds.2.1) hle
    · intro hsome
      have hlocated := hfound hsome
      rw [containingAlloc_of_hole hcheck hkind] at hlocated
      cases hlocated

end Located

/-- An arena of 4096 bytes with one block cut from it, and a block after it. -/
def arena : HeapAllocTracker :=
  (((({} : HeapAllocTracker).onAlloc 0x1000 0x1000).1.onAlloc 0x1010 16).1.onAlloc 0x3000 16).1

/-- A write to the rest of the arena is reported as a write to a hole. -/
theorem hole_in_arena :
    (arena.checkWriteBounds 0x1100 8 {}).map HeapHazard.kind = some .heapHole ∧
      arena.Holds 0x1000 0x1000 0x1100 :=
  ⟨by decide, by decide, by decide, by decide⟩

theorem not_always_located : ¬ ∀ (t : HeapAllocTracker) (addr : UInt64), Located t addr := by
  intro h
  obtain ⟨hhole, hholds⟩ := hole_in_arena
  obtain ⟨hazard, hcheck, hkind⟩ := Option.map_eq_some_iff.mp hhole
  exact (h arena 0x1100).solid 8 {} hazard hcheck hkind ⟨_, _, hholds⟩

end HeapAllocTracker

end Rtmap.Engine
