import Rtmap.Engine.BlockEpochs
import Rtmap.Engine.ModuleRanges
import Rtmap.Tracer.ModuleLoad

/-!
# The main module in the oracle

The tracer announces the main module with a base and no size, and a module of size 0
adds no range. What is no heap address stays none, so that the announcement keeps the
module off the heap exactly where it was off the heap before.
-/
namespace Rtmap.Engine
open Rtmap.Ring Rtmap.Tracer

/-- What an input does to the oracle. -/
def Input.oracle : Input → HeapOracle → HeapOracle
  | .event _ ev, o =>
      match kindOf ev with
      | .call | .tailCall => o.updateStack ev.threadId ev.value
      | .moduleLoad => o.addModule ev.addr ev.value
      | _ => o
  | .snapshot _, o | .libraries .., o => o

section Oracle
variable (host : Host) (ev : Event) (s : State)

theorem heapOracle_processCall :
    (processCall host ev s).heapOracle = s.heapOracle.updateStack ev.threadId ev.value := by
  rw [processCall]
  split <;> rfl

theorem heapOracle_processReturn : (processReturn ev s).heapOracle = s.heapOracle := by
  rw [processReturn]
  split
  · rfl
  · dsimp only
    split
    · rfl
    · rw [retireFrame]
      split
      · split <;> rfl
      · rfl

theorem heapOracle_processModuleLoad :
    (processModuleLoad host ev s).heapOracle = s.heapOracle.addModule ev.addr ev.value := by
  rw [processModuleLoad]
  split <;> rfl

theorem heapOracle_populateLibGlobals (modtab : List Module) :
    (populateLibGlobals host modtab s).1.heapOracle = s.heapOracle := by
  rw [populateLibGlobals]
  split
  · rfl
  · split
    · rfl
    · split <;> rfl

theorem heapOracle_processEvent :
    (processEvent host ev s).heapOracle = (Input.event host ev).oracle s.heapOracle := by
  rw [processEvent, processKind, Input.oracle]
  cases kindOf ev with
  | write => exact congrArg Kept.heapOracle (fixed_processWrite host ev (countEvent s))
  | call => exact heapOracle_processCall host ev (countEvent s)
  | ret => exact heapOracle_processReturn ev (countEvent s)
  | alloc => exact congrArg Kept.heapOracle (kept_processAlloc host ev (countEvent s))
  | free => exact congrArg Kept.heapOracle (kept_processFree ev (countEvent s))
  | moduleLoad => exact heapOracle_processModuleLoad host ev (countEvent s)
  | read | regSnapshot | cacheMiss | tailCall | bbEntry | reload | processFork | sharedMap
  | unknown => rfl

theorem heapOracle_apply (i : Input) : (i.apply s).heapOracle = i.oracle s.heapOracle := by
  cases i with
  | event host ev => exact heapOracle_processEvent host ev s
  | snapshot u => rfl
  | libraries host modtab => exact heapOracle_populateLibGlobals host s modtab

end Oracle

namespace HeapOracle
variable {o : HeapOracle} {addr : UInt64}

/-- The ranges can be searched, and each thread has one pair of stack bounds. -/
structure WellFormed (o : HeapOracle) : Prop where
  sorted : Sorted o
  threads : (o.stackBounds.map Prod.fst).Nodup

/-- The address lies within the stack bounds of a thread. -/
def OnStack (o : HeapOracle) (addr : UInt64) : Prop :=
  ∃ b ∈ o.stackBounds, b.2.1 ≤ addr ∧ addr < b.2.2

theorem WellFormed.empty : WellFormed {} :=
  ⟨⟨List.Pairwise.nil, by simp⟩, List.nodup_nil⟩

theorem WellFormed.isHeapBySearch_eq_false (h : WellFormed o) (addr : UInt64) :
    o.isHeapBySearch addr = false ↔ o.Covers addr ∨ o.OnStack addr ∨ inUserRange addr = false := by
  have hstack : (o.stackBounds.any fun b => addr ≥ b.2.1 && addr < b.2.2) = false ↔
      ¬o.OnStack addr := by
    rw [← Bool.not_eq_true, List.any_eq_true, OnStack]
    simp only [Bool.and_eq_true, decide_eq_true_eq, ge_iff_le]
  rw [h.sorted.isHeapBySearch, ← Bool.not_eq_true, isHeap_eq_true, hstack, not_and_or, not_and_or,
    not_not, not_not, Bool.not_eq_true]

theorem WellFormed.addModule (h : WellFormed o) (base size : UInt64) :
    WellFormed (o.addModule base size) :=
  ⟨sorted_addModule h.sorted, by rw [stackBounds_addModule]; exact h.threads⟩

theorem WellFormed.updateStack (h : WellFormed o) (tid : UInt16) (rsp : UInt64) :
    WellFormed (o.updateStack tid rsp) := by
  refine ⟨⟨h.sorted.apart, h.sorted.le⟩, List.nodup_cons.mpr ⟨fun hmem => ?_, ?_⟩⟩
  · obtain ⟨b, hb, heq⟩ := List.mem_map.mp hmem
    simpa [heq] using (List.mem_filter.mp hb).2
  · exact h.threads.sublist (List.filter_sublist.map Prod.fst)

theorem Covers.addModule (h : o.Covers addr) (base size : UInt64) :
    (o.addModule base size).Covers addr := by
  obtain ⟨r, hr, hlo, hhi⟩ := h
  rw [HeapOracle.addModule]
  split
  · exact ⟨r, hr, hlo, hhi⟩
  · split
    · rename_i last hlast
      split
      · rw [← List.dropLast_append_getLast? last hlast] at hr
        rcases List.mem_append.mp hr with hr | hr
        · exact ⟨r, List.mem_append_left _ hr, hlo, hhi⟩
        · obtain rfl := List.mem_singleton.mp hr
          exact ⟨_, List.mem_append_right _ (List.mem_singleton_self _), hlo,
            hhi.trans_le (le_max_left _ _)⟩
      · exact ⟨r, List.mem_append_left _ hr, hlo, hhi⟩
    · rename_i hnone
      rw [List.getLast?_eq_none_iff.mp hnone] at hr
      cases hr

theorem WellFormed.find? (h : WellFormed o) {b : UInt16 × UInt64 × UInt64}
    (hb : b ∈ o.stackBounds) : o.stackBounds.find? (fun x => x.1 = b.1) = some b := by
  obtain ⟨x, hx⟩ := Option.isSome_iff_exists.mp
    (List.find?_isSome (p := fun x => decide (x.1 = b.1)).mpr ⟨b, hb, by simp⟩)
  have hkey : x.1 = b.1 := by simpa using List.find?_some hx
  rw [hx, List.inj_on_of_nodup_map h.threads (List.mem_of_find?_eq_some hx) hb hkey]

theorem OnStack.updateStack (hwf : WellFormed o) (h : o.OnStack addr) (tid : UInt16)
    (rsp : UInt64) : (o.updateStack tid rsp).OnStack addr := by
  obtain ⟨b, hb, hlo, hhi⟩ := h
  by_cases htid : b.1 = tid
  · subst htid
    refine ⟨_, List.mem_cons_self, ?_, ?_⟩
    · rw [hwf.find? hb]
      exact (min_le_left _ _).trans hlo
    · rw [hwf.find? hb]
      exact hhi.trans_le (le_max_left _ _)
  · exact ⟨b, List.mem_cons_of_mem _ (List.mem_filter.mpr ⟨hb, by simpa using htid⟩), hlo, hhi⟩

theorem WellFormed.input (h : WellFormed o) (i : Input) : WellFormed (i.oracle o) := by
  cases i with
  | event host ev =>
      rw [Input.oracle]
      split
      · exact h.updateStack _ _
      · exact h.updateStack _ _
      · exact h.addModule _ _
      · exact h
  | snapshot u => exact h
  | libraries host modtab => exact h

/-- No input makes a heap address of one that is none. -/
theorem WellFormed.isHeapBySearch_input (h : WellFormed o) (i : Input)
    (hnot : o.isHeapBySearch addr = false) : (i.oracle o).isHeapBySearch addr = false := by
  rw [h.isHeapBySearch_eq_false] at hnot
  rw [(h.input i).isHeapBySearch_eq_false]
  cases i with
  | event host ev =>
      rw [Input.oracle]
      split
      · exact hnot.imp id (Or.imp_left fun hs => hs.updateStack h _ _)
      · exact hnot.imp id (Or.imp_left fun hs => hs.updateStack h _ _)
      · refine hnot.imp (fun hc => hc.addModule _ _) (Or.imp_left fun hs => ?_)
        rw [OnStack, stackBounds_addModule]
        exact hs
      · exact hnot
  | snapshot u => exact hnot
  | libraries host modtab => exact hnot

end HeapOracle

section Run
variable {s : State}

theorem wellFormed_run (h : s.heapOracle.WellFormed) (inputs : List Input) :
    (Input.run inputs s).heapOracle.WellFormed := by
  induction inputs generalizing s with
  | nil => exact h
  | cons i inputs ih =>
      exact ih (s := i.apply s) (by rw [heapOracle_apply]; exact h.input i)

theorem not_heap_run (h : s.heapOracle.WellFormed) (inputs : List Input) {addr : UInt64}
    (hnot : s.heapOracle.isHeapBySearch addr = false) :
    (Input.run inputs s).heapOracle.isHeapBySearch addr = false := by
  induction inputs generalizing s with
  | nil => exact hnot
  | cons i inputs ih =>
      refine ih (s := i.apply s) ?_ ?_ <;> rw [heapOracle_apply]
      · exact h.input i
      · exact h.isHeapBySearch_input i hnot

end Run

/-- The event that `maybe_emit_module_load` pushes. -/
def announcement (base : UInt64) (tid : UInt16) (seq : UInt32) : Event :=
  (moduleLoadOp base tid seq).slot 0

/-- Its size is 0. -/
theorem oracle_announcement (host : Host) (base : UInt64) (tid : UInt16) (seq : UInt32)
    (o : HeapOracle) : (Input.event host (announcement base tid seq)).oracle o = o := by
  have hkind : (announcement base tid seq).kind = EVENT_MODULE_LOAD := kind_makeKf _ _ _
  have harm : kindOf (announcement base tid seq) = .moduleLoad := by
    rw [kindOf, hkind]
    rfl
  rw [Input.oracle, harm]
  exact if_pos rfl

/-- The addresses of the main module are no heap in every state after its announcement. -/
def ExcludedAfter (host : Host) (base stop : UInt64) (tid : UInt16) (seq : UInt32) (s : State) :
    Prop :=
  ∀ rest addr, base ≤ addr → addr < stop →
    (Input.run rest (processEvent host (announcement base tid seq) s)).heapOracle.isHeapBySearch
      addr = false

/-- The announcement keeps the main module off the heap exactly where the addresses of
the module were off the heap without it. -/
theorem main_module_excluded_iff {start : State} (hstart : start.heapOracle = {})
    (front : List Input) (host : Host) (base stop : UInt64) (tid : UInt16) (seq : UInt32) :
    ExcludedAfter host base stop tid seq (Input.run front start) ↔ ∀ addr, base ≤ addr →
      addr < stop → (Input.run front start).heapOracle.isHeapBySearch addr = false := by
  have hwf : (Input.run front start).heapOracle.WellFormed :=
    wellFormed_run (by rw [hstart]; exact .empty) front
  have hsame : (processEvent host (announcement base tid seq)
      (Input.run front start)).heapOracle = (Input.run front start).heapOracle := by
    rw [heapOracle_processEvent, oracle_announcement]
  constructor
  · intro h addr hlo hhi
    have hnow := h [] addr hlo hhi
    rw [Input.run, List.foldl_nil, hsame] at hnow
    exact hnow
  · intro h rest addr hlo hhi
    refine not_heap_run ?_ rest ?_ <;> rw [hsame]
    · exact hwf
    · exact h addr hlo hhi

/-- A module on a page that the stack bounds of a thread already hold. -/
theorem module_below_stack_excluded : ExcludedAfter .plain 0x7fff0000 0x7fff1000 1 0
    (Input.run [.event .plain (plainEvent EVENT_CALL 0x401000 0x7fff0000)] {}) := by
  refine (main_module_excluded_iff rfl _ _ _ _ _ _).mpr fun addr hlo hhi => ?_
  have hwf := wellFormed_run (s := {}) .empty
    [.event .plain (plainEvent EVENT_CALL 0x401000 0x7fff0000)]
  refine (hwf.isHeapBySearch_eq_false addr).mpr (.inr (.inl ?_))
  have hbounds : (1, 0x7fff0000, 0x80010000) ∈ (Input.run
      [.event .plain (plainEvent EVENT_CALL 0x401000 0x7fff0000)] {}).heapOracle.stackBounds := by
    decide +kernel
  exact ⟨_, hbounds, hlo, hhi.trans (by decide)⟩

/-- The globals of the program are heap after the announcement, in every state. -/
theorem main_module_is_heap : ¬ ∀ (start : State), start.heapOracle = {} →
    ∀ (front : List Input) (host : Host) (base stop : UInt64) (tid : UInt16) (seq : UInt32),
      ExcludedAfter host base stop tid seq (Input.run front start) := by
  intro hall
  have hexcluded := hall {} rfl [] .plain 0x555555554000 0x555555559000 0 0 [] 0x555555558010
    (by decide) (by decide)
  have hheap : (Input.run [] (processEvent .plain (announcement 0x555555554000 0 0)
      (Input.run [] {}))).heapOracle.isHeapBySearch 0x555555558010 = true := by decide +kernel
  rw [hexcluded] at hheap
  cases hheap

end Rtmap.Engine
