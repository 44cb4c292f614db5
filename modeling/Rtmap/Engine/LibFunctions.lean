import Rtmap.Engine.CallFrames

/-!
# Functions of the libraries

The libraries' functions are merged under their run-time addresses into the map
that holds the main module's under their ELF addresses, and a CALL looks its
target up less the main module's delta.
-/
namespace Rtmap.Engine
open Rtmap.Ring Transition

namespace FunctionMap

/-- After a list of insertions the last one of an address is found. -/
theorem get?_foldl_add (fs : List FunctionMeta) (m : FunctionMap) (pc : UInt64) :
    (fs.foldl add m).get? pc = (fs.reverse.find? fun f => f.lowPc = pc).or (m.get? pc) := by
  induction fs generalizing m with
  | nil => rfl
  | cons f fs ih =>
      rw [List.foldl_cons, ih, get?_add, List.reverse_cons, List.find?_append, Option.or_assoc]
      by_cases hf : pc = f.lowPc
      · simp [hf]
      · simp [hf, Ne.symm hf]

theorem get?_foldl_add_of_mem {fs : List FunctionMeta} {f : FunctionMeta} (hf : f ∈ fs)
    (hsame : ∀ g ∈ fs, g.lowPc = f.lowPc → g = f) (m : FunctionMap) :
    (fs.foldl add m).get? f.lowPc = some f := by
  rw [get?_foldl_add]
  cases hfind : fs.reverse.find? fun g => g.lowPc = f.lowPc with
  | none =>
      have hnone := List.find?_eq_none.mp hfind f (List.mem_reverse.mpr hf)
      exact absurd (decide_eq_true rfl) hnone
  | some g =>
      have hmem := List.mem_reverse.mp (List.mem_of_find?_eq_some hfind)
      have hpc : g.lowPc = f.lowPc := by simpa using List.find?_some hfind
      rw [hsame g hmem hpc]
      rfl

theorem get?_foldl_add_of_notMem {fs : List FunctionMeta} {pc : UInt64}
    (hnone : ∀ g ∈ fs, g.lowPc ≠ pc) (m : FunctionMap) :
    (fs.foldl add m).get? pc = m.get? pc := by
  have hfind : (fs.reverse.find? fun g => g.lowPc = pc) = none := by
    refine List.find?_eq_none.mpr fun g hg => ?_
    simpa using hnone g (List.mem_reverse.mp hg)
  rw [get?_foldl_add, hfind]
  rfl

end FunctionMap

/-- The functions a merge adds, in order. -/
def mergedFunctions (libs : List (LibDwarf × UInt64)) : List FunctionMeta :=
  libs.flatMap fun l => l.1.functions.entries.map fun e => relocateFunction l.2 e.1 e.2

theorem mem_mergedFunctions {libs : List (LibDwarf × UInt64)} {g : FunctionMeta} :
    g ∈ mergedFunctions libs ↔
      ∃ l ∈ libs, ∃ pc f, l.1.functions.get? pc = some f ∧ relocateFunction l.2 pc f = g := by
  simp only [mergedFunctions, List.mem_flatMap, List.mem_map, Prod.exists, SortedMap.get?_eq_some]

theorem foldl_mergeFunctions (libs : List (LibDwarf × UInt64)) (m : FunctionMap) :
    libs.foldl (fun m l => mergeFunctions l.2 l.1 m) m =
      (mergedFunctions libs).foldl FunctionMap.add m := by
  simp only [mergedFunctions, List.foldl_flatMap, List.foldl_map, mergeFunctions]

section Calls
variable {host : Host} {ev : Event} {s : State}

/-- The CALL is resolved to the function: its frame is pushed with its name, and
its locals are filed. -/
structure Entered (host : Host) (ev : Event) (f : FunctionMeta) (s : State) : Prop where
  callee : s.callee ev.addr = some f
  frame : (processEvent host ev s).framesOf ev.threadId =
    ⟨s.nextFrameId, ev.addr, f.name⟩ :: s.framesOf ev.threadId
  locals : (processEvent host ev s).addrIndex =
    if f.locals.isEmpty then s.addrIndex
    else s.addrIndex.insertFrameLocals s.nextFrameId ev.value f.locals

theorem Entered.of_callee {f : FunctionMeta} (hkind : kindOf ev = .call)
    (h : s.callee ev.addr = some f) : Entered host ev f s := by
  have hstep : processEvent host ev s = processCall host ev (countEvent s) := by
    simp only [processEvent, processKind, hkind]
  refine ⟨h, ?_, ?_⟩
  · obtain ⟨hframes, -, -⟩ := call_spec host (s := countEvent s) h
    rw [hstep, hframes, if_pos rfl]
    rfl
  · rw [hstep]
    simp only [processCall]
    split
    · rename_i g hg
      obtain rfl : g = f := Option.some.inj (hg.symm.trans h)
      rfl
    · rename_i hnone
      exact absurd (hnone.symm.trans h) (by simp)

/-- Once the main module is placed, no event changes what a lookup reads. -/
theorem lookups_processEvent {delta : UInt64} (hdelta : s.relocationDelta = some delta) :
    (processEvent host ev s).lookups = s.lookups := by
  have hcount : (countEvent s).lookups = s.lookups := rfl
  rw [processEvent, processKind, ← hcount]
  cases kindOf ev with
  | write => exact (congrArg Kept.lookups (fixed_processWrite host ev (countEvent s)) :)
  | call =>
      simp only [processCall]
      split <;> rfl
  | ret =>
      simp only [processReturn]
      split
      · rfl
      · split
        · rfl
        · rw [retireFrame]
          split
          · split <;> rfl
          · rfl
  | alloc => exact (congrArg Kept.lookups (kept_processAlloc host ev (countEvent s)) :)
  | free => exact (congrArg Kept.lookups (kept_processFree ev (countEvent s)) :)
  | moduleLoad =>
      dsimp only [processModuleLoad]
      split
      · rename_i hnone _
        exact absurd (hnone.symm.trans hdelta) (by simp)
      · rfl
  | _ => rfl

end Calls

/-- The merge goes through: the main module is placed at `delta` and the module
table places every library. -/
structure Merging (modtab : List Module) (delta : UInt64) (info : DwarfInfo) (deltas : List UInt64)
    (s : State) : Prop where
  dwarfInfo : s.dwarfInfo = some info
  relocationDelta : s.relocationDelta = some delta
  modtab_ne : modtab.isEmpty = false
  placed : info.libGlobals.mapM (libDelta modtab) = some deltas

/-- Every CALL of a library's function at its run-time address is resolved to it,
and every CALL of a main function is still resolved to that. -/
structure Resolved (libs : List (LibDwarf × UInt64)) (main : FunctionMap) (delta : UInt64)
    (t : State) : Prop where
  library : ∀ l ∈ libs, ∀ pc f, l.1.functions.get? pc = some f →
    ∀ host ev, kindOf ev = .call → ev.addr = pc + l.2 → Entered host ev (relocateFunction l.2 pc f) t
  main : ∀ pc f, main.get? pc = some f →
    ∀ host ev, kindOf ev = .call → ev.addr = pc + delta → Entered host ev f t

/-- The libraries have no function, or the main module is not relocated and no
two functions meet at one run-time address. -/
def Unambiguous (libs : List (LibDwarf × UInt64)) (main : FunctionMap) (delta : UInt64) : Prop :=
  mergedFunctions libs = [] ∨
    delta = 0 ∧ (∀ f ∈ mergedFunctions libs, ∀ g ∈ mergedFunctions libs, g.lowPc = f.lowPc → g = f) ∧
      ∀ f ∈ mergedFunctions libs, ∀ g, main.get? f.lowPc = some g → g = f

namespace Merging
variable {modtab : List Module} {delta : UInt64} {info : DwarfInfo}
  {deltas : List UInt64} {s : State}

/-- What a CALL finds after the merge. -/
theorem callee_merged (host : Host) (h : Merging modtab delta info deltas s) (addr : UInt64) :
    (populateLibGlobals host modtab s).1.callee addr =
      ((mergedFunctions (info.libGlobals.zip deltas)).foldl FunctionMap.add info.functions).get?
        (addr - delta) := by
  simp only [populateLibGlobals, h.dwarfInfo, h.modtab_ne, h.placed, ← foldl_mergeFunctions]
  simp only [State.callee, State.elfPc, h.relocationDelta]
  rfl

theorem relocationDelta_merged (host : Host) (h : Merging modtab delta info deltas s) :
    (populateLibGlobals host modtab s).1.relocationDelta = some delta := by
  simp only [populateLibGlobals, h.dwarfInfo, h.modtab_ne, h.placed]
  exact h.relocationDelta

/-- The condition makes every lookup right. -/
theorem callee_of_unambiguous (host : Host) (h : Merging modtab delta info deltas s)
    (hlibs : Unambiguous (info.libGlobals.zip deltas) info.functions delta) :
    (∀ f ∈ mergedFunctions (info.libGlobals.zip deltas),
      (populateLibGlobals host modtab s).1.callee f.lowPc = some f) ∧
    ∀ pc f, info.functions.get? pc = some f →
      (populateLibGlobals host modtab s).1.callee (pc + delta) = some f := by
  rcases hlibs with hnone | ⟨rfl, hsame, hmain⟩
  · simp only [h.callee_merged host, hnone]
    exact ⟨by simp, fun pc f hf => by simpa using hf⟩
  · simp only [h.callee_merged host, UInt64.sub_zero, UInt64.add_zero]
    refine ⟨fun f hf => FunctionMap.get?_foldl_add_of_mem hf (hsame f hf) _, fun pc f hf => ?_⟩
    by_cases hmet : ∃ g ∈ mergedFunctions (info.libGlobals.zip deltas), g.lowPc = pc
    · obtain ⟨g, hg, rfl⟩ := hmet
      rw [FunctionMap.get?_foldl_add_of_mem hg (hsame g hg), hmain g hg f hf]
    · rw [FunctionMap.get?_foldl_add_of_notMem fun g hg he => hmet ⟨g, hg, he⟩]
      exact hf

/-- Conversely, right lookups need the condition: a function is found under its
own address only, which the subtraction of `delta` misses. -/
theorem unambiguous_of_callee (host : Host) (h : Merging modtab delta info deltas s)
    (hlib : ∀ f ∈ mergedFunctions (info.libGlobals.zip deltas),
      (populateLibGlobals host modtab s).1.callee f.lowPc = some f)
    (hmain : ∀ pc f, info.functions.get? pc = some f →
      (populateLibGlobals host modtab s).1.callee (pc + delta) = some f) :
    Unambiguous (info.libGlobals.zip deltas) info.functions delta := by
  cases hmerged : mergedFunctions (info.libGlobals.zip deltas) with
  | nil => exact .inl hmerged
  | cons f rest =>
      have hzero : delta = 0 := by
        have hf := hlib f (by simp [hmerged])
        rw [h.callee_merged host] at hf
        have hkey := FunctionMap.keyed _ _ _ hf
        have hback : f.lowPc + delta = f.lowPc + 0 := by
          rw [UInt64.add_zero]
          exact UInt64.eq_sub_iff_add_eq.mp hkey
        exact (UInt64.add_right_inj _).mp hback
      subst hzero
      refine .inr ⟨rfl, fun f hf g hg hpc => ?_, fun f hf g hg => ?_⟩
      · have hg' := hlib g hg
        rw [hpc, hlib f hf] at hg'
        exact (Option.some.inj hg').symm
      · have hg' := hmain _ g hg
        rw [UInt64.add_zero, hlib f hf] at hg'
        exact (Option.some.inj hg').symm

end Merging

/-- Inputs after the merge: events and snapshots. -/
def AfterMerge : Input → State → Prop
  | .libraries _ _, _ => False
  | _, _ => True

def Input.step (i : Input) (s : State) : Option State := some (i.apply s)

theorem callee_afterMerge {s t : State} {delta : UInt64} (hdelta : s.relocationDelta = some delta)
    (h : Reach Input.step AfterMerge s t) (addr : UInt64) : t.callee addr = s.callee addr := by
  refine callee_of_lookups (h.invariant (I := fun u => u.lookups = s.lookups) rfl ?_) addr
  intro i u v hu hok hstep
  obtain rfl := Option.some.inj hstep
  cases i with
  | event host ev =>
      have hplaced : u.relocationDelta = some delta := (congrArg Prod.fst hu).trans hdelta
      exact (lookups_processEvent hplaced).trans hu
  | snapshot v => exact hu
  | libraries host modtab => exact hok.elim

theorem kindOf_callAt (addr : UInt64) : kindOf (plainEvent EVENT_CALL addr 0) = .call := by
  have hkind : (plainEvent EVENT_CALL addr 0).kind = EVENT_CALL := by
    simp only [plainEvent, Event.kind]
    decide
  simp only [kindOf, hkind]
  decide

/-- After the merge, at any later time, CALLs are resolved rightly if and only if
the libraries have no function or the main module sits at its ELF addresses and
no two functions meet. -/
theorem calls_resolve_iff (host : Host) {modtab : List Module} {delta : UInt64} {info : DwarfInfo}
    {deltas : List UInt64} {s : State} (h : Merging modtab delta info deltas s) :
    (∀ t, Reach Input.step AfterMerge (populateLibGlobals host modtab s).1 t →
      Resolved (info.libGlobals.zip deltas) info.functions delta t) ↔
    Unambiguous (info.libGlobals.zip deltas) info.functions delta := by
  constructor
  · intro hall
    have hnow := hall _ .start
    refine h.unambiguous_of_callee host (fun g hg => ?_) fun pc f hf => ?_
    · obtain ⟨l, hl, pc, f, hf, rfl⟩ := mem_mergedFunctions.mp hg
      exact (hnow.library l hl pc f hf Host.plain _ (kindOf_callAt (pc + l.2)) rfl).callee
    · exact (hnow.main pc f hf Host.plain _ (kindOf_callAt (pc + delta)) rfl).callee
  · intro hlibs t ht
    obtain ⟨hlib, hmain⟩ := h.callee_of_unambiguous host hlibs
    have hsame := callee_afterMerge (h.relocationDelta_merged host) ht
    refine ⟨fun l hl pc f hf host' ev hkind haddr => .of_callee hkind ?_,
      fun pc f hf host' ev hkind haddr => .of_callee hkind ?_⟩
    · have hentry : (relocateFunction l.2 pc f).lowPc = pc + l.2 := rfl
      rw [hsame, haddr, ← hentry]
      exact hlib _ (mem_mergedFunctions.mpr ⟨l, hl, pc, f, hf, rfl⟩)
    · rw [hsame, haddr]
      exact hmain pc f hf

section Runs

/-- A library with one function at 0x40. -/
def oneLibrary : LibDwarf where
  libPath := "/lib/libm.so"
  elfBaseVaddr := 0
  functions := FunctionMap.empty.add { name := "sin", lowPc := 0x40, highPc := 0x80 }

def oneModule : List Module := [⟨0x7f0000000000, "/lib/libm.so"⟩]

def mainAndLibrary : DwarfInfo where
  functions := FunctionMap.empty.add { name := "main", lowPc := 0x1000, highPc := 0x1100 }
  libGlobals := [oneLibrary]

/-- The program at a load address, before the merge. -/
def placedAt (delta : UInt64) : State where
  dwarfInfo := some mainAndLibrary
  relocationDelta := some delta

theorem merging_placedAt (delta : UInt64) :
    Merging oneModule delta mainAndLibrary [0x7f0000000000] (placedAt delta) :=
  ⟨rfl, rfl, rfl, by decide +kernel⟩

/-- A program at its ELF addresses. -/
theorem calls_resolve_at_zero :
    Resolved (mainAndLibrary.libGlobals.zip [0x7f0000000000]) mainAndLibrary.functions 0
      (populateLibGlobals Host.plain oneModule (placedAt 0)).1 := by
  have hmerged : mergedFunctions (mainAndLibrary.libGlobals.zip [0x7f0000000000]) =
      [{ name := "sin", lowPc := 0x7f0000000040, highPc := 0x7f0000000080 }] := rfl
  refine (calls_resolve_iff Host.plain (merging_placedAt 0)).mpr (.inr ⟨rfl, ?_, ?_⟩) _ .start
  · intro f hf g hg _
    rw [hmerged, List.mem_singleton] at hf hg
    rw [hf, hg]
  · intro f hf g hg
    rw [hmerged, List.mem_singleton] at hf
    have hnone : (mainAndLibrary.functions.get? f.lowPc).isSome = false := by
      rw [hf]
      decide +kernel
    rw [hg] at hnone
    cases hnone

/-- A position-independent program: the library's function is not found. -/
theorem library_call_misses_when_relocated :
    ¬ ∀ host modtab delta info deltas s, Merging modtab delta info deltas s →
      ∀ t, Reach Input.step AfterMerge (populateLibGlobals host modtab s).1 t →
        Resolved (info.libGlobals.zip deltas) info.functions delta t := by
  intro hall
  have hnow := hall Host.plain oneModule 0x555555554000 _ _ _ (merging_placedAt _) _ .start
  have hfound := (hnow.library (oneLibrary, 0x7f0000000000) List.mem_cons_self 0x40
    { name := "sin", lowPc := 0x40, highPc := 0x80 } rfl Host.plain
    (plainEvent EVENT_CALL 0x7f0000000040 0) rfl rfl).callee
  have hmissed : ((populateLibGlobals Host.plain oneModule (placedAt 0x555555554000)).1.callee
      (plainEvent EVENT_CALL 0x7f0000000040 0).addr).isSome = false := by decide +kernel
  rw [hfound] at hmissed
  cases hmissed

end Runs

end Rtmap.Engine
