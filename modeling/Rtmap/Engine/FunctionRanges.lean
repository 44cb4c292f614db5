import Rtmap.Engine.LibFunctions
import Rtmap.Engine.TypeResolution
import Rtmap.Lib.Stabbing

/-!
# The function map

`parse_elf` files subprograms and inlined subroutines in one map, by the address at which
they start. A lookup sees the range that starts last at or below the address, and a start
keeps the range that was filed last.
-/
namespace Rtmap.Engine
open Stabbing

/-- `frame_base_is_cfa`. -/
def Die.frameBaseIsCfa (d : Die) : Bool :=
  match d.attrValue .frameBase with
  | some (.exprloc _ startsWithCfa) => startsWithCfa
  | _ => false

/-- The end of the range: a length is counted from the start. -/
def Die.highPc (d : Die) (lowPc : UInt64) : Option UInt64 :=
  match d.attrValue .highPc with
  | some (.udata len) => some (lowPc + len)
  | some (.addr a) => some a
  | _ => none

/-- `try_extract_function`. -/
def tryExtractFunction (d : Die) : Option FunctionMeta := do
  let name ← d.attrName
  let lowPc ← (d.attrValue .lowPc).bind AttrValue.addr?
  let highPc ← d.highPc lowPc
  some { name, lowPc, highPc, frameBaseIsCfa := d.frameBaseIsCfa }

/-- The address by which the entry's code starts. -/
def Die.startPc (d : Die) : Option UInt64 :=
  ((d.attrValue .lowPc).bind AttrValue.addr?).orElse fun _ =>
    (d.attrValue .entryPc).bind AttrValue.addr?

/-- `try_extract_inlined`: without an end the range is one byte long. -/
def tryExtractInlined (unit : DieUnit) (d : Die) : Option FunctionMeta := do
  let origin ← (d.ref .abstractOrigin).bind unit.entry
  let name ← origin.attrName
  let lowPc ← d.startPc
  some {
    name := "[inlined] " ++ name
    lowPc
    highPc := (d.highPc lowPc).getD (lowPc + 1)
    frameBaseIsCfa := origin.frameBaseIsCfa }

/-- What the extraction loop files for an entry. -/
def tryExtract (unit : DieUnit) (d : Die) : Option FunctionMeta :=
  match d.tag with
  | .subprogram => tryExtractFunction d
  | .inlinedSubroutine => tryExtractInlined unit d
  | _ => none

/-- An entry of the depth-first walk with its depth. -/
structure Entry where
  depth : ℕ
  die : Die

/-- The extraction loop over the entries of a unit. -/
def extractFunctions (unit : DieUnit) (entries : List Entry) (functions : FunctionMap) :
    FunctionMap :=
  entries.foldl (fun m e =>
    match tryExtract unit e.die with
    | some f => m.add f
    | none => m) functions

/-- `functions.get_mut(&pc)` and a push. -/
def FunctionMap.pushLocal (m : FunctionMap) (pc : UInt64) (l : LocalVar) : FunctionMap :=
  match m.get? pc with
  | some f => m.add { f with locals := f.locals ++ [l] }
  | none => m

/-- `try_extract_local`, of a variable or a formal parameter. -/
def extractLocal (unit : DieUnit) (d : Die) : Option LocalVar := do
  let name ← d.attrName
  let location ← d.attrValue .location
  tryExtractLocal name location.table (resolveType unit d)

/-- Where the walk for the locals is: the start and the depth of the function entry that it
entered last, unless it has left that entry. -/
structure LocalsWalk where
  functions : FunctionMap
  current : Option (UInt64 × ℕ) := none

def LocalsWalk.step (unit : DieUnit) (w : LocalsWalk) (e : Entry) : LocalsWalk :=
  let current := w.current.filter fun c => c.2 < e.depth
  match e.die.tag with
  | .subprogram | .inlinedSubroutine =>
      match e.die.startPc with
      | some pc => { w with current := some (pc, e.depth) }
      | none => { w with current }
  | .variable | .formalParameter =>
      match current, extractLocal unit e.die with
      | some c, some l => { functions := w.functions.pushLocal c.1 l, current }
      | _, _ => { w with current }
  | _ => { w with current }

/-- `extract_locals`. -/
def extractLocals (unit : DieUnit) (entries : List Entry) (functions : FunctionMap) :
    FunctionMap :=
  (entries.foldl (LocalsWalk.step unit) { functions }).functions

/-- The functions of a file, unit by unit. -/
def parseFunctions (units : List (DieUnit × List Entry)) : FunctionMap :=
  units.foldl (fun m u => extractLocals u.1 u.2 (extractFunctions u.1 u.2 m)) FunctionMap.empty

/-- The metadata without the locals. -/
def FunctionMeta.bare (f : FunctionMeta) : FunctionMeta := { f with locals := [] }

/-- What the extraction loop files of a unit, in order, with the tags. -/
def filedOf (unit : DieUnit) (entries : List Entry) : List (Tag × FunctionMeta) :=
  entries.filterMap fun e => (tryExtract unit e.die).map fun f => (e.die.tag, f)

/-- What it files of a file. -/
def filed (units : List (DieUnit × List Entry)) : List (Tag × FunctionMeta) :=
  units.flatMap fun u => filedOf u.1 u.2

/-- The function map answers for an address exactly if a filed range holds it, and has every
subprogram under its start. -/
structure FindsFunctions (units : List (DieUnit × List Entry)) : Prop where
  contains (pc : UInt64) :
    (DwarfInfo.funcContaining { functions := parseFunctions units } pc).isSome ↔
      ∃ r ∈ filed units, r.2.lowPc ≤ pc ∧ pc < r.2.highPc
  kept (r : Tag × FunctionMeta) (hr : r ∈ filed units) (htag : r.1 = .subprogram) :
    ((parseFunctions units).get? r.2.lowPc).map FunctionMeta.bare = some r.2

/-- No range after it starts where it does. -/
def FiledLast (l : List (Tag × FunctionMeta)) (t : Tag × FunctionMeta) : Prop :=
  ∃ before after, l = before ++ t :: after ∧ ∀ u ∈ after, u.2.lowPc ≠ t.2.lowPc

/-- What is filed last at a start inside a range reaches to the end of the range or to a later
start, and at the start of a subprogram it is that subprogram. -/
structure Reaching (l : List (Tag × FunctionMeta)) : Prop where
  reaches (r t : Tag × FunctionMeta) (hr : r ∈ l) (ht : FiledLast l t)
    (hle : r.2.lowPc ≤ t.2.lowPc) (hlt : t.2.lowPc < r.2.highPc) :
    r.2.highPc ≤ t.2.highPc ∨ ∃ u ∈ l, t.2.lowPc < u.2.lowPc ∧ u.2.lowPc ≤ t.2.highPc
  subprogram (r t : Tag × FunctionMeta) (hr : r ∈ l) (htag : r.1 = .subprogram)
    (ht : FiledLast l t) (hstart : t.2.lowPc = r.2.lowPc) : t.2 = r.2

@[simp] theorem FunctionMeta.bare_locals (f : FunctionMeta) (ls : List LocalVar) :
    FunctionMeta.bare { f with locals := ls } = f.bare := rfl

theorem filedLast_iff {l : List (Tag × FunctionMeta)} {pc : UInt64} {t : Tag × FunctionMeta} :
    (l.reverse.find? fun r => r.2.lowPc = pc) = some t ↔ FiledLast l t ∧ t.2.lowPc = pc := by
  rw [List.find?_eq_some_iff_append]
  constructor
  · rintro ⟨hpc, after, before, hl, hafter⟩
    have hpc : t.2.lowPc = pc := of_decide_eq_true hpc
    have hl : l = before.reverse ++ t :: after.reverse := by
      rw [← List.reverse_reverse l, hl, List.reverse_append, List.reverse_cons,
        List.append_assoc, List.singleton_append]
    refine ⟨⟨before.reverse, after.reverse, hl, fun u hu => ?_⟩, hpc⟩
    have hne := hafter u (List.mem_reverse.mp hu)
    simpa [hpc] using hne
  · rintro ⟨⟨before, after, hl, hafter⟩, hpc⟩
    refine ⟨decide_eq_true hpc, after.reverse, before.reverse, ?_, fun u hu => ?_⟩
    · rw [hl, List.reverse_append, List.reverse_cons, List.append_assoc, List.singleton_append]
    · simpa [← hpc] using hafter u (List.mem_reverse.mp hu)

/-- What was filed last at a start is one of what was filed. -/
theorem FiledLast.mem {l : List (Tag × FunctionMeta)} {t : Tag × FunctionMeta}
    (h : FiledLast l t) : t ∈ l := by
  obtain ⟨before, after, hl, -⟩ := h
  rw [hl]
  exact List.mem_append_right _ List.mem_cons_self

/-- At the start of every range something was filed last. -/
theorem exists_filedLast {l : List (Tag × FunctionMeta)} {r : Tag × FunctionMeta} (hr : r ∈ l) :
    ∃ t, FiledLast l t ∧ t.2.lowPc = r.2.lowPc := by
  cases hfind : l.reverse.find? fun u => u.2.lowPc = r.2.lowPc with
  | none =>
      have hnone := List.find?_eq_none.mp hfind r (List.mem_reverse.mpr hr)
      exact absurd (decide_eq_true rfl) hnone
  | some t => exact ⟨t, filedLast_iff.mp hfind⟩

/-- An extracted range has no locals yet. -/
theorem bare_of_tryExtract {unit : DieUnit} {d : Die} {f : FunctionMeta}
    (h : tryExtract unit d = some f) : f.bare = f := by
  unfold tryExtract at h
  split at h
  · rw [tryExtractFunction] at h
    simp only [Option.bind_eq_bind, Option.bind_eq_some_iff, Option.some.injEq] at h
    obtain ⟨-, -, -, -, -, -, rfl⟩ := h
    rfl
  · rw [tryExtractInlined] at h
    simp only [Option.bind_eq_bind, Option.bind_eq_some_iff, Option.some.injEq] at h
    obtain ⟨-, -, -, -, -, -, rfl⟩ := h
    rfl
  · cases h

/-- An extracted range starts where its entry does. -/
theorem startPc_of_tryExtract {unit : DieUnit} {d : Die} {f : FunctionMeta}
    (h : tryExtract unit d = some f) : d.startPc = some f.lowPc := by
  unfold tryExtract at h
  split at h
  · rw [tryExtractFunction] at h
    simp only [Option.bind_eq_bind, Option.bind_eq_some_iff, Option.some.injEq] at h
    obtain ⟨-, -, lowPc, hlow, -, -, rfl⟩ := h
    have hstart : (d.attrValue .lowPc).bind AttrValue.addr? = some lowPc :=
      Option.bind_eq_some_iff.mpr hlow
    rw [Die.startPc, hstart]
    rfl
  · rw [tryExtractInlined] at h
    simp only [Option.bind_eq_bind, Option.bind_eq_some_iff, Option.some.injEq] at h
    obtain ⟨-, -, -, -, lowPc, hlow, rfl⟩ := h
    exact hlow
  · cases h

theorem FunctionMap.pushLocal_bare (m : FunctionMap) (pc k : UInt64) (l : LocalVar) :
    ((m.pushLocal pc l).get? k).map FunctionMeta.bare = (m.get? k).map FunctionMeta.bare := by
  unfold pushLocal
  cases hf : m.get? pc with
  | none => rfl
  | some f =>
      have hkey : f.lowPc = pc := m.keyed pc f hf
      dsimp only
      rw [get?_add]
      split
      · rename_i hk
        have hk : k = pc := hk.trans hkey
        rw [hk, hf]
        rfl
      · rfl

theorem LocalsWalk.step_bare (unit : DieUnit) (w : LocalsWalk) (e : Entry) (pc : UInt64) :
    ((w.step unit e).functions.get? pc).map FunctionMeta.bare =
      (w.functions.get? pc).map FunctionMeta.bare := by
  unfold step
  dsimp only
  split
  · split <;> rfl
  · split <;> rfl
  · split
    · exact FunctionMap.pushLocal_bare _ _ _ _
    · rfl
  · split
    · exact FunctionMap.pushLocal_bare _ _ _ _
    · rfl
  · rfl

/-- The walk for the locals changes nothing else. -/
theorem extractLocals_bare (unit : DieUnit) (entries : List Entry) (m : FunctionMap)
    (pc : UInt64) :
    ((extractLocals unit entries m).get? pc).map FunctionMeta.bare =
      (m.get? pc).map FunctionMeta.bare := by
  have hwalk (w : LocalsWalk) :
      ((entries.foldl (LocalsWalk.step unit) w).functions.get? pc).map FunctionMeta.bare =
        (w.functions.get? pc).map FunctionMeta.bare := by
    induction entries generalizing w with
    | nil => rfl
    | cons e entries ih => rw [List.foldl_cons, ih, LocalsWalk.step_bare]
  exact hwalk { functions := m }

/-- The extraction loop inserts what it files. -/
theorem extractFunctions_eq (unit : DieUnit) (entries : List Entry) (m : FunctionMap) :
    extractFunctions unit entries m =
      ((filedOf unit entries).map Prod.snd).foldl FunctionMap.add m := by
  unfold extractFunctions
  induction entries generalizing m with
  | nil => rfl
  | cons e entries ih =>
      rw [List.foldl_cons, ih]
      unfold filedOf
      rw [List.filterMap_cons]
      cases tryExtract unit e.die with
      | none => rfl
      | some f => rfl

theorem bare_of_mem_filedOf {unit : DieUnit} {entries : List Entry} {r : Tag × FunctionMeta}
    (h : r ∈ filedOf unit entries) : r.2.bare = r.2 := by
  obtain ⟨e, -, he⟩ := List.mem_filterMap.mp h
  obtain ⟨f, hf, hr⟩ := Option.map_eq_some_iff.mp he
  rw [← hr]
  exact bare_of_tryExtract hf

/-- After a unit the map has, at its start, what the unit filed last there. -/
theorem get?_extractFunctions {unit : DieUnit} {entries : List Entry} {t : Tag × FunctionMeta}
    (ht : FiledLast (filedOf unit entries) t) (m : FunctionMap) :
    (extractFunctions unit entries m).get? t.2.lowPc = some t.2 := by
  have hfind : ((filedOf unit entries).reverse.find?
      ((fun f : FunctionMeta => decide (f.lowPc = t.2.lowPc)) ∘ Prod.snd)) = some t :=
    filedLast_iff.mpr ⟨ht, rfl⟩
  rw [extractFunctions_eq, FunctionMap.get?_foldl_add, ← List.map_reverse, List.find?_map, hfind]
  rfl

/-- After a unit a start has what was filed last there, else what it had. -/
theorem extractFunctions_bare (unit : DieUnit) (entries : List Entry) (m : FunctionMap)
    (pc : UInt64) :
    ((extractFunctions unit entries m).get? pc).map FunctionMeta.bare =
      (((filedOf unit entries).reverse.find? fun r => r.2.lowPc = pc).map Prod.snd).or
        ((m.get? pc).map FunctionMeta.bare) := by
  rw [extractFunctions_eq, FunctionMap.get?_foldl_add, ← List.map_reverse, List.find?_map,
    Option.map_or, Option.map_map]
  congr 1
  cases hfind : (filedOf unit entries).reverse.find? fun r => r.2.lowPc = pc with
  | none =>
      have hsame : ((filedOf unit entries).reverse.find?
          ((fun f : FunctionMeta => decide (f.lowPc = pc)) ∘ Prod.snd)) = none := hfind
      rw [hsame]
      rfl
  | some r =>
      have hsame : ((filedOf unit entries).reverse.find?
          ((fun f : FunctionMeta => decide (f.lowPc = pc)) ∘ Prod.snd)) = some r := hfind
      rw [hsame]
      exact congrArg some (bare_of_mem_filedOf (List.mem_reverse.mp
        (List.mem_of_find?_eq_some hfind)))

/-- After a file a start has what was filed last there. -/
theorem parseFunctions_bare (units : List (DieUnit × List Entry)) (pc : UInt64) :
    ((parseFunctions units).get? pc).map FunctionMeta.bare =
      ((filed units).reverse.find? fun r => r.2.lowPc = pc).map Prod.snd := by
  have hfrom (m : FunctionMap) :
      ((units.foldl (fun m u => extractLocals u.1 u.2 (extractFunctions u.1 u.2 m)) m).get?
        pc).map FunctionMeta.bare =
        (((filed units).reverse.find? fun r => r.2.lowPc = pc).map Prod.snd).or
          ((m.get? pc).map FunctionMeta.bare) := by
    induction units generalizing m with
    | nil => rfl
    | cons u units ih =>
        have hfiled : filed (u :: units) = filedOf u.1 u.2 ++ filed units := List.flatMap_cons
        rw [List.foldl_cons, ih, extractLocals_bare, extractFunctions_bare, hfiled,
          List.reverse_append, List.find?_append, Option.map_or, Option.or_assoc]
  rw [parseFunctions, hfrom]
  exact Option.or_none

/-- The map holds, up to the locals, exactly what was filed last at each start. -/
theorem held_iff {units : List (DieUnit × List Entry)} {pc : UInt64} {f : FunctionMeta} :
    ((parseFunctions units).get? pc).map FunctionMeta.bare = some f ↔
      ∃ t, FiledLast (filed units) t ∧ t.2.lowPc = pc ∧ t.2 = f := by
  rw [parseFunctions_bare, Option.map_eq_some_iff]
  constructor
  · rintro ⟨t, ht, hf⟩
    obtain ⟨hlast, hpc⟩ := filedLast_iff.mp ht
    exact ⟨t, hlast, hpc, hf⟩
  · rintro ⟨t, hlast, hpc, hf⟩
    exact ⟨t, filedLast_iff.mpr ⟨hlast, hpc⟩, hf⟩

/-- The lookup finds what was filed last at the last start up to the address, if that holds the
address. -/
theorem isSome_funcContaining {units : List (DieUnit × List Entry)} {pc : UInt64} :
    (DwarfInfo.funcContaining { functions := parseFunctions units } pc).isSome ↔
      ∃ t, FiledLast (filed units) t ∧
        StartsLast (fun r : Tag × FunctionMeta => r.2.lowPc) (filed units) pc t ∧
        pc < t.2.highPc := by
  set m := parseFunctions units with hm
  have hstart (k : UInt64) (f : FunctionMeta) (hf : (k, f) ∈ m.entries) :
      ∃ t, FiledLast (filed units) t ∧ t.2.lowPc = k ∧ t.2 = f.bare := by
    apply held_iff.mp
    rw [← hm, SortedMap.get?_eq_some.mpr hf]
    rfl
  have hentry (t : Tag × FunctionMeta) (ht : FiledLast (filed units) t) :
      ∃ f, (t.2.lowPc, f) ∈ m.entries ∧ f.bare = t.2 := by
    obtain ⟨f, hf, hbare⟩ := Option.map_eq_some_iff.mp (held_iff.mpr ⟨t, ht, rfl, rfl⟩)
    exact ⟨f, SortedMap.get?_eq_some.mp hf, hbare⟩
  unfold DwarfInfo.funcContaining
  constructor
  · intro h
    cases hfloor : m.floor pc with
    | none =>
        rw [hfloor] at h
        cases h
    | some e =>
        rw [hfloor] at h
        obtain ⟨hmem, hle, hlast⟩ := SortedMap.floor_eq_some.mp hfloor
        obtain ⟨t, ht, hk, hbare⟩ := hstart e.1 e.2 hmem
        refine ⟨t, ht, ⟨ht.mem, hk ▸ hle, fun b hb hbpc => ?_⟩, ?_⟩
        · obtain ⟨u, hu, hsame⟩ := exists_filedLast hb
          obtain ⟨g, hg, -⟩ := hentry u hu
          have hbefore := hlast _ hg (hsame ▸ hbpc)
          rw [hk, ← hsame]
          exact hbefore
        · by_contra hnot
          have hend : t.2.highPc = e.2.bare.highPc := congrArg FunctionMeta.highPc hbare
          have hend : ¬pc < e.2.highPc := hend ▸ hnot
          dsimp only at h
          rw [if_neg hend] at h
          cases h
  · rintro ⟨t, ht, hlast, hin⟩
    obtain ⟨f, hf, hbare⟩ := hentry t ht
    have hfloor : m.floor pc = some (t.2.lowPc, f) := by
      refine SortedMap.floor_eq_some.mpr ⟨hf, hlast.le, fun a ha hapc => ?_⟩
      obtain ⟨u, hu, hk, -⟩ := hstart a.1 a.2 ha
      rw [← hk]
      exact hlast.last u hu.mem (hk ▸ hapc)
    have hend : f.bare.highPc = t.2.highPc := congrArg FunctionMeta.highPc hbare
    have hend : pc < f.highPc := lt_of_lt_of_eq hin hend.symm
    rw [hfloor]
    dsimp only
    rw [if_pos hend]
    rfl

/-- A lookup finds a range where there is one, and each subprogram is found at its start,
exactly if what is filed last at a start inside a range reaches far enough and is that
subprogram. -/
theorem findsFunctions_iff (units : List (DieUnit × List Entry)) :
    FindsFunctions units ↔ Reaching (filed units) := by
  have hmem : ∀ t, FiledLast (filed units) t → t ∈ filed units := fun t ht => ht.mem
  have hanswers := answers_iff (fun r => r.2.lowPc) (fun r => r.2.highPc) hmem
  constructor
  · intro h
    refine ⟨fun r t hr ht => hanswers.mp ?_ r hr t ht, fun r t hr htag ht hstart => ?_⟩
    · intro pc r hr hle hlt a ha hlast
      have hsome := (h.contains pc).mpr ⟨r, hr, hle, hlt⟩
      obtain ⟨t, ht, htlast, hin⟩ := isSome_funcContaining.mp hsome
      have hstart : t.2.lowPc = a.2.lowPc :=
        le_antisymm (hlast.last t htlast.mem htlast.le) (htlast.last a hlast.mem hlast.le)
      have hsame : t = a := Option.some.inj
        ((filedLast_iff.mpr ⟨ht, rfl⟩).symm.trans (filedLast_iff.mpr ⟨ha, hstart.symm⟩))
      exact hsame ▸ hin
    · obtain ⟨u, hu, hpc, hr2⟩ := held_iff.mp (h.kept r hr htag)
      have hsame : t = u := Option.some.inj
        ((filedLast_iff.mpr ⟨ht, hstart⟩).symm.trans (filedLast_iff.mpr ⟨hu, hpc⟩))
      rw [hsame, hr2]
  · intro h
    constructor
    · intro pc
      rw [isSome_funcContaining]
      constructor
      · rintro ⟨t, ht, hlast, hin⟩
        exact ⟨t, ht.mem, hlast.le, hin⟩
      · rintro ⟨r, hr, hle, hlt⟩
        obtain ⟨a, ha⟩ := exists_startsLast (fun r : Tag × FunctionMeta => r.2.lowPc) hr hle
        obtain ⟨t, ht, hstart⟩ := exists_filedLast ha.mem
        have hlast := ha.of_eq ht.mem hstart
        refine ⟨t, ht, hlast, hanswers.mpr (fun r hr t ht => ?_) pc r hr hle hlt t ht hlast⟩
        exact h.reaches r t hr ht
    · intro r hr htag
      obtain ⟨t, ht, hstart⟩ := exists_filedLast hr
      exact held_iff.mpr ⟨t, ht, hstart, h.subprogram r t hr htag ht hstart⟩

namespace NestedRange

/-- A function of 256 bytes with an inlined call of 16 bytes in it. -/
def main : Die := .ofList .subprogram
  [(.name, .string "main"), (.lowPc, .addr 0x1000), (.highPc, .udata 0x100)]

def inlined : Die := .ofList .inlinedSubroutine
  [(.abstractOrigin, .unitRef 7), (.lowPc, .addr 0x1010), (.highPc, .udata 0x10)]

def unit : DieUnit where
  entry off := if off = 7 then some (.ofList .subprogram [(.name, .string "helper")]) else none
  children _ := []

def units : List (DieUnit × List Entry) := [(unit, [⟨1, main⟩, ⟨2, inlined⟩])]

/-- Past the inlined call the address is in the function, and no function is found. -/
theorem not_findsFunctions : ¬∀ units, FindsFunctions units := by
  intro h
  have hsome := ((h units).contains 0x1080).mpr ⟨(.subprogram, ⟨"main", 0x1000, 0x1100, false, []⟩),
    List.mem_cons_self, by decide, by decide⟩
  have hnone : (DwarfInfo.funcContaining { functions := parseFunctions units } 0x1080).isSome =
      false := rfl
  rw [hnone] at hsome
  cases hsome

end NestedRange

end Rtmap.Engine
