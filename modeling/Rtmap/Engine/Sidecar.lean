import Rtmap.Engine.LibFunctions
import Rtmap.Lib.Unfolding
import Rtmap.Tracer.ModuleTable

/-!
# The sidecar and the library list

The engine relocates its libraries when it finds each of them among the modules that the
tracer has recorded. Which modules the tracer records is decided by their names and their
number, and one record that is not UTF-8 makes the file unreadable.
-/
namespace Rtmap.Engine
open Text Rtmap.Tracer

deriving instance DecidableEq for Module

/-- A line of the file: a base and a path, which is not empty. The path is UTF-8 as the
file is. -/
def readLine (line : Text.Bytes) : Option Module :=
  match line.dropWhile (· ≠ 32) with
  | [] => none
  | _ :: path =>
      (fromStrRadix16 (line.takeWhile (· ≠ 32))).bind fun base =>
        if path.isEmpty then none else (decode path).map fun path => ⟨base, path⟩

def readModuleTable (sidecar : Option Text.Bytes) : List Module :=
  match sidecar with
  | none => []
  | some content => if (decode content).isSome then (lines content).filterMap readLine else []

/-- What the line of a module is read as. -/
def readBack (m : ModuleData) : List Module :=
  (lines (m.entry.text ++ [NEWLINE])).filterMap readLine

/-- The library has a line in the sidecar. -/
def HasLine (loads : List ModuleData) (lib : LibDwarf) : Prop :=
  ∃ base, ⟨base, lib.libPath⟩ ∈ readModuleTable (Modules.after loads).sidecar

/-- `merge_needed_libs` keeps libraries with globals or functions only. -/
def LibDwarf.Harvested (lib : LibDwarf) : Prop := lib.globals ≠ [] ∨ lib.functions.entries ≠ []

section Reading

theorem ascii_toHex (x : UInt64) : ∀ b ∈ toHex x.toNat ++ [32], b < 128 := by
  intro b hb
  rcases List.mem_append.mp hb with hb | hb
  · obtain ⟨d, hd, rfl⟩ := mem_toHex hb
    exact (hexDigit_spec d hd).2.1
  · rw [List.mem_singleton.mp hb]
    decide

theorem isSome_decode_text (e : ModtabEntry) :
    (decode e.text).isSome = (decode e.path).isSome := by
  have htext : e.text = (toHex e.base.toNat ++ [32]) ++ e.path := by
    rw [ModtabEntry.text, List.append_assoc, List.singleton_append]
  rw [htext, isSome_decode_append_of_ascii (ascii_toHex e.base)]

/-- The file is read if all recorded paths, as far as they are kept, are UTF-8, and then
line by line. -/
theorem mem_readModuleTable {loads : List ModuleData} {x : Module} :
    x ∈ readModuleTable (Modules.after loads).sidecar ↔
      (∀ m ∈ Tracer.recorded loads, (decode (m.fullPath.take 255)).isSome = true) ∧
        ∃ m ∈ Tracer.recorded loads, x ∈ readBack m := by
  rw [(after_spec loads).2]
  by_cases hnone : Tracer.recorded loads = []
  · rw [if_pos hnone, hnone]
    exact iff_of_false List.not_mem_nil fun h => by
      obtain ⟨m, hm, -⟩ := h.2
      cases hm
  · rw [if_neg hnone, readModuleTable, flushModtab_eq]
    have hread : (decode (((Tracer.recorded loads).map ModuleData.entry).flatMap fun e =>
        e.text ++ [NEWLINE])).isSome = true ↔
          ∀ m ∈ Tracer.recorded loads, (decode (m.fullPath.take 255)).isSome = true := by
      rw [isSome_decode_flatMap, List.forall_mem_map]
      simp only [isSome_decode_text]
      rfl
    have hlines : (lines (((Tracer.recorded loads).map ModuleData.entry).flatMap fun e =>
        e.text ++ [NEWLINE])).filterMap readLine = (Tracer.recorded loads).flatMap readBack := by
      rw [lines_flatMap, List.flatMap_map, List.filterMap_flatMap]
      rfl
    split
    · rename_i hvalid
      rw [hlines, List.mem_flatMap]
      exact ⟨fun h => ⟨hread.mp hvalid, h⟩, fun h => h.2⟩
    · rename_i hinvalid
      exact iff_of_false List.not_mem_nil fun h => hinvalid (hread.mpr h.1)

/-- A path of at most 255 bytes without ends of line is read back. -/
theorem readBack_of_plain {m : ModuleData} {path : String} (hpath : decode m.fullPath = some path)
    (hne : m.fullPath ≠ []) (hlen : m.fullPath.length ≤ 255) (hnewline : NEWLINE ∉ m.fullPath)
    (hreturn : m.fullPath.getLast? ≠ some CARRIAGE_RETURN) : readBack m = [⟨m.start, path⟩] := by
  have hkept : m.entry.path = m.fullPath := List.take_of_length_le hlen
  have hhex (b : UInt8) (hb : b ∈ toHex m.start.toNat) : b ≠ 32 ∧ b ≠ NEWLINE := by
    obtain ⟨d, hd, rfl⟩ := mem_toHex hb
    exact ⟨(hexDigit_spec d hd).2.2.1, (hexDigit_spec d hd).2.2.2.1⟩
  have htext : m.entry.text = toHex m.start.toNat ++ 32 :: m.fullPath := by
    rw [ModtabEntry.text, hkept]
    rfl
  have hline : lines (m.entry.text ++ [NEWLINE]) = [m.entry.text] := by
    rw [htext]
    refine lines_record (fun hmem => ?_) ?_
    · rcases List.mem_append.mp hmem with hmem | hmem
      · exact (hhex _ hmem).2 rfl
      · rcases List.mem_cons.mp hmem with heq | hmem
        · exact absurd heq (by decide)
        · exact hnewline hmem
    · rw [List.getLast?_append, List.getLast?_cons]
      cases hlast : m.fullPath.getLast? with
      | none => exact absurd (List.getLast?_eq_none_iff.mp hlast) hne
      | some b =>
          rw [hlast] at hreturn
          simpa using hreturn
  have htake : m.entry.text.takeWhile (· ≠ 32) = toHex m.start.toNat := by
    rw [htext, List.takeWhile_append_of_pos fun b hb => by simpa using (hhex b hb).1]
    simp
  have hdrop : m.entry.text.dropWhile (· ≠ 32) = 32 :: m.fullPath := by
    rw [htext, List.dropWhile_append_of_pos fun b hb => by simpa using (hhex b hb).1]
    simp
  have hempty : m.fullPath.isEmpty = false := by
    cases hfull : m.fullPath with
    | nil => exact absurd hfull hne
    | cons b bs => rfl
  rw [readBack, hline, List.filterMap_cons, readLine, hdrop, htake]
  simp only [fromStrRadix16_toHex, Option.bind_some, hempty, hpath, Option.map_some,
    Bool.false_eq_true, if_false, List.filterMap_nil]

end Reading

section Commit
variable {host : Host} {s : State} {info : DwarfInfo}

/-- Libraries that all have their line are committed. -/
theorem commits_of_lines {modtab : List Module} (hinfo : s.dwarfInfo = some info)
    (hne : info.libGlobals ≠ []) (hharvested : ∀ lib ∈ info.libGlobals, lib.Harvested)
    (hlines : ∀ lib ∈ info.libGlobals, ∃ base, (⟨base, lib.libPath⟩ : Module) ∈ modtab) :
    (populateLibGlobals host modtab s).2 ≠ (0, 0) := by
  obtain ⟨lib, hlib⟩ := List.exists_mem_of_ne_nil _ hne
  have htable : modtab.isEmpty = false := by
    obtain ⟨base, hbase⟩ := hlines lib hlib
    cases modtab with
    | nil => cases hbase
    | cons m ms => rfl
  have hplaced : ∀ lib ∈ info.libGlobals, (libDelta modtab lib).isSome = true := by
    intro lib hlib
    obtain ⟨base, hbase⟩ := hlines lib hlib
    rw [libDelta, Option.isSome_map, List.find?_isSome]
    exact ⟨_, hbase, by simp⟩
  obtain ⟨deltas, hdeltas⟩ := Option.isSome_iff_exists.mp (Unfolding.isSome_mapM_iff.mpr hplaced)
  simp only [populateLibGlobals, hinfo, htable, hdeltas, Bool.false_eq_true, if_false]
  intro hzero
  obtain ⟨hglobals, hfunctions⟩ := Prod.mk.inj hzero
  rcases hharvested lib hlib with hsome | hsome
  · have hlen := List.sum_eq_zero_iff_forall_eq_nat.mp hglobals _ (List.mem_map_of_mem hlib)
    exact hsome (List.eq_nil_of_length_eq_zero hlen)
  · have hlen := List.sum_eq_zero_iff_forall_eq_nat.mp hfunctions _ (List.mem_map_of_mem hlib)
    exact hsome (List.eq_nil_of_length_eq_zero hlen)

/-- Every library has its line, so that the merge commits, exactly if each of them is
read back from a recorded module and all recorded paths are UTF-8. -/
theorem libraries_commit_iff (loads : List ModuleData) (host : Host)
    (hinfo : s.dwarfInfo = some info) (hne : info.libGlobals ≠ [])
    (hharvested : ∀ lib ∈ info.libGlobals, lib.Harvested) :
    ((∀ lib ∈ info.libGlobals, HasLine loads lib) ∧
      (populateLibGlobals host (readModuleTable (Modules.after loads).sidecar) s).2 ≠ (0, 0)) ↔
    (∀ m ∈ Tracer.recorded loads, (decode (m.fullPath.take 255)).isSome = true) ∧
      ∀ lib ∈ info.libGlobals, ∃ m ∈ Tracer.recorded loads, ∃ base, ⟨base, lib.libPath⟩ ∈ readBack m := by
  constructor
  · rintro ⟨hlines, -⟩
    refine ⟨?_, fun lib hlib => ?_⟩
    · obtain ⟨lib, hlib⟩ := List.exists_mem_of_ne_nil _ hne
      obtain ⟨base, hbase⟩ := hlines lib hlib
      exact (mem_readModuleTable.mp hbase).1
    · obtain ⟨base, hbase⟩ := hlines lib hlib
      obtain ⟨m, hm, hread⟩ := (mem_readModuleTable.mp hbase).2
      exact ⟨m, hm, base, hread⟩
  · rintro ⟨hutf8, hread⟩
    have hlines : ∀ lib ∈ info.libGlobals, HasLine loads lib := by
      intro lib hlib
      obtain ⟨m, hm, base, hbase⟩ := hread lib hlib
      exact ⟨base, mem_readModuleTable.mpr ⟨hutf8, m, hm, hbase⟩⟩
    exact ⟨hlines, commits_of_lines hinfo hne hharvested hlines⟩

end Commit

/-- A program that loads a library of the name. -/
def loadsOf (name path : String) : List ModuleData :=
  [⟨some (encode "app"), encode "/usr/bin/app", 0x555555554000, 0x555555560000⟩,
    ⟨some (encode name), encode path, 0x7f0000000000, 0x7f0000100000⟩]

theorem math_library_commits : HasLine (loadsOf "libm.so" "/lib/libm.so") oneLibrary ∧
    (populateLibGlobals .plain
      (readModuleTable (Modules.after (loadsOf "libm.so" "/lib/libm.so")).sidecar)
      (placedAt 0)).2 ≠ (0, 0) := by
  have hall (lib : LibDwarf) (hlib : lib ∈ mainAndLibrary.libGlobals) : lib = oneLibrary :=
    List.mem_singleton.mp hlib
  have hread : readBack (loadsOf "libm.so" "/lib/libm.so")[1] = [⟨0x7f0000000000, "/lib/libm.so"⟩] :=
    readBack_of_plain (decode_eq_some_iff.mpr rfl) (by decide +kernel) (by decide +kernel)
      (by decide +kernel) (by decide +kernel)
  obtain ⟨hlines, hcommits⟩ := (libraries_commit_iff (s := placedAt 0)
      (loadsOf "libm.so" "/lib/libm.so") .plain rfl (by decide) fun lib hlib => by
        rw [hall lib hlib]
        exact .inr (by decide +kernel)).mpr
    ⟨by decide +kernel, fun lib hlib => by
      rw [hall lib hlib]
      refine ⟨(loadsOf "libm.so" "/lib/libm.so")[1], by decide +kernel, 0x7f0000000000, ?_⟩
      rw [hread]
      exact List.mem_cons_self⟩
  exact ⟨hlines _ List.mem_cons_self, hcommits⟩

/-- `libcurl`, with one function. -/
def curlLibrary : LibDwarf := { oneLibrary with libPath := "/usr/lib/libcurl.so.4" }

/-- It is taken for a part of the C library, and its line is missing for good. -/
theorem curl_library_never_commits :
    let loads := loadsOf "libcurl.so.4" "/usr/lib/libcurl.so.4"
    let s : State := { placedAt 0 with dwarfInfo := some { mainAndLibrary with libGlobals := [curlLibrary] } }
    curlLibrary.Harvested ∧ (loads.map ModuleData.fullPath).contains (encode curlLibrary.libPath) = true ∧
      ¬ HasLine loads curlLibrary ∧
      (populateLibGlobals .plain (readModuleTable (Modules.after loads).sidecar) s).2 = (0, 0) := by
  have htable : readModuleTable (Modules.after (loadsOf "libcurl.so.4" "/usr/lib/libcurl.so.4")).sidecar =
      [⟨0x555555554000, "/usr/bin/app"⟩] := by
    decide +kernel
  refine ⟨.inr (by decide +kernel), by decide +kernel, ?_, ?_⟩
  · rintro ⟨base, hbase⟩
    rw [htable, List.mem_singleton, Module.mk.injEq] at hbase
    exact absurd hbase.2 (by decide +kernel)
  · rw [htable]
    decide +kernel

end Rtmap.Engine
