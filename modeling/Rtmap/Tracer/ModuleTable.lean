import Mathlib.Data.List.Induction
import Mathlib.Data.Nat.Digits.Lemmas
import Rtmap.Lib.TextLines

/-!
# The tracer's module table

`event_module_load` keeps the first modules that its substring tests do not take for a
part of the system, and writes them all to the sidecar file each time.
-/
namespace Rtmap.Tracer
open Text

def MODTAB_MAX : ℕ := 64

/-- The needle occurs in the string. -/
def strstr (haystack : Bytes) (needle : String) : Bool :=
  haystack.tails.any fun rest => (encode needle).isPrefixOf rest

/-- A module as `event_module_load` gets it, its C strings without their ends. -/
structure ModuleData where
  name : Option Bytes
  fullPath : Bytes
  start : UInt64
  stop : UInt64
deriving DecidableEq

def isSystemModule (name : Bytes) : Bool :=
  strstr name "vdso" || strstr name "ld-linux" || strstr name "libpthread" ||
    strstr name "librtmap" || strstr name "libdynamorio" || strstr name "libdr"

/-- The test for the module table. The one for the main module is the same. -/
def ModuleData.isRecordable (m : ModuleData) : Bool :=
  m.name.any fun name => !m.fullPath.isEmpty && !isSystemModule name && !strstr name "libc"

/-- An entry of the table. Its path is a buffer of 256 bytes with an end. -/
structure ModtabEntry where
  base : UInt64
  path : Bytes
  path_le : path.length ≤ 255

def ModuleData.entry (m : ModuleData) : ModtabEntry where
  base := m.start
  path := m.fullPath.take 255
  path_le := List.length_take_le ..

/-- The line without its newline. -/
def ModtabEntry.text (e : ModtabEntry) : Bytes := toHex e.base.toNat ++ 32 :: e.path

/-- The file that `flush_modtab` writes, each line through a buffer of 320 bytes. -/
def flushModtab (modtab : List ModtabEntry) : Bytes :=
  modtab.flatMap fun e => (e.text ++ [NEWLINE]).take 319

/-- The tracer's knowledge of modules, with the sidecar file, if it was written. -/
structure Modules where
  modtab : List ModtabEntry := []
  sidecar : Option Bytes := none
  mainModule : Option (UInt64 × UInt64) := none

def Modules.eventModuleLoad (s : Modules) (m : ModuleData) : Modules :=
  let s :=
    if m.isRecordable then
      if s.modtab.length < MODTAB_MAX then
        let modtab := s.modtab ++ [m.entry]
        { s with modtab := modtab, sidecar := some (flushModtab modtab) }
      else s
    else s
  if s.mainModule = none then
    if m.isRecordable then { s with mainModule := some (m.start, m.stop) } else s
  else s

/-- After the loads, in their order. -/
def Modules.after (loads : List ModuleData) : Modules := loads.foldl eventModuleLoad {}

/-- The loads that have an entry. -/
def recorded (loads : List ModuleData) : List ModuleData :=
  (loads.filter ModuleData.isRecordable).take MODTAB_MAX

section Table

theorem length_toHex_le (x : UInt64) : (toHex x.toNat).length ≤ 16 := by
  rw [toHex]
  split
  · decide
  · rw [List.length_reverse, List.length_map, Nat.digits_length_le_iff (by omega)]
    exact x.toNat_lt

/-- No line is cut. -/
theorem flushModtab_eq (modtab : List ModtabEntry) :
    flushModtab modtab = modtab.flatMap fun e => e.text ++ [NEWLINE] := by
  rw [flushModtab]
  congr 1
  funext e
  have hbase := length_toHex_le e.base
  have hpath := e.path_le
  refine List.take_of_length_le ?_
  simp only [ModtabEntry.text, List.length_append, List.length_cons, List.length_nil]
  omega

theorem recorded_concat (loads : List ModuleData) (m : ModuleData) :
    recorded (loads ++ [m]) =
      if m.isRecordable = true ∧ (recorded loads).length < MODTAB_MAX then recorded loads ++ [m]
      else recorded loads := by
  rw [recorded, recorded, List.filter_append, List.take_append, List.length_take]
  cases hm : m.isRecordable with
  | false => simp [hm]
  | true =>
      simp only [hm, List.filter_cons_of_pos, List.filter_nil, true_and]
      split
      · rename_i hroom
        rw [List.take_of_length_le (l := [m])]
        rw [List.length_singleton]
        omega
      · rename_i hfull
        rw [show MODTAB_MAX - (loads.filter ModuleData.isRecordable).length = 0 by omega,
          List.take_zero, List.append_nil]

theorem eventModuleLoad_spec (s : Modules) (m : ModuleData) :
    (s.eventModuleLoad m).modtab =
        (if m.isRecordable = true ∧ s.modtab.length < MODTAB_MAX then s.modtab ++ [m.entry]
          else s.modtab) ∧
      (s.eventModuleLoad m).sidecar =
        if m.isRecordable = true ∧ s.modtab.length < MODTAB_MAX then
          some (flushModtab (s.modtab ++ [m.entry])) else s.sidecar := by
  have hmain (u : Modules) :
      (if u.mainModule = none then { u with mainModule := some (m.start, m.stop) } else u).modtab =
          u.modtab ∧
        (if u.mainModule = none then { u with mainModule := some (m.start, m.stop) } else u).sidecar =
          u.sidecar := by
    split <;> exact ⟨rfl, rfl⟩
  cases hm : m.isRecordable with
  | false => simp [Modules.eventModuleLoad, hm]
  | true =>
      simp only [Modules.eventModuleLoad, hm, if_true, true_and]
      split
      · exact hmain _
      · exact hmain s

/-- The table has the recorded loads, and once it has one the file holds it. -/
theorem after_spec (loads : List ModuleData) :
    (Modules.after loads).modtab = (recorded loads).map ModuleData.entry ∧
      (Modules.after loads).sidecar = if recorded loads = [] then none
        else some (flushModtab ((recorded loads).map ModuleData.entry)) := by
  induction loads using List.reverseRecOn with
  | nil => exact ⟨rfl, rfl⟩
  | append_singleton loads m ih =>
      obtain ⟨hmodtab, hsidecar⟩ := ih
      have hstep : Modules.after (loads ++ [m]) = (Modules.after loads).eventModuleLoad m := by
        rw [Modules.after, List.foldl_append]
        rfl
      obtain ⟨htable, hfile⟩ := eventModuleLoad_spec (Modules.after loads) m
      rw [hstep, htable, hfile, hmodtab, hsidecar, List.length_map, recorded_concat]
      split
      · rw [if_neg (by simp), List.map_append]
        exact ⟨rfl, rfl⟩
      · exact ⟨rfl, rfl⟩

end Table

end Rtmap.Tracer
