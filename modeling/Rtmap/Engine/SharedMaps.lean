import Rtmap.Engine.Reconciler
import Rtmap.Tracer.HeadCache

/-!
# Shared mappings

The tracer tells the engine of each mmap of a shared mapping and of each munmap. The
event has the descriptor in its size field, where `0xFFFFFFFF` stands for an unmap.
-/
namespace Rtmap.Engine
open Rtmap.Ring Tracer

/-- What `process_event` says of a SHARED_MAP event. -/
inductive SharedMapReport where
  | map (addr length : UInt64) (fd : Int32)
  | unmap (addr length : UInt64)
deriving DecidableEq

/-- The arm of EVENT_SHARED_MAP. -/
def sharedMapReport (ev : Event) : SharedMapReport :=
  if ev.size = 0xFFFFFFFF then .unmap ev.addr ev.value
  else .map ev.addr ev.value ev.size.toInt32

/-- What the system call did. -/
def happened : Syscall → SharedMapReport
  | .mmap length _ fd ret => .map ret length fd.toInt32
  | .munmap addr length _ => .unmap addr length

/-- The events that the post hook pushes. -/
def reported (c : Syscall) (env : Env) (t : Thread) : List Event :=
  if env.phase = .boot ∨ t.mapped = false then []
  else (Thread.admitted env t.capacity.size t.head t.tlsSeq 0 (c.pushes t)).flatMap Op.slots

section Hook
variable {c : Syscall} {env : Env} {t : Thread} {e : Event}

/-- A reported call has succeeded, and its event holds its address, length and descriptor,
or the mark of an unmap. -/
theorem of_mem_reported (h : e ∈ reported c env t) : e.kind = EVENT_SHARED_MAP ∧
    ((∃ length flags fd ret, c = .mmap length flags fd ret ∧
      e.addr = ret ∧ e.size = fd ∧ e.value = length) ∨
    ∃ addr length ret, c = .munmap addr length ret ∧
      e.addr = addr ∧ e.size = 0xFFFFFFFF ∧ e.value = length) := by
  unfold reported at h
  split at h
  · cases h
  · obtain ⟨op, hop, he⟩ := List.mem_flatMap.mp h
    obtain ⟨p, hp, q, rfl⟩ := mem_admitted hop
    cases c with
    | mmap length flags fd ret =>
        simp only [Syscall.pushes] at hp
        split at hp
        · cases hp
        · split at hp
          · cases hp
          · obtain rfl := List.mem_singleton.mp hp
            obtain rfl := List.mem_singleton.mp he
            exact ⟨kind_makeKf .., .inl ⟨length, flags, fd, ret, rfl, rfl, rfl, rfl⟩⟩
    | munmap addr length ret =>
        simp only [Syscall.pushes] at hp
        split at hp
        · cases hp
        · obtain rfl := List.mem_singleton.mp hp
          obtain rfl := List.mem_singleton.mp he
          exact ⟨kind_makeKf .., .inr ⟨addr, length, ret, rfl, rfl, rfl, rfl⟩⟩

end Hook

/-- A mapping of no file, whose descriptor is -1. -/
def Anonymous : Syscall → Prop
  | .mmap _ _ fd _ => fd = 0xFFFFFFFF
  | .munmap .. => False

instance : DecidablePred Anonymous
  | .mmap _ _ fd _ => inferInstanceAs (Decidable (fd = 0xFFFFFFFF))
  | .munmap .. => inferInstanceAs (Decidable False)

/-- A reported call is decoded as what it was exactly if it is no mmap with descriptor -1. -/
theorem shared_map_decodes_iff {c : Syscall} {env : Env} {t : Thread}
    (hreported : reported c env t ≠ []) :
    (∀ e ∈ reported c env t, kindOf e = .sharedMap ∧ sharedMapReport e = happened c) ↔
      ¬ Anonymous c := by
  have hkind {e : Event} (he : e.kind = EVENT_SHARED_MAP) : kindOf e = .sharedMap := by
    unfold kindOf
    rw [he]
    decide
  constructor
  · intro hall hanon
    obtain ⟨e, he⟩ := List.exists_mem_of_ne_nil _ hreported
    obtain ⟨-, hreport⟩ := hall e he
    obtain ⟨-, ⟨length, flags, fd, ret, rfl, -, hsize, -⟩ | ⟨addr, length, ret, rfl, -⟩⟩ :=
      of_mem_reported he
    · rw [sharedMapReport, hsize, if_pos (by exact hanon)] at hreport
      cases hreport
    · exact hanon
  · intro hfile e he
    obtain ⟨hevent, ⟨length, flags, fd, ret, rfl, haddr, hsize, hvalue⟩ |
      ⟨addr, length, ret, rfl, haddr, hsize, hvalue⟩⟩ := of_mem_reported he
    · refine ⟨hkind hevent, ?_⟩
      rw [sharedMapReport, hsize, if_neg (by exact hfile), haddr, hvalue]
      rfl
    · refine ⟨hkind hevent, ?_⟩
      rw [sharedMapReport, if_pos hsize, haddr, hvalue]
      rfl

/-- A thread in its tracing phase, with an empty ring. -/
def freshThread : Thread := .start THREAD_RING_CAPACITY true 1 fun _ => some 0

theorem file_map_decodes :
    (∀ e ∈ reported (.mmap 0x2000 1 5 0x7f0000000000) .plain freshThread,
      kindOf e = .sharedMap ∧ sharedMapReport e = .map 0x7f0000000000 0x2000 5) ∧
    (reported (.mmap 0x2000 1 5 0x7f0000000000) .plain freshThread).length = 1 :=
  ⟨(shared_map_decodes_iff (c := .mmap 0x2000 1 5 0x7f0000000000) (by decide)).mpr (by decide),
    by decide⟩

/-- Memory shared with children only: mapped, and reported as unmapped. -/
theorem anonymous_map_decodes_as_unmap :
    (reported (.mmap 0x1000 0x21 0xFFFFFFFF 0x7f0000000000) .plain freshThread).map
      sharedMapReport = [.unmap 0x7f0000000000 0x1000] ∧
    happened (.mmap 0x1000 0x21 0xFFFFFFFF 0x7f0000000000) = .map 0x7f0000000000 0x1000 (-1) := by
  decide

end Rtmap.Engine
