import Rtmap.Ring.Accounting
import Rtmap.Ring.Discovery
import Rtmap.Ring.Owners

/-!
# Rings tracked once

The table of threads together with the headers of their rings, which the drain reads:
it retires a ring that is terminal and empty, whatever the ring's slot says. The second
loop of a poll opens the ring of every active slot whose thread has no live ring, so a
ring that was retired before its slot is dead is opened again.
-/
namespace Rtmap.Ring.Discovery
open Transition

/-- Both positions and the status of `rtmap_ring_header_t`, as `rtmap_ring_init` leaves
them. -/
structure RingHeader where
  head : ℕ := 0
  tail : ℕ := 0
  terminal : Bool := false

/-- The table with the rings that it names. `lapped` is the field `lapped_events` of the
tracked rings, by position; `delivered` collects the events of all drains, each as its
ring and its index there. -/
structure Tracker where
  table : State
  header : List UInt8 → RingHeader
  lapped : ℕ → ℕ
  delivered : List (List UInt8 × ℕ)

/-- `drain` is one turn of `batch_drain`. -/
inductive Act where
  | table (l : Label)
  | write (k n : ℕ)
  | terminate (k : ℕ)
  | drain (j : ℕ) (c : Call)

namespace Tracker

def init : Tracker := ⟨.init, fun _ => {}, fun _ => 0, []⟩

def setHeader (s : Tracker) (name : List UInt8) (h : RingHeader) : Tracker :=
  { s with header := Function.update s.header name h }

/-- A step of the table. A ring is there before its thread registers, and a thread ends
its ring before it marks its slot. The drain is a step of its own. -/
def tableStep (l : Label) (s : Tracker) : Option Tracker :=
  match l with
  | .start _ name =>
      (step l s.table).map fun t => { s with table := t }.setHeader name.bytes {}
  | .die k =>
      match s.table.threads[k]? with
      | none => none
      | some r =>
          if (s.header r.name.bytes).terminal then
            (step l s.table).map fun t => { s with table := t }
          else none
  | .retire _ => none
  | .advance _ | .poll | .engine => (step l s.table).map fun t => { s with table := t }

/-- Thread `k` publishes `n` more events. -/
def write (k n : ℕ) (s : Tracker) : Option Tracker :=
  match s.table.threads[k]? with
  | none => none
  | some r =>
      let h := s.header r.name.bytes
      some (s.setHeader r.name.bytes { h with head := h.head + n })

/-- `event_pre_syscall` at an exit, or `event_thread_exit`. -/
def terminate (k : ℕ) (s : Tracker) : Option Tracker :=
  match s.table.threads[k]? with
  | none => none
  | some r =>
      match r.stage with
      | .done _ | .failed =>
          some (s.setHeader r.name.bytes { s.header r.name.bytes with terminal := true })
      | _ => none

def cursor (capacity : List UInt8 → Capacity) (s : Tracker) (j : ℕ) (name : List UInt8) :
    Cursor where
  capacity := capacity name
  tail := (s.header name).tail
  lappedEvents := s.lapped j

/-- Whether the turn of ring `j` retires it, which leaves its tail at `tail`. -/
def retires (s : Tracker) (r : ThreadRing) (tail : ℕ) : Bool :=
  r.alive && (s.header r.name).terminal && (s.header r.name).head == tail

/-- `consume_batch` on ring `j`, whose loads of the head are somewhere in the past, and
the last look at the ring. -/
def drain (capacity : List UInt8 → Capacity) (j : ℕ) (c : Call) (s : Tracker) :
    Option Tracker :=
  match s.table.rings[j]? with
  | none => none
  | some r =>
      let h := s.header r.name
      if s.table.poll = .idle ∧ 0 < c.outLen ∧ h.tail ≤ c.head ∧ c.head ≤ c.head2 ∧
          c.head2 ≤ h.head then
        let (ring, out) := (s.cursor capacity j r.name).consumeBatch c
        let rings :=
          if s.retires r ring.tail then
            s.table.rings.modify j fun r => { r with alive := false }
          else s.table.rings
        some {
          table := { s.table with rings := rings }
          header := Function.update s.header r.name { h with tail := ring.tail }
          lapped := Function.update s.lapped j ring.lappedEvents
          delivered := s.delivered ++
            (List.range' (ring.tail - out.length) out.length).map (r.name, ·) }
      else none

def step (capacity : List UInt8 → Capacity) : Act → Tracker → Option Tracker
  | .table l, s => s.tableStep l
  | .write k n, s => s.write k n
  | .terminate k, s => s.terminate k
  | .drain j c, s => s.drain capacity j c

def names (s : Tracker) : List (List UInt8) := s.table.rings.map ThreadRing.name

end Tracker

/-- The slot that a registration looks at. -/
def Stage.scanning : Stage → Option ℕ
  | .scan i => some i
  | _ => none

/-- The condition of a run: thread ids and ring names are not used again; a dead slot is
reclaimed once the first loop of a poll has passed it, and not while a poll reads it; a
ring is not retired while an active slot names it. -/
def Tracker.Quiet (capacity : List UInt8 → Capacity) : Act → Tracker → Prop
  | .table (.start tid name), s =>
      ∀ r ∈ s.table.threads, r.tid ≠ tid ∧ r.name.bytes ≠ name.bytes
  | .table (.advance k), s =>
      ∀ r ∈ s.table.threads[k]?, ∀ i ∈ r.stage.scanning, (s.table.slots i).state = .dead →
        i < s.table.knownCount ∧ s.table.reading ≠ some i
  | .drain j c, s =>
      ∀ r ∈ s.table.rings[j]?,
        s.retires r ((s.cursor capacity j r.name).consumeBatch c).1.tail = true →
          ∀ i < MAX_THREADS, (s.table.slots i).state = .active → (s.table.slots i).name ≠ r.name
  | .table (.die _), _ | .table .poll, _ | .table .engine, _ | .table (.retire _), _ => True
  | .write .., _ | .terminate _, _ => True

instance (capacity : List UInt8 → Capacity) (a : Act) (s : Tracker) :
    Decidable (Tracker.Quiet capacity a s) :=
  match a with
  | .table (.start _ _) => inferInstanceAs (Decidable (∀ r ∈ s.table.threads, _ ∧ _))
  | .table (.advance k) =>
      inferInstanceAs (Decidable (∀ r ∈ s.table.threads[k]?, ∀ i ∈ r.stage.scanning, _ → _))
  | .drain j _ => inferInstanceAs (Decidable (∀ r ∈ s.table.rings[j]?, _ → ∀ i < MAX_THREADS, _ → _))
  | .table (.die _) | .table .poll | .table .engine | .table (.retire _) => .isTrue trivial
  | .write .. | .terminate _ => .isTrue trivial

/-- A poll adds rings at the end of the list and keeps those that are there. -/
theorem engine_names {s s' : State} (hs : s.engine = some s') :
    ∃ new, s'.rings.map ThreadRing.name = s.rings.map ThreadRing.name ++ new := by
  have hopened (i : ℕ) : ∃ new,
      (s.opened i).map ThreadRing.name = s.rings.map ThreadRing.name ++ new := by
    rcases Once.opened_eq s i with hsame | hpush
    · exact ⟨[], by rw [hsame, List.append_nil]⟩
    · exact ⟨[(s.slots i).name], by rw [hpush, List.map_append, List.map_singleton]⟩
  have hsame : ∃ new, s.rings.map ThreadRing.name = s.rings.map ThreadRing.name ++ new :=
    ⟨[], (List.append_nil _).symm⟩
  unfold State.engine at hs
  split at hs
  · cases hs
  · cases hs
  · split at hs
    · split at hs
      · obtain rfl := Option.some.inj hs
        exact hsame
      · split at hs <;> obtain rfl := Option.some.inj hs <;> exact hsame
    · obtain rfl := Option.some.inj hs
      exact hsame
  · obtain rfl := Option.some.inj hs
    dsimp only
    split
    · rw [map_markFirst]
      exact hopened _
    · exact hopened _
  · split at hs
    · split at hs <;> obtain rfl := Option.some.inj hs <;> exact hsame
    · obtain rfl := Option.some.inj hs
      exact hsame
  · obtain rfl := Option.some.inj hs
    dsimp only
    split
    · rw [map_markFirst]
      exact hsame
    · split
      · exact hsame
      · exact hopened _
    · exact hsame
    · exact hsame

/-- The rings are tracked once, and so each event of a ring below its tail is delivered
once or counted once. -/
structure Tracker.Sound (s : Tracker) : Prop where
  once : Once s.table
  fresh : ∀ j, s.names.length ≤ j → s.lapped j = 0
  unread : ∀ name, name ∉ s.names → (s.header name).tail = 0
  seen : ∀ d ∈ s.delivered, d.2 < (s.header d.1).tail
  nodup : s.delivered.Nodup
  counted : ∀ j name, s.names[j]? = some name →
    s.delivered.countP (·.1 == name) + s.lapped j = (s.header name).tail

namespace Tracker.Sound
variable {s s' : Tracker} {capacity : List UInt8 → Capacity}

theorem init : Sound .init where
  once := .init
  fresh := by simp [Tracker.init]
  unread := by simp [Tracker.init]
  seen := by simp [Tracker.init]
  nodup := List.nodup_nil
  counted := by simp [Tracker.init, Tracker.names, State.init]

/-- Rings may be opened while no tail moves. -/
theorem grow (h : Sound s) (honce : Once s'.table) (hnames : ∃ new, s'.names = s.names ++ new)
    (htail : ∀ name, (s'.header name).tail = (s.header name).tail)
    (hlapped : s'.lapped = s.lapped) (hdelivered : s'.delivered = s.delivered) : Sound s' := by
  obtain ⟨new, hnew⟩ := hnames
  have hnodup : (s.names ++ new).Nodup := hnew ▸ honce.listed.once
  refine ⟨honce, ?_, ?_, ?_, ?_, ?_⟩
  · intro j hj
    rw [hnew, List.length_append] at hj
    rw [hlapped]
    exact h.fresh j (by omega)
  · intro name hname
    rw [hnew, List.mem_append, not_or] at hname
    rw [htail]
    exact h.unread name hname.1
  · intro d hd
    rw [hdelivered] at hd
    rw [htail]
    exact h.seen d hd
  · rw [hdelivered]
    exact h.nodup
  · intro j name hj
    rw [hdelivered, hlapped, htail]
    rw [hnew] at hj
    by_cases hlt : j < s.names.length
    · rw [List.getElem?_append_left hlt] at hj
      exact h.counted j name hj
    · -- a new ring: nothing of it was read before
      rw [List.getElem?_append_right (Nat.not_lt.mp hlt)] at hj
      have hnot : name ∉ s.names := fun hmem =>
        (List.nodup_append.mp hnodup).2.2 name hmem name (List.mem_of_getElem? hj) rfl
      have hzero := h.unread name hnot
      have hnone : s.delivered.countP (·.1 == name) = 0 := by
        rw [List.countP_eq_zero]
        intro d hd hdname
        have hlt := h.seen d hd
        rw [beq_iff_eq.mp hdname, hzero] at hlt
        omega
      rw [hnone, h.fresh j (Nat.not_lt.mp hlt), hzero]

/-- One ring's tail moves to `tail`, the last `len` events before it are delivered, and
those in front of them counted. -/
theorem deliver (h : Sound s) {j tail len lapped : ℕ} {name : List UInt8}
    (hj : s.names[j]? = some name) (hgrown : (s.header name).tail + len ≤ tail)
    (htotal : len + lapped + (s.header name).tail = s.lapped j + tail)
    (honce : Once s'.table) (hnames : s'.names = s.names)
    (hheader : s'.header =
      Function.update s.header name { s.header name with tail := tail })
    (hlapped : s'.lapped = Function.update s.lapped j lapped)
    (hdelivered : s'.delivered =
      s.delivered ++ (List.range' (tail - len) len).map (name, ·)) : Sound s' := by
  have hlt : j < s.names.length := (List.getElem?_eq_some_iff.mp hj).choose
  have hother {n : List UInt8} (hn : n ≠ name) : s'.header n = s.header n := by
    rw [hheader, Function.update_of_ne hn]
  have hself : (s'.header name).tail = tail := by
    rw [hheader, Function.update_self]
  have hnew {d : List UInt8 × ℕ} (hd : d ∈ (List.range' (tail - len) len).map (name, ·)) :
      d.1 = name ∧ (s.header name).tail ≤ d.2 ∧ d.2 < tail := by
    obtain ⟨i, hi, rfl⟩ := List.mem_map.mp hd
    rw [List.mem_range'_1] at hi
    exact ⟨rfl, by omega, by omega⟩
  refine ⟨honce, ?_, ?_, ?_, ?_, ?_⟩
  · intro i hi
    rw [hnames] at hi
    rw [hlapped, Function.update_of_ne (by omega)]
    exact h.fresh i hi
  · intro n hn
    rw [hnames] at hn
    have hne : n ≠ name := by
      rintro rfl
      exact hn (List.mem_of_getElem? hj)
    rw [hother hne]
    exact h.unread n hn
  · intro d hd
    rw [hdelivered] at hd
    rcases List.mem_append.mp hd with hd | hd
    · have hseen := h.seen d hd
      by_cases hname : d.1 = name
      · rw [hname] at hseen ⊢
        omega
      · rwa [hother hname]
    · obtain ⟨hname, -, hlast⟩ := hnew hd
      rwa [hname, hself]
  · rw [hdelivered]
    refine List.nodup_append.mpr ⟨h.nodup, ?_, ?_⟩
    · exact List.Nodup.map (fun _ _ heq => (Prod.mk.inj heq).2) List.nodup_range'
    · rintro d hd d' hd' rfl
      obtain ⟨hname, hfirst, -⟩ := hnew hd'
      have hseen := h.seen d hd
      rw [hname] at hseen
      omega
  · intro i n hi
    rw [hnames] at hi
    have hcount := h.counted i n hi
    rw [hdelivered, List.countP_append, hlapped]
    by_cases hij : i = j
    · subst hij
      obtain rfl := Option.some.inj (hj.symm.trans hi)
      have hall : ((List.range' (tail - len) len).map (name, ·)).countP (·.1 == name) = len := by
        rw [List.countP_eq_length.mpr]
        · simp
        · intro d hd
          simp [(hnew hd).1]
      rw [hall, Function.update_self, hself]
      omega
    · -- another ring has another name
      have hne : n ≠ name := by
        rintro rfl
        have hilt : i < s.names.length := (List.getElem?_eq_some_iff.mp hi).choose
        have hsame : s.names[i] = s.names[j] := by
          rw [← Option.some_inj, ← List.getElem?_eq_getElem hilt, ← List.getElem?_eq_getElem hlt,
            hi, hj]
        exact hij ((List.Nodup.getElem_inj_iff h.once.listed.once).mp hsame)
      have hnone : ((List.range' (tail - len) len).map (name, ·)).countP (·.1 == n) = 0 := by
        rw [List.countP_eq_zero]
        intro d hd hdn
        exact hne ((beq_iff_eq.mp hdn).symm.trans (hnew hd).1)
      rw [hnone, Function.update_of_ne hij, hother hne]
      omega

theorem drain (h : Sound s) {j : ℕ} {c : Call} (hquiet : Quiet capacity (.drain j c) s)
    (hs : s.drain capacity j c = some s') : Sound s' := by
  unfold Tracker.drain at hs
  split at hs
  · cases hs
  · rename_i r hj
    dsimp only at hs
    split at hs
    · rename_i hguard
      obtain ⟨hidle, hlen, htail, hheads, -⟩ := hguard
      obtain ⟨hgrown, -, htotal⟩ :=
        Cursor.consumeBatch_spec (r := s.cursor capacity j r.name) hlen htail hheads
      have hlapped := Cursor.lappedEvents_le c (s.cursor capacity j r.name)
      have hname : s.names[j]? = some r.name := by
        rw [Tracker.names, List.getElem?_map, hj, Option.map_some]
      have hroom : (s.header r.name).tail +
          ((s.cursor capacity j r.name).consumeBatch c).2.length ≤
            ((s.cursor capacity j r.name).consumeBatch c).1.tail := by
        have hstart : (s.cursor capacity j r.name).tail = (s.header r.name).tail := rfl
        omega
      have hretired := hquiet r hj
      obtain rfl := Option.some.inj hs
      refine h.deliver hname hroom htotal ?_ ?_ rfl rfl rfl
      · dsimp only
        split
        · rename_i hretires
          refine h.once.retire hidle fun x hx => ?_
          obtain rfl := Option.some.inj (hj.symm.trans hx)
          exact hretired hretires
        · exact h.once
      · simp only [Tracker.names]
        split
        · exact map_modify
        · rfl
    · cases hs

theorem tableStep (h : Sound s) {l : Label} (hquiet : Quiet capacity (.table l) s)
    (hs : s.tableStep l = some s') : Sound s' := by
  cases l with
  | start tid name =>
      simp only [Tracker.tableStep, Option.map_eq_some_iff] at hs
      obtain ⟨t, ht, rfl⟩ := hs
      have honce := h.once.start hquiet ht
      obtain rfl := Option.some.inj ht
      refine h.grow honce ⟨[], (List.append_nil _).symm⟩ (fun n => ?_) rfl rfl
      by_cases hn : n = name.bytes
      · subst hn
        -- the name is that of no thread yet, so no ring of this name is tracked
        have hnot : name.bytes ∉ s.names := by
          intro hmem
          obtain ⟨x, hx, hxname⟩ := List.mem_map.mp hmem
          obtain ⟨r, hr, hname, -⟩ := h.once.listed.owned x hx
          exact (hquiet r hr).2 (hname.trans hxname)
        simp [setHeader, h.unread _ hnot]
      · simp [setHeader, Function.update_of_ne hn]
  | advance k =>
      obtain ⟨t, ht, rfl⟩ := Option.map_eq_some_iff.mp hs
      have hregistered := h.once.registered.step ht
      obtain ⟨r, stage, slots, count, hk, hm, rfl⟩ := advance_moves h.once.registered.table ht
      refine h.grow ?_ ⟨[], (List.append_nil _).symm⟩ (fun _ => rfl) rfl rfl
      exact h.once.moves hk hm ⟨rfl, rfl, rfl, rfl, rfl⟩ hregistered
        (h.once.stamped.moves h.once.registered.table hk hm) fun i hstage hdead =>
          hquiet r hk i (by rw [hstage]; rfl) hdead
  | die k =>
      simp only [Tracker.tableStep] at hs
      split at hs
      · cases hs
      · split at hs
        · obtain ⟨t, ht, rfl⟩ := Option.map_eq_some_iff.mp hs
          have hregistered := h.once.registered.step ht
          obtain ⟨r, stage, slots, count, hk, hm, hdone, rfl⟩ := die_moves ht
          refine h.grow ?_ ⟨[], (List.append_nil _).symm⟩ (fun _ => rfl) rfl rfl
          exact h.once.moves hk hm ⟨rfl, rfl, rfl, rfl, rfl⟩ hregistered
            (h.once.stamped.moves h.once.registered.table hk hm) fun i hstage =>
              absurd hstage (hdone i)
        · cases hs
  | poll =>
      obtain ⟨t, ht, rfl⟩ := Option.map_eq_some_iff.mp hs
      have honce := h.once.poll ht
      simp only [Discovery.step] at ht
      split at ht
      · obtain rfl := Option.some.inj ht
        exact h.grow honce ⟨[], (List.append_nil _).symm⟩ (fun _ => rfl) rfl rfl
      · cases ht
  | engine =>
      obtain ⟨t, ht, rfl⟩ := Option.map_eq_some_iff.mp hs
      exact h.grow (h.once.engine ht) (engine_names ht) (fun _ => rfl) rfl rfl
  | retire j => cases hs

theorem step (h : Sound s) {a : Act} (hquiet : Quiet capacity a s)
    (hs : Tracker.step capacity a s = some s') : Sound s' := by
  have hheader {name : List UInt8} {new : RingHeader}
      (htail : new.tail = (s.header name).tail) : Sound (s.setHeader name new) := by
    refine h.grow h.once ⟨[], (List.append_nil _).symm⟩ (fun n => ?_) rfl rfl
    by_cases hn : n = name
    · subst hn
      simp [setHeader, htail]
    · simp [setHeader, Function.update_of_ne hn]
  cases a with
  | table l => exact h.tableStep hquiet hs
  | write k n =>
      simp only [Tracker.step, Tracker.write] at hs
      split at hs
      · cases hs
      · obtain rfl := Option.some.inj hs
        exact hheader rfl
  | terminate k =>
      simp only [Tracker.step, Tracker.terminate] at hs
      split at hs
      · cases hs
      · split at hs
        · obtain rfl := Option.some.inj hs
          exact hheader rfl
        · obtain rfl := Option.some.inj hs
          exact hheader rfl
        · cases hs
  | drain j c => exact h.drain hquiet hs

end Tracker.Sound

/-- In a run whose steps meet the condition, no ring is tracked twice, no event is
delivered twice, and what a ring has lost is in the count of its one entry. -/
theorem rings_tracked_once (capacity : List UInt8 → Capacity) {s : Tracker}
    (h : Reach (Tracker.step capacity) (Tracker.Quiet capacity) .init s) :
    s.names.Nodup ∧ s.delivered.Nodup ∧ ∀ j name, s.names[j]? = some name →
      s.delivered.countP (·.1 == name) + s.lapped j = (s.header name).tail := by
  have hsound : s.Sound := h.invariant .init fun _ _ _ hi hok hs => hi.step hok hs
  exact ⟨hsound.once.listed.once, hsound.nodup, hsound.counted⟩

def fourSlots (_ : List UInt8) : Capacity := ⟨4, ⟨2, rfl⟩, by decide⟩

/-- A thread registers and the first poll finds its ring. -/
def trackFirst : List Act :=
  registerFirst.map .table ++ .table .poll :: List.replicate 6 (.table .engine)

/-- It writes, exits and marks its slot before the drain looks at its ring. -/
def exitFirst : List Act :=
  trackFirst ++ [.write 0 3, .terminate 0, .table (.die 0), .drain 0 ⟨2, 3, fun _ => .zero, 3⟩,
    .drain 0 ⟨2, 3, fun _ => .zero, 3⟩, .table .poll] ++ List.replicate 4 (.table .engine)

theorem exited_ring_tracked_once :
    ∃ s, Reach (Tracker.step fourSlots) (Tracker.Quiet fourSlots) .init s ∧ s.names = [[1]] ∧
      s.table.rings.map ThreadRing.alive = [false] ∧ s.delivered = [([1], 0), ([1], 1), ([1], 2)] ∧
      s.names.Nodup ∧ s.delivered.Nodup ∧ ∀ j name, s.names[j]? = some name →
        s.delivered.countP (·.1 == name) + s.lapped j = (s.header name).tail := by
  have hrun : (exec (guarded (Tracker.step fourSlots) (Tracker.Quiet fourSlots)) exitFirst
      .init).any (fun s => s.names = [[1]] && s.table.rings.map ThreadRing.alive = [false] &&
        s.delivered = [([1], 0), ([1], 1), ([1], 2)]) = true := by
    decide +kernel
  obtain ⟨s, hs, hfacts⟩ := (Option.any_eq_true _ _).mp hrun
  simp only [Bool.and_eq_true, decide_eq_true_eq] at hfacts
  obtain ⟨⟨hnames, halive⟩, hdelivered⟩ := hfacts
  have hreach := Reach.of_guarded hs
  exact ⟨s, hreach, hnames, halive, hdelivered, rings_tracked_once fourSlots hreach⟩

/-- The drain looks at the ring of an exiting thread before the slot is marked dead: the
ring is retired, and the next poll opens it again. -/
theorem retired_ring_tracked_twice :
    ¬∀ (capacity : List UInt8 → Capacity) (s : Tracker),
      Reach (Tracker.step capacity) (fun _ _ => True) .init s → s.names.Nodup := by
  intro hclaim
  have hrun : (exec (Tracker.step fourSlots) (trackFirst ++ [.terminate 0,
      .drain 0 ⟨4096, 0, fun _ => .zero, 0⟩, .table .poll] ++ List.replicate 4 (.table .engine))
      .init).any (fun s => s.names = [[1], [1]]) = true := by
    decide +kernel
  obtain ⟨s, hs, hnames⟩ := (Option.any_eq_true _ _).mp hrun
  have hnodup := hclaim fourSlots s (Reach.of_exec hs fun _ _ _ => trivial)
  rw [of_decide_eq_true hnames] at hnodup
  simp at hnodup

end Rtmap.Ring.Discovery
