import Rtmap.Ring.FullChecked

/-!
# Calls advance the tail

A resync can leave the tail inside a register snapshot, where the loop takes the
next seven slots for a run. Such a walk falls short of a whole run before the
head only if it stays inside snapshots up to there; but everything the producer
lapped the tail with is inline, and those slots outweigh the offset
(`Window.Cushioned`). So a batch that was not overrun is never empty.
-/
namespace Rtmap.Ring
open Transition

namespace State

/-- The index is not in a register snapshot. -/
def outside (s : State) (p : ℕ) : Bool :=
  match s.entry p with
  | some w => !w.op.isSnapshot
  | none => true

/-- No run crosses the index. -/
def Boundary (s : State) (p : ℕ) : Prop := ∀ w, s.entry p = some w → w.pos = 0

abbrev Cushioned (s : State) (p b : ℕ) : Prop :=
  Window.Cushioned s.offset (fun q => s.outside q = true) p b

section Windows
variable {s s' : State} {p b : ℕ} {w : Written}

theorem outside_of_entry (h : s.entry p = some w) : s.outside p = !w.op.isSnapshot := by
  simp only [outside, h]

theorem offsets (s : State) : Window.Offsets s.offset (fun q => s.outside q = true) where
  succ_le := by
    intro p
    unfold offset
    cases h' : s.entry (p + 1) with
    | none => simp
    | some w' =>
        obtain ⟨base, hbase, hpos, hrun⟩ := entry_block h'
        rcases Nat.eq_zero_or_pos w'.pos with h0 | hpos'
        · simp [h0]
        · have hprev := hrun (w'.pos - 1) (by omega)
          rw [show base + (w'.pos - 1) = p by omega] at hprev
          simp only [hprev]
          split <;> omega
  free_zero := by
    intro p hp
    unfold outside at hp
    unfold offset
    split at hp
    · simp_all
    · simp_all
  after_free := by
    intro p hp
    unfold outside at hp
    split at hp
    · rename_i w hw
      exact offset_succ_of_not_snapshot hw (by simpa using hp)
    · rename_i hnone
      apply offset_eq_zero_of_pos
      intro w' hw'
      obtain ⟨base, hbase, hpos, hrun⟩ := entry_block hw'
      by_contra hne
      have hprev := hrun (w'.pos - 1) (by omega)
      rw [show base + (w'.pos - 1) = p by omega, hnone] at hprev
      cases hprev

/-- The rest of the snapshot at `p`. -/
theorem snapshot_rest (h : s.entry p = some w) (hs : w.op.isSnapshot = true) :
    s.offset (p + (REG_SNAPSHOT_SLOTS - s.offset p)) = 0 ∧
      ∀ q, p ≤ q → q < p + (REG_SNAPSHOT_SLOTS - s.offset p) → ¬ s.outside q = true := by
  obtain ⟨base, hbase, hpos, hrun⟩ := entry_block h
  have hlen := Op.slots_length_snapshot hs
  have hoff : s.offset p = w.pos := by rw [offset_of_entry h, if_pos hs]
  rw [hlen] at hpos hrun
  simp only [REG_SNAPSHOT_SLOTS] at *
  refine ⟨?_, ?_⟩
  · have hlast := offset_after_last (hrun 6 (by omega)) (by simp only; omega)
    rwa [show base + 6 + 1 = p + (7 - s.offset p) by omega] at hlast
  · intro q hq hlt
    have hentry := hrun (q - base) (by omega)
    rw [show base + (q - base) = q by omega] at hentry
    rw [outside_of_entry hentry]
    simp [hs]

/-- The run an index lies in ends at or before any later boundary. -/
theorem run_end_le (h : s.entry p = some w) (hb : s.Boundary b) (hp : p < b) :
    p + (w.op.slots.length - w.pos) ≤ b := by
  obtain ⟨base, hbase, hpos, hrun⟩ := entry_block h
  by_contra hlt
  have hentry := hrun (b - base) (by omega)
  rw [show base + (b - base) = b by omega] at hentry
  have := hb _ hentry
  simp only at this
  omega

theorem Boundary.mono {more : List Op} (h : s.Boundary p) (hops : s'.ops = s.ops ++ more)
    (hp : p ≤ s.written.length) : s'.Boundary p := by
  rcases Nat.lt_or_eq_of_le hp with hlt | rfl
  · obtain ⟨w, hw⟩ := exists_entry hlt
    intro w' hw'
    rw [entry_of_append hops hw] at hw'
    obtain rfl := Option.some.inj hw'
    exact h w hw
  · exact fun w hw => pos_at_end hops hw

theorem boundary_end (hp : s.written.length ≤ p) : s.Boundary p := by
  intro w hw
  have := entry_lt hw
  omega

theorem Cushioned.mono' {more : List Op} (h : s.Cushioned p b) (hops : s'.ops = s.ops ++ more)
    (hp : p ≤ s.written.length) (hb : b ≤ s.written.length) : s'.Cushioned p b := by
  have hcount : ∀ n ≤ s.written.length, Nat.count (fun q => s'.outside q = true) n =
      Nat.count (fun q => s.outside q = true) n := by
    intro n hn
    have hsame : ∀ q < n, s'.outside q = s.outside q := by
      intro q hq
      obtain ⟨w, hw⟩ := exists_entry (s := s) (p := q) (by omega)
      rw [outside_of_entry hw, outside_of_entry (entry_of_append hops hw)]
    apply le_antisymm <;> apply Nat.count_mono_left
    · intro q hq
      rw [hsame q hq]
      exact id
    · intro q hq
      rw [hsame q hq]
      exact id
  unfold Cushioned Window.Cushioned Window.potential at h ⊢
  rwa [hcount p hp, hcount b hb, offset_append hops hp]

/-- The next run of a batch keeps the cushion and ends before the boundary. -/
theorem Cushioned.next_run (h : s.Cushioned p b) (hb : s.Boundary b) (hw : s.entry p = some w)
    (hwhole : w.op.Whole) (hp : p < b) :
    s.Cushioned (p + runLength w.event) b ∧ p + runLength w.event ≤ b ∧
      1 ≤ runLength w.event ∧ runLength w.event ≤ 8 := by
  obtain ⟨base, hbase, hpos, hrun⟩ := entry_block hw
  have hle := w.op.slots_length_le
  have hend := run_end_le hw hb hp
  rw [runLength_event hwhole hpos]
  cases hs : w.op.isSnapshot with
  | true =>
      rw [if_pos rfl]
      have hoff : s.offset p = w.pos := by rw [offset_of_entry hw, if_pos hs]
      have hlt := s.offset_lt p
      obtain ⟨hzero, hinside⟩ := snapshot_rest hw hs
      rw [Op.slots_length_snapshot hs, ← hoff] at hend
      exact ⟨h.stride s.offsets hlt.le hzero hinside, h.room hlt.le hend hinside,
        by decide, by decide⟩
  | false =>
      simp only [Bool.false_eq_true, if_false]
      by_cases h0 : w.pos = 0
      · rw [if_pos h0]
        rw [h0, Nat.sub_zero] at hend
        refine ⟨Window.cushioned_of_start ?_ hend, hend, w.op.slots_length_pos, hle⟩
        have hlast := offset_after_last (hrun (w.op.slots.length - 1) (by omega))
          (by simp only; omega)
        rwa [show base + (w.op.slots.length - 1) + 1 = p + w.op.slots.length by omega] at hlast
      · rw [if_neg h0]
        exact ⟨Window.cushioned_of_start (offset_succ_of_not_snapshot hw hs) (by omega),
          by omega, le_rfl, by decide⟩

/-- After a lap the oldest intact slot is cushioned, as everything that lapped
the old position is inline. -/
theorem Cushioned.lap (h : s.Cushioned p b) (hb : b ≤ p + s.capacity.size)
    (hlap : p + s.capacity.size ≤ s.head)
    (hinline : ∀ q w, s.entry q = some w → p + s.capacity.size ≤ q → w.op.isInline = true) :
    s.Cushioned (s.head - s.capacity.size) s.head := by
  refine Window.Cushioned.advance s.offsets (h.mono hb) hlap ?_
  intro q hq _
  unfold outside
  cases hw : s.entry q with
  | none => rfl
  | some w =>
      have hpush := Op.isSnapshot_of_isInline (hinline q w hw hq)
      exact congrArg not hpush

end Windows

end State

/-- The condition under which calls make progress: runs are published whole and
no overrun batch is accepted. -/
def Steady : Label → State → Prop
  | .beginOp op, _ => op.Whole
  | l, s => NoOverrun l s

theorem Steady.noOverrun {l : Label} {s : State} (h : Steady l s) : NoOverrun l s := by
  cases l with
  | beginOp => trivial
  | _ => exact h

theorem Steady.begins {l : Label} {s : State} (h : Steady l s) : Begins Op.Whole l s := by
  cases l with
  | beginOp => exact h
  | _ => trivial

/-- Every index the consumer may start a batch or a run at is cushioned. -/
def Consumer.Cushioned (s : State) : Consumer → Prop
  | .idle | .started _ _ => s.Cushioned s.tail (min s.head (s.tail + s.capacity.size))
  | .copying c =>
      s.Boundary c.head ∧ s.Cushioned c.tail c.head ∧
        (c.overrun = false → c.out.length + c.runTail ≤ c.limit ∧
          s.Cushioned (c.tail + c.out.length + c.runTail) c.head)
  | .copied c =>
      s.Cushioned c.tail c.head ∧
        (c.overrun = false → s.Cushioned (c.tail + c.out.length) c.head)
  | .storing newTail _ => s.Cushioned newTail (min s.head (newTail + s.capacity.size))

structure Progressing (s : State) : Prop where
  sound : Sound s
  whole : AllOps Op.Whole s
  boundary : s.Boundary s.head
  inlineAhead : ∀ p w, s.entry p = some w → s.tail + s.capacity.size ≤ p → w.op.isInline = true
  cushioned : s.consumer.Cushioned s

theorem progressing_init (capacity : Capacity) (spin : Bool) :
    Progressing (State.init capacity spin) where
  sound := sound_init capacity spin
  whole := allOps_init _ capacity spin
  boundary := State.boundary_end le_rfl
  inlineAhead := by
    intro p w h
    simp [State.entry, State.written, State.init] at h
  cushioned := Window.cushioned_of_start rfl (Nat.zero_le _)

section Progress
variable {s s' : State}

/-- The head moves only to the end of what is written. -/
theorem head_of_step {l : Label} (h : Produced s) (hs : Ring.step l s = some s') :
    s'.head = s.head ∨ s'.head = s'.written.length := by
  have hpc' := (h.step hs).pc
  cases l with
  | beginOp => obtain ⟨_, _, ⟨_, rfl⟩ | ⟨_, _, rfl⟩⟩ := State.beginOp_cases hs <;> exact .inl rfl
  | loadTail => obtain ⟨_, _, _, ⟨_, rfl⟩ | ⟨_, rfl | rfl⟩⟩ := State.loadTail_cases hs <;> exact .inl rfl
  | storeField => obtain ⟨_, _, _, _, _, _, rfl⟩ := State.storeField_cases hs; exact .inl rfl
  | finishSlot =>
      obtain ⟨op, base, i, hp, ⟨_, rfl⟩ | ⟨_, rfl⟩⟩ := State.finishSlot_cases hs
      · exact .inl rfl
      · unfold State.advance at hpc' ⊢
        split
        · rw [if_pos ‹_›] at hpc'
          simp only
          split
          · exact .inr hpc'.symm
          · exact .inl rfl
        · rw [if_neg ‹_›] at hpc'
          exact .inr hpc'.symm
  | flush =>
      obtain ⟨hidle, rfl⟩ := State.flush_cases hs
      simp only [hidle] at hpc'
      exact .inr hpc'.symm
  | exit => obtain ⟨_, _, rfl⟩ := State.exit_cases hs; exact .inl rfl
  | call | loadHead | readField | takeSlot | recheck | commit | retire =>
      exact .inl (sameProducer_of_step rfl hs).head

theorem Progressing.boundary_step {l : Label} (h : Progressing s) (hs : Ring.step l s = some s') :
    s'.Boundary s'.head := by
  obtain ⟨more, hops⟩ := (h.sound.produced.advances hs).ops
  rcases head_of_step h.sound.produced hs with heq | hend
  · rw [heq]
    exact h.boundary.mono hops h.sound.produced.head_le_written
  · rw [hend]
    exact State.boundary_end le_rfl

/-- The entries of one more operation. -/
theorem State.entry_append_cases {op : Op} (hops : s'.ops = s.ops ++ [op]) {p : ℕ} {w : Written}
    (h : s'.entry p = some w) : s.entry p = some w ∨
      (w.op = op ∧ s.written.length ≤ p ∧ p < s.written.length + op.slots.length) := by
  by_cases hp : p < s.written.length
  · obtain ⟨w', hw'⟩ := exists_entry hp
    rw [entry_of_append hops hw'] at h
    exact .inl (by rw [hw', ← h])
  · have hlt := entry_lt h
    simp only [entry, written, hops, List.flatMap_append, List.flatMap_singleton] at h
    rw [List.getElem?_append_right (by simpa [written] using hp)] at h
    obtain ⟨hi, rfl⟩ := Op.of_getElem?_written h
    simp only [written] at hp
    exact .inr ⟨rfl, by simp only [written]; omega, by simp only [written]; omega⟩

theorem Progressing.inlineAhead_step {l : Label} (h : Progressing s)
    (hs : Ring.step l s = some s') :
    ∀ p w, s'.entry p = some w → s.tail + s.capacity.size ≤ p → w.op.isInline = true := by
  have hpc := h.sound.produced.pc
  have htail := h.sound.consumed.tail_le
  have hsame : s'.ops = s.ops →
      ∀ p w, s'.entry p = some w → s.tail + s.capacity.size ≤ p → w.op.isInline = true := by
    intro hops p w hw
    simp only [State.entry, State.written, hops] at hw
    exact h.inlineAhead p w hw
  cases l with
  | beginOp op =>
      obtain ⟨_, _, ⟨hin, rfl⟩ | ⟨_, _, rfl⟩⟩ := State.beginOp_cases hs
      · intro p w hw hp
        rcases State.entry_append_cases (s := s) rfl hw with hold | ⟨rfl, -⟩
        · exact h.inlineAhead p w hold hp
        · exact hin
      · exact hsame rfl
  | loadTail =>
      obtain ⟨op, hd, hp, ⟨had, rfl⟩ | ⟨_, rfl | rfl⟩⟩ := State.loadTail_cases hs
      · rw [hp] at hpc
        obtain ⟨hlen, hin, rfl, hsync, hroom⟩ := hpc
        have hfits := Op.admits_room had hin (by omega) hroom
        intro p w hw hp
        rcases State.entry_append_cases (s := s) rfl hw with hold | ⟨-, -, hlt⟩
        · exact h.inlineAhead p w hold hp
        · omega
      · exact hsame rfl
      · exact hsame rfl
  | storeField => obtain ⟨_, _, _, _, _, _, rfl⟩ := State.storeField_cases hs; exact hsame rfl
  | finishSlot =>
      obtain ⟨_, _, _, _, ⟨_, rfl⟩ | ⟨_, rfl⟩⟩ := State.finishSlot_cases hs
      · exact hsame rfl
      · apply hsame
        unfold State.advance
        split <;> rfl
  | flush => obtain ⟨_, rfl⟩ := State.flush_cases hs; exact hsame rfl
  | exit => obtain ⟨_, _, rfl⟩ := State.exit_cases hs; exact hsame rfl
  | call | loadHead | readField | takeSlot | recheck | commit | retire =>
      exact hsame (sameProducer_of_step rfl hs).ops

/-- The producer's progress widens every window. -/
theorem Consumer.Cushioned.mono {k : Consumer} {more : List Op} (h : k.Cushioned s)
    (hok : k.Ok s) (hw : s.head ≤ s.written.length) (htail : s.tail ≤ s.head)
    (hops : s'.ops = s.ops ++ more) (hhead : s.head ≤ s'.head) (ht : s'.tail = s.tail)
    (hcap : s'.capacity = s.capacity) : k.Cushioned s' := by
  have hwiden : ∀ t, t ≤ s.head → s.Cushioned t (min s.head (t + s.capacity.size)) →
      s'.Cushioned t (min s'.head (t + s.capacity.size)) := by
    intro t hle hcush
    exact (hcush.mono' hops (hle.trans hw) ((Nat.min_le_left _ _).trans hw)).mono
      (min_le_min_right _ hhead)
  cases k with
  | idle | started =>
      simp only [Cushioned, ht, hcap]
      exact hwiden s.tail htail h
  | copying c =>
      obtain ⟨hb, hstart, hrun⟩ := h
      simp only [Consumer.Ok] at hok
      refine ⟨hb.mono hops (by omega), hstart.mono' hops (by omega) (by omega), ?_⟩
      intro hover
      obtain ⟨hfits, hnext⟩ := hrun hover
      exact ⟨hfits, hnext.mono' hops (by omega) (by omega)⟩
  | copied c =>
      obtain ⟨hstart, hnext⟩ := h
      simp only [Consumer.Ok] at hok
      exact ⟨hstart.mono' hops (by omega) (by omega),
        fun hover => (hnext hover).mono' hops (by omega) (by omega)⟩
  | storing newTail batch =>
      simp only [Cushioned, hcap]
      exact hwiden newTail hok.2.1 h

theorem Consumer.cushioned_enter {t outLen : ℕ} (hb : s.Boundary s.head)
    (ht : s.Cushioned t s.head) (htail : s.Cushioned s.tail (min s.head (s.tail + s.capacity.size))) :
    (Consumer.enter t s.head outLen).Cushioned s := by
  unfold enter
  split
  · exact htail
  · exact ⟨hb, ht, fun _ => ⟨by simp, ht⟩⟩

/-- One slot taken: the loop's next run starts at a cushioned index. -/
theorem Progressing.take (h : Progressing s) {c : Copy} (hc : s.consumer = .copying c)
    (htodo : c.todo = []) (hover : c.overrun = false) :
    (c.nextRunTail = none → s.Cushioned (c.tail + c.out.length) c.head ∧
        (0 < c.out.length ∨ c.limit < min (c.head - c.tail) 8)) ∧
      ∀ r, c.nextRunTail = some r → c.out.length + 1 + r ≤ c.limit ∧
        s.Cushioned (c.tail + (c.out.length + 1) + r) c.head := by
  have hcush := h.cushioned
  have hpc := h.sound.consumed.pc
  rw [hc] at hcush hpc
  simp only [Consumer.Ok] at hpc
  obtain ⟨hb, -, hrun⟩ := hcush
  obtain ⟨hfits, hnext⟩ := hrun hover
  rcases Nat.eq_zero_or_pos c.runTail with h0 | hin
  · obtain ⟨w, hw, hcur⟩ := h.sound.cur_eq hc htodo hover
    rw [h0, Nat.add_zero] at hnext
    obtain ⟨hstride, hroom, hone, hlen⟩ :=
      hnext.next_run hb hw (h.whole.of_entry hw) (by omega)
    rw [← hcur] at hstride hroom hone hlen
    rw [Copy.nextRunTail_eq h0 hone hlen hpc.2.2.2.2]
    split
    · exact ⟨fun _ => ⟨hnext, by omega⟩, by simp⟩
    · refine ⟨by simp, ?_⟩
      rintro r hr
      obtain rfl := Option.some.inj hr
      refine ⟨by omega, ?_⟩
      rwa [show c.tail + (c.out.length + 1) + (runLength c.cur - 1) =
        c.tail + c.out.length + runLength c.cur by omega]
  · have hr : c.nextRunTail = some (c.runTail - 1) := by
      rw [Copy.nextRunTail, runTailAfter, if_neg (by omega)]
    rw [hr]
    refine ⟨by simp, ?_⟩
    rintro r hr
    obtain rfl := Option.some.inj hr
    refine ⟨by omega, ?_⟩
    rwa [show c.tail + (c.out.length + 1) + (c.runTail - 1) =
      c.tail + c.out.length + c.runTail by omega]

theorem Progressing.cushioned_step {l : Label} (h : Progressing s) (hl : l.isProducer = false)
    (hok : NoOverrun l s) (hs : Ring.step l s = some s') : s'.consumer.Cushioned s' := by
  have hcush := h.cushioned
  have hpc := h.sound.consumed.pc
  have htail := h.sound.consumed.tail_le
  have hahead : ∀ p, s.tail ≤ p → ∀ q w, s.entry q = some w → p + s.capacity.size ≤ q →
      w.op.isInline = true := fun p hp q w hw hq => h.inlineAhead q w hw (by omega)
  cases l with
  | beginOp | loadTail | storeField | finishSlot | flush | exit => simp [Label.isProducer] at hl
  | call outLen =>
      obtain ⟨hc, _, rfl⟩ := State.call_cases hs
      rw [hc] at hcush
      exact hcush
  | loadHead =>
      obtain ⟨outLen, t, hc, ⟨hlap, rfl⟩ | ⟨hlap, rfl⟩⟩ := State.loadHead_cases hs
      · rw [hc] at hcush hpc
        obtain ⟨rfl, _⟩ := hpc
        have hresync := State.Cushioned.lap hcush (Nat.min_le_right _ _) (by omega)
          (hahead s.tail le_rfl)
        exact Consumer.cushioned_enter (s := s) h.boundary hresync hcush
      · rw [hc] at hcush hpc
        obtain ⟨rfl, _⟩ := hpc
        have hbound : min s.head (s.tail + s.capacity.size) = s.head := by omega
        have hstart : s.Cushioned s.tail s.head := by
          rw [← hbound]
          exact hcush
        exact Consumer.cushioned_enter (s := s) h.boundary hstart hcush
  | readField f =>
      obtain ⟨c, hc, _, rfl⟩ := State.readField_cases hs
      rw [hc] at hcush
      obtain ⟨hb, hstart, hrun⟩ := hcush
      exact ⟨hb, hstart, fun hover => hrun (Bool.or_eq_false_iff.mp hover).1⟩
  | takeSlot =>
      obtain ⟨c, hc, htodo, hcase⟩ := State.takeSlot_cases hs
      have htake := h.take hc htodo
      rw [hc] at hcush
      obtain ⟨hb, hstart, hrun⟩ := hcush
      have hcount : ∀ r, (c.push r).out.length = c.out.length + 1 := by simp [Copy.push]
      obtain ⟨hr, rfl⟩ | ⟨r, hr, ⟨_, rfl⟩ | ⟨hge, rfl⟩⟩ := hcase
      · exact ⟨hstart, fun hover => ((htake hover).1 hr).1⟩
      · refine ⟨hb, hstart, fun hover => ?_⟩
        have hnext := (htake hover).2 r hr
        rw [← hcount r] at hnext
        exact hnext
      · refine ⟨hstart, fun hover => ?_⟩
        obtain ⟨hfits, hnext⟩ := (htake hover).2 r hr
        obtain rfl : r = 0 := by omega
        rw [← hcount 0] at hnext
        exact hnext
  | recheck =>
      obtain ⟨c, hc, ⟨hlap, rfl⟩ | ⟨hlap, rfl⟩⟩ := State.recheck_cases hs
      · rw [hc] at hcush hpc
        simp only [Consumer.Ok] at hpc
        have hresync := State.Cushioned.lap hcush.1 (by omega) (by omega) (hahead c.tail hpc.1)
        have hbound : min s.head (s.head - s.capacity.size + s.capacity.size) = s.head := by omega
        show s.Cushioned (s.head - s.capacity.size)
          (min s.head (s.head - s.capacity.size + s.capacity.size))
        rwa [hbound]
      · rw [hc] at hcush hpc
        simp only [Consumer.Ok] at hpc
        have hkept := hcush.2 (hok c hc hlap)
        exact hkept.mono (by simp only; omega)
  | commit =>
      obtain ⟨newTail, batch, hc, rfl⟩ := State.commit_cases hs
      rw [hc] at hcush
      exact hcush
  | retire =>
      obtain ⟨hc, rfl⟩ := State.retire_cases hs
      rw [hc] at hcush
      simp only [hc]
      exact hcush

theorem capacity_of_step {l : Label} (hs : Ring.step l s = some s') : s'.capacity = s.capacity := by
  cases hl : l.isProducer with
  | true => exact (sameConsumer_of_step hl hs).capacity
  | false => exact (sameProducer_of_step hl hs).capacity

theorem Progressing.step {l : Label} (h : Progressing s) (hok : Steady l s)
    (hs : Ring.step l s = some s') : Progressing s' := by
  have hadv := h.sound.produced.advances hs
  obtain ⟨more, hops⟩ := hadv.ops
  refine ⟨h.sound.step hok.noOverrun hs, h.whole.step hok.begins hs, h.boundary_step hs, ?_, ?_⟩
  · intro p w hw hp
    rw [capacity_of_step hs] at hp
    have := h.sound.consumed.tail_mono hs
    exact h.inlineAhead_step hs p w hw (by omega)
  · cases hl : l.isProducer with
    | true =>
        have e := sameConsumer_of_step hl hs
        rw [e.consumer]
        exact h.cushioned.mono h.sound.consumed.pc h.sound.produced.head_le_written
          h.sound.consumed.tail_le hops hadv.head e.tail e.capacity
    | false => exact h.cushioned_step hl hok.noOverrun hs

theorem progressing_of_run {capacity : Capacity} {spin : Bool}
    (h : Run Steady (State.init capacity spin) s) : Progressing s :=
  h.invariant (progressing_init capacity spin) fun _ _ _ hu hok hs => hu.step hok hs

/-- A call begun at `t₀` with events there has moved the tail or is bound to. -/
def Consumer.Moving (t₀ : ℕ) (s : State) : Consumer → Prop
  | .idle => False
  | .started outLen _ => t₀ < s.head ∧ 8 ≤ outLen
  | .copying c => min (c.head - c.tail) 8 ≤ c.limit
  | .copied c => c.overrun = false → 0 < c.out.length
  | .storing newTail _ => t₀ < newTail

theorem Progressing.moving_step {l : Label} {t₀ : ℕ} (h : Progressing s) (ht : s.tail = t₀)
    (hm : s.consumer.Moving t₀ s) (hok : NoOverrun l s) (hs : Ring.step l s = some s') :
    t₀ < s'.tail ∨ (s'.tail = t₀ ∧ s'.consumer.Moving t₀ s') := by
  have hpc := h.sound.consumed.pc
  cases hl : l.isProducer with
  | true =>
      have e := sameConsumer_of_step hl hs
      have hhead := (h.sound.produced.advances hs).head
      refine .inr ⟨e.tail.trans ht, ?_⟩
      rw [e.consumer]
      cases hc : s.consumer with
      | started =>
          rw [hc] at hm
          exact ⟨hm.1.trans_le hhead, hm.2⟩
      | _ =>
          rw [hc] at hm
          exact hm
  | false =>
      cases l with
      | beginOp | loadTail | storeField | finishSlot | flush | exit =>
          simp [Label.isProducer] at hl
      | call =>
          obtain ⟨hc, _, rfl⟩ := State.call_cases hs
          simp [hc, Consumer.Moving] at hm
      | loadHead =>
          have henter : ∀ t outLen, 8 ≤ outLen → t < s.head →
              (Consumer.enter t s.head outLen).Moving t₀ s' := by
            intro t outLen hout hlt
            rw [Consumer.enter, if_neg (by omega)]
            simp only [Consumer.Moving]
            omega
          have hsize := s.capacity.size_pos
          obtain ⟨outLen, t, hc, hcase⟩ := State.loadHead_cases hs
          rw [hc] at hpc hm
          obtain ⟨rfl, _⟩ := hpc
          obtain ⟨hhead, hout⟩ := hm
          right
          obtain ⟨hlap, rfl⟩ | ⟨hlap, rfl⟩ := hcase
          · exact ⟨ht, henter _ outLen hout (by omega)⟩
          · exact ⟨ht, henter _ outLen hout (by omega)⟩
      | readField f =>
          obtain ⟨c, hc, _, rfl⟩ := State.readField_cases hs
          rw [hc] at hm
          exact .inr ⟨ht, hm⟩
      | takeSlot =>
          obtain ⟨c, hc, htodo, hcase⟩ := State.takeSlot_cases hs
          have htake := h.take hc htodo
          rw [hc] at hm
          simp only [Consumer.Moving] at hm
          right
          obtain ⟨hr, rfl⟩ | ⟨r, hr, ⟨_, rfl⟩ | ⟨_, rfl⟩⟩ := hcase
          · refine ⟨ht, fun hover => ?_⟩
            have := ((htake hover).1 hr).2
            omega
          · exact ⟨ht, hm⟩
          · exact ⟨ht, fun _ => by simp [Copy.push]⟩
      | recheck =>
          obtain ⟨c, hc, ⟨hlap, rfl⟩ | ⟨hlap, rfl⟩⟩ := State.recheck_cases hs
          · rw [hc] at hpc
            simp only [Consumer.Ok] at hpc
            refine .inr ⟨ht, ?_⟩
            simp only [Consumer.Moving]
            omega
          · rw [hc] at hpc hm
            simp only [Consumer.Ok] at hpc
            have := hm (hok c hc hlap)
            refine .inr ⟨ht, ?_⟩
            simp only [Consumer.Moving]
            omega
      | commit =>
          obtain ⟨newTail, batch, hc, rfl⟩ := State.commit_cases hs
          rw [hc] at hm
          exact .inl hm
      | retire =>
          obtain ⟨hc, rfl⟩ := State.retire_cases hs
          simp [hc, Consumer.Moving] at hm

/-- A call made while the head exceeds the tail moves the tail. -/
theorem Progressing.call_moves {u v : State} {outLen : ℕ} (h : Progressing s)
    (hlt : s.tail < s.head) (hout : 8 ≤ outLen) (hcall : Ring.step (.call outLen) s = some u)
    (hrun : Run Steady u v) (hidle : v.consumer = .idle) : s.tail < v.tail := by
  have hkey : Progressing v ∧
      (s.tail < v.tail ∨ (v.tail = s.tail ∧ v.consumer.Moving s.tail v)) := by
    apply hrun.invariant
    · refine ⟨h.step (l := .call outLen) trivial hcall, .inr ?_⟩
      obtain ⟨_, _, rfl⟩ := State.call_cases hcall
      exact ⟨rfl, hlt, hout⟩
    · rintro l x y ⟨hx, hmoved | ⟨ht, hm⟩⟩ hok hs
      · exact ⟨hx.step hok hs, .inl (hmoved.trans_le (hx.sound.consumed.tail_mono hs))⟩
      · exact ⟨hx.step hok hs, hx.moving_step ht hm hok.noOverrun hs⟩
  rcases hkey.2 with hmoved | ⟨-, hm⟩
  · exact hmoved
  · simp [hidle, Consumer.Moving] at hm

end Progress

/-- Steps a call still has before it returns, at most. -/
def Consumer.work : Consumer → ℕ
  | .idle => 0
  | .started outLen _ => 3 + 8 * outLen
  | .copying c => 3 + 8 * (c.limit - c.out.length - 1) + c.todo.length
  | .copied _ => 2
  | .storing _ _ => 1

theorem Field.length_drop {f : Field} {todo : List Field} (h : f ∈ todo) :
    (f.drop todo).length < todo.length := by
  have hle := List.length_filter_le (· != f) todo
  apply Nat.lt_of_le_of_ne hle
  intro heq
  have hall := List.length_filter_eq_length_iff.mp heq f h
  simp at hall

section Drain
variable {s s' : State}

/-- A call in progress can go on, and its next step brings it closer to its end. -/
theorem Consumed.busy_step (h : Consumed s) (hbusy : s.consumer ≠ .idle) :
    ∃ l s', l.isProducer = false ∧ Ring.step l s = some s' ∧
      s'.consumer.work < s.consumer.work := by
  have hpc := h.pc
  cases hc : s.consumer with
  | idle => exact absurd hc hbusy
  | started outLen t =>
      rw [hc] at hpc
      have henter : ∀ t', (Consumer.enter t' s.head outLen).work < 3 + 8 * outLen := by
        intro t'
        have hpos := hpc.2
        unfold Consumer.enter
        split <;> simp only [Consumer.work, Field.all, List.length_nil, List.length_cons] <;> omega
      refine ⟨.loadHead, ?_⟩
      by_cases hlap : s.capacity.size < s.head - t
      · exact ⟨_, rfl, by simp only [Ring.step, State.loadHead, hc, if_pos hlap]; rfl, henter _⟩
      · exact ⟨_, rfl, by simp only [Ring.step, State.loadHead, hc, if_neg hlap]; rfl, henter _⟩
  | copying c =>
      rw [hc] at hpc
      have hlt : c.out.length < c.limit := hpc.2.2.2.2
      cases htodo : c.todo with
      | cons f todo =>
          have hf : f ∈ c.todo := by simp [htodo]
          refine ⟨.readField f, _, rfl, by simp only [Ring.step, State.readField, hc, if_pos hf]; rfl, ?_⟩
          have hdrop := Field.length_drop hf
          simp only [Consumer.work]
          omega
      | nil =>
          refine ⟨.takeSlot, ?_⟩
          cases hr : c.nextRunTail with
          | none =>
              refine ⟨_, rfl, by simp only [Ring.step, State.takeSlot, hc, htodo, hr, if_true]; rfl, ?_⟩
              simp only [Consumer.work]
              omega
          | some r =>
              by_cases hmore : c.out.length + 1 < c.limit
              · refine ⟨_, rfl, takeSlot_more hc htodo hr hmore, ?_⟩
                simp only [Consumer.work, Copy.push, htodo, Field.all, List.length_append,
                  List.length_cons, List.length_nil]
                omega
              · refine ⟨_, rfl, takeSlot_last hc htodo hr (by omega), ?_⟩
                simp only [Consumer.work]
                omega
  | copied c =>
      refine ⟨.recheck, ?_⟩
      by_cases hlap : s.capacity.size < s.head - c.tail
      · exact ⟨_, rfl, by simp only [Ring.step, State.recheck, hc, if_pos hlap]; rfl, by simp [Consumer.work]⟩
      · exact ⟨_, rfl, by simp only [Ring.step, State.recheck, hc, if_neg hlap]; rfl, by simp [Consumer.work]⟩
  | storing newTail batch =>
      exact ⟨.commit, _, rfl, by simp only [Ring.step, State.commit, hc]; rfl, by simp [Consumer.work]⟩

/-- The producer has exited and what the consumer reads was written before. -/
structure Quiet (s : State) : Prop where
  exited : s.producer = .exited
  terminal : s.terminal = true
  copying : ∀ c, s.consumer = .copying c ∨ s.consumer = .copied c →
    c.head = s.head ∧ c.overrun = false

theorem Quiet.producer_stuck {l : Label} (h : Quiet s) (hl : l.isProducer = true) :
    Ring.step l s = none := by
  have hex := h.exited
  cases l with
  | beginOp => simp only [Ring.step, State.beginOp, hex]
  | loadTail => simp only [Ring.step, State.loadTail, hex]
  | storeField => simp only [Ring.step, State.storeField, hex]
  | finishSlot => simp only [Ring.step, State.finishSlot, hex]
  | flush => simp only [Ring.step, State.flush, hex]
  | exit => simp only [Ring.step, State.exit, hex]
  | call | loadHead | readField | takeSlot | recheck | commit | retire =>
      simp [Label.isProducer] at hl

theorem Quiet.steady {l : Label} (h : Quiet s) (hs : Ring.step l s = some s') : Steady l s := by
  cases l with
  | beginOp => simp [h.producer_stuck (l := .beginOp _) rfl] at hs
  | recheck => exact fun c hc _ => (h.copying c (.inr hc)).2
  | _ => trivial

theorem Quiet.step {l : Label} (h : Quiet s) (hp : Progressing s)
    (hs : Ring.step l s = some s') : Quiet s' ∧ s'.head = s.head := by
  have hl : l.isProducer = false := by
    by_contra hprod
    rw [h.producer_stuck (by simpa using hprod)] at hs
    cases hs
  have e := sameProducer_of_step hl hs
  refine ⟨⟨by rw [e.producer, h.exited], by rw [e.terminal, h.terminal], ?_⟩, e.head⟩
  have hpc := hp.sound.produced.pc
  rw [h.exited] at hpc
  have hfront : s.frontier = s.head := by
    simp only [State.frontier, h.exited]
    exact hpc.2.symm
  have henter : ∀ t outLen c, Consumer.enter t s.head outLen = .copying c ∨
      Consumer.enter t s.head outLen = .copied c → c.head = s.head ∧ c.overrun = false := by
    intro t outLen c hc
    unfold Consumer.enter at hc
    split at hc
    · simp at hc
    · obtain rfl : _ = c := by simpa using hc
      exact ⟨rfl, rfl⟩
  cases l with
  | beginOp | loadTail | storeField | finishSlot | flush | exit => simp [Label.isProducer] at hl
  | call => obtain ⟨_, _, rfl⟩ := State.call_cases hs; simp
  | loadHead =>
      obtain ⟨_, _, _, ⟨_, rfl⟩ | ⟨_, rfl⟩⟩ := State.loadHead_cases hs <;> exact henter _ _
  | readField f =>
      obtain ⟨c, hc, _, rfl⟩ := State.readField_cases hs
      obtain ⟨hhead, hover⟩ := h.copying c (.inl hc)
      have hok := hp.sound.consumed.pc
      rw [hc] at hok
      simp only [Consumer.Ok] at hok
      intro c' hc'
      obtain rfl : _ = c' := by simpa using hc'
      refine ⟨hhead, ?_⟩
      simp only [hover, Bool.false_or, decide_eq_false_iff_not]
      omega
  | takeSlot =>
      obtain ⟨c, hc, _, ⟨_, rfl⟩ | ⟨_, _, ⟨_, rfl⟩ | ⟨_, rfl⟩⟩⟩ := State.takeSlot_cases hs <;>
      · intro c' hc'
        obtain rfl : _ = c' := by simpa using hc'
        exact h.copying c (.inl hc)
  | recheck => obtain ⟨_, _, ⟨_, rfl⟩ | ⟨_, rfl⟩⟩ := State.recheck_cases hs <;> simp
  | commit => obtain ⟨_, _, _, rfl⟩ := State.commit_cases hs; simp
  | retire =>
      obtain ⟨hc, rfl⟩ := State.retire_cases hs
      simp [hc]

theorem terminal_of_run {ok : Label → State → Prop} {capacity : Capacity} {spin : Bool}
    (h : Run ok (State.init capacity spin) s) : s.producer = .exited → s.terminal = true := by
  apply h.invariant (by simp [State.init])
  intro l u v hu _ hs
  cases l with
  | beginOp => obtain ⟨_, _, ⟨_, rfl⟩ | ⟨_, _, rfl⟩⟩ := State.beginOp_cases hs <;> simp
  | loadTail =>
      obtain ⟨_, _, _, ⟨_, rfl⟩ | ⟨_, rfl | rfl⟩⟩ := State.loadTail_cases hs
      · simp
      · exact hu
      · simp
  | storeField => obtain ⟨_, _, _, _, _, _, rfl⟩ := State.storeField_cases hs; simp
  | finishSlot =>
      obtain ⟨_, _, _, _, ⟨_, rfl⟩ | ⟨_, rfl⟩⟩ := State.finishSlot_cases hs
      · simp
      · unfold State.advance
        split <;> simp
  | flush => obtain ⟨_, rfl⟩ := State.flush_cases hs; exact hu
  | exit => obtain ⟨_, _, rfl⟩ := State.exit_cases hs; simp
  | call | loadHead | readField | takeSlot | recheck | commit | retire =>
      have e := sameProducer_of_step rfl hs
      rw [e.producer, e.terminal]
      exact hu

/-- `n` calls with room for eight events are made and return; around their steps
anything else may happen. -/
inductive Calls (s : State) : ℕ → State → Prop
  | none : Calls s 0 s
  | next {n outLen : ℕ} {t u v : State} : Calls s n t → 8 ≤ outLen →
      Ring.step (.call outLen) t = some u → Run (fun _ _ => True) u v → v.consumer = .idle →
      Calls s (n + 1) v

/-- Once the producer has exited every run is steady and the head stays. -/
theorem Quiet.run {t : State} (h : Quiet s) (hp : Progressing s) (hrun : Run (fun _ _ => True) s t) :
    Run Steady s t ∧ Quiet t ∧ Progressing t ∧ t.head = s.head := by
  apply hrun.invariant ⟨.start, h, hp, rfl⟩
  rintro l u v ⟨hu, hq, hpr, hhead⟩ _ hs
  have hok := hq.steady hs
  obtain ⟨hq', hsame⟩ := hq.step hpr hs
  exact ⟨hu.next hok hs, hq', hpr.step hok hs, hsame.trans hhead⟩

theorem Quiet.calls {t : State} {n : ℕ} (h : Quiet s) (hp : Progressing s)
    (hidle : s.consumer = .idle) (hcalls : Calls s n t) :
    Quiet t ∧ Progressing t ∧ t.consumer = .idle ∧ t.head = s.head ∧
      (s.tail + n ≤ t.tail ∨ t.tail = t.head) := by
  induction hcalls with
  | none => exact ⟨h, hp, hidle, rfl, .inl le_rfl⟩
  | @next n outLen t u v _ hout hcall hrun hidle' ih =>
      obtain ⟨hq, hpr, _, hhead, hmoved⟩ := ih
      have hfirst : Run (fun _ _ => True) t u := .next .start trivial hcall
      obtain ⟨-, hqu, hpu, hheadu⟩ := hq.run hpr hfirst
      obtain ⟨hsteady, hqv, hpv, hheadv⟩ := hqu.run hpu hrun
      have hle := hpr.sound.consumed.tail_le
      have hlev := hpv.sound.consumed.tail_le
      have hmono : t.tail ≤ v.tail := by
        have hkey : Progressing v ∧ t.tail ≤ v.tail := by
          apply (Reach.next .start (hq.steady hcall) hcall |>.trans hsteady).invariant ⟨hpr, le_rfl⟩
          rintro l x y ⟨hx, hxt⟩ hok hs
          exact ⟨hx.step hok hs, hxt.trans (hx.sound.consumed.tail_mono hs)⟩
        exact hkey.2
      refine ⟨hqv, hpv, hidle', by omega, ?_⟩
      rcases Nat.lt_or_ge t.tail t.head with hlt | hge
      · have := hpr.call_moves hlt hout hcall hsteady hidle'
        omega
      · omega

theorem Quiet.exists_calls (h : Quiet s) (hp : Progressing s) (hidle : s.consumer = .idle)
    (n : ℕ) : ∃ t, Calls s n t := by
  induction n with
  | zero => exact ⟨s, .none⟩
  | succ n ih =>
      obtain ⟨t, ht⟩ := ih
      obtain ⟨hq, hpr, hidle', _⟩ := h.calls hp hidle ht
      have hcall : Ring.step (.call 8) t = some { t with consumer := .started 8 t.tail } := by
        simp only [Ring.step, State.call, hidle', if_pos (show 0 < 8 by decide)]
      obtain ⟨-, hqu, hpu, -⟩ := hq.run hpr (.next .start trivial hcall)
      have hwork (x : State) (hx : Quiet x ∧ Progressing x) (hbusy : ¬ x.consumer = .idle) :
          ∃ l y, True ∧ Ring.step l x = some y ∧ (Quiet y ∧ Progressing y) ∧
            y.consumer.work < x.consumer.work := by
        obtain ⟨hqx, hpx⟩ := hx
        obtain ⟨l, y, -, hs, hlt⟩ := hpx.sound.consumed.busy_step hbusy
        exact ⟨l, y, trivial, hs, ⟨(hqx.step hpx hs).1, hpx.step (hqx.steady hs) hs⟩, hlt⟩
      obtain ⟨v, hrun, -, hdone⟩ :=
        Reach.exists_done (fun x : State => x.consumer.work) hwork _ ⟨hqu, hpu⟩
      exact ⟨v, ht.next le_rfl hcall hrun hdone⟩

end Drain

/-- In a run that publishes runs whole and accepts no overrun batch, a call with
room for eight events moves the tail whenever there is something to take; once
the producer has exited, as many calls as there are events left empty the ring,
each of them can be made, and the ring is retired. -/
theorem calls_advance_and_drain {capacity : Capacity} {spin : Bool} {s : State}
    (h : Run Steady (State.init capacity spin) s) :
    (∀ outLen u v, s.tail < s.head → 8 ≤ outLen → step (.call outLen) s = some u →
      Run Steady u v → v.consumer = .idle → s.tail < v.tail) ∧
    (s.producer = .exited → s.consumer = .idle →
      (∀ n, ∃ t, Calls s n t) ∧
      ∀ n t, Calls s n t → s.head - s.tail ≤ n →
        t.tail = t.head ∧ ∃ t', step .retire t = some t' ∧ t'.alive = false) := by
  have hp := progressing_of_run h
  refine ⟨fun _ _ _ hlt hout hcall hrun hidle => hp.call_moves hlt hout hcall hrun hidle, ?_⟩
  intro hexited hidle
  have hq : Quiet s := ⟨hexited, terminal_of_run h hexited, by simp [hidle]⟩
  refine ⟨hq.exists_calls hp hidle, ?_⟩
  intro n t hcalls hn
  obtain ⟨hqt, hpt, hidlet, hhead, hmoved⟩ := hq.calls hp hidle hcalls
  have hle := hpt.sound.consumed.tail_le
  have heq : t.tail = t.head := by omega
  refine ⟨heq, { t with alive := t.alive && !(t.terminal && t.head == t.tail) }, ?_, ?_⟩
  · simp only [step, State.retire, hidlet]
  · simp [hqt.terminal, heq]

theorem HeadersFirst.steady {l : Label} {s : State} (h : HeadersFirst l s) : Steady l s := by
  cases l with
  | beginOp => exact h
  | recheck => exact h.noOverrun
  | _ => trivial

/-- A thread that pushed one call event and exited is drained by one call. -/
theorem exited_ring_is_retired :
    ∃ s t : State, s.tail < s.head ∧ Calls s 1 t ∧ t.tail = t.head ∧
      ∃ t', step .retire t = some t' ∧ t'.alive = false := by
  let op : Op := .pushExFlags 0x401000 0 0x7ffc0000 EVENT_CALL 0 0 0
  obtain ⟨slots, hpush⟩ := run_push (P := fun op => op.isInline = false ∧ op.Whole)
    (s := State.init THREAD_RING_CAPACITY false) op ⟨rfl, by decide, by decide⟩ rfl rfl
    (by decide) rfl (by decide)
  let s : State := { State.init THREAD_RING_CAPACITY false with
    slots := slots, head := 1, cached := 1, ops := [op], producer := .exited, terminal := true }
  have hsteady : Run Steady (State.init THREAD_RING_CAPACITY false) s :=
    ((run_headersFirst hpush).mono fun _ _ h => h.steady).next (l := .exit) trivial rfl
  obtain ⟨-, hexited⟩ := calls_advance_and_drain hsteady
  obtain ⟨hexists, hdrained⟩ := hexited rfl rfl
  obtain ⟨t, hcalls⟩ := hexists 1
  exact ⟨s, t, Nat.one_pos, hcalls, hdrained 1 t hcalls le_rfl⟩

section Stall

/-- A snapshot-kind slot ends the loop when fewer than seven are left. -/
theorem runTailAfter_short {limit n : ℕ} {e : Event} (hk : e.kind = EVENT_REG_SNAPSHOT)
    (hlt : limit < n + REG_SNAPSHOT_SLOTS) : runTailAfter limit n 0 e = none := by
  simp [runTailAfter, hk, hlt]

/-- Inside a run the loop takes every slot. -/
theorem scan_inside {limit : ℕ} {events : List Event} (n r : ℕ) (h : events.length ≤ r) :
    scan limit n r events = some (r - events.length) := by
  induction events generalizing n r with
  | nil => rfl
  | cons e es ih =>
      simp only [List.length_cons] at h ⊢
      have hnext : runTailAfter limit n r e = some (r - 1) := by
        rw [runTailAfter, if_neg (by omega)]
      rw [scan, hnext, Option.bind_some, ih (n + 1) (r - 1) (by omega), Nat.sub_sub, Nat.add_comm 1]

/-- Slots of the snapshot kind are taken seven at a time. -/
theorem scan_snapshots {limit n m : ℕ} {events : List Event}
    (hk : ∀ e ∈ events, e.kind = EVENT_REG_SNAPSHOT) (hlen : events.length = m * 7)
    (hfits : n + m * 7 ≤ limit) : scan limit n 0 events = some 0 := by
  induction m generalizing n events with
  | zero =>
      obtain rfl := List.eq_nil_of_length_eq_zero (by omega)
      rfl
  | succ m ih =>
      cases events with
      | nil =>
          simp only [List.length_nil] at hlen
          omega
      | cons e rest =>
          simp only [List.length_cons] at hlen
          have hlong : (rest.take 6).length = 6 := by
            rw [List.length_take]
            omega
          have hfirst : runTailAfter limit n 0 e = some 6 := by
            have hroom : ¬ limit < n + REG_SNAPSHOT_SLOTS := by
              simp only [REG_SNAPSHOT_SLOTS]
              omega
            simp [runTailAfter, hk e (by simp), hroom]
          have hrest : scan limit (n + 1 + 6) 0 (rest.drop 6) = some 0 := by
            apply ih
            · intro e' he'
              exact hk e' (by simp [List.mem_of_mem_drop he'])
            · rw [List.length_drop]
              omega
            · omega
          rw [scan, hfirst, Option.bind_some, ← List.take_append_drop 6 rest, scan_append,
            scan_inside _ _ hlong.le, hlong, Option.bind_some]
          exact hrest

/-- The history of a row of operations holds nothing else. -/
theorem op_of_replicate {op : Op} {n : ℕ} {w : Written}
    (h : w ∈ (List.replicate n op).flatMap Op.written) : w.op = op := by
  obtain ⟨x, hx, hw⟩ := List.mem_flatMap.mp h
  obtain rfl := List.eq_of_mem_replicate hx
  obtain ⟨i, -, rfl⟩ := List.mem_map.mp hw
  rfl

theorem length_replicate_written (op : Op) (n : ℕ) :
    ((List.replicate n op).flatMap Op.written).length = n * op.slots.length := by
  simp [List.length_flatMap, Op.written_length]

/-- Four stores and 149796 snapshots fill the ring; five more stores, not yet
published, land in the slots of indices 0 to 4. -/
theorem exists_overwritten :
    ∃ s : State, Run (Begins Op.Whole) (State.init THREAD_RING_CAPACITY false) s ∧
      s.capacity = THREAD_RING_CAPACITY ∧ s.consumer = .idle ∧ s.head = 2 ^ 20 ∧ s.tail = 0 ∧
      (∀ p < 5, s.slots (s.capacity.index p) = (plainWrite 0).slot 0) ∧
      ∀ p, 5 ≤ p → p < 2 ^ 20 →
        (s.slots (s.capacity.index p)).kind = EVENT_REG_SNAPSHOT := by
  let s₀ := State.init THREAD_RING_CAPACITY false
  have hlen : onesSnapshot.slots.length = 7 := rfl
  have hone : (plainWrite 0).slots.length = 1 := rfl
  obtain ⟨slots₁, hfirst⟩ := run_repeat (P := Op.Whole) (s := s₀) (plainWrite 0) true
    (fun _ => rfl) 4 fun i hi slots => run_publishedWrite trivial rfl
      (show 0 + i * 1 + 1 < 2 ^ 64 by omega)
  let s₁ := s₀.after (plainWrite 0) true 4 slots₁
  have hcached₁ : s₁.cached = 4 := rfl
  obtain ⟨slots₂, hpushes⟩ := run_pushes (P := Op.Whole) (s := s₁) (n := 149796) onesSnapshot trivial
    rfl rfl rfl (by rw [hlen, hcached₁]; decide) (by
      intro i hi
      have hused : (4 + i * 7 + 2 ^ 64 - 0) % 2 ^ 64 = 4 + i * 7 := by omega
      have htail : s₁.tail = 0 := rfl
      have hsize : s₁.capacity.size = 2 ^ 20 := rfl
      simp only [onesSnapshot, Op.admits] at hlen ⊢
      simp only [hlen, hcached₁, htail, hsize, hused, REG_SNAPSHOT_SLOTS, decide_eq_true_eq]
      rw [Nat.mod_eq_of_lt (by omega)]
      omega)
  let s₂ := s₁.after onesSnapshot true 149796 slots₂
  have hcached₂ : s₂.cached = 2 ^ 20 := by
    simp only [s₂, State.after, hlen, hcached₁]
    decide
  obtain ⟨slots₃, hhidden⟩ := run_hiddenWrites (P := Op.Whole) (s := s₂) (n := 5) trivial rfl
    (by rw [hcached₂]; decide) (by rw [hcached₂]; decide)
  let s := s₂.after (plainWrite 0) false 5 slots₃
  have hcached : s.cached = 2 ^ 20 + 5 := by
    simp only [s, State.after, hone, hcached₂]
  have hhead : s.head = 2 ^ 20 := by
    simp only [s, s₂, State.after, hlen, hcached₁, Bool.false_eq_true, if_false, if_true]
    decide
  have hrun : Run (Begins Op.Whole) s₀ s := (hfirst.trans hpushes).trans hhidden
  have hproduced : Produced s := produced_of_run hrun
  have hfilled : s.filled = 2 ^ 20 + 5 := hcached
  have hfrontier : s.frontier = 2 ^ 20 + 5 := hcached
  have hsize : s.capacity.size = 2 ^ 20 := rfl
  have hintact : ∀ p w, s.entry p = some w → 5 ≤ p → p < 2 ^ 20 + 5 →
      s.slots (s.capacity.index p) = w.event := fun p w hw hlow hhigh =>
    hproduced.intact p w hw (by omega) (by omega)
  let front := (List.replicate 4 (plainWrite 0)).flatMap Op.written
  let middle := (List.replicate 149796 onesSnapshot).flatMap Op.written
  let back := (List.replicate 5 (plainWrite 0)).flatMap Op.written
  have hwritten : s.written = front ++ middle ++ back := by
    simp only [State.written, s, s₂, s₁, s₀, State.init, State.after, List.flatMap_append,
      List.nil_append, front, middle, back]
  have hfront : front.length = 4 := length_replicate_written _ _
  have hmiddle : middle.length = 2 ^ 20 - 4 := by
    rw [length_replicate_written, hlen]
    decide
  have hall : s.written.length = 2 ^ 20 + 5 := hproduced.pc.trans hcached
  refine ⟨s, hrun, rfl, rfl, hhead, rfl, ?_, ?_⟩
  · intro p hp
    obtain ⟨w, hw⟩ := State.exists_entry (s := s) (p := p + 2 ^ 20) (by omega)
    have hop : w.op = plainWrite 0 := by
      simp only [State.entry, hwritten] at hw
      rw [List.getElem?_append_right (by simp only [List.length_append]; omega)] at hw
      exact op_of_replicate (List.mem_of_getElem? hw)
    obtain ⟨-, -, hpos, -⟩ := State.entry_block hw
    have hslot := hintact _ w hw (by omega) (by omega)
    have hindex : s.capacity.index (p + 2 ^ 20) = s.capacity.index p := by
      rw [Capacity.index_eq_mod, Capacity.index_eq_mod]
      exact Nat.add_mod_right p (2 ^ 20)
    rw [hop] at hpos
    have hzero : w.pos = 0 := Nat.lt_one_iff.mp hpos
    rw [← hindex, hslot, Written.event, hop, hzero]
  · intro p hlow hhigh
    obtain ⟨w, hw⟩ := State.exists_entry (s := s) (p := p) (by omega)
    have hop : w.op = onesSnapshot := by
      simp only [State.entry, hwritten] at hw
      rw [List.getElem?_append_left (by simp only [List.length_append]; omega),
        List.getElem?_append_right (by omega)] at hw
      exact op_of_replicate (List.mem_of_getElem? hw)
    obtain ⟨-, -, hpos, -⟩ := State.entry_block hw
    rw [hintact p w hw hlow (by omega)]
    exact Op.kind_of_snapshot (by rw [hop]; rfl) (Written.event_mem hpos)

/-- The overwritten ring is read seven slots at a time from index 5 on: the first
call stops at 2^20 - 6, inside the last snapshot, and the next takes nothing. -/
theorem call_stalls :
    ¬ ∀ s u v outLen, Run (Begins Op.Whole) (State.init THREAD_RING_CAPACITY false) s →
      s.tail < s.head → 8 ≤ outLen → step (.call outLen) s = some u →
      Run (Begins Op.Whole) u v → v.consumer = .idle → s.tail < v.tail := by
  intro hall
  obtain ⟨s, hrun, hcap, hidle, hhead, htail, hplain, hsnap⟩ := exists_overwritten
  have hsize : s.capacity.size = 2 ^ 20 := by
    rw [hcap]
    rfl
  let slotAt : ℕ → Event := fun p => s.slots (s.capacity.index p)
  let front := (List.range 5).map slotAt
  let back := ((List.range (149795 * 7)).map (5 + ·)).map slotAt
  have hevents : front ++ back = (List.range (5 + 149795 * 7)).map slotAt := by
    rw [List.range_add, List.map_append]
  have hscan : scan (min (s.head - 0) (2 ^ 20)) 0 0 (front ++ back) = some 0 := by
    have hlenBack : back.length = 149795 * 7 := by simp only [back, List.length_map, List.length_range]
    have hfront : ∀ e ∈ front, e.kind ≠ EVENT_REG_SNAPSHOT ∧ e.isCompound = false := by
      intro e he
      obtain ⟨p, hp, rfl⟩ := List.mem_map.mp he
      simp only [slotAt, hplain p (List.mem_range.mp hp)]
      decide
    have hback : ∀ e ∈ back, e.kind = EVENT_REG_SNAPSHOT := by
      intro e he
      obtain ⟨p, hp, rfl⟩ := List.mem_map.mp he
      obtain ⟨j, hj, rfl⟩ := List.mem_map.mp hp
      have := List.mem_range.mp hj
      exact hsnap _ (by omega) (by omega)
    rw [hhead, scan_append, scan_single _ _ hfront, Option.bind_some, Nat.zero_sub]
    exact scan_snapshots hback hlenBack (by simp only [front, List.length_map, List.length_range]; omega)
  have hlen : (front ++ back).length = 2 ^ 20 - 6 := by
    rw [hevents, List.length_map, List.length_range]
    omega
  have hslots : ∀ j e, (front ++ back)[j]? = some e →
      s.slots (s.capacity.index (0 + j)) = e := by
    intro j e he
    rw [hevents, List.getElem?_map, Option.map_eq_some_iff] at he
    obtain ⟨p, hp, rfl⟩ := he
    have hj := (List.getElem?_eq_some_iff.mp hp).choose_spec
    rw [List.getElem_range] at hj
    rw [Nat.zero_add, hj]
  have hlast := hsnap (2 ^ 20 - 6) (by omega) (by omega)
  obtain ⟨s₁, hfirst, hsame, hidle₁, htail₁, -⟩ := run_stop (P := Op.Whole) (s := s) (2 ^ 20) 0
    (front ++ back) (by omega) (by omega) (by omega) hslots hscan
    (by rw [hlen, Nat.zero_add])
    (runTailAfter_short hlast (by simp only [REG_SNAPSHOT_SLOTS]; omega))
  have hcall : step (.call (2 ^ 20)) s = some { s with consumer := .started (2 ^ 20) s.tail } := by
    simp only [step, State.call, hidle, if_pos (show 0 < 2 ^ 20 by decide)]
  have hrun₁ : Run (Begins Op.Whole) (State.init THREAD_RING_CAPACITY false) s₁ :=
    (hrun.next (l := .call (2 ^ 20)) (show Begins Op.Whole (.call (2 ^ 20)) s from trivial) hcall).trans hfirst
  have hhead₁ : s₁.head = 2 ^ 20 := hsame.head.trans hhead
  rw [hlen, Nat.zero_add] at htail₁
  obtain ⟨v, hsecond, -, hidlev, htailv, -⟩ := run_stop (P := Op.Whole) (s := s₁) 8 (2 ^ 20 - 6) []
    (by rw [hsame.capacity]; omega) (by omega) (by simp only [List.length_nil]; omega) (by simp)
    rfl rfl
    (runTailAfter_short
      (by rw [hsame.slots, hsame.capacity]; exact hlast)
      (by simp only [REG_SNAPSHOT_SLOTS, List.length_nil]; omega))
  have hmoved := hall s₁ { s₁ with consumer := .started 8 s₁.tail } v 8 hrun₁ (by omega) le_rfl
    (by simp only [step, State.call, hidle₁, if_pos (show 0 < 8 by decide)]) hsecond hidlev
  simp only [List.length_nil] at htailv
  omega

end Stall

end Rtmap.Ring
