import Rtmap.Ring.Runs

/-!
# A producer that only pushes

Every push tests for room against a tail that can only grow, so the producer
never moves more than one capacity ahead of the consumer: nothing is lapped, no
batch is overrun, and the batches are the pushed slots in order, cut between
register snapshots.
-/
namespace Rtmap.Ring
open Transition

/-- The producer uses the full-checked pushes alone. -/
def PushOnly : Label → State → Prop := Begins fun op => op.isInline = false ∧ op.Whole

/-- Without laps a call reads from the shared tail and keeps its batch. -/
def Consumer.Calm (s : State) : Consumer → Prop
  | .copying c | .copied c => c.overrun = false ∧ c.tail = s.tail
  | .storing _ batch => ∃ b, batch = some b ∧ b.start = s.tail
  | _ => True

/-- Where the producer will stand after the operation in progress. -/
def State.reserved (s : State) : ℕ :=
  match s.producer with
  | .writing op base _ _ => base + op.slots.length
  | _ => s.cached

theorem State.Exact.eq_take {s : State} {start : ℕ} {events : List Event}
    (h : s.Exact start events) :
    events = ((s.ops.flatMap Op.slots).drop start).take events.length := by
  apply List.ext_getElem?
  intro j
  by_cases hj : j < events.length
  · obtain ⟨w, hw, he⟩ := h j _ (List.getElem?_eq_getElem hj)
    rw [List.getElem?_take_of_lt hj, List.getElem?_drop, ← event_of_written, List.getElem?_map,
      List.getElem?_eq_getElem hj, he]
    simp only [State.entry, State.written] at hw
    rw [hw, Option.map_some]
  · rw [List.getElem?_eq_none (by omega), List.getElem?_eq_none (by simp; omega)]

structure FullChecked (s : State) : Prop where
  framed : Framed s
  pushes : AllOps (fun op => op.isInline = false ∧ op.Whole) s
  synced : s.head = s.cached
  room : s.reserved ≤ s.tail + s.capacity.size
  calm : s.consumer.Calm s
  unlapped : s.lappedEvents = 0 ∧ s.lapEpisodes = 0
  tail_aligned : s.offset s.tail = 0
  delivered : s.batches.flatMap Batch.events = (s.ops.flatMap Op.slots).take s.tail

theorem fullChecked_init (capacity : Capacity) (spin : Bool) :
    FullChecked (State.init capacity spin) where
  framed := framed_init capacity spin
  pushes := allOps_init _ capacity spin
  synced := rfl
  room := by simp [State.reserved, State.init]
  calm := trivial
  unlapped := ⟨rfl, rfl⟩
  tail_aligned := rfl
  delivered := rfl

section FullChecked
variable {s s' : State}

theorem FullChecked.frontier_le (h : FullChecked s) : s.frontier ≤ s.tail + s.capacity.size := by
  have hroom := h.room
  have hpc := h.framed.sound.produced.pc
  unfold State.reserved at hroom
  unfold State.frontier
  cases hp : s.producer with
  | writing op base i todo =>
      rw [hp] at hroom hpc
      have := hpc.2.1
      simp only at hroom ⊢
      omega
  | _ => simpa [hp] using hroom

theorem FullChecked.head_le (h : FullChecked s) : s.head ≤ s.tail + s.capacity.size := by
  have hle := h.framed.sound.produced.head_le_filled
  have hf := Produced.filled_le_frontier (s := s)
  have := h.frontier_le
  omega

theorem FullChecked.headersFirst {l : Label} (h : FullChecked s) (hok : PushOnly l s) :
    HeadersFirst l s := by
  cases l with
  | beginOp op =>
      have hop : op.isInline = false ∧ op.Whole := hok
      exact hop.2
  | recheck =>
      intro c hc _
      have hcalm := h.calm
      rw [hc] at hcalm
      refine ⟨hcalm.1, ?_⟩
      rw [hcalm.2]
      exact h.tail_aligned
  | _ => trivial

theorem FullChecked.tail_le_written (h : FullChecked s) : s.tail ≤ s.written.length :=
  h.framed.sound.consumed.tail_le.trans h.framed.sound.produced.head_le_written

theorem slots_length (s : State) : (s.ops.flatMap Op.slots).length = s.written.length := by
  rw [← event_of_written, List.length_map]
  rfl

/-- The producer's half: admitted pushes stay within one capacity of the tail. -/
theorem FullChecked.producer {l : Label} (h : FullChecked s) (hl : l.isProducer = true)
    (hok : PushOnly l s) (hs : Ring.step l s = some s') :
    s'.head = s'.cached ∧ s'.reserved ≤ s.tail + s.capacity.size := by
  have hroom := h.room
  have hsync := h.synced
  have hpc := h.framed.sound.produced.pc
  have htail := h.framed.sound.consumed.tail_le
  cases l with
  | beginOp op =>
      obtain ⟨hidle, -, ⟨hin, -⟩ | ⟨-, -, rfl⟩⟩ := State.beginOp_cases hs
      · have hpush : op.isInline = false ∧ op.Whole := hok
        simp [hpush.1] at hin
      · exact ⟨hsync, by simpa [State.reserved, hidle] using hroom⟩
  | loadTail =>
      obtain ⟨op, hd, hp, ⟨had, rfl⟩ | ⟨-, rfl | rfl⟩⟩ := State.loadTail_cases hs
      · rw [hp] at hpc
        obtain ⟨-, hin, rfl, -, hlt⟩ := hpc
        refine ⟨hsync, ?_⟩
        exact Op.admits_room had hin (by omega) hlt
      · exact ⟨hsync, hroom⟩
      · exact ⟨hsync, by simpa [State.reserved, hp] using hroom⟩
  | storeField =>
      obtain ⟨_, _, _, _, hp, -, rfl⟩ := State.storeField_cases hs
      exact ⟨hsync, by simpa [State.reserved, hp] using hroom⟩
  | finishSlot =>
      obtain ⟨op, base, i, hp, ⟨-, rfl⟩ | ⟨-, rfl⟩⟩ := State.finishSlot_cases hs
      · exact ⟨hsync, by simpa [State.reserved, hp] using hroom⟩
      · rw [hp] at hpc
        obtain ⟨-, -, -, ⟨before, hops, -⟩, -⟩ := hpc
        have hpush : op.isInline = false := (h.pushes.ops op (by simp [hops])).1
        rw [State.reserved, hp] at hroom
        simp only [State.advance, hpush, Bool.false_eq_true, if_false, State.reserved]
        exact ⟨trivial, hroom⟩
  | flush =>
      obtain ⟨hidle, rfl⟩ := State.flush_cases hs
      exact ⟨rfl, by simpa [State.reserved, hidle] using hroom⟩
  | exit =>
      obtain ⟨hidle, hhead, rfl⟩ := State.exit_cases hs
      exact ⟨hhead, by simpa [State.reserved, hidle] using hroom⟩
  | call | loadHead | readField | takeSlot | recheck | commit | retire =>
      simp [Label.isProducer] at hl

/-- The consumer's half: no lap is seen, and the batch starts at the tail. -/
theorem FullChecked.consumer {l : Label} (h : FullChecked s) (hl : l.isProducer = false)
    (hs : Ring.step l s = some s') :
    s'.consumer.Calm s' ∧ s'.lappedEvents = 0 ∧ s'.lapEpisodes = 0 := by
  have hhead := h.head_le
  have hcalm := h.calm
  have hpc := h.framed.sound.consumed.pc
  cases l with
  | beginOp | loadTail | storeField | finishSlot | flush | exit => simp [Label.isProducer] at hl
  | call => obtain ⟨_, _, rfl⟩ := State.call_cases hs; exact ⟨trivial, h.unlapped⟩
  | loadHead =>
      obtain ⟨outLen, t, hc, ⟨hlap, rfl⟩ | ⟨hlap, rfl⟩⟩ := State.loadHead_cases hs
      · rw [hc] at hpc
        have := hpc.1
        omega
      · rw [hc] at hpc
        refine ⟨?_, h.unlapped⟩
        unfold Consumer.enter
        split
        · trivial
        · exact ⟨rfl, hpc.1⟩
  | readField f =>
      obtain ⟨c, hc, _, rfl⟩ := State.readField_cases hs
      rw [hc] at hcalm
      refine ⟨⟨?_, hcalm.2⟩, h.unlapped⟩
      have hfront := h.frontier_le
      have htail := hcalm.2
      simp only [hcalm.1, Bool.false_or, decide_eq_false_iff_not, not_lt]
      omega
  | takeSlot =>
      obtain ⟨c, hc, _, ⟨_, rfl⟩ | ⟨_, _, ⟨_, rfl⟩ | ⟨_, rfl⟩⟩⟩ := State.takeSlot_cases hs
      all_goals
        rw [hc] at hcalm
        exact ⟨hcalm, h.unlapped⟩
  | recheck =>
      obtain ⟨c, hc, ⟨hlap, rfl⟩ | ⟨hlap, rfl⟩⟩ := State.recheck_cases hs
      · rw [hc] at hcalm
        have := hcalm.2
        omega
      · rw [hc] at hcalm
        exact ⟨⟨_, rfl, hcalm.2⟩, h.unlapped⟩
  | commit => obtain ⟨_, _, _, rfl⟩ := State.commit_cases hs; exact ⟨trivial, h.unlapped⟩
  | retire =>
      obtain ⟨hc, rfl⟩ := State.retire_cases hs
      refine ⟨?_, h.unlapped⟩
      simp only [hc]
      trivial

theorem Consumer.Calm.mono {k : Consumer} (h : k.Calm s) (htail : s'.tail = s.tail) :
    k.Calm s' := by
  cases k with
  | idle | started => trivial
  | copying | copied | storing =>
      simp only [Calm, htail]
      exact h

/-- Moving the tail over an exact batch extends what has been delivered. -/
theorem FullChecked.deliver (h : FullChecked s) {b : Batch} (hb : s.Exact b.start b.events)
    (hstart : b.start = s.tail) :
    (s.batches ++ [b]).flatMap Batch.events =
      (s.ops.flatMap Op.slots).take (b.start + b.events.length) := by
  rw [List.flatMap_append, h.delivered, List.flatMap_singleton, List.take_add, hstart]
  congr 1
  rw [← hstart]
  exact hb.eq_take

theorem FullChecked.step {l : Label} (h : FullChecked s) (hok : PushOnly l s)
    (hs : Ring.step l s = some s') : FullChecked s' := by
  have hframed := h.framed.step (h.headersFirst hok) hs
  have hpushes := h.pushes.step hok hs
  obtain ⟨more, hops⟩ := (h.framed.sound.produced.advances hs).ops
  have hwritten := h.tail_le_written
  cases hl : l.isProducer with
  | true =>
      have e := sameConsumer_of_step hl hs
      obtain ⟨hsync, hroom⟩ := h.producer hl hok hs
      refine ⟨hframed, hpushes, hsync, ?_, ?_, ?_, ?_, ?_⟩
      · rw [e.tail, e.capacity]
        exact hroom
      · rw [e.consumer]
        exact h.calm.mono e.tail
      · rw [e.lappedEvents, e.lapEpisodes]
        exact h.unlapped
      · rw [e.tail, State.offset_append hops hwritten, h.tail_aligned]
      · rw [e.batches, e.tail, hops, List.flatMap_append,
          List.take_append_of_le_length (by rw [slots_length]; exact hwritten), h.delivered]
  | false =>
      have e := sameProducer_of_step hl hs
      obtain ⟨hcalm, hunlapped⟩ := h.consumer hl hs
      have hsync : s'.head = s'.cached := by rw [e.head, e.cached, h.synced]
      have hreserved : s'.reserved = s.reserved := by
        simp only [State.reserved, e.producer, e.cached]
      have hroom := h.room
      by_cases hcommit : l = .commit
      · subst hcommit
        obtain ⟨newTail, batch, hc, rfl⟩ := State.commit_cases hs
        have hpc := h.framed.sound.consumed.pc
        have hold := h.calm
        have hex := h.framed.sound.exact
        rw [hc] at hpc hold hex
        obtain ⟨b, rfl, hstart⟩ := hold
        have halign := h.framed.storing _ _ hc
        obtain ⟨-, rfl⟩ := hpc.2.2 b rfl
        refine ⟨hframed, hpushes, hsync, ?_, hcalm, hunlapped, halign.stop, h.deliver hex hstart⟩
        rw [hreserved]
        simp only
        omega
      · obtain ⟨htail, hbatches⟩ := tail_of_step hcommit hs
        refine ⟨hframed, hpushes, hsync, ?_, hcalm, hunlapped, ?_, ?_⟩
        · rw [hreserved, htail, e.capacity]
          exact hroom
        · rw [htail, State.offset_append hops hwritten, h.tail_aligned]
        · rw [hbatches, e.ops, htail, h.delivered]

end FullChecked

/-- No batch holds some but not all slots of a register snapshot. -/
def State.SnapshotsUnsplit (s : State) : Prop :=
  ∀ b ∈ s.batches, ∀ base op, op.isSnapshot = true →
    (∀ j < REG_SNAPSHOT_SLOTS, s.entry (base + j) = some ⟨op, j⟩) →
      (base + REG_SNAPSHOT_SLOTS ≤ b.start ∨ b.start + b.events.length ≤ base) ∨
      (b.start ≤ base ∧ base + REG_SNAPSHOT_SLOTS ≤ b.start + b.events.length)

theorem State.Aligned.unsplit {s : State} {b : Batch} (h : s.Aligned b) {base : ℕ} {op : Op}
    (hop : op.isSnapshot = true)
    (hrun : ∀ j < REG_SNAPSHOT_SLOTS, s.entry (base + j) = some ⟨op, j⟩) :
    (base + REG_SNAPSHOT_SLOTS ≤ b.start ∨ b.start + b.events.length ≤ base) ∨
      (b.start ≤ base ∧ base + REG_SNAPSHOT_SLOTS ≤ b.start + b.events.length) := by
  have hcut : ∀ p, s.offset p = 0 → p ≤ base ∨ base + REG_SNAPSHOT_SLOTS ≤ p := by
    intro p hp
    by_contra hin
    have hentry := hrun (p - base) (by omega)
    rw [show base + (p - base) = p by omega] at hentry
    rw [State.offset_of_entry hentry, if_pos hop] at hp
    simp only at hp
    omega
  have hstart := hcut _ h.start
  have hstop := hcut _ h.stop
  omega

/-- A ring written by pushes alone delivers the slots of the admitted pushes, in
order and unchanged, records no lap, and never splits a register snapshot. -/
theorem pushes_are_delivered_in_order {capacity : Capacity} {spin : Bool} {s : State}
    (h : Run PushOnly (State.init capacity spin) s) :
    s.batches.flatMap Batch.events = (s.ops.flatMap Op.slots).take s.tail ∧
      s.lappedEvents = 0 ∧ s.lapEpisodes = 0 ∧ s.SnapshotsUnsplit := by
  have hs : FullChecked s :=
    h.invariant (fullChecked_init capacity spin) fun _ _ _ hu hok hs => hu.step hok hs
  refine ⟨hs.delivered, hs.unlapped.1, hs.unlapped.2, ?_⟩
  intro b hb base op hop hrun
  exact (hs.framed.aligned b hb).unsplit hop hrun

/-- Runs of pushes alone deliver whole snapshots. -/
theorem run_headersFirst {capacity : Capacity} {spin : Bool} {s : State}
    (h : Run PushOnly (State.init capacity spin) s) :
    Run HeadersFirst (State.init capacity spin) s := by
  have hboth : FullChecked s ∧ Run HeadersFirst (State.init capacity spin) s := by
    apply h.invariant ⟨fullChecked_init capacity spin, .start⟩
    rintro l u v ⟨hu, hrun⟩ hok hs
    exact ⟨hu.step hok hs, hrun.next (hu.headersFirst hok) hs⟩
  exact hboth.2

/-- One push of a whole operation into a fresh ring, and one call that takes it. -/
theorem run_pushAndConsume (op : Op) (hin : op.isInline = false) (hwhole : op.Whole)
    (hscan : (scan op.slots.length 0 0 op.slots).isSome = true) :
    ∃ s, Run PushOnly (State.init THREAD_RING_CAPACITY false) s ∧ s.ops = [op] ∧
      s.batches = [⟨0, op.slots⟩] ∧ s.tail = op.slots.length := by
  have hle := op.slots_length_le
  have hadmits : op.admits (2 ^ 20) 0 0 = true := by
    cases op <;> rfl
  obtain ⟨slots, hpush⟩ := run_push (P := fun op => op.isInline = false ∧ op.Whole)
    (s := State.init THREAD_RING_CAPACITY false) op ⟨hin, hwhole⟩ rfl hin
    (show 0 + op.slots.length < 2 ^ 64 by omega) rfl hadmits
  let s₁ : State := State.advance op 0
    { State.init THREAD_RING_CAPACITY false with slots := slots, ops := [op] }
  have hproduced : Produced s₁ := produced_of_run hpush
  have hhead : s₁.head = op.slots.length := by
    simp [s₁, State.advance, hin]
  have hfront : s₁.frontier = op.slots.length := by
    simp [s₁, State.frontier, State.advance, hin]
  have hops : s₁.ops = [op] := by
    simp [s₁, State.advance, hin]
  have hidle : s₁.consumer = .idle ∧ s₁.tail = 0 ∧ s₁.batches = [] ∧
      s₁.capacity = THREAD_RING_CAPACITY := by
    simp [s₁, State.advance, hin, State.init]
  obtain ⟨hidle, htail, hnone, hcap⟩ := hidle
  have hpos := op.slots_length_pos
  have hsize : s₁.capacity.size = 2 ^ 20 := by rw [hcap]; rfl
  obtain ⟨s, hrun, hsame, -, hstail, hbatches⟩ := run_consume
    (P := fun op => op.isInline = false ∧ op.Whole) (s := s₁) 8 0 op.slots hidle (by omega)
    (by omega) (by decide) (by omega)
    (by
      intro j e he
      have hj : j < op.slots.length := (List.getElem?_eq_some_iff.mp he).choose
      rw [Nat.zero_add]
      exact hproduced.slot_of_history (by simpa [hops] using he) (by omega) (by omega))
    hscan
  refine ⟨s, hpush.trans hrun, ?_, ?_, ?_⟩
  · rw [hsame.ops, hops]
  · rw [hbatches, hnone]
    rfl
  · rw [hstail, Nat.zero_add]

/-- A call event is pushed and taken. -/
theorem pushed_call_is_delivered :
    ∃ s : State, s.batches = [⟨0, s.ops.flatMap Op.slots⟩] ∧ s.ops.length = 1 ∧
      s.batches.flatMap Batch.events = (s.ops.flatMap Op.slots).take s.tail := by
  obtain ⟨s, hrun, hops, hbatches, -⟩ :=
    run_pushAndConsume (.pushExFlags 0x401000 0 0x7ffc0000 EVENT_CALL 0 0 0) rfl
      ⟨by decide, by decide⟩ (by decide)
  exact ⟨s, by rw [hbatches, hops]; rfl, by rw [hops]; rfl, (pushes_are_delivered_in_order hrun).1⟩

end Rtmap.Ring
