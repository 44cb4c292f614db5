import Rtmap.Ring.Delivery

/-!
# Runs inside a batch

`consume_batch` keeps a run whole by reading its length from the run's first
slot. `Copy.Parsed` says that the loop's `run_tail` agrees with the history: it
is zero where no register snapshot is under way, and otherwise counts the slots
left of the operation being copied. It holds along the loop when the batch
starts outside of a snapshot and is not overrun.
-/
namespace Rtmap.Ring

namespace State

/-- The place of an index in its register snapshot, and 0 outside of snapshots. -/
def offset (s : State) (p : ℕ) : ℕ :=
  match s.entry p with
  | some w => if w.op.isSnapshot then w.pos else 0
  | none => 0

section Offset
variable {s s' : State} {p : ℕ} {w : Written}

theorem offset_of_entry (h : s.entry p = some w) :
    s.offset p = if w.op.isSnapshot then w.pos else 0 := by
  simp only [offset, h]

theorem offset_eq_zero_of_pos (h : ∀ w, s.entry p = some w → w.pos = 0) : s.offset p = 0 := by
  unfold offset
  split
  · rename_i w hw
    split
    · exact h w hw
    · rfl
  · rfl

/-- The slot after `w` in its run. -/
theorem entry_succ (h : s.entry p = some w) (hlt : w.pos + 1 < w.op.slots.length) :
    s.entry (p + 1) = some ⟨w.op, w.pos + 1⟩ := by
  obtain ⟨base, hbase, -, hrun⟩ := entry_block h
  have := hrun (w.pos + 1) hlt
  rwa [show base + (w.pos + 1) = p + 1 by omega] at this

/-- After the last slot of a run comes the first slot of another. -/
theorem pos_after_last (h : s.entry p = some w) (hlast : w.pos + 1 = w.op.slots.length)
    {w' : Written} (h' : s.entry (p + 1) = some w') : w'.pos = 0 := by
  obtain ⟨base, hbase, hpos, hrun⟩ := entry_block h'
  by_contra hne
  have hprev := hrun (w'.pos - 1) (by omega)
  rw [show base + (w'.pos - 1) = p by omega, h] at hprev
  obtain rfl := Option.some.inj hprev
  simp only at hlast
  omega

theorem offset_after_last (h : s.entry p = some w) (hlast : w.pos + 1 = w.op.slots.length) :
    s.offset (p + 1) = 0 :=
  offset_eq_zero_of_pos fun _ h' => pos_after_last h hlast h'

/-- What is written next starts with the first slot of a run. -/
theorem pos_at_end {more : List Op} (hops : s'.ops = s.ops ++ more)
    (h : s'.entry s.written.length = some w) : w.pos = 0 := by
  have hnext : (more.flatMap Op.written)[0]? = some w := by
    simpa only [entry, written, hops, List.flatMap_append,
      List.getElem?_append_right le_rfl, Nat.sub_self] using h
  obtain ⟨base, hbase, -⟩ := block_of_written more hnext
  omega

theorem offset_append {more : List Op} (hops : s'.ops = s.ops ++ more)
    (hp : p ≤ s.written.length) : s'.offset p = s.offset p := by
  rcases Nat.lt_or_eq_of_le hp with hlt | rfl
  · obtain ⟨w, hw⟩ := exists_entry hlt
    rw [offset_of_entry hw, offset_of_entry (entry_of_append hops hw)]
  · rw [offset_eq_zero_of_pos fun w hw => pos_at_end hops hw]
    simp [offset, entry]

theorem offset_succ_of_not_snapshot (h : s.entry p = some w) (hs : w.op.isSnapshot = false) :
    s.offset (p + 1) = 0 := by
  obtain ⟨-, -, hpos, -⟩ := entry_block h
  rcases Nat.lt_or_eq_of_le hpos with hlt | hlast
  · rw [offset_of_entry (entry_succ h hlt)]
    simp [hs]
  · exact offset_after_last h hlast

theorem offset_lt (s : State) (p : ℕ) : s.offset p < REG_SNAPSHOT_SLOTS := by
  unfold offset
  split
  · rename_i w hw
    obtain ⟨-, -, hpos, -⟩ := entry_block hw
    split
    · rename_i hsnap
      rwa [← Op.slots_length_snapshot hsnap]
    · decide
  · decide

end Offset

end State

/-- `P` holds of the operations so far and of the one about to be admitted. -/
structure AllOps (P : Op → Prop) (s : State) : Prop where
  ops : ∀ op ∈ s.ops, P op
  pushing : ∀ op h, s.producer = .pushing op h → P op

theorem allOps_init (P : Op → Prop) (capacity : Capacity) (spin : Bool) :
    AllOps P (State.init capacity spin) where
  ops := by simp [State.init]
  pushing := by simp [State.init]

theorem AllOps.step {P : Op → Prop} {l : Label} {s s' : State} (h : AllOps P s)
    (hok : Begins P l s) (hs : Ring.step l s = some s') : AllOps P s' := by
  cases l with
  | beginOp op =>
      have hop : P op := hok
      obtain ⟨_, _, ⟨_, rfl⟩ | ⟨_, _, rfl⟩⟩ := State.beginOp_cases hs
      · refine ⟨?_, by simp⟩
        intro x hx
        rcases List.mem_append.mp hx with hx | hx
        · exact h.ops x hx
        · obtain rfl : x = op := by simpa using hx
          exact hop
      · refine ⟨h.ops, ?_⟩
        intro x hd hx
        obtain ⟨rfl, -⟩ : op = x ∧ s.head = hd := by simpa using hx
        exact hop
  | loadTail =>
      obtain ⟨op, hd, hp, ⟨_, rfl⟩ | ⟨_, rfl | rfl⟩⟩ := State.loadTail_cases hs
      · refine ⟨?_, by simp⟩
        intro x hx
        rcases List.mem_append.mp hx with hx | hx
        · exact h.ops x hx
        · obtain rfl : x = op := by simpa using hx
          exact h.pushing _ _ hp
      · exact h
      · exact ⟨h.ops, by simp⟩
  | storeField => obtain ⟨_, _, _, _, _, _, rfl⟩ := State.storeField_cases hs; exact ⟨h.ops, by simp⟩
  | finishSlot =>
      obtain ⟨_, _, _, _, ⟨_, rfl⟩ | ⟨_, rfl⟩⟩ := State.finishSlot_cases hs
      · exact ⟨h.ops, by simp⟩
      · unfold State.advance
        split <;> exact ⟨h.ops, by simp⟩
  | flush =>
      obtain ⟨hidle, rfl⟩ := State.flush_cases hs
      exact ⟨h.ops, h.pushing⟩
  | exit => obtain ⟨_, _, rfl⟩ := State.exit_cases hs; exact ⟨h.ops, by simp⟩
  | call | loadHead | readField | takeSlot | recheck | commit | retire =>
      have e := sameProducer_of_step rfl hs
      refine ⟨?_, ?_⟩
      · rw [e.ops]
        exact h.ops
      · rw [e.producer]
        exact h.pushing

theorem AllOps.of_entry {P : Op → Prop} {s : State} (h : AllOps P s) {p : ℕ} {w : Written}
    (hw : s.entry p = some w) : P w.op := by
  have hmem := List.mem_of_getElem? hw
  obtain ⟨op, hop, hmem⟩ := List.mem_flatMap.mp hmem
  obtain ⟨i, -, rfl⟩ := List.mem_map.mp hmem
  exact h.ops op hop

theorem Written.event_mem {w : Written} (h : w.pos < w.op.slots.length) :
    w.event ∈ w.op.slots := by
  simp [event, Op.slot, h]

/-- The length that the first slot of a run announces, for every slot. -/
theorem runLength_event {w : Written} (hw : w.op.Whole) (hpos : w.pos < w.op.slots.length) :
    runLength w.event =
      if w.op.isSnapshot then REG_SNAPSHOT_SLOTS
      else if w.pos = 0 then w.op.slots.length else 1 := by
  have hslot := w.op.getElem?_slots hpos
  cases hs : w.op.isSnapshot with
  | true =>
      have hk := Op.kind_of_snapshot hs (Written.event_mem hpos)
      simp [runLength, hk]
  | false =>
      by_cases h0 : w.pos = 0
      · rw [h0] at hslot
        simp only [Bool.false_eq_true, if_false, if_pos h0]
        rw [Written.event, h0]
        exact Op.runLength_first hw hslot
      · simp only [Bool.false_eq_true, if_false, if_neg h0]
        exact Op.runLength_later hw hs (by omega) hslot

namespace Copy
variable {s : State} {c : Copy} {w : Written} {p r : ℕ}

/-- At a run's first slot the loop decides by the announced length alone. -/
theorem nextRunTail_eq (h0 : c.runTail = 0) (hpos : 1 ≤ runLength c.cur)
    (hle : runLength c.cur ≤ 8) (hlt : c.out.length < c.limit) :
    c.nextRunTail =
      if c.limit < c.out.length + runLength c.cur then none else some (runLength c.cur - 1) := by
  unfold nextRunTail runTailAfter
  rw [if_pos h0]
  by_cases hk : c.cur.kind = EVENT_REG_SNAPSHOT
  · simp only [runLength, if_pos hk] at *
    simp [REG_SNAPSHOT_SLOTS]
  · simp only [runLength, if_neg hk] at *
    cases hc : c.cur.isCompound with
    | true =>
        simp only [if_true]
        rw [show (c.cur.compoundSlots + 255) % 256 = c.cur.compoundSlots - 1 by omega]
    | false =>
        have hone : c.cur.compoundSlots = 1 := by simp [Event.compoundSlots, hc]
        have hfits : ¬ c.limit < c.out.length + 1 := by omega
        simp [hone, hfits]

/-- `run_tail` agrees with the history at the next slot to copy. -/
structure Parsed (s : State) (c : Copy) : Prop where
  fits : c.out.length + c.runTail ≤ c.limit
  outside : c.runTail = 0 → s.offset (c.tail + c.out.length) = 0
  inside : 0 < c.runTail → ∃ op, c.runTail < op.slots.length ∧
    s.entry (c.tail + c.out.length) = some ⟨op, op.slots.length - c.runTail⟩

theorem parsed_enter {t h outLen : ℕ} (ht : s.offset t = 0) (o : Bool) :
    Parsed s ⟨t, h, min (h - t) outLen, 0, [], .zero, Field.all, o⟩ where
  fits := by simp
  outside := fun _ => ht
  inside := by simp

/-- What `run_tail` becomes at a slot reached outside of snapshots. -/
theorem announced (hw : s.entry p = some w) (hwhole : w.op.Whole) (hoff : s.offset p = 0) :
    (w.pos = 0 ∧ runLength w.event = w.op.slots.length) ∨
      (w.op.isSnapshot = false ∧ runLength w.event = 1) := by
  obtain ⟨-, -, hpos, -⟩ := State.entry_block hw
  have hrun := runLength_event hwhole hpos
  rw [State.offset_of_entry hw] at hoff
  cases hs : w.op.isSnapshot with
  | true =>
      simp only [hs, if_true] at hoff hrun
      exact .inl ⟨hoff, by rw [hrun, Op.slots_length_snapshot hs]⟩
  | false =>
      simp only [hs, Bool.false_eq_true, if_false] at hrun
      by_cases h0 : w.pos = 0
      · exact .inl ⟨h0, by rw [hrun, if_pos h0]⟩
      · exact .inr ⟨rfl, by rw [hrun, if_neg h0]⟩

theorem Parsed.push (h : c.Parsed s) (hw : s.entry (c.tail + c.out.length) = some w)
    (hcur : c.cur = w.event) (hwhole : w.op.Whole) (hlt : c.out.length < c.limit)
    (hr : c.nextRunTail = some r) : (c.push r).Parsed s := by
  have hlen := w.op.slots_length_le
  have hlen0 := w.op.slots_length_pos
  have hnext : (c.push r).tail + (c.push r).out.length = c.tail + c.out.length + 1 := by
    simp only [Copy.push, List.length_append, List.length_singleton]
    omega
  rcases Nat.eq_zero_or_pos c.runTail with h0 | hin
  · have hann := announced hw hwhole (h.outside h0)
    rw [← hcur] at hann
    have hrun : c.out.length + runLength c.cur ≤ c.limit ∧ r = runLength c.cur - 1 := by
      rw [nextRunTail_eq h0 (by omega) (by omega) hlt] at hr
      split at hr
      · cases hr
      · exact ⟨by omega, (Option.some.inj hr).symm⟩
    obtain ⟨hfits, rfl⟩ := hrun
    refine ⟨?_, ?_, ?_⟩
    · simp only [Copy.push, List.length_append, List.length_singleton]
      omega
    · intro hr0
      rw [hnext]
      simp only [Copy.push] at hr0
      rcases hann with ⟨hp0, hk⟩ | ⟨hs, -⟩
      · exact State.offset_after_last hw (by omega)
      · exact State.offset_succ_of_not_snapshot hw hs
    · intro hrpos
      rw [hnext]
      simp only [Copy.push] at hrpos ⊢
      rcases hann with ⟨hp0, hk⟩ | ⟨-, hk⟩
      · refine ⟨w.op, by omega, ?_⟩
        rw [State.entry_succ hw (by omega), hk, hp0]
        congr 2
        omega
      · omega
  · obtain ⟨op, hop, hentry⟩ := h.inside hin
    have hr' : r = c.runTail - 1 := by
      rw [nextRunTail, runTailAfter, if_neg (by omega)] at hr
      exact (Option.some.inj hr).symm
    subst hr'
    have hfits := h.fits
    refine ⟨?_, ?_, ?_⟩
    · simp only [Copy.push, List.length_append, List.length_singleton]
      omega
    · intro hr0
      rw [hnext]
      simp only [Copy.push] at hr0
      exact State.offset_after_last hentry (by simp only; omega)
    · intro hrpos
      rw [hnext]
      simp only [Copy.push] at hrpos ⊢
      refine ⟨op, by omega, ?_⟩
      rw [State.entry_succ hentry (by simp only; omega)]
      simp only [Option.some.injEq, Written.mk.injEq, true_and]
      omega

theorem Parsed.stop (h : c.Parsed s) (hr : c.nextRunTail = none) :
    s.offset (c.tail + c.out.length) = 0 := by
  apply h.outside
  by_contra hne
  simp [nextRunTail, runTailAfter, hne] at hr

theorem Parsed.full (h : c.Parsed s) (hfull : c.limit ≤ c.out.length) :
    s.offset (c.tail + c.out.length) = 0 := by
  have := h.fits
  exact h.outside (by omega)

theorem Parsed.mono {s' : State} {more : List Op} (h : c.Parsed s) (hops : s'.ops = s.ops ++ more)
    (hp : c.tail + c.out.length ≤ s.written.length) : c.Parsed s' where
  fits := h.fits
  outside := fun h0 => by rw [State.offset_append hops hp, h.outside h0]
  inside := fun hin => by
    obtain ⟨op, hop, hentry⟩ := h.inside hin
    exact ⟨op, hop, State.entry_of_append hops hentry⟩

end Copy

/-- A batch that begins and ends outside of register snapshots. -/
structure State.Aligned (s : State) (b : Batch) : Prop where
  start : s.offset b.start = 0
  stop : s.offset (b.start + b.events.length) = 0

/-- The loop keeps to the runs of the history when it started outside of a
snapshot and was not overrun. -/
def Consumer.Parsed (s : State) : Consumer → Prop
  | .copying c => c.overrun = false → s.offset c.tail = 0 → c.Parsed s
  | .copied c =>
      c.overrun = false → s.offset c.tail = 0 → s.offset (c.tail + c.out.length) = 0
  | _ => True

section Parsed
variable {s s' : State}

theorem Sound.position_le (h : Sound s) {c : Copy} (hc : s.consumer = .copying c) :
    c.tail + c.out.length < s.written.length := by
  have hpc := h.consumed.pc
  have := h.produced.head_le_written
  rw [hc] at hpc
  simp only [Consumer.Ok] at hpc
  omega

/-- The slot just read in full, by the history. -/
theorem Sound.cur_eq (h : Sound s) {c : Copy} (hc : s.consumer = .copying c)
    (htodo : c.todo = []) (hover : c.overrun = false) :
    ∃ w, s.entry (c.tail + c.out.length) = some w ∧ c.cur = w.event := by
  have hex := h.exact
  rw [hc] at hex
  obtain ⟨-, hcur⟩ := hex hover
  obtain ⟨w, hw, -⟩ := hcur .addr (by simp [htodo])
  refine ⟨w, hw, Event.eq_of_agree ?_⟩
  intro f
  obtain ⟨w', hw', ha⟩ := hcur f (by simp [htodo])
  rw [hw] at hw'
  obtain rfl := Option.some.inj hw'
  exact ha

theorem Consumer.Parsed.congr {k : Consumer} (h : k.Parsed s) (hops : s'.ops = s.ops) :
    k.Parsed s' := by
  have hentry : s'.entry = s.entry := by
    funext p
    simp only [State.entry, State.written, hops]
  have hoffset : s'.offset = s.offset := by
    funext p
    simp only [State.offset, hentry]
  cases k with
  | copying c =>
      intro hover hoff
      rw [hoffset] at hoff
      obtain ⟨hfits, houtside, hinside⟩ := h hover hoff
      rw [← hoffset] at houtside
      rw [← hentry] at hinside
      exact ⟨hfits, houtside, hinside⟩
  | copied c => simpa only [Parsed, hoffset] using h
  | _ => trivial

theorem parsed_step {l : Label} (h : Sound s) (hwh : AllOps Op.Whole s) (hp : s.consumer.Parsed s)
    (hs : Ring.step l s = some s') : s'.consumer.Parsed s' := by
  obtain ⟨more, hops⟩ := (h.produced.advances hs).ops
  cases hl : l.isProducer with
  | true =>
      rw [(sameConsumer_of_step hl hs).consumer]
      cases hc : s.consumer with
      | copying c =>
          have hlt := h.position_le hc
          rw [hc] at hp
          intro hover hoff
          rw [State.offset_append hops (by omega)] at hoff
          exact (hp hover hoff).mono hops (by omega)
      | copied c =>
          have hpc := h.consumed.pc
          have hw := h.produced.head_le_written
          rw [hc] at hp hpc
          simp only [Consumer.Ok] at hpc
          intro hover hoff
          rw [State.offset_append hops (by omega)] at hoff ⊢
          exact hp hover hoff
      | _ => trivial
  | false =>
      suffices hkey : s'.consumer.Parsed s from hkey.congr (sameProducer_of_step hl hs).ops
      cases l with
      | beginOp | loadTail | storeField | finishSlot | flush | exit =>
          simp [Label.isProducer] at hl
      | call => obtain ⟨_, _, rfl⟩ := State.call_cases hs; trivial
      | loadHead =>
          have henter : ∀ t outLen, (Consumer.enter t s.head outLen).Parsed s := by
            intro t outLen
            unfold Consumer.enter
            split
            · trivial
            · exact fun _ hoff => Copy.parsed_enter hoff _
          obtain ⟨_, _, _, ⟨_, rfl⟩ | ⟨_, rfl⟩⟩ := State.loadHead_cases hs <;> exact henter _ _
      | readField f =>
          obtain ⟨c, hc, _, rfl⟩ := State.readField_cases hs
          rw [hc] at hp
          intro hover hoff
          have hparsed := hp (Bool.or_eq_false_iff.mp hover).1 hoff
          exact ⟨hparsed.fits, hparsed.outside, hparsed.inside⟩
      | takeSlot =>
          obtain ⟨c, hc, htodo, hcase⟩ := State.takeSlot_cases hs
          have hpc := h.consumed.pc
          rw [hc] at hp hpc
          have hlt : c.out.length < c.limit := hpc.2.2.2.2
          have hpush : ∀ r, c.nextRunTail = some r → c.overrun = false → s.offset c.tail = 0 →
              (c.push r).Parsed s := by
            intro r hr hover hoff
            obtain ⟨w, hw, hcur⟩ := h.cur_eq hc htodo hover
            exact (hp hover hoff).push hw hcur (hwh.of_entry hw) hlt hr
          obtain ⟨hr, rfl⟩ | ⟨r, hr, ⟨_, rfl⟩ | ⟨hge, rfl⟩⟩ := hcase
          · exact fun hover hoff => (hp hover hoff).stop hr
          · exact fun hover hoff => hpush r hr hover hoff
          · intro hover hoff
            apply (hpush r hr hover hoff).full
            simpa [Copy.push] using hge
      | recheck =>
          obtain ⟨_, _, ⟨_, rfl⟩ | ⟨_, rfl⟩⟩ := State.recheck_cases hs <;> trivial
      | commit => obtain ⟨_, _, _, rfl⟩ := State.commit_cases hs; trivial
      | retire =>
          obtain ⟨hc, rfl⟩ := State.retire_cases hs
          simp only [hc]
          trivial

/-- The condition under which batches hold whole snapshots: runs are published
whole, and an accepted batch is not overrun and does not start inside one. -/
def HeadersFirst : Label → State → Prop
  | .beginOp op, _ => op.Whole
  | .recheck, s =>
      ∀ c, s.consumer = .copied c → s.head - c.tail ≤ s.capacity.size →
        c.overrun = false ∧ s.offset c.tail = 0
  | _, _ => True

theorem HeadersFirst.noOverrun {l : Label} (h : HeadersFirst l s) : NoOverrun l s := by
  cases l with
  | recheck => exact fun c hc hlap => (h c hc hlap).1
  | _ => trivial

theorem HeadersFirst.begins {l : Label} (h : HeadersFirst l s) : Begins Op.Whole l s := by
  cases l with
  | beginOp => exact h
  | _ => trivial

theorem State.Aligned.mono {b : Batch} {more : List Op} (h : s.Aligned b)
    (hops : s'.ops = s.ops ++ more) (hb : b.start + b.events.length ≤ s.written.length) :
    s'.Aligned b where
  start := by rw [State.offset_append hops (by omega), h.start]
  stop := by rw [State.offset_append hops hb, h.stop]

/-- Batches, delivered or about to be, begin and end outside of snapshots. -/
structure Framed (s : State) : Prop where
  sound : Sound s
  whole : AllOps Op.Whole s
  parsed : s.consumer.Parsed s
  storing : ∀ newTail b, s.consumer = .storing newTail (some b) → s.Aligned b
  aligned : ∀ b ∈ s.batches, s.Aligned b

theorem framed_init (capacity : Capacity) (spin : Bool) : Framed (State.init capacity spin) where
  sound := sound_init capacity spin
  whole := allOps_init _ capacity spin
  parsed := trivial
  storing := by simp [State.init]
  aligned := by simp [State.init]

theorem Framed.storing_step {l : Label} (h : Framed s) (hl : l.isProducer = false)
    (hok : HeadersFirst l s) (hs : Ring.step l s = some s') :
    ∀ newTail b, s'.consumer = .storing newTail (some b) → s.Aligned b := by
  have hnever : ∀ t outLen, ∀ newTail b,
      Consumer.enter t s.head outLen = .storing newTail (some b) → s.Aligned b := by
    intro t outLen newTail b hb
    unfold Consumer.enter at hb
    split at hb <;> cases hb
  cases l with
  | beginOp | loadTail | storeField | finishSlot | flush | exit => simp [Label.isProducer] at hl
  | call => obtain ⟨_, _, rfl⟩ := State.call_cases hs; simp
  | loadHead =>
      obtain ⟨_, _, _, ⟨_, rfl⟩ | ⟨_, rfl⟩⟩ := State.loadHead_cases hs <;> exact hnever _ _
  | readField => obtain ⟨_, _, _, rfl⟩ := State.readField_cases hs; simp
  | takeSlot =>
      obtain ⟨_, _, _, ⟨_, rfl⟩ | ⟨_, _, ⟨_, rfl⟩ | ⟨_, rfl⟩⟩⟩ := State.takeSlot_cases hs <;> simp
  | recheck =>
      obtain ⟨c, hc, ⟨_, rfl⟩ | ⟨hlap, rfl⟩⟩ := State.recheck_cases hs
      · simp
      · have hparsed := h.parsed
        rw [hc] at hparsed
        obtain ⟨hover, hoff⟩ := hok c hc hlap
        intro newTail b hb
        obtain ⟨-, rfl⟩ : _ ∧ Batch.mk c.tail c.out = b := by simpa using hb
        exact ⟨hoff, hparsed hover hoff⟩
  | commit => obtain ⟨_, _, _, rfl⟩ := State.commit_cases hs; simp
  | retire =>
      obtain ⟨hc, rfl⟩ := State.retire_cases hs
      simp [hc]

theorem Framed.step {l : Label} (h : Framed s) (hok : HeadersFirst l s)
    (hs : Ring.step l s = some s') : Framed s' := by
  have hsound := h.sound.step hok.noOverrun hs
  have hwhole := h.whole.step hok.begins hs
  have hparsed := parsed_step h.sound h.whole h.parsed hs
  obtain ⟨more, hops⟩ := (h.sound.produced.advances hs).ops
  have hwritten := h.sound.produced.head_le_written
  refine ⟨hsound, hwhole, hparsed, ?_, ?_⟩
  · intro newTail b hb
    cases hl : l.isProducer with
    | true =>
        rw [(sameConsumer_of_step hl hs).consumer] at hb
        have hpc := h.sound.consumed.pc
        rw [hb] at hpc
        have hle := (hpc.2.2 b rfl).2
        have hhead := hpc.2.1
        exact (h.storing newTail b hb).mono hops (by omega)
    | false =>
        have ha := h.storing_step hl hok hs newTail b hb
        have hpc := hsound.consumed.pc
        rw [hb] at hpc
        have hle := (hpc.2.2 b rfl).2
        have hhead := hpc.2.1
        have hsame := (sameProducer_of_step hl hs).head
        exact ha.mono hops (by omega)
  · intro b hb
    have htail := h.sound.consumed.tail_le
    by_cases hcommit : l = .commit
    · subst hcommit
      obtain ⟨nt, batch, hc, rfl⟩ := State.commit_cases hs
      rcases List.mem_append.mp hb with hb | hb
      · have := h.sound.consumed.below b hb
        exact (h.aligned b hb).mono hops (by omega)
      · obtain rfl : batch = some b := by simpa using hb
        have hpc := h.sound.consumed.pc
        rw [hc] at hpc
        have hle := (hpc.2.2 b rfl).2
        have hhead := hpc.2.1
        exact (h.storing nt b hc).mono hops (by omega)
    · rw [(tail_of_step hcommit hs).2] at hb
      have := h.sound.consumed.below b hb
      exact (h.aligned b hb).mono hops (by omega)

theorem framed_of_run {capacity : Capacity} {spin : Bool}
    (h : Run HeadersFirst (State.init capacity spin) s) : Framed s :=
  h.invariant (framed_init capacity spin) fun _ _ _ hu ho hs => hu.step ho hs

end Parsed

end Rtmap.Ring
