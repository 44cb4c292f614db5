import Rtmap.Ring.Memory
import Rtmap.Ring.Trace

/-!
# What the consumer delivers

`Consumed` accounts for every logical index the consumer has passed: it lies in
exactly one delivered batch or it is counted in `lapped_events`. `Exact` says
that delivered events are the history's. Both are kept by every step; the
second one needs each accepted batch to be free of slots read after the
producer's own position, published or not, had moved a lap past them.
-/
namespace Rtmap.Ring
open Transition

/-- Where the consumer stands: every smaller index is delivered or lost. -/
def Consumer.position (tail : ℕ) : Consumer → ℕ
  | .idle | .started _ _ => tail
  | .copying c | .copied c => c.tail
  | .storing newTail none => newTail
  | .storing _ (some b) => b.start

section Position
variable {tail outLen t newTail : ℕ} {c : Copy} {b : Batch}

@[simp] theorem Consumer.position_idle : Consumer.idle.position tail = tail := rfl
@[simp] theorem Consumer.position_started : (Consumer.started outLen t).position tail = tail := rfl
@[simp] theorem Consumer.position_copying : (Consumer.copying c).position tail = c.tail := rfl
@[simp] theorem Consumer.position_copied : (Consumer.copied c).position tail = c.tail := rfl
@[simp] theorem Consumer.position_none :
    (Consumer.storing newTail none).position tail = newTail := rfl
@[simp] theorem Consumer.position_some :
    (Consumer.storing newTail (some b)).position tail = b.start := rfl

end Position

def State.position (s : State) : ℕ := s.consumer.position s.tail

theorem Consumer.position_enter {tail t : ℕ} (h outLen : ℕ) (ht : t = tail ∨ (t < h ∧ 0 < outLen)) :
    (Consumer.enter t h outLen).position tail = t := by
  unfold Consumer.enter
  split
  · simp only [position]
    omega
  · rfl

/-- The index lies in one of the batches. -/
def Covered (batches : List Batch) (p : ℕ) : Prop :=
  ∃ b ∈ batches, b.start ≤ p ∧ p < b.start + b.events.length

instance (batches : List Batch) : DecidablePred (Covered batches) := fun p =>
  inferInstanceAs (Decidable (∃ b ∈ batches, b.start ≤ p ∧ p < b.start + b.events.length))

/-- Number of indices below `n` that no batch holds. -/
def lost (batches : List Batch) (n : ℕ) : ℕ := Nat.count (fun p => ¬ Covered batches p) n

theorem lost_skip {batches : List Batch} {t resync : ℕ} (hr : t ≤ resync)
    (h : ∀ b ∈ batches, b.start + b.events.length ≤ t) :
    lost batches resync = lost batches t + (resync - t) := by
  have hskip := Window.count_add_of_free (fun p => ¬ Covered batches p) t (resync - t) (by
    rintro q hq - ⟨b, hb, -, hlt⟩
    have := h b hb
    omega)
  rwa [show t + (resync - t) = resync by omega] at hskip

theorem lost_append {batches : List Batch} {b : Batch} :
    lost (batches ++ [b]) (b.start + b.events.length) = lost batches b.start := by
  have hcov : lost (batches ++ [b]) (b.start + b.events.length) =
      lost (batches ++ [b]) b.start := by
    apply Window.count_add_of_not_free
    intro q hq hlt hnot
    exact hnot ⟨b, by simp, hq, hlt⟩
  rw [hcov]
  apply le_antisymm
  · apply Nat.count_mono_left
    rintro q - hnot ⟨x, hx, hq⟩
    exact hnot ⟨x, by simp [hx], hq⟩
  · apply Nat.count_mono_left
    rintro q hlt hnot ⟨x, hx, hq⟩
    rcases List.mem_append.mp hx with hx | hx
    · exact hnot ⟨x, hx, hq⟩
    · obtain rfl : x = b := by simpa using hx
      omega

/-- What the consumer's program counter says about the counters. -/
def Consumer.Ok (s : State) : Consumer → Prop
  | .idle => True
  | .started outLen t => t = s.tail ∧ 0 < outLen
  | .copying c =>
      s.tail ≤ c.tail ∧ c.tail + c.limit ≤ c.head ∧ c.head ≤ s.head ∧
        c.head ≤ c.tail + s.capacity.size ∧ c.out.length < c.limit
  | .copied c =>
      s.tail ≤ c.tail ∧ c.tail + c.out.length ≤ c.head ∧ c.head ≤ s.head ∧
        c.head ≤ c.tail + s.capacity.size
  | .storing newTail batch =>
      s.tail ≤ newTail ∧ newTail ≤ s.head ∧
        ∀ b, batch = some b → s.tail ≤ b.start ∧ newTail = b.start + b.events.length

theorem Consumer.Ok.mono {s s' : State} {k : Consumer} (h : k.Ok s)
    (hcap : s'.capacity = s.capacity) (htail : s'.tail = s.tail) (hhead : s.head ≤ s'.head) :
    k.Ok s' := by
  cases k with
  | idle => trivial
  | started => simpa only [Ok, htail] using h
  | copying c =>
      simp only [Ok, htail, hcap] at h ⊢
      omega
  | copied c =>
      simp only [Ok, htail, hcap] at h ⊢
      omega
  | storing newTail batch =>
      simp only [Ok, htail] at h ⊢
      exact ⟨h.1, h.2.1.trans hhead, h.2.2⟩

structure Consumed (s : State) : Prop where
  tail_le : s.tail ≤ s.head
  pc : s.consumer.Ok s
  below : ∀ b ∈ s.batches, b.start + b.events.length ≤ s.tail
  ordered : s.batches.Pairwise fun a b => a.start + a.events.length ≤ b.start
  lapped : lost s.batches s.position = s.lappedEvents

theorem consumed_init (capacity : Capacity) (spin : Bool) :
    Consumed (State.init capacity spin) where
  tail_le := le_rfl
  pc := trivial
  below := by simp [State.init]
  ordered := .nil
  lapped := rfl

section Consumed
variable {s s' : State}

theorem Consumed.of_producer (h : Consumed s) (e : SameConsumer s s') (hh : s.head ≤ s'.head) :
    Consumed s' := by
  refine ⟨?_, ?_, ?_, ?_, ?_⟩
  · rw [e.tail]
    exact h.tail_le.trans hh
  · rw [e.consumer]
    exact h.pc.mono e.capacity e.tail hh
  · rw [e.batches, e.tail]
    exact h.below
  · rw [e.batches]
    exact h.ordered
  · rw [e.batches, e.lappedEvents, State.position, e.consumer, e.tail]
    exact h.lapped

/-- A step that leaves the shared counters and the batches alone. -/
private theorem Consumed.of_local (h : Consumed s) (htail : s'.tail = s.tail)
    (hhead : s'.head = s.head) (hbatches : s'.batches = s.batches) (hpc : s'.consumer.Ok s')
    (hlost : s'.lappedEvents = s.lappedEvents + (s'.position - s.position))
    (hpos : s.position ≤ s'.position) (hmin : s.tail ≤ s.position) : Consumed s' := by
  refine ⟨?_, hpc, ?_, ?_, ?_⟩
  · rw [htail, hhead]
    exact h.tail_le
  · rw [hbatches, htail]
    exact h.below
  · rw [hbatches]
    exact h.ordered
  · rw [hbatches, hlost, lost_skip hpos fun b hb => (h.below b hb).trans hmin, h.lapped]

theorem Consumer.enter_ok {t outLen : ℕ} (ht : s.tail ≤ t) (hle : t ≤ s.head)
    (hcap : s.head ≤ t + s.capacity.size) : (Consumer.enter t s.head outLen).Ok s := by
  unfold Consumer.enter
  split
  · trivial
  · simp only [Consumer.Ok, List.length_nil]
    omega

theorem Consumed.step {l : Label} (h : Consumed s) (hl : l.isProducer = false)
    (hs : Ring.step l s = some s') : Consumed s' := by
  have htail := h.tail_le
  have hpc := h.pc
  cases l with
  | beginOp | loadTail | storeField | finishSlot | flush | exit => simp [Label.isProducer] at hl
  | call outLen =>
      obtain ⟨hc, hpos, rfl⟩ := State.call_cases hs
      refine h.of_local rfl rfl rfl ⟨rfl, hpos⟩ ?_ ?_ ?_ <;>
        simp [State.position, hc]
  | loadHead =>
      obtain ⟨outLen, t, hc, ⟨hlap, rfl⟩ | ⟨hlap, rfl⟩⟩ := State.loadHead_cases hs
      · rw [hc] at hpc
        obtain ⟨rfl, hout⟩ := hpc
        have hsize := s.capacity.size_pos
        have henter : (Consumer.enter (s.head - s.capacity.size) s.head outLen).position s.tail =
            s.head - s.capacity.size :=
          Consumer.position_enter _ _ (.inr ⟨by omega, hout⟩)
        refine h.of_local rfl rfl rfl ?_ ?_ ?_ ?_
        · exact Consumer.enter_ok (s := s) (by omega) (by omega) (by omega)
        · simp [State.position, State.recordLap, henter, hc]
        · simp only [State.position, State.recordLap, henter, hc, Consumer.position_started]
          omega
        · simp [State.position, hc]
      · rw [hc] at hpc
        obtain ⟨rfl, hout⟩ := hpc
        have henter := Consumer.position_enter s.head outLen (.inl (Eq.refl s.tail))
        refine h.of_local rfl rfl rfl ?_ ?_ ?_ ?_
        · exact Consumer.enter_ok (s := s) le_rfl htail (by omega)
        · simp [State.position, henter, hc]
        · simp [State.position, henter, hc]
        · simp [State.position, hc]
  | readField f =>
      obtain ⟨c, hc, hf, rfl⟩ := State.readField_cases hs
      rw [hc] at hpc
      refine h.of_local rfl rfl rfl hpc ?_ ?_ ?_
      · simp [State.position, hc]
      · simp [State.position, hc]
      · simpa [State.position, hc] using hpc.1
  | takeSlot =>
      obtain ⟨c, hc, htodo, ⟨hr, rfl⟩ | ⟨r, hr, ⟨hlt, rfl⟩ | ⟨hge, rfl⟩⟩⟩ := State.takeSlot_cases hs
      all_goals
        rw [hc] at hpc
        simp only [Consumer.Ok] at hpc
        refine h.of_local rfl rfl rfl ?_ ?_ ?_ ?_
      any_goals simp [State.position, hc, Copy.push]
      any_goals exact hpc.1
      all_goals
        simp only [Consumer.Ok, List.length_append, List.length_singleton]
        omega
  | recheck =>
      obtain ⟨c, hc, ⟨hlap, rfl⟩ | ⟨hlap, rfl⟩⟩ := State.recheck_cases hs
      · rw [hc] at hpc
        simp only [Consumer.Ok] at hpc
        refine h.of_local rfl rfl rfl ?_ ?_ ?_ ?_
        · refine ⟨?_, ?_, by simp⟩ <;> simp only [State.recordLap] <;> omega
        · simp [State.position, hc, State.recordLap]
        · simp only [State.position, hc, Consumer.position_copied, Consumer.position_none]
          omega
        · simpa [State.position, hc] using hpc.1
      · rw [hc] at hpc
        simp only [Consumer.Ok] at hpc
        refine h.of_local rfl rfl rfl ?_ ?_ ?_ ?_
        · refine ⟨by simp only; omega, by simp only; omega, ?_⟩
          rintro b hb
          obtain rfl := Option.some.inj hb
          exact ⟨hpc.1, rfl⟩
        · simp [State.position, hc]
        · simp [State.position, hc]
        · simpa [State.position, hc] using hpc.1
  | commit =>
      obtain ⟨newTail, batch, hc, rfl⟩ := State.commit_cases hs
      rw [hc] at hpc
      obtain ⟨hle, hhead, hb⟩ := hpc
      cases batch with
      | none =>
          have hcount := h.lapped
          refine ⟨hhead, trivial, ?_, by simpa using h.ordered, ?_⟩
          · intro b hmem
            have := h.below b (by simpa using hmem)
            simp only
            omega
          · simpa [State.position, hc] using hcount
      | some b =>
          obtain ⟨hstart, rfl⟩ := hb b rfl
          refine ⟨hhead, trivial, ?_, ?_, ?_⟩
          · intro x hmem
            rcases List.mem_append.mp hmem with hmem | hmem
            · have := h.below x hmem
              simp only
              omega
            · obtain rfl : x = b := by simpa using hmem
              exact le_rfl
          · simp only [Option.toList_some, List.pairwise_append, List.pairwise_singleton,
              List.mem_singleton, true_and]
            refine ⟨h.ordered, ?_⟩
            rintro x hmem _ rfl
            exact (h.below x hmem).trans hstart
          · have hcount := h.lapped
            simp only [State.position, hc, Consumer.position_some] at hcount
            simpa [State.position, lost_append] using hcount
  | retire =>
      obtain ⟨hc, rfl⟩ := State.retire_cases hs
      refine h.of_local rfl rfl rfl (by simp [hc, Consumer.Ok]) ?_ ?_ ?_ <;>
        simp [State.position, hc]

/-- The tail never moves back. -/
theorem Consumed.tail_mono {l : Label} (h : Consumed s) (hs : Ring.step l s = some s') :
    s.tail ≤ s'.tail := by
  by_cases hl : l = .commit
  · subst hl
    obtain ⟨newTail, batch, hc, rfl⟩ := State.commit_cases hs
    have hpc := h.pc
    rw [hc] at hpc
    exact hpc.1
  · exact (tail_of_step hl hs).1.ge

end Consumed

/-- The events are the history's from logical index `start` on. -/
def State.Exact (s : State) (start : ℕ) (events : List Event) : Prop :=
  ∀ j e, events[j]? = some e → ∃ w, s.entry (start + j) = some w ∧ e = w.event

/-- Every delivered event is the one written for its index. -/
def State.Faithful (s : State) : Prop := ∀ b ∈ s.batches, s.Exact b.start b.events

/-- The batch in progress is exact as far as it goes, unless it was overrun. -/
def Consumer.Exact (s : State) : Consumer → Prop
  | .copying c =>
      c.overrun = false → s.Exact c.tail c.out ∧
        ∀ f, f ∉ c.todo → ∃ w, s.entry (c.tail + c.out.length) = some w ∧
          Event.Agree f c.cur w.event
  | .copied c => c.overrun = false → s.Exact c.tail c.out
  | .storing _ (some b) => s.Exact b.start b.events
  | _ => True

section Exact
variable {s s' : State}

theorem State.Exact.mono {start : ℕ} {events : List Event} (h : s.Exact start events)
    (hops : ∃ more, s'.ops = s.ops ++ more) : s'.Exact start events := by
  intro j e he
  obtain ⟨more, hmore⟩ := hops
  obtain ⟨w, hw, rfl⟩ := h j e he
  exact ⟨w, State.entry_of_append hmore hw, rfl⟩

theorem Consumer.Exact.mono {k : Consumer} (h : k.Exact s)
    (hops : ∃ more, s'.ops = s.ops ++ more) : k.Exact s' := by
  cases k with
  | idle | started => trivial
  | copying c =>
      intro hc
      obtain ⟨hout, hcur⟩ := h hc
      refine ⟨hout.mono hops, ?_⟩
      intro f hf
      obtain ⟨w, hw, ha⟩ := hcur f hf
      obtain ⟨more, hmore⟩ := hops
      exact ⟨w, State.entry_of_append hmore hw, ha⟩
  | copied c => exact fun hc => (h hc).mono hops
  | storing newTail batch =>
      cases batch with
      | none => trivial
      | some b => exact State.Exact.mono h hops

theorem Consumer.exact_enter (t h outLen : ℕ) : (Consumer.enter t h outLen).Exact s := by
  unfold enter
  split
  · trivial
  · intro _
    refine ⟨?_, ?_⟩
    · intro j e he
      simp at he
    · intro f hf
      simp at hf

/-- A slot all of whose fields were read in time extends the batch. -/
theorem State.Exact.snoc {start : ℕ} {events : List Event} {cur : Event}
    (h : s.Exact start events)
    (hcur : ∀ f, ∃ w, s.entry (start + events.length) = some w ∧ Event.Agree f cur w.event) :
    s.Exact start (events ++ [cur]) := by
  intro j e he
  rcases Nat.lt_trichotomy j events.length with hj | rfl | hj
  · rw [List.getElem?_append_left hj] at he
    exact h j e he
  · rw [List.getElem?_concat_length] at he
    obtain rfl := Option.some.inj he
    obtain ⟨w, hw, -⟩ := hcur .addr
    refine ⟨w, hw, Event.eq_of_agree ?_⟩
    intro f
    obtain ⟨w', hw', ha⟩ := hcur f
    rw [hw] at hw'
    obtain rfl := Option.some.inj hw'
    exact ha
  · rw [List.getElem?_eq_none (by simp; omega)] at he
    cases he

end Exact

/-- The condition under which batches are exact: the second head check does not
accept a batch with a slot read after the producer's position, unpublished
slots included, had moved more than a lap past it. -/
def NoOverrun : Label → State → Prop
  | .recheck, s =>
      ∀ c, s.consumer = .copied c → s.head - c.tail ≤ s.capacity.size → c.overrun = false
  | _, _ => True

/-- Everything the two sides keep about each other. -/
structure Sound (s : State) : Prop where
  produced : Produced s
  consumed : Consumed s
  exact : s.consumer.Exact s
  faithful : s.Faithful

theorem sound_init (capacity : Capacity) (spin : Bool) : Sound (State.init capacity spin) where
  produced := produced_init capacity spin
  consumed := consumed_init capacity spin
  exact := trivial
  faithful := by simp [State.Faithful, State.init]

section Sound
variable {s s' : State}

/-- A field read before the producer laps the slot is the written one. -/
theorem Sound.agree_read (h : Sound s) {c : Copy} (hc : s.consumer = .copying c)
    (f : Field) (hf : s.frontier ≤ c.tail + c.out.length + s.capacity.size) :
    ∃ w, s.entry (c.tail + c.out.length) = some w ∧
      Event.Agree f (Event.put f (s.slots (s.capacity.index (c.tail + c.out.length))) c.cur)
        w.event := by
  have hpc := h.consumed.pc
  rw [hc] at hpc
  simp only [Consumer.Ok] at hpc
  obtain ⟨w, hw⟩ := State.exists_entry (s := s) (p := c.tail + c.out.length)
    (by have := h.produced.head_le_written; omega)
  refine ⟨w, hw, ?_⟩
  rw [h.produced.slot_eq hw (by omega) hf]
  exact Event.agree_put_self f _ _

theorem Sound.exact_step {l : Label} (h : Sound s) (hl : l.isProducer = false)
    (hok : NoOverrun l s) (hs : Ring.step l s = some s') : s'.consumer.Exact s := by
  have hex := h.exact
  cases l with
  | beginOp | loadTail | storeField | finishSlot | flush | exit => simp [Label.isProducer] at hl
  | call => obtain ⟨_, _, rfl⟩ := State.call_cases hs; trivial
  | loadHead =>
      obtain ⟨_, _, _, ⟨_, rfl⟩ | ⟨_, rfl⟩⟩ := State.loadHead_cases hs <;>
        exact Consumer.exact_enter _ _ _
  | readField f =>
      obtain ⟨c, hc, hf, rfl⟩ := State.readField_cases hs
      rw [hc] at hex
      intro hover
      simp only [Bool.or_eq_false_iff, decide_eq_false_iff_not, not_lt] at hover
      obtain ⟨hout, hcur⟩ := hex hover.1
      refine ⟨hout, ?_⟩
      intro g hg
      by_cases hgf : g = f
      · subst hgf
        exact h.agree_read hc g hover.2
      · obtain ⟨w, hw, ha⟩ := hcur g (by simpa [hgf] using hg)
        exact ⟨w, hw, (Event.agree_put_ne hgf).mpr ha⟩
  | takeSlot =>
      obtain ⟨c, hc, htodo, hcase⟩ := State.takeSlot_cases hs
      rw [hc] at hex
      have hsnoc : ∀ r, (c.push r).overrun = false → s.Exact (c.push r).tail (c.push r).out := by
        intro r hover
        obtain ⟨hout, hcur⟩ := hex hover
        exact hout.snoc fun f => hcur f (by simp [htodo])
      obtain ⟨hr, rfl⟩ | ⟨r, hr, ⟨hlt, rfl⟩ | ⟨hge, rfl⟩⟩ := hcase
      · exact fun hover => (hex hover).1
      · intro hover
        refine ⟨hsnoc r hover, ?_⟩
        intro f hf
        simp [Copy.push] at hf
      · exact hsnoc r
  | recheck =>
      obtain ⟨c, hc, ⟨hlap, rfl⟩ | ⟨hlap, rfl⟩⟩ := State.recheck_cases hs
      · trivial
      · rw [hc] at hex
        exact hex (hok c hc hlap)
  | commit => obtain ⟨_, _, _, rfl⟩ := State.commit_cases hs; trivial
  | retire =>
      obtain ⟨hc, rfl⟩ := State.retire_cases hs
      simp only [hc]
      trivial

theorem Sound.faithful_step {l : Label} (h : Sound s) (hs : Ring.step l s = some s') :
    ∀ b ∈ s'.batches, s.Exact b.start b.events := by
  by_cases hl : l = .commit
  · subst hl
    obtain ⟨newTail, batch, hc, rfl⟩ := State.commit_cases hs
    have hex := h.exact
    rw [hc] at hex
    intro b hb
    rcases List.mem_append.mp hb with hb | hb
    · exact h.faithful b hb
    · obtain rfl : batch = some b := by simpa using hb
      exact hex
  · rw [(tail_of_step hl hs).2]
    exact h.faithful

theorem Sound.step {l : Label} (h : Sound s) (hok : NoOverrun l s)
    (hs : Ring.step l s = some s') : Sound s' := by
  have hadv := h.produced.advances hs
  have hfaithful : s'.Faithful := fun b hb => (h.faithful_step hs b hb).mono hadv.ops
  cases hl : l.isProducer with
  | true =>
      have e := sameConsumer_of_step hl hs
      refine ⟨h.produced.step hs, h.consumed.of_producer e hadv.head, ?_, hfaithful⟩
      rw [e.consumer]
      exact h.exact.mono hadv.ops
  | false =>
      exact ⟨h.produced.step hs, h.consumed.step hl hs,
        (h.exact_step hl hok hs).mono hadv.ops, hfaithful⟩

theorem sound_of_run {capacity : Capacity} {spin : Bool} {ok : Label → State → Prop}
    (hok : ∀ l u, ok l u → NoOverrun l u) (h : Run ok (State.init capacity spin) s) : Sound s :=
  h.invariant (sound_init capacity spin) fun _ _ _ hu ho hs => hu.step (hok _ _ ho) hs

end Sound

/-- In a run that accepts no overrun batch, every delivered event is the one
written for its index, batches never overlap or go back, and every index passed
is either delivered or counted as lapped. -/
theorem deliveries_are_exact {capacity : Capacity} {spin : Bool} {s : State}
    (h : Run NoOverrun (State.init capacity spin) s) :
    s.Faithful ∧
      s.batches.Pairwise (fun a b => a.start + a.events.length ≤ b.start) ∧
      lost s.batches s.position = s.lappedEvents := by
  have hs := sound_of_run (fun _ _ h => h) h
  exact ⟨hs.faithful, hs.consumed.ordered, hs.consumed.lapped⟩

/-- A published store is read and delivered. -/
theorem published_write_is_exact :
    ∃ s : State, s.batches = [⟨0, [(plainWrite 0).slot 0]⟩] ∧ s.Faithful := by
  let s₀ := State.init THREAD_RING_CAPACITY false
  let s₁ : State := { s₀ with
    slots := Function.update s₀.slots (s₀.capacity.index 0) ((plainWrite 0).slot 0)
    cached := 1
    head := 1
    ops := [plainWrite 0] }
  let s₂ : State := { s₁ with
    consumer := .copied ⟨0, 1, 1, 0, [(plainWrite 0).slot 0], .zero, Field.all, false⟩ }
  have hwrite : exec step ((.beginOp (plainWrite 0) :: storeSlot) ++ [.flush]) s₀ = some s₁ := by
    rw [exec_append, exec_write (s := s₀) (plainWrite 0) rfl rfl rfl (by decide)]
    rfl
  have hslot : s₁.slots (s₁.capacity.index 0) = (plainWrite 0).slot 0 :=
    Function.update_self (s₀.capacity.index 0) ((plainWrite 0).slot 0) s₀.slots
  have hread : exec step ([.call 8, .loadHead] ++ readSlot) s₁ = some s₂ := by
    have henter : exec step [.call 8, .loadHead] s₁ = some { s₁ with
        consumer := .copying ⟨0, 1, 1, 0, [], .zero, Field.all, false⟩ } := rfl
    rw [exec_append, henter, Option.bind_some, exec_readSlot rfl rfl]
    simp only [List.length_nil, Nat.add_zero, hslot]
    rw [takeSlot_last (r := 0) rfl rfl (by decide) (by decide)]
    rfl
  have hrun : Run NoOverrun s₀ s₂ :=
    (Reach.of_exec hwrite (by simp [storeSlot, Field.all, NoOverrun])).trans
      (.of_exec hread (by simp [readSlot, Field.all, NoOverrun]))
  have hrecheck : Run NoOverrun s₀
      { s₂ with consumer := .storing 1 (some ⟨0, [(plainWrite 0).slot 0]⟩) } := by
    refine .next (l := .recheck) hrun ?_ rfl
    rintro c hc -
    obtain rfl := Consumer.copied.inj hc
    rfl
  have hcommit : Run NoOverrun s₀ { s₂ with
      tail := 1, consumer := .idle, batches := [⟨0, [(plainWrite 0).slot 0]⟩] } :=
    .next (l := .commit) hrecheck trivial rfl
  exact ⟨_, rfl, (deliveries_are_exact hcommit).1⟩

/-- A full ring is being read while the thread makes one more store: the store
lands in the slot of index 0, is not yet published, and is delivered as index 0. -/
theorem unpublished_write_is_delivered :
    ¬ ∀ s, Run (Begins Op.Whole) (State.init THREAD_RING_CAPACITY false) s → s.Faithful := by
  intro hall
  obtain ⟨slots, hfull⟩ := run_writes (P := Op.Whole)
    (s := State.init THREAD_RING_CAPACITY false) trivial rfl rfl (n := 2 ^ 20)
    (show 0 + 2 ^ 20 < 2 ^ 64 by decide)
  let s₀ : State := { State.init THREAD_RING_CAPACITY false with
    slots := slots
    cached := 0 + 2 ^ 20
    head := 0 + 2 ^ 20
    ops := [] ++ List.replicate (2 ^ 20) (plainWrite 0) }
  let s₁ : State := { s₀ with
    consumer := .copying ⟨0, 2 ^ 20, 1, 0, [], .zero, Field.all, false⟩ }
  let s₂ : State := { s₁ with
    slots := Function.update s₁.slots (s₁.capacity.index s₁.cached) ((plainWrite 1).slot 0)
    cached := s₁.cached + 1
    ops := s₁.ops ++ [plainWrite 1] }
  have henter : exec step [.call 1, .loadHead] s₀ = some s₁ := rfl
  have hwrite : exec step (.beginOp (plainWrite 1) :: storeSlot) s₁ = some s₂ := by
    have hflush : ¬ (s₁.cached + 1) &&& HEAD_FLUSH_MASK = 0 :=
      show ¬ (0 + 2 ^ 20 + 1) &&& HEAD_FLUSH_MASK = 0 by decide
    rw [exec_write (s := s₁) (plainWrite 1) rfl rfl rfl (show 0 + 2 ^ 20 + 1 < 2 ^ 64 by decide), if_neg hflush]
    rfl
  have hread : s₂.slots (s₂.capacity.index 0) = (plainWrite 1).slot 0 := by
    have hindex : s₁.capacity.index s₁.cached = s₂.capacity.index 0 :=
      show THREAD_RING_CAPACITY.index (0 + 2 ^ 20) = THREAD_RING_CAPACITY.index 0 by decide
    rw [← hindex]
    exact Function.update_self _ _ _
  have htake : exec step (readSlot ++ [.recheck, .commit]) s₂ = some { s₂ with
      tail := 1, consumer := .idle, batches := [⟨0, [(plainWrite 1).slot 0]⟩] } := by
    rw [exec_append, exec_readSlot (s := s₂) rfl rfl]
    simp only [List.length_nil, Nat.add_zero, hread]
    have hsingle : runTailAfter 1 0 0 ((plainWrite 1).slot 0) = some 0 := by decide
    rw [takeSlot_last (r := 0) rfl rfl (by exact hsingle) (by exact le_rfl)]
    rfl
  have hwhole : (plainWrite 1).Whole := trivial
  have hcopying := (hfull.trans (.of_exec henter (by simp [Begins]))).trans
    (.of_exec hwrite (by simp [storeSlot, Field.all, Begins, hwhole]))
  have hrun := hcopying.trans (.of_exec htake (by simp [readSlot, Field.all, Begins]))
  obtain ⟨w, hw, he⟩ := hall _ hrun _ (List.mem_singleton.mpr rfl) 0 _ rfl
  have hfirst : s₁.entry 0 = some ⟨plainWrite 0, 0⟩ := by
    simp only [State.entry, State.written, s₁, s₀, List.nil_append, written_replicate]
    rw [List.getElem?_replicate, if_pos (by decide)]
  have hentry : s₂.entry 0 = some ⟨plainWrite 0, 0⟩ :=
    State.entry_of_append (show s₂.ops = s₁.ops ++ [plainWrite 1] from rfl) hfirst
  obtain rfl := Option.some.inj (hentry.symm.trans hw)
  exact absurd he (by decide)

end Rtmap.Ring
