import Rtmap.Ring.Delivery

/-!
# The ring of a forked child

`event_fork_init` pushes the fork event into the child's fresh ring, which moves
the ring's head to 1, but leaves the thread's cached head at 0. The child's next
inline operation therefore fills slot 0 again, and a flush before it moves the
head back. A register snapshot asks for seven free slots, so that the last six
of a ring refuse it. `Ordered` is the order of events in which none of these
does harm.
-/
namespace Rtmap.Ring
open Transition

/-- The push of `event_fork_init`. -/
def forkPush (child parent : UInt64) (tid : UInt16) : Op :=
  .pushExFlags child 0 parent EVENT_PROCESS_FORK 0 tid 0

def forkEvent (child parent : UInt64) (tid : UInt16) : Event := (forkPush child parent tid).slot 0

/-- The child's ring after `event_fork_init`: the fork event is published, the
cached head is 0. `ops` records what the child writes from here on. -/
def eventForkInit (capacity : Capacity) (spin : Bool) (child parent : UInt64) (tid : UInt16) :
    State :=
  { State.init capacity spin with
    slots := Function.update (fun _ => Event.zero) (capacity.index 0) (forkEvent child parent tid)
    head := 1 }

/-- The operation announces no process. -/
def Op.NotFork (op : Op) : Prop := ∀ e ∈ op.slots, e.kind ≠ EVENT_PROCESS_FORK

/-- The ring has some free slots, and fewer than a register snapshot asks for. -/
def State.Scant (s : State) : Prop :=
  s.head < s.tail + s.capacity.size ∧ s.tail + s.capacity.size < s.head + REG_SNAPSHOT_SLOTS

/-- The fork event is consumed before the child's first inline operation starts
over it, that operation comes before the first flush, and no snapshot is pushed
on the last six slots. -/
def Ordered : Label → State → Prop
  | .beginOp op, s => op.NotFork ∧ (op.isInline = true → s.cached = 0 → 1 ≤ s.tail)
  | .loadTail, s => ∀ op h, s.producer = .pushing op h → op.isSnapshot = true → ¬ s.Scant
  | .flush, s => s.head ≤ s.cached
  | _, _ => True

theorem kind_put (f : Field) (src dst : Event) :
    (Event.put f src dst).kind = if f = .kindFlags then src.kind else dst.kind := by
  cases f <;> rfl

theorem kind_zero : Event.zero.kind ≠ EVENT_PROCESS_FORK := by decide

/-- A push is refused only when its slots do not fit. -/
theorem Op.not_admits {op : Op} {capacity head tail : ℕ}
    (h : op.admits capacity head tail = false) (hin : op.isInline = false) (ht : tail ≤ head)
    (hh : head + op.slots.length < 2 ^ 64) : tail + capacity < head + op.slots.length := by
  have hsub : (head + 2 ^ 64 - tail) % 2 ^ 64 = head - tail := by
    rw [show head + 2 ^ 64 - tail = (head - tail) + 2 ^ 64 by omega, Nat.add_mod_right]
    exact Nat.mod_eq_of_lt (by omega)
  cases op with
  | write | wideWrite | bbEntry => simp [isInline] at hin
  | pushExFlags | pushAlloc =>
      simp only [admits, hsub, decide_eq_false_iff_not] at h
      simp only [slots, List.length_singleton]
      omega
  | pushRegSnapshot =>
      simp only [slots, List.length_cons, List.length_map, List.length_range] at hh ⊢
      simp only [admits, hsub, REG_SNAPSHOT_SLOTS, decide_eq_false_iff_not] at h
      rw [Nat.mod_eq_of_lt (by omega)] at h
      omega

theorem Op.slots_length_push {op : Op} (hin : op.isInline = false) (hs : op.isSnapshot = false) :
    op.slots.length = 1 := by
  cases op <;> simp_all [isInline, isSnapshot, slots]

theorem Op.slot_mem {op : Op} {i : ℕ} (h : i < op.slots.length) : op.slot i ∈ op.slots := by
  simp [slot, h]

theorem State.not_scant {s : State} {c : Capacity} {h t : ℕ} (hcapacity : s.capacity = c)
    (hhead : s.head = h) (htail : s.tail = t) (hfits : h + REG_SNAPSHOT_SLOTS ≤ t + c.size) :
    ¬ s.Scant := by
  rw [Scant, hcapacity, hhead, htail]
  omega

/-- Nothing but the fork event has been written. -/
structure Fresh (fork : Event) (s : State) : Prop where
  head : s.head = 1
  cached : s.cached = 0
  producer : s.producer = .idle
  slot : s.slots (s.capacity.index 0) = fork

/-- What the thread's program counter says in a forked child. -/
def Producer.Forked (s : State) : Producer → Prop
  | .pushing op h =>
      op.NotFork ∧ op.isInline = false ∧ h = s.cached ∧ s.head = s.cached ∧
        s.cached + op.slots.length < 2 ^ 64
  | .writing op base i _ => op.NotFork ∧ base = s.cached ∧ i < op.slots.length
  | _ => True

/-- The slot being filled does not hold its kind yet. -/
def Producer.Covers : Producer → Prop
  | .writing _ _ i todo => i = 0 ∧ Field.kindFlags ∈ todo
  | _ => True

/-- A batch from index 0 is the fork event alone; later ones hold none. -/
def ForkAtZero (fork : Event) (tail start : ℕ) (events : List Event) : Prop :=
  (start = 0 → events = [fork]) ∧
    (0 < start → 0 < tail ∧ ∀ e ∈ events, e.kind ≠ EVENT_PROCESS_FORK)

def Consumer.Forked (fork : Event) (s : State) : Consumer → Prop
  | .copying c =>
      (c.tail = 0 → c.runTail = 0 ∧ ∀ f, f ∉ c.todo → Event.Agree f c.cur fork) ∧
        (0 < c.tail → 0 < s.tail ∧ c.cur.kind ≠ EVENT_PROCESS_FORK ∧
          ∀ e ∈ c.out, e.kind ≠ EVENT_PROCESS_FORK)
  | .copied c => ForkAtZero fork s.tail c.tail c.out
  | .storing _ (some b) => ForkAtZero fork s.tail b.start b.events
  | .storing _ none => 0 < s.tail
  | _ => True

/-- The fork events among the delivered ones. -/
def State.forks (s : State) : List Event :=
  (s.batches.flatMap Batch.events).filter (·.kind = EVENT_PROCESS_FORK)

structure Forked (fork : Event) (s : State) : Prop where
  consumed : Consumed s
  pc : s.producer.Forked s
  head_le : s.head ≤ s.cached ∨ (s.head = 1 ∧ s.cached = 0)
  fresh : s.tail = 0 → Fresh fork s
  kinds : ∀ i, (s.slots i).kind = EVENT_PROCESS_FORK →
    i = s.capacity.index 0 ∧ s.cached = 0 ∧ s.producer.Covers
  consumer : s.consumer.Forked fork s
  delivered : s.forks = if s.tail = 0 then [] else [fork]

section Forked
variable {fork : Event} {s s' : State}

theorem forked_init (capacity : Capacity) (spin : Bool) (child parent : UInt64) (tid : UInt16) :
    Forked (forkEvent child parent tid) (eventForkInit capacity spin child parent tid) where
  consumed := ⟨Nat.zero_le _, trivial, by simp [eventForkInit, State.init], .nil, rfl⟩
  pc := trivial
  head_le := .inr ⟨rfl, rfl⟩
  fresh := fun _ => ⟨rfl, rfl, rfl, by simp [eventForkInit, State.init]⟩
  kinds := by
    intro i hi
    refine ⟨?_, rfl, trivial⟩
    by_contra hne
    have hne' : i ≠ capacity.index 0 := hne
    have hzero : (eventForkInit capacity spin child parent tid).slots i = Event.zero := by
      simp [eventForkInit, hne']
    rw [hzero] at hi
    exact absurd hi (by decide)
  consumer := trivial
  delivered := rfl

/-- The head never moves back. -/
theorem Forked.head_mono {l : Label} (h : Forked fork s) (hok : Ordered l s)
    (hs : Ring.step l s = some s') : s.head ≤ s'.head := by
  have hpc := h.pc
  have hle := h.head_le
  cases l with
  | beginOp => obtain ⟨_, _, ⟨_, rfl⟩ | ⟨_, _, rfl⟩⟩ := State.beginOp_cases hs <;> exact le_rfl
  | loadTail => obtain ⟨_, _, _, ⟨_, rfl⟩ | ⟨_, rfl | rfl⟩⟩ := State.loadTail_cases hs <;> exact le_rfl
  | storeField => obtain ⟨_, _, _, _, _, _, rfl⟩ := State.storeField_cases hs; exact le_rfl
  | finishSlot =>
      obtain ⟨op, base, i, hp, ⟨_, rfl⟩ | ⟨_, rfl⟩⟩ := State.finishSlot_cases hs
      · exact le_rfl
      · rw [hp] at hpc
        obtain ⟨-, rfl, hi⟩ := hpc
        unfold State.advance
        split
        · simp only
          split <;> omega
        · simp only
          omega
  | flush =>
      obtain ⟨_, rfl⟩ := State.flush_cases hs
      exact hok
  | exit => obtain ⟨_, _, rfl⟩ := State.exit_cases hs; exact le_rfl
  | call | loadHead | readField | takeSlot | recheck | commit | retire =>
      exact (sameProducer_of_step rfl hs).head.ge

/-- Until the fork event is consumed the thread does nothing. -/
theorem Fresh.waits {l : Label} (h : Fresh fork s) (ht : s.tail = 0) (hok : Ordered l s)
    (hl : l.isProducer = true) (hs : Ring.step l s = some s') : False := by
  have hhead := h.head
  have hcached := h.cached
  have hidle := h.producer
  cases l with
  | beginOp op =>
      obtain ⟨_, _, ⟨hin, _⟩ | ⟨_, hsync, _⟩⟩ := State.beginOp_cases hs
      · have := hok.2 hin hcached
        omega
      · omega
  | loadTail => obtain ⟨_, _, hp, _⟩ := State.loadTail_cases hs; simp [hidle] at hp
  | storeField => obtain ⟨_, _, _, _, hp, _⟩ := State.storeField_cases hs; simp [hidle] at hp
  | finishSlot => obtain ⟨_, _, _, hp, _⟩ := State.finishSlot_cases hs; simp [hidle] at hp
  | flush =>
      have hle : s.head ≤ s.cached := hok
      omega
  | exit =>
      obtain ⟨_, hsync, _⟩ := State.exit_cases hs
      omega
  | call | loadHead | readField | takeSlot | recheck | commit | retire =>
      simp [Label.isProducer] at hl

theorem Forked.pc_step {l : Label} (h : Forked fork s) (hl : l.isProducer = true)
    (hok : Ordered l s) (hs : Ring.step l s = some s') :
    s'.producer.Forked s' ∧ (s'.head ≤ s'.cached ∨ (s'.head = 1 ∧ s'.cached = 0)) := by
  have hpc := h.pc
  have hle := h.head_le
  cases l with
  | beginOp op =>
      obtain ⟨_, hroom, ⟨_, rfl⟩ | ⟨hin, hsync, rfl⟩⟩ := State.beginOp_cases hs
      · exact ⟨⟨hok.1, rfl, op.slots_length_pos⟩, hle⟩
      · exact ⟨⟨hok.1, hin, hsync, hsync, hroom⟩, hle⟩
  | loadTail =>
      obtain ⟨op, hd, hp, ⟨_, rfl⟩ | ⟨_, rfl | rfl⟩⟩ := State.loadTail_cases hs
      · rw [hp] at hpc
        exact ⟨⟨hpc.1, hpc.2.2.1, op.slots_length_pos⟩, hle⟩
      · exact ⟨hpc, hle⟩
      · exact ⟨trivial, hle⟩
  | storeField =>
      obtain ⟨_, _, _, _, hp, _, rfl⟩ := State.storeField_cases hs
      rw [hp] at hpc
      exact ⟨hpc, hle⟩
  | finishSlot =>
      obtain ⟨op, base, i, hp, ⟨hi, rfl⟩ | ⟨_, rfl⟩⟩ := State.finishSlot_cases hs
      · rw [hp] at hpc
        exact ⟨⟨hpc.1, hpc.2.1, hi⟩, hle⟩
      · rw [hp] at hpc
        obtain ⟨-, rfl, hi⟩ := hpc
        unfold State.advance
        split
        · refine ⟨trivial, .inl ?_⟩
          simp only
          split <;> omega
        · exact ⟨trivial, .inl le_rfl⟩
  | flush =>
      obtain ⟨hidle, rfl⟩ := State.flush_cases hs
      refine ⟨?_, .inl le_rfl⟩
      simp only [hidle]
      trivial
  | exit => obtain ⟨_, _, rfl⟩ := State.exit_cases hs; exact ⟨trivial, hle⟩
  | call | loadHead | readField | takeSlot | recheck | commit | retire =>
      simp [Label.isProducer] at hl

theorem Forked.kinds_step {l : Label} (h : Forked fork s) (hl : l.isProducer = true)
    (hs : Ring.step l s = some s') :
    ∀ i, (s'.slots i).kind = EVENT_PROCESS_FORK →
      i = s'.capacity.index 0 ∧ s'.cached = 0 ∧ s'.producer.Covers := by
  have hpc := h.pc
  have hkinds := h.kinds
  cases l with
  | beginOp op =>
      obtain ⟨_, _, ⟨_, rfl⟩ | ⟨_, _, rfl⟩⟩ := State.beginOp_cases hs
      · exact fun i hi => ⟨(hkinds i hi).1, (hkinds i hi).2.1, rfl, by simp⟩
      · exact fun i hi => ⟨(hkinds i hi).1, (hkinds i hi).2.1, trivial⟩
  | loadTail =>
      obtain ⟨op, hd, hp, ⟨_, rfl⟩ | ⟨_, rfl | rfl⟩⟩ := State.loadTail_cases hs
      · exact fun i hi => ⟨(hkinds i hi).1, (hkinds i hi).2.1, rfl, by simp⟩
      · exact hkinds
      · exact fun i hi => ⟨(hkinds i hi).1, (hkinds i hi).2.1, trivial⟩
  | storeField f =>
      obtain ⟨op, base, i, todo, hp, hf, rfl⟩ := State.storeField_cases hs
      rw [hp] at hpc hkinds
      obtain ⟨hnot, rfl, hi⟩ := hpc
      intro j hj
      by_cases hji : j = s.capacity.index (s.cached + i)
      · subst hji
        simp only [Function.update_self, kind_put] at hj
        split at hj
        · exact absurd hj (hnot _ (Op.slot_mem hi))
        · obtain ⟨hzero, hcached, h0, hmem⟩ := hkinds _ hj
          exact ⟨hzero, hcached, h0, by simp [hmem, Ne.symm ‹_›]⟩
      · simp only [Function.update_of_ne hji] at hj
        obtain ⟨hzero, hcached, h0, -⟩ := hkinds _ hj
        rw [hzero, hcached, h0] at hji
        exact absurd rfl hji
  | finishSlot =>
      obtain ⟨op, base, i, hp, hcase⟩ := State.finishSlot_cases hs
      rw [hp] at hkinds
      have hnone : ∀ j, (s.slots j).kind ≠ EVENT_PROCESS_FORK := by
        intro j hj
        have := (hkinds j hj).2.2.2
        simp at this
      intro j hj
      obtain ⟨-, rfl⟩ | ⟨-, rfl⟩ := hcase
      · exact absurd hj (hnone j)
      · unfold State.advance at hj
        split at hj <;> exact absurd hj (hnone j)
  | flush =>
      obtain ⟨hidle, rfl⟩ := State.flush_cases hs
      exact hkinds
  | exit =>
      obtain ⟨_, _, rfl⟩ := State.exit_cases hs
      exact fun i hi => ⟨(hkinds i hi).1, (hkinds i hi).2.1, trivial⟩
  | call | loadHead | readField | takeSlot | recheck | commit | retire =>
      simp [Label.isProducer] at hl

/-- A call in progress from index 0 reads the fork event alone. -/
theorem Forked.at_zero (h : Forked fork s) {c : Copy} (hc : s.consumer = .copying c)
    (h0 : c.tail = 0) : Fresh fork s ∧ c.out = [] ∧ c.limit = 1 := by
  have hpc := h.consumed.pc
  rw [hc] at hpc
  simp only [Consumer.Ok] at hpc
  have hfresh := h.fresh (by omega)
  have hhead := hfresh.head
  refine ⟨hfresh, List.eq_nil_of_length_eq_zero (by omega), by omega⟩

/-- Later slots below the head hold no fork event. -/
theorem Forked.later (h : Forked fork s) {c : Copy} (hc : s.consumer = .copying c)
    (hpos : 0 < c.tail) :
    (s.slots (s.capacity.index (c.tail + c.out.length))).kind ≠ EVENT_PROCESS_FORK := by
  have hpc := h.consumed.pc
  have hle := h.head_le
  rw [hc] at hpc
  simp only [Consumer.Ok] at hpc
  intro hk
  have := (h.kinds _ hk).2.1
  omega

theorem Forked.enter {t outLen : ℕ} (hpos : 0 < t → 0 < s.tail) :
    (Consumer.enter t s.head outLen).Forked fork s := by
  unfold Consumer.enter
  split
  · trivial
  · refine ⟨fun _ => ⟨rfl, by simp⟩, fun ht => ⟨hpos ht, kind_zero, by simp⟩⟩

/-- No lap before the fork event is consumed. -/
theorem Forked.tail_pos_of_lap (h : Forked fork s) {t : ℕ} (hlap : s.capacity.size < s.head - t) :
    0 < s.tail := by
  by_contra hzero
  have := (h.fresh (by omega)).head
  have := s.capacity.size_pos
  omega

theorem Forked.consumer_step {l : Label} (h : Forked fork s)
    (hfork : ∀ limit, runTailAfter limit 0 0 fork = some 0) (hl : l.isProducer = false)
    (hs : Ring.step l s = some s') : s'.consumer.Forked fork s' := by
  have hcons := h.consumer
  have hpc := h.consumed.pc
  cases l with
  | beginOp | loadTail | storeField | finishSlot | flush | exit => simp [Label.isProducer] at hl
  | call => obtain ⟨_, _, rfl⟩ := State.call_cases hs; trivial
  | loadHead =>
      obtain ⟨outLen, t, hc, ⟨hlap, rfl⟩ | ⟨_, rfl⟩⟩ := State.loadHead_cases hs
      · exact Forked.enter (s := s) fun _ => h.tail_pos_of_lap hlap
      · rw [hc] at hpc
        obtain ⟨rfl, -⟩ := hpc
        exact Forked.enter (s := s) id
  | readField f =>
      obtain ⟨c, hc, _, rfl⟩ := State.readField_cases hs
      have hzero := fun h0 => h.at_zero hc h0
      have hlater := fun hpos => h.later hc hpos
      rw [hc] at hcons
      refine ⟨?_, ?_⟩
      · intro h0
        obtain ⟨hrun, hagree⟩ := hcons.1 h0
        obtain ⟨hfresh, hout, -⟩ := hzero h0
        refine ⟨hrun, ?_⟩
        intro g hg
        have h0' : c.tail = 0 := h0
        simp only [h0', hout, List.length_nil, Nat.add_zero, hfresh.slot]
        by_cases hgf : g = f
        · subst hgf
          exact Event.agree_put_self g _ _
        · exact (Event.agree_put_ne hgf).mpr (hagree g (by simpa [hgf] using hg))
      · intro hpos
        obtain ⟨ht, hcur, hout⟩ := hcons.2 hpos
        refine ⟨ht, ?_, hout⟩
        simp only [kind_put]
        split
        · exact hlater hpos
        · exact hcur
  | takeSlot =>
      obtain ⟨c, hc, htodo, hcase⟩ := State.takeSlot_cases hs
      have hzero := fun h0 => h.at_zero hc h0
      rw [hc] at hcons
      have hfirst : c.tail = 0 → c.cur = fork ∧ c.nextRunTail = some 0 ∧ c.out = [] ∧
          c.limit = 1 := by
        intro h0
        obtain ⟨hrun, hagree⟩ := hcons.1 h0
        obtain ⟨-, hout, hlimit⟩ := hzero h0
        have hcur : c.cur = fork := Event.eq_of_agree fun f => hagree f (by simp [htodo])
        refine ⟨hcur, ?_, hout, hlimit⟩
        rw [Copy.nextRunTail, hcur, hrun, hout]
        exact hfork c.limit
      have hpush : 0 < c.tail → 0 < s.tail ∧ ∀ e ∈ c.out ++ [c.cur], e.kind ≠ EVENT_PROCESS_FORK := by
        intro hpos
        obtain ⟨ht, hcur, hout⟩ := hcons.2 hpos
        refine ⟨ht, ?_⟩
        intro e he
        rcases List.mem_append.mp he with he | he
        · exact hout e he
        · obtain rfl : e = c.cur := by simpa using he
          exact hcur
      obtain ⟨hr, rfl⟩ | ⟨r, hr, ⟨hlt, rfl⟩ | ⟨hge, rfl⟩⟩ := hcase
      · refine ⟨?_, fun hpos => ⟨(hcons.2 hpos).1, (hcons.2 hpos).2.2⟩⟩
        intro h0
        rw [(hfirst h0).2.1] at hr
        cases hr
      · refine ⟨?_, fun hpos => ⟨(hpush hpos).1, kind_zero, (hpush hpos).2⟩⟩
        intro h0
        obtain ⟨-, -, hout, hlimit⟩ := hfirst h0
        rw [hout, hlimit] at hlt
        exact absurd hlt (by simp)
      · refine ⟨?_, hpush⟩
        intro h0
        obtain ⟨hcur, -, hout, -⟩ := hfirst h0
        simp only [Copy.push, hcur, hout, List.nil_append]
  | recheck =>
      obtain ⟨c, hc, ⟨hlap, rfl⟩ | ⟨_, rfl⟩⟩ := State.recheck_cases hs
      · exact h.tail_pos_of_lap hlap
      · rw [hc] at hcons
        exact hcons
  | commit => obtain ⟨_, _, _, rfl⟩ := State.commit_cases hs; trivial
  | retire =>
      obtain ⟨hc, rfl⟩ := State.retire_cases hs
      simp only [hc]
      trivial

theorem Forked.delivered_step {l : Label} (h : Forked fork s)
    (hfork : fork.kind = EVENT_PROCESS_FORK) (hs : Ring.step l s = some s') :
    s'.forks = if s'.tail = 0 then [] else [fork] := by
  have hdel := h.delivered
  by_cases hl : l = .commit
  · subst hl
    obtain ⟨newTail, batch, hc, rfl⟩ := State.commit_cases hs
    have hcons := h.consumer
    have hpc := h.consumed.pc
    rw [hc] at hcons hpc
    obtain ⟨hle, -, hbatch⟩ := hpc
    cases batch with
    | none =>
        have hpos : 0 < s.tail := hcons
        rw [if_neg (by omega)] at hdel
        simpa [State.forks, Nat.pos_iff_ne_zero.mp (hpos.trans_le hle)] using hdel
    | some b =>
        obtain ⟨hstart, rfl⟩ := hbatch b rfl
        have hforks : State.forks { s with
            tail := b.start + b.events.length
            batches := s.batches ++ (some b).toList
            consumer := .idle } =
            s.forks ++ b.events.filter (·.kind = EVENT_PROCESS_FORK) := by
          simp [State.forks]
        rw [hforks, hdel]
        rcases Nat.eq_zero_or_pos b.start with h0 | hpos
        · rw [hcons.1 h0, if_pos (by omega), if_neg (by simp), List.nil_append]
          simp [hfork]
        · obtain ⟨ht, hnone⟩ := hcons.2 hpos
          have hempty : b.events.filter (·.kind = EVENT_PROCESS_FORK) = [] := by
            simpa using hnone
          rw [hempty, if_neg (by omega), if_neg (by simp only; omega), List.append_nil]
  · obtain ⟨htail, hbatches⟩ := tail_of_step hl hs
    rw [State.forks, htail, hbatches]
    exact hdel

theorem Forked.step {l : Label} (h : Forked fork s) (hfork : fork.kind = EVENT_PROCESS_FORK)
    (hsingle : ∀ limit, runTailAfter limit 0 0 fork = some 0) (hok : Ordered l s)
    (hs : Ring.step l s = some s') : Forked fork s' := by
  have hdel := h.delivered_step hfork hs
  cases hl : l.isProducer with
  | true =>
      have e := sameConsumer_of_step hl hs
      obtain ⟨hpc, hle⟩ := h.pc_step hl hok hs
      refine ⟨h.consumed.of_producer e (h.head_mono hok hs), hpc, hle, ?_, h.kinds_step hl hs, ?_,
        hdel⟩
      · intro h0
        rw [e.tail] at h0
        exact ((h.fresh h0).waits h0 hok hl hs).elim
      · rw [e.consumer]
        have hcons := h.consumer
        unfold Consumer.Forked at hcons ⊢
        rw [e.tail]
        exact hcons
  | false =>
      have e := sameProducer_of_step hl hs
      refine ⟨h.consumed.step hl hs, ?_, ?_, ?_, ?_, h.consumer_step hsingle hl hs, hdel⟩
      · rw [e.producer]
        have hpc := h.pc
        unfold Producer.Forked at hpc ⊢
        rw [e.cached, e.head]
        exact hpc
      · rw [e.head, e.cached]
        exact h.head_le
      · intro h0
        have hmono := h.consumed.tail_mono hs
        obtain ⟨hhead, hcached, hidle, hslot⟩ := h.fresh (by omega)
        exact ⟨e.head.trans hhead, e.cached.trans hcached, e.producer.trans hidle,
          by rw [e.slots, e.capacity, hslot]⟩
      · rw [e.slots, e.capacity, e.cached, e.producer]
        exact h.kinds

end Forked

/-- In a forked child whose events come in order, the head never moves back, the
tail stays behind it, a push is refused only when as many events as the ring has
slots are unconsumed, and the fork event is the first delivery and the only one
of its kind. -/
theorem fork_event_is_delivered_once {capacity : Capacity} {spin : Bool} {child parent : UInt64}
    {tid : UInt16} {s t : State} (h : Run Ordered (eventForkInit capacity spin child parent tid) s)
    (k : Run Ordered s t) :
    s.head ≤ t.head ∧ t.tail ≤ t.head ∧
      (∀ op hd, t.producer = .pushing op hd → Ordered .loadTail t →
        op.admits t.capacity.size hd t.tail = false → t.tail + t.capacity.size ≤ t.head) ∧
      t.forks = if t.tail = 0 then [] else [forkEvent child parent tid] := by
  have hkind : (forkEvent child parent tid).kind = EVENT_PROCESS_FORK := kind_makeKf _ _ _
  have hflags : (forkEvent child parent tid).flags = 0 := flags_makeKf _ _ _
  have hsingle : ∀ limit, runTailAfter limit 0 0 (forkEvent child parent tid) = some 0 := by
    intro limit
    simp [runTailAfter, hkind, Event.isCompound, hflags, EVENT_PROCESS_FORK, EVENT_REG_SNAPSHOT]
  have hs : Forked (forkEvent child parent tid) s :=
    h.invariant (I := Forked _) (forked_init capacity spin child parent tid)
      fun _ _ _ hu hok hstep => hu.step hkind hsingle hok hstep
  have ht : Forked (forkEvent child parent tid) t ∧ s.head ≤ t.head :=
    k.invariant (I := fun u => Forked _ u ∧ s.head ≤ u.head) ⟨hs, le_rfl⟩ fun _ _ _ hu hok hstep =>
      ⟨hu.1.step hkind hsingle hok hstep, hu.2.trans (hu.1.head_mono hok hstep)⟩
  obtain ⟨ht, hhead⟩ := ht
  refine ⟨hhead, ht.consumed.tail_le, ?_, ht.delivered⟩
  intro op hd hp hroomy had
  have hpc := ht.pc
  rw [hp] at hpc
  obtain ⟨-, hin, rfl, hsync, hroom⟩ := hpc
  have hle := ht.consumed.tail_le
  have hfull := Op.not_admits had hin (by omega) hroom
  cases hsnap : op.isSnapshot with
  | false =>
      rw [Op.slots_length_push hin hsnap] at hfull
      omega
  | true =>
      have hnot := hroomy op _ hp hsnap
      rw [Op.slots_length_snapshot hsnap] at hfull
      simp only [State.Scant] at hnot
      omega

/-- A forked child of process 5 with id 7, and its ring once the engine has taken
the fork event. -/
def forkedChild : State := eventForkInit THREAD_RING_CAPACITY false 7 5 7

def consumedChild : State :=
  { forkedChild with tail := 1, batches := [⟨0, [forkEvent 7 5 7]⟩] }

def takeFork : List Label := [.call 8, .loadHead] ++ readSlot ++ [.recheck, .commit]

theorem exec_takeFork : exec step takeFork forkedChild = some consumedChild := by
  have henter : exec step [.call 8, .loadHead] forkedChild = some { forkedChild with
      consumer := .copying ⟨0, 1, 1, 0, [], .zero, Field.all, false⟩ } := rfl
  have hslot : forkedChild.slots (forkedChild.capacity.index 0) = forkEvent 7 5 7 := by
    simp [forkedChild, eventForkInit, State.init]
  rw [takeFork, exec_append, exec_append, henter, Option.bind_some, exec_readSlot rfl rfl]
  simp only [List.length_nil, Nat.add_zero, hslot]
  rw [takeSlot_last (r := 0) rfl rfl (by decide) (by decide)]
  rfl

/-- The first register snapshot of thread 7. -/
def snapshotPush : Op := .pushRegSnapshot 0 (fun _ => 0) 7 1

theorem step_loadTail {s : State} {op : Op} {h : ℕ} (hpushing : s.producer = .pushing op h)
    (hadmits : op.admits s.capacity.size h s.tail = true) :
    step .loadTail s =
      some { s with producer := .writing op h 0 Field.all, ops := s.ops ++ [op] } := by
  simp only [step, State.loadTail, hpushing, hadmits, if_true]

/-- The engine takes the fork event, then the child stores, flushes and pushes a
register snapshot, which is admitted. -/
theorem consumed_child_keeps_order :
    ∃ t : State, t.ops = [plainWrite 0, snapshotPush] ∧ t.head = 1 ∧ t.tail ≤ t.head ∧
      t.forks = [forkEvent 7 5 7] := by
  have hfits : 1 + REG_SNAPSHOT_SLOTS ≤ 1 + THREAD_RING_CAPACITY.size := by decide
  have hadmits : snapshotPush.admits THREAD_RING_CAPACITY.size 1 1 = true := by decide
  have htake : Run Ordered forkedChild consumedChild :=
    .of_exec exec_takeFork (by simp [takeFork, readSlot, Field.all, Ordered])
  have hnot : (plainWrite 0).NotFork := by
    simp only [Op.NotFork, plainWrite, Op.slots, List.mem_singleton, forall_eq]
    decide
  have hordered : Ordered (.beginOp (plainWrite 0)) consumedChild := ⟨hnot, fun _ _ => le_rfl⟩
  have hbegin := htake.next hordered (step_beginInline rfl rfl (by decide))
  have hrun : ∀ l ∈ storeSlot, ∀ s, Ordered l s := by
    simp [storeSlot, Field.all, Ordered]
  have hstore := hbegin.trans (Reach.of_exec
    (exec_storeSlot (show _ = Producer.writing (plainWrite 0) _ 0 Field.all from rfl)) hrun)
  have hflush := Reach.next (l := .flush) hstore (by exact Nat.le_refl 1) rfl
  have hpush : snapshotPush.NotFork := by
    unfold Op.NotFork
    decide
  have hpushing := Reach.next (l := .beginOp snapshotPush) hflush
    (by exact ⟨hpush, fun _ _ => le_rfl⟩) rfl
  have hroomy := Reach.next (l := Label.loadTail) hpushing
    (fun _ _ _ _ => State.not_scant (c := THREAD_RING_CAPACITY) rfl rfl rfl hfits)
    (step_loadTail rfl hadmits)
  obtain ⟨-, htail, -, hforks⟩ := fork_event_is_delivered_once .start hroomy
  exact ⟨_, rfl, rfl, htail, hforks⟩

/-- The child's first flush comes before its first inline operation: the head
goes from 1 to 0, behind the tail, and the next push finds the ring full. -/
theorem flush_moves_head_back :
    ¬ ∀ s t, Run (Begins Op.NotFork) forkedChild s → Run (Begins Op.NotFork) s t →
      s.head ≤ t.head ∧ t.tail ≤ t.head ∧
        (∀ op hd, t.producer = .pushing op hd → op.admits t.capacity.size hd t.tail = false →
          t.tail + t.capacity.size ≤ t.head) ∧
        t.forks = if t.tail = 0 then [] else [forkEvent 7 5 7] := by
  intro hall
  let op : Op := .pushExFlags 0x401000 0 0x7ffc0000 EVENT_CALL 0 0 0
  have htake : Run (Begins Op.NotFork) forkedChild consumedChild :=
    .of_exec exec_takeFork (by simp [takeFork, readSlot, Field.all, Begins])
  have hpush : exec step [.flush, .beginOp op] consumedChild =
      some { consumedChild with head := 0, producer := .pushing op 0 } := rfl
  have hnot : op.NotFork := by
    simp only [Op.NotFork, op, Op.slots, List.mem_singleton, forall_eq]
    decide
  obtain ⟨hhead, -, -, -⟩ := hall _ _ htake (.of_exec hpush (by simp [Begins, hnot]))
  exact absurd hhead (by decide)

end Rtmap.Ring
