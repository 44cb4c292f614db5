import Rtmap.Ring.System

/-!
# What the producer leaves in the slots

The history of a ring is the concatenation of whole runs. `Produced` ties it to
memory: below the producer's position a slot holds its history entry until the
producer comes within one lap of overwriting it, and the slot being filled
agrees with its entry on the fields already stored.
-/
namespace Rtmap.Ring

theorem Op.written_length (op : Op) : op.written.length = op.slots.length := by
  simp [written]

theorem Op.getElem?_written (op : Op) {i : ℕ} (h : i < op.slots.length) :
    op.written[i]? = some ⟨op, i⟩ := by
  simp [written, h]

theorem Op.of_getElem?_written {op : Op} {i : ℕ} {w : Written} (h : op.written[i]? = some w) :
    i < op.slots.length ∧ w = ⟨op, i⟩ := by
  have hi : i < op.slots.length := by
    have := (List.getElem?_eq_some_iff.mp h).choose
    rwa [op.written_length] at this
  rw [op.getElem?_written hi] at h
  exact ⟨hi, (Option.some.inj h).symm⟩

theorem Op.getElem?_slots (op : Op) {i : ℕ} (h : i < op.slots.length) :
    op.slots[i]? = some (op.slot i) := by
  simp [slot, h]

/-- Every position of a history belongs to a whole run. -/
theorem block_of_written (ops : List Op) {p : ℕ} {w : Written}
    (h : (ops.flatMap Op.written)[p]? = some w) :
    ∃ base, base + w.pos = p ∧ w.pos < w.op.slots.length ∧
      ∀ j < w.op.slots.length, (ops.flatMap Op.written)[base + j]? = some ⟨w.op, j⟩ := by
  induction ops generalizing p with
  | nil => simp at h
  | cons op ops ih =>
      rw [List.flatMap_cons] at h ⊢
      by_cases hp : p < op.slots.length
      · rw [List.getElem?_append_left (by rwa [op.written_length])] at h
        obtain ⟨-, rfl⟩ := Op.of_getElem?_written h
        refine ⟨0, by simp, hp, ?_⟩
        intro j hj
        rw [Nat.zero_add, List.getElem?_append_left (by rwa [op.written_length])]
        exact op.getElem?_written hj
      · rw [List.getElem?_append_right (by rw [op.written_length]; omega), op.written_length] at h
        obtain ⟨base, hbase, hpos, hrun⟩ := ih h
        refine ⟨op.slots.length + base, by omega, hpos, ?_⟩
        intro j hj
        rw [List.getElem?_append_right (by rw [op.written_length]; omega), op.written_length,
          show op.slots.length + base + j - op.slots.length = base + j by omega]
        exact hrun j hj

theorem event_of_written (ops : List Op) :
    (ops.flatMap Op.written).map Written.event = ops.flatMap Op.slots := by
  induction ops with
  | nil => rfl
  | cons op ops ih =>
      have hop : op.written.map Written.event = op.slots := by
        apply List.ext_getElem?
        intro i
        by_cases hi : i < op.slots.length
        · rw [List.getElem?_map, op.getElem?_written hi, op.getElem?_slots hi]
          rfl
        · rw [List.getElem?_eq_none (by simpa [Op.written_length] using hi),
            List.getElem?_eq_none (by omega)]
      rw [List.flatMap_cons, List.flatMap_cons, List.map_append, ih, hop]

namespace State

/-- The history entry of a logical index, once written. -/
def entry (s : State) (p : ℕ) : Option Written := s.written[p]?

theorem entry_of_append {s s' : State} {more : List Op} (h : s'.ops = s.ops ++ more) {p : ℕ}
    {w : Written} (he : s.entry p = some w) : s'.entry p = some w := by
  unfold entry written at he ⊢
  rw [h, List.flatMap_append, List.getElem?_append_left (List.getElem?_eq_some_iff.mp he).choose]
  exact he

theorem entry_last {s : State} {before : List Op} {op : Op} {base j : ℕ}
    (hops : s.ops = before ++ [op]) (hbase : (before.flatMap Op.written).length = base)
    (hj : j < op.slots.length) : s.entry (base + j) = some ⟨op, j⟩ := by
  unfold entry written
  rw [hops, List.flatMap_append, List.getElem?_append_right (by omega), hbase,
    show base + j - base = j by omega, List.flatMap_singleton]
  exact op.getElem?_written hj

theorem entry_lt {s : State} {p : ℕ} {w : Written} (h : s.entry p = some w) :
    p < s.written.length :=
  (List.getElem?_eq_some_iff.mp h).choose

theorem exists_entry {s : State} {p : ℕ} (h : p < s.written.length) :
    ∃ w, s.entry p = some w :=
  ⟨_, List.getElem?_eq_getElem h⟩

/-- The run an entry belongs to. -/
theorem entry_block {s : State} {p : ℕ} {w : Written} (h : s.entry p = some w) :
    ∃ base, base + w.pos = p ∧ w.pos < w.op.slots.length ∧
      ∀ j < w.op.slots.length, s.entry (base + j) = some ⟨w.op, j⟩ :=
  block_of_written s.ops h

end State

/-- What the producer's program counter says about the history. -/
def Producer.Ok (s : State) : Producer → Prop
  | .idle => s.written.length = s.cached
  | .pushing op h =>
      s.written.length = s.cached ∧ op.isInline = false ∧ h = s.cached ∧ s.head = s.cached ∧
        s.cached + op.slots.length < 2 ^ 64
  | .writing op base i todo =>
      base = s.cached ∧ i < op.slots.length ∧ base + op.slots.length < 2 ^ 64 ∧
        (∃ before, s.ops = before ++ [op] ∧ (before.flatMap Op.written).length = base) ∧
        ∀ f, f ∉ todo → Event.Agree f (s.slots (s.capacity.index (base + i))) (op.slot i)
  | .exited => s.written.length = s.cached ∧ s.head = s.cached

/-- A filled slot holds its entry until the producer is a lap ahead of it. -/
def State.Intact (s : State) : Prop :=
  ∀ p w, s.entry p = some w → p < s.filled → s.frontier ≤ p + s.capacity.size →
    s.slots (s.capacity.index p) = w.event

structure Produced (s : State) : Prop where
  head_le : s.head ≤ s.cached
  pc : s.producer.Ok s
  intact : s.Intact

theorem produced_init (capacity : Capacity) (spin : Bool) :
    Produced (State.init capacity spin) where
  head_le := le_rfl
  pc := rfl
  intact := by
    intro p w h
    simp [State.entry, State.written, State.init] at h

theorem Produced.congr {s s' : State} (h : Produced s) (e : SameProducer s s') : Produced s' := by
  obtain ⟨capacity, spin, slots, head, tail, terminal, cached, producer⟩ := s
  obtain ⟨capacity', spin', slots', head', tail', terminal', cached', producer'⟩ := s'
  obtain ⟨h₁, h₂, h₃, h₄, h₅, h₆, h₇⟩ := e
  simp only at h₁ h₂ h₃ h₄ h₅ h₆ h₇
  subst h₁ h₂ h₃ h₄ h₅ h₆ h₇
  exact ⟨h.head_le, h.pc, h.intact⟩

section Produced
variable {s s' : State}

theorem Produced.cached_le_filled (h : Produced s) : s.cached ≤ s.filled := by
  have hpc := h.pc
  unfold State.filled
  cases hp : s.producer with
  | writing op base i todo =>
      rw [hp] at hpc
      have := hpc.1
      simp only
      omega
  | _ => exact le_rfl

theorem Produced.filled_le_frontier : s.filled ≤ s.frontier := by
  unfold State.filled State.frontier
  cases s.producer <;> simp

theorem Produced.written_length_ge (h : Produced s) : s.frontier ≤ s.written.length := by
  have hpc := h.pc
  unfold State.frontier
  cases hp : s.producer with
  | writing op base i todo =>
      rw [hp] at hpc
      obtain ⟨-, hi, -, ⟨before, hops, hbase⟩, -⟩ := hpc
      simp only [State.written, hops, List.flatMap_append, List.flatMap_singleton,
        List.length_append, Op.written_length, hbase]
      omega
  | idle =>
      rw [hp] at hpc
      exact hpc.ge
  | pushing | exited =>
      rw [hp] at hpc
      exact hpc.1.ge

theorem Produced.head_le_filled (h : Produced s) : s.head ≤ s.filled :=
  h.head_le.trans h.cached_le_filled

theorem Produced.head_le_written (h : Produced s) : s.head ≤ s.written.length :=
  h.head_le_filled.trans (Produced.filled_le_frontier.trans h.written_length_ge)

/-- A slot below the published head still holds its event while the producer is
at most one lap ahead of it. -/
theorem Produced.slot_eq (h : Produced s) {p : ℕ} {w : Written} (he : s.entry p = some w)
    (hp : p < s.head) (hf : s.frontier ≤ p + s.capacity.size) :
    s.slots (s.capacity.index p) = w.event :=
  h.intact p w he (hp.trans_le h.head_le_filled) hf

theorem Produced.slot_of_history (h : Produced s) {p : ℕ} {e : Event}
    (he : (s.ops.flatMap Op.slots)[p]? = some e) (hp : p < s.head)
    (hf : s.frontier ≤ p + s.capacity.size) : s.slots (s.capacity.index p) = e := by
  rw [← event_of_written, List.getElem?_map, Option.map_eq_some_iff] at he
  obtain ⟨w, hw, rfl⟩ := he
  exact h.slot_eq hw hp hf

private theorem intact_of_append (h : Produced s) (more : List Op)
    (hcap : s'.capacity = s.capacity) (hslots : s'.slots = s.slots)
    (hops : s'.ops = s.ops ++ more) (hfilled : s'.filled = s.filled)
    (hfront : s.frontier ≤ s'.frontier) : s'.Intact := by
  intro p w he hp hf
  rw [hfilled] at hp
  rw [hcap] at hf ⊢
  have hlen : p < s.written.length :=
    hp.trans_le (Produced.filled_le_frontier.trans h.written_length_ge)
  obtain ⟨w', hw'⟩ := State.exists_entry hlen
  have heq := State.entry_of_append hops hw'
  rw [he] at heq
  obtain rfl := Option.some.inj heq
  rw [hslots]
  exact h.intact p w hw' hp (hfront.trans hf)

theorem Produced.beginOp {op : Op} (h : Produced s) (hs : s.beginOp op = some s') :
    Produced s' := by
  obtain ⟨hidle, hroom, ⟨_, rfl⟩ | ⟨hpush, hhead, rfl⟩⟩ := State.beginOp_cases hs
  · have hpc : s.written.length = s.cached := by simpa [hidle, Producer.Ok] using h.pc
    refine ⟨h.head_le, ?_, ?_⟩
    · refine ⟨rfl, op.slots_length_pos, hroom, ⟨s.ops, rfl, hpc⟩, ?_⟩
      intro f hf
      simp at hf
    · refine intact_of_append h [op] rfl rfl rfl ?_ ?_
      · simp [State.filled, hidle]
      · simp [State.frontier, hidle]
  · have hpc : s.written.length = s.cached := by simpa [hidle, Producer.Ok] using h.pc
    refine ⟨h.head_le, ⟨hpc, hpush, hhead, hhead, hroom⟩, ?_⟩
    refine intact_of_append h [] rfl rfl (by simp) ?_ ?_
    · simp [State.filled, hidle]
    · simp [State.frontier, hidle]

theorem Produced.loadTail (h : Produced s) (hs : s.loadTail = some s') : Produced s' := by
  obtain ⟨op, hd, hp, ⟨_, rfl⟩ | ⟨_, rfl | rfl⟩⟩ := State.loadTail_cases hs
  · have hpc := h.pc
    rw [hp] at hpc
    obtain ⟨hlen, hpush, rfl, hhead, hroom⟩ := hpc
    refine ⟨h.head_le, ?_, ?_⟩
    · refine ⟨rfl, op.slots_length_pos, hroom, ⟨s.ops, rfl, hlen⟩, ?_⟩
      intro f hf
      simp at hf
    · refine intact_of_append h [op] rfl rfl rfl ?_ ?_
      · simp [State.filled, hp]
      · simp [State.frontier, hp]
  · exact h
  · have hpc := h.pc
    rw [hp] at hpc
    refine ⟨h.head_le, hpc.1, ?_⟩
    refine intact_of_append h [] rfl rfl (by simp) ?_ ?_
    · simp [State.filled, hp]
    · simp [State.frontier, hp]

theorem Produced.storeField {f : Field} (h : Produced s) (hs : s.storeField f = some s') :
    Produced s' := by
  obtain ⟨op, base, i, todo, hp, hf, rfl⟩ := State.storeField_cases hs
  have hpc := h.pc
  rw [hp] at hpc
  obtain ⟨hbase, hi, hroom, hops, hagree⟩ := hpc
  refine ⟨h.head_le, ?_, ?_⟩
  · refine ⟨hbase, hi, hroom, hops, ?_⟩
    intro g hg
    simp only [Function.update_self]
    by_cases hgf : g = f
    · subst hgf
      exact Event.agree_put_self g _ _
    · rw [Event.agree_put_ne hgf]
      apply hagree
      simpa [hgf] using hg
  · intro p w he hpf hfr
    simp only [State.filled, State.frontier] at hpf hfr
    have hne : s.capacity.index p ≠ s.capacity.index (base + i) :=
      Capacity.index_ne hpf (by omega)
    simp only [Function.update_of_ne hne]
    apply h.intact p w he
    · simpa [State.filled, hp] using hpf
    · simpa [State.frontier, hp] using hfr

/-- The last field of a slot is stored: the slot holds its event. -/
theorem Produced.slot_done (h : Produced s) {op : Op} {base i : ℕ}
    (hp : s.producer = .writing op base i []) :
    s.entry (base + i) = some ⟨op, i⟩ ∧
      s.slots (s.capacity.index (base + i)) = op.slot i := by
  have hpc := h.pc
  rw [hp] at hpc
  obtain ⟨-, hi, -, ⟨before, hops, hlen⟩, hagree⟩ := hpc
  refine ⟨State.entry_last hops hlen hi, ?_⟩
  exact Event.eq_of_agree fun f => hagree f (by simp)

/-- Extending the filled part by the slot just completed. -/
private theorem intact_finish (h : Produced s) {op : Op} {base i : ℕ}
    (hp : s.producer = .writing op base i []) :
    ∀ p w, s.entry p = some w → p < base + (i + 1) →
      base + (i + 1) ≤ p + s.capacity.size → s.slots (s.capacity.index p) = w.event := by
  intro p w he hpf hfr
  obtain ⟨hlast, hslot⟩ := h.slot_done hp
  by_cases hpi : p = base + i
  · subst hpi
    rw [hlast] at he
    obtain rfl := Option.some.inj he
    exact hslot
  · apply h.intact p w he
    · simp only [State.filled, hp]
      omega
    · simp only [State.frontier, hp]
      omega

theorem Produced.finishSlot (h : Produced s) (hs : s.finishSlot = some s') : Produced s' := by
  obtain ⟨op, base, i, hp, ⟨hi, rfl⟩ | ⟨hi, rfl⟩⟩ := State.finishSlot_cases hs
  · have hpc := h.pc
    rw [hp] at hpc
    obtain ⟨hbase, -, hroom, hops, -⟩ := hpc
    refine ⟨h.head_le, ⟨hbase, hi, hroom, hops, by simp⟩, ?_⟩
    intro p w he hpf hfr
    simp only [State.filled, State.frontier] at hpf hfr
    exact intact_finish h hp p w he hpf (by omega)
  · have hpc := h.pc
    rw [hp] at hpc
    obtain ⟨hbase, hlt, -, ⟨before, hops, hlen⟩, -⟩ := hpc
    have hend : i + 1 = op.slots.length := by omega
    have hwritten : s.written.length = base + op.slots.length := by
      simp [State.written, hops, Op.written_length, hlen]
    have hhead := h.head_le
    have hfin := intact_finish h hp
    rw [hend] at hfin
    unfold State.advance
    split
    · refine ⟨?_, hwritten, hfin⟩
      simp only
      split <;> omega
    · exact ⟨le_rfl, hwritten, hfin⟩

theorem Produced.flush (h : Produced s) (hs : s.flush = some s') : Produced s' := by
  obtain ⟨hidle, rfl⟩ := State.flush_cases hs
  refine ⟨le_rfl, ?_, h.intact⟩
  have hpc := h.pc
  simp only [hidle] at hpc ⊢
  exact hpc

theorem Produced.exit (h : Produced s) (hs : s.exit = some s') : Produced s' := by
  obtain ⟨hidle, hhead, rfl⟩ := State.exit_cases hs
  have hpc := h.pc
  rw [hidle] at hpc
  refine ⟨h.head_le, ⟨hpc, hhead⟩, ?_⟩
  refine intact_of_append h [] rfl rfl (by simp) ?_ ?_
  · simp [State.filled, hidle]
  · simp [State.frontier, hidle]

theorem Produced.step {l : Label} (h : Produced s) (hs : Ring.step l s = some s') : Produced s' := by
  cases l with
  | beginOp => exact h.beginOp hs
  | loadTail => exact h.loadTail hs
  | storeField => exact h.storeField hs
  | finishSlot => exact h.finishSlot hs
  | flush => exact h.flush hs
  | exit => exact h.exit hs
  | call | loadHead | readField | takeSlot | recheck | commit | retire =>
      exact h.congr (sameProducer_of_step rfl hs)

end Produced

theorem produced_of_run {capacity : Capacity} {spin : Bool} {ok : Label → State → Prop} {s : State}
    (h : Run ok (State.init capacity spin) s) : Produced s :=
  h.invariant (produced_init capacity spin) fun _ _ _ hu _ hs => hu.step hs

/-- What other threads may rely on across a step of the producer. -/
structure Advances (s s' : State) : Prop where
  ops : ∃ more, s'.ops = s.ops ++ more
  head : s.head ≤ s'.head
  frontier : s.frontier ≤ s'.frontier

theorem Produced.advances {l : Label} {s s' : State} (h : Produced s)
    (hs : Ring.step l s = some s') : Advances s s' := by
  have hle := h.head_le
  cases l with
  | beginOp op =>
      obtain ⟨hidle, -, ⟨-, rfl⟩ | ⟨-, -, rfl⟩⟩ := State.beginOp_cases hs
      · exact ⟨⟨_, rfl⟩, le_rfl, by simp [State.frontier, hidle]⟩
      · exact ⟨⟨[], by simp⟩, le_rfl, by simp [State.frontier, hidle]⟩
  | loadTail =>
      obtain ⟨op, hd, hp, ⟨-, rfl⟩ | ⟨-, rfl | rfl⟩⟩ := State.loadTail_cases hs
      · have hpc := h.pc
        rw [hp] at hpc
        refine ⟨⟨_, rfl⟩, le_rfl, ?_⟩
        simp [State.frontier, hp, hpc.2.2.1]
      · exact ⟨⟨[], by simp⟩, le_rfl, le_rfl⟩
      · exact ⟨⟨[], by simp⟩, le_rfl, by simp [State.frontier, hp]⟩
  | storeField =>
      obtain ⟨_, _, _, _, hp, -, rfl⟩ := State.storeField_cases hs
      exact ⟨⟨[], by simp⟩, le_rfl, by simp [State.frontier, hp]⟩
  | finishSlot =>
      obtain ⟨op, base, i, hp, ⟨-, rfl⟩ | ⟨hi, rfl⟩⟩ := State.finishSlot_cases hs
      · exact ⟨⟨[], by simp⟩, le_rfl, by simp [State.frontier, hp]⟩
      · have hpc := h.pc
        rw [hp] at hpc
        have hbase := hpc.1
        have hlt := hpc.2.1
        unfold State.advance
        split
        · refine ⟨⟨[], by simp⟩, ?_, ?_⟩
          · simp only
            split <;> omega
          · simp only [State.frontier, hp]
            omega
        · refine ⟨⟨[], by simp⟩, ?_, ?_⟩
          · simp only
            omega
          · simp only [State.frontier, hp]
            omega
  | flush =>
      obtain ⟨hidle, rfl⟩ := State.flush_cases hs
      exact ⟨⟨[], by simp⟩, hle, by simp [State.frontier]⟩
  | exit =>
      obtain ⟨hidle, -, rfl⟩ := State.exit_cases hs
      exact ⟨⟨[], by simp⟩, le_rfl, by simp [State.frontier, hidle]⟩
  | call | loadHead | readField | takeSlot | recheck | commit | retire =>
      have e := sameProducer_of_step rfl hs
      refine ⟨⟨[], by simp [e.ops]⟩, e.head.ge, ?_⟩
      simp [State.frontier, e.producer, e.cached]

end Rtmap.Ring
