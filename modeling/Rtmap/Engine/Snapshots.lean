import Rtmap.Ring.FullChecked

/-!
# Register snapshots in the drain loop

`batch_drain` concatenates the batches of all rings into one buffer; the drain
loop walks it and hands the next seven events to `apply_reg_snapshot` wherever
it meets the snapshot kind. When every batch holds whole snapshots, the walk
meets the kind at headers only.
-/
namespace Rtmap.Engine
open Rtmap.Ring Transition

/-- What `apply_reg_snapshot` writes to the world and the shadow registers. -/
structure SnapshotUpdate where
  regs : List UInt64
  insnCounter : UInt64
  threadId : UInt16
  seq : UInt64

/-- `apply_reg_snapshot`: slots consumed, 7 on success and 1 on a short or
corrupt tail, and the update made. -/
def applyRegSnapshot : List Event → ℕ × Option SnapshotUpdate
  | [] => (0, none)
  | header :: cont =>
      if header.kind ≠ EVENT_REG_SNAPSHOT then (0, none)
      else if cont.length + 1 < 7 then (1, none)
      else if (cont.take 6).all (·.kind == EVENT_REG_SNAPSHOT) then
        (7, some {
          regs := (cont.take 6).flatMap fun c => [c.addr, c.size.toUInt64, c.value]
          insnCounter := header.addr
          threadId := header.threadId
          seq := header.seq.toUInt64 })
      else (1, none)

/-- The groups the drain loop hands to `apply_reg_snapshot`, walking the buffer;
`skip` events are still to be passed over. -/
def handed (noBb : Bool) : ℕ → List (ℕ × Event) → List (List (ℕ × Event))
  | _, [] => []
  | skip + 1, _ :: rest => handed noBb skip rest
  | 0, x :: rest =>
      if noBb && x.2.kind == EVENT_BB_ENTRY then handed noBb 0 rest
      else if x.2.kind = EVENT_REG_SNAPSHOT then
        let group := (x :: rest).take 7
        group :: handed noBb (max (applyRegSnapshot (group.map Prod.snd)).1 1 - 1) rest
      else handed noBb 0 rest

/-- The rename of thread ids that the child drain applies; the root's is the identity. -/
def renameTid (tid : ℕ → UInt16 → UInt16) (ring : ℕ) (e : Event) : ℕ × Event :=
  (ring, { e with threadId := tid ring e.threadId })

/-- The buffer after one pass over the rings. -/
def drainBuffer (tid : ℕ → UInt16 → UInt16) (pass : List (ℕ × Batch)) : List (ℕ × Event) :=
  pass.flatMap fun x => x.2.events.map (renameTid tid x.1)

@[simp] theorem kind_renameTid (tid : ℕ → UInt16 → UInt16) (ring : ℕ) (e : Event) :
    (renameTid tid ring e).2.kind = e.kind := rfl

/-- The group is one `rtmap_push_reg_snapshot` call of some ring: its header and
its six continuations, in order. -/
def OneCall (tid : ℕ → UInt16 → UInt16) (rings : ℕ → State) (group : List (ℕ × Event)) : Prop :=
  ∃ ring base op, op.isSnapshot = true ∧
    (∀ j < REG_SNAPSHOT_SLOTS, (rings ring).entry (base + j) = some ⟨op, j⟩) ∧
    group = op.slots.map (renameTid tid ring)

section Walk
variable {noBb : Bool} {tid : ℕ → UInt16 → UInt16}

theorem handed_skip (skip : ℕ) (front back : List (ℕ × Event)) (h : front.length = skip) :
    handed noBb skip (front ++ back) = handed noBb 0 back := by
  induction front generalizing skip with
  | nil =>
      subst h
      rfl
  | cons x front ih =>
      obtain ⟨k, rfl⟩ : ∃ k, skip = k + 1 := ⟨front.length, by simpa using h.symm⟩
      simp only [List.length_cons, Nat.add_right_cancel_iff] at h
      exact ih k h

theorem handed_other {x : ℕ × Event} {rest : List (ℕ × Event)}
    (h : x.2.kind ≠ EVENT_REG_SNAPSHOT) : handed noBb 0 (x :: rest) = handed noBb 0 rest := by
  rw [handed, if_neg h]
  split <;> rfl

theorem mem_handed {x : ℕ × Event} (rest : List (ℕ × Event))
    (h : x.2.kind = EVENT_REG_SNAPSHOT) : (x :: rest).take 7 ∈ handed noBb 0 (x :: rest) := by
  have hbb : x.2.kind ≠ EVENT_BB_ENTRY := by
    rw [h]
    decide
  rw [handed, if_neg (by simp [hbb]), if_pos h]
  exact List.mem_cons_self

/-- A whole snapshot at the front of the buffer is handed over as one group. -/
theorem handed_snapshot {op : Op} (hop : op.isSnapshot = true) (ring : ℕ)
    (rest : List (ℕ × Event)) :
    handed noBb 0 (op.slots.map (renameTid tid ring) ++ rest) =
      op.slots.map (renameTid tid ring) :: handed noBb 0 rest := by
  have hkinds : ∀ e ∈ op.slots, e.kind = EVENT_REG_SNAPSHOT := fun _ he =>
    Op.kind_of_snapshot hop he
  have hlen : op.slots.length = 7 := Op.slots_length_snapshot hop
  obtain ⟨x, tl, hslots⟩ : ∃ x tl, op.slots = x :: tl :=
    List.exists_cons_of_ne_nil op.slots_ne_nil
  rw [hslots] at hkinds hlen ⊢
  have htl : tl.length = 6 := by simpa using hlen
  have hx : x.kind = EVENT_REG_SNAPSHOT := hkinds x (by simp)
  have hbb : x.kind ≠ EVENT_BB_ENTRY := by
    rw [hx]
    decide
  have hgroup : ((renameTid tid ring x) :: (tl.map (renameTid tid ring) ++ rest)).take 7 =
      (renameTid tid ring x) :: tl.map (renameTid tid ring) := by
    rw [List.take_succ_cons, List.take_append_of_le_length (by simp [htl]),
      List.take_of_length_le (by simp [htl])]
  have hall : ((tl.map (renameTid tid ring)).map Prod.snd).all
      (·.kind == EVENT_REG_SNAPSHOT) = true := by
    simp only [List.all_eq_true, List.mem_map, beq_iff_eq]
    rintro _ ⟨_, ⟨e, he, rfl⟩, rfl⟩
    exact hkinds e (by simp [he])
  have happly : (applyRegSnapshot
      (((renameTid tid ring x) :: tl.map (renameTid tid ring)).map Prod.snd)).1 = 7 := by
    rw [List.map_cons, applyRegSnapshot, if_neg (by simpa using hx), if_neg (by simp [htl]),
      List.take_of_length_le (by simp [htl]), if_pos hall]
  rw [List.map_cons, List.cons_append, handed, if_neg (by simp [hbb]), if_pos (by simpa using hx)]
  simp only [hgroup, happly]
  rw [show max 7 1 - 1 = 6 from rfl, handed_skip 6 _ rest (by simp [htl])]

end Walk

section Batch
variable {s : State} {b : Batch}

/-- The part of an exact batch that a whole run fills. -/
theorem drop_run (hex : s.Exact b.start b.events) {k : ℕ} {op : Op}
    (hk : k + op.slots.length ≤ b.events.length)
    (hrun : ∀ j < op.slots.length, s.entry (b.start + k + j) = some ⟨op, j⟩) :
    b.events.drop k = op.slots ++ b.events.drop (k + op.slots.length) := by
  apply List.ext_getElem?
  intro j
  rw [List.getElem?_drop]
  by_cases hj : j < op.slots.length
  · rw [List.getElem?_append_left hj, op.getElem?_slots hj]
    obtain ⟨w, hw, he⟩ := hex (k + j) _ (List.getElem?_eq_getElem (by omega))
    rw [← Nat.add_assoc, hrun j hj] at hw
    obtain rfl := Option.some.inj hw
    rw [List.getElem?_eq_getElem (by omega), he]
    rfl
  · rw [List.getElem?_append_right (by omega), List.getElem?_drop]
    congr 1
    omega

/-- Walking a whole batch hands over snapshots of single calls. -/
theorem handed_batch {noBb : Bool} {tid : ℕ → UInt16 → UInt16} {ring : ℕ} (h : Framed s)
    (hex : s.Exact b.start b.events) (hstop : s.offset (b.start + b.events.length) = 0)
    (rest : List (ℕ × Event)) (g : List (ℕ × Event)) :
    ∀ k ≤ b.events.length, s.offset (b.start + k) = 0 →
      g ∈ handed noBb 0 ((b.events.drop k).map (renameTid tid ring) ++ rest) →
      (∃ base op, op.isSnapshot = true ∧
        (∀ j < REG_SNAPSHOT_SLOTS, s.entry (base + j) = some ⟨op, j⟩) ∧
        g = op.slots.map (renameTid tid ring)) ∨ g ∈ handed noBb 0 rest := by
  intro k hk
  induction hn : b.events.length - k using Nat.strong_induction_on generalizing k with
  | _ n ih =>
      intro hoff hg
      rcases Nat.lt_or_eq_of_le hk with hlt | rfl
      · obtain ⟨w, hw, he⟩ := hex k _ (List.getElem?_eq_getElem hlt)
        obtain ⟨base, hbase, hpos, hrun⟩ := State.entry_block hw
        cases hsnap : w.op.isSnapshot with
        | true =>
            rw [State.offset_of_entry hw, if_pos hsnap] at hoff
            have hlen := Op.slots_length_snapshot hsnap
            obtain rfl : base = b.start + k := by omega
            rw [hlen] at hrun
            have hinside : k + 7 ≤ b.events.length := by
              by_contra hout
              have hentry := hrun (b.events.length - k) (by simp only [REG_SNAPSHOT_SLOTS]; omega)
              rw [show b.start + k + (b.events.length - k) = b.start + b.events.length by omega]
                at hentry
              rw [State.offset_of_entry hentry, if_pos hsnap] at hstop
              simp only at hstop
              omega
            rw [drop_run hex (by rw [hlen]; exact hinside) (by rw [hlen]; exact hrun),
              List.map_append, List.append_assoc, handed_snapshot hsnap, hlen] at hg
            rcases List.mem_cons.mp hg with rfl | hg
            · exact .inl ⟨_, w.op, hsnap, hrun, rfl⟩
            · refine ih (b.events.length - (k + 7)) (by omega) (k + 7) hinside rfl ?_ hg
              have hlast := State.offset_after_last (hrun 6 (by decide)) (by simp only [hlen]; rfl)
              rwa [show b.start + k + 6 + 1 = b.start + (k + 7) by omega] at hlast
        | false =>
            have hkind : b.events[k].kind ≠ EVENT_REG_SNAPSHOT := by
              rw [he]
              exact Op.kind_of_not_snapshot (h.whole.of_entry hw) hsnap (Written.event_mem hpos)
            rw [List.drop_eq_getElem_cons hlt, List.map_cons, List.cons_append,
              handed_other (by simpa using hkind)] at hg
            refine ih (b.events.length - (k + 1)) (by omega) (k + 1) hlt rfl ?_ hg
            exact State.offset_succ_of_not_snapshot hw hsnap
      · rw [List.drop_length] at hg
        exact .inr hg

end Batch

/-- In rings whose accepted batches are not overrun and do not start inside a
register snapshot, the drain loop hands over nothing but whole snapshots, each
the header and the six continuations of one call. -/
theorem groups_are_single_calls {rings : ℕ → State} {capacity : ℕ → Capacity} {spin : ℕ → Bool}
    (hrings : ∀ i, Run HeadersFirst (State.init (capacity i) (spin i)) (rings i))
    {pass : List (ℕ × Batch)} (hpass : ∀ x ∈ pass, x.2 ∈ (rings x.1).batches)
    (noBb : Bool) (tid : ℕ → UInt16 → UInt16) :
    ∀ group ∈ handed noBb 0 (drainBuffer tid pass), OneCall tid rings group := by
  induction pass with
  | nil => simp [drainBuffer, handed]
  | cons x pass ih =>
      intro group hg
      have hx := hpass x (by simp)
      have hframed := framed_of_run (hrings x.1)
      have haligned := hframed.aligned _ hx
      simp only [drainBuffer, List.flatMap_cons] at hg
      have hwalk := handed_batch hframed (hframed.sound.faithful _ hx) haligned.stop _ group 0
        (Nat.zero_le _) haligned.start hg
      rcases hwalk with ⟨base, op, hop, hrun, rfl⟩ | hrest
      · exact ⟨x.1, base, op, hop, hrun, rfl⟩
      · exact ih (fun y hy => hpass y (by simp [hy])) group hrest

/-- One snapshot is pushed, taken and handed over. -/
theorem snapshot_is_handed_whole :
    ∃ (rings : ℕ → State) (pass : List (ℕ × Batch)),
      drainBuffer (fun _ t => t) pass = onesSnapshot.slots.map (renameTid (fun _ t => t) 0) ∧
      ∀ group ∈ handed false 0 (drainBuffer (fun _ t => t) pass),
        OneCall (fun _ t => t) rings group := by
  obtain ⟨s, hrun, hops, hbatches, -⟩ :=
    run_pushAndConsume onesSnapshot rfl trivial (by decide)
  refine ⟨fun _ => s, [(0, ⟨0, onesSnapshot.slots⟩)], by simp [drainBuffer], ?_⟩
  apply groups_are_single_calls (fun _ => run_headersFirst hrun)
  simp [hbatches]

/-- Two snapshots are pushed and then overtaken by 2^20 - 13 published stores. The
next call resumes at index 1, inside the first one, and the drain loop hands over
six continuations followed by the second header. -/
theorem resync_hands_over_continuations :
    ¬ ∀ (rings : ℕ → State) (pass : List (ℕ × Batch)),
      (∀ i, Run (Begins Op.Whole) (State.init THREAD_RING_CAPACITY false) (rings i)) →
      (∀ x ∈ pass, x.2 ∈ (rings x.1).batches) →
      ∀ group ∈ handed false 0 (drainBuffer (fun _ t => t) pass), group.length = 7 →
        OneCall (fun _ t => t) rings group := by
  intro hall
  let e₀ : Event := (plainWrite 0).slot 0
  let front : List Event := (onesSnapshot.slots ++ onesSnapshot.slots).drop 1
  let events : List Event := front ++ List.replicate 4083 e₀
  have hpushed : ∃ slots, Run (Begins Op.Whole) (State.init THREAD_RING_CAPACITY false)
      { State.init THREAD_RING_CAPACITY false with
        slots := slots, cached := 14, head := 14, ops := [onesSnapshot, onesSnapshot] } := by
    obtain ⟨slots, hfirst⟩ := run_push (P := Op.Whole)
      (s := State.init THREAD_RING_CAPACITY false) onesSnapshot trivial rfl rfl (by decide) rfl
      (show onesSnapshot.admits (2 ^ 20) 0 0 = true by decide)
    obtain ⟨slots', hsecond⟩ := run_push (P := Op.Whole)
      (s := { State.init THREAD_RING_CAPACITY false with
        slots := slots, cached := 7, head := 7, ops := [onesSnapshot] }) onesSnapshot trivial rfl rfl
      (show 7 + 7 < 2 ^ 64 by decide) rfl
      (show onesSnapshot.admits (2 ^ 20) 7 0 = true by decide)
    exact ⟨slots', hfirst.trans hsecond⟩
  obtain ⟨slots, hpushed⟩ := hpushed
  obtain ⟨slots', hwrites⟩ := run_writes (P := Op.Whole) (s := { State.init THREAD_RING_CAPACITY false
      with slots := slots, cached := 14, head := 14, ops := [onesSnapshot, onesSnapshot] })
    trivial rfl rfl (n := 2 ^ 20 - 13) (show 14 + (2 ^ 20 - 13) < 2 ^ 64 by decide)
  let s : State := { State.init THREAD_RING_CAPACITY false with
    slots := slots'
    cached := 14 + (2 ^ 20 - 13)
    head := 14 + (2 ^ 20 - 13)
    ops := [onesSnapshot, onesSnapshot] ++ List.replicate (2 ^ 20 - 13) (plainWrite 0) }
  have hlapped : Run (Begins Op.Whole) (State.init THREAD_RING_CAPACITY false) s :=
    hpushed.trans hwrites
  have hhistory : s.ops.flatMap Op.slots = onesSnapshot.slots ++ onesSnapshot.slots ++
      List.replicate (2 ^ 20 - 13) e₀ := by
    simp only [s, List.flatMap_append, slots_replicate]
    rfl
  have hevents : ((s.ops.flatMap Op.slots).drop 1).take 4096 = events := by
    rw [hhistory, List.drop_append_of_le_length (by decide), List.take_append,
      List.take_of_length_le (by decide), List.take_replicate]
    rfl
  have hlen : events.length = 4096 := by
    simp only [events, List.length_append, List.length_replicate]
    rfl
  have hslots : ∀ j e, events[j]? = some e → s.slots (s.capacity.index (1 + j)) = e := by
    intro j e he
    have hj : j < 4096 := by
      have := (List.getElem?_eq_some_iff.mp he).choose
      omega
    rw [← hevents, List.getElem?_take_of_lt hj, List.getElem?_drop] at he
    apply (produced_of_run hlapped).slot_of_history he
    · show 1 + j < 14 + (2 ^ 20 - 13)
      omega
    · show 14 + (2 ^ 20 - 13) ≤ 1 + j + 2 ^ 20
      omega
  have hscan : (scan events.length 0 0 events).isSome = true := by
    have hfront : scan 4096 0 0 front = some 1 := by decide
    have hplain : ∀ e ∈ List.replicate 4083 e₀, e.kind ≠ EVENT_REG_SNAPSHOT ∧
        e.isCompound = false := by
      intro e he
      obtain rfl := List.eq_of_mem_replicate he
      decide
    rw [hlen, scan_append, hfront, Option.bind_some, scan_single _ _ hplain]
    rfl
  obtain ⟨s', hrun, -, -, -, hbatches⟩ := run_consume (P := Op.Whole) (s := s) 4096 1
    events rfl (show 1 = max 0 (14 + (2 ^ 20 - 13) - 2 ^ 20) by decide)
    (show 1 < 14 + (2 ^ 20 - 13) by decide) (by decide)
    (show events.length = min (14 + (2 ^ 20 - 13) - 1) 4096 by rw [hlen]; decide) hslots hscan
  have hgroup : (front.take 7).map (renameTid (fun _ t => t) 0) ∈
      handed false 0 (drainBuffer (fun _ t => t) [(0, ⟨1, events⟩)]) := by
    simp only [drainBuffer, List.flatMap_singleton, events, List.map_append]
    exact mem_handed (x := renameTid (fun _ t => t) 0 (snapshotSlot (fun _ => 1) 0 0 0)) _ (by decide)
  obtain ⟨ring, base, op, hop, -, hop'⟩ := hall (fun _ => s') [(0, ⟨1, events⟩)]
    (fun _ => hlapped.trans hrun) (by simp [hbatches]) _ hgroup (by decide)
  cases op with
  | pushRegSnapshot insn regs tid seq =>
      have hsize : some (1 : UInt32) = some 0 :=
        congrArg (fun g => g.head?.map fun x => x.2.size) hop'
      exact absurd hsize (by decide)
  | _ => cases hop

end Rtmap.Engine
