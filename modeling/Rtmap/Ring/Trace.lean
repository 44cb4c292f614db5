import Rtmap.Ring.System

/-!
# Steps taken together

Uninterrupted stretches of a run: a slot stored or read, an operation, a row of
stores, a batch copied. They assemble concrete interleavings; the contents of
the slots come from the invariants.
-/
namespace Rtmap.Ring
open Transition

def storeSlot : List Label := Field.all.map .storeField ++ [.finishSlot]

def readSlot : List Label := Field.all.map .readField ++ [.takeSlot]

theorem exec_storeFields {s : State} {op : Op} {base i : ℕ}
    (hp : s.producer = .writing op base i Field.all) :
    exec step (Field.all.map .storeField) s = some { s with
      slots := Function.update s.slots (s.capacity.index (base + i)) (op.slot i)
      producer := .writing op base i [] } := by
  simp [Field.all, exec, step, State.storeField, hp, Field.drop, Event.put]

theorem exec_storeSlot {s : State} {op : Op} {base i : ℕ}
    (hp : s.producer = .writing op base i Field.all) :
    exec step storeSlot s = State.finishSlot { s with
      slots := Function.update s.slots (s.capacity.index (base + i)) (op.slot i)
      producer := .writing op base i [] } := by
  rw [storeSlot, exec_append, exec_storeFields hp, Option.bind_some]
  simp [exec, step]

theorem exec_readSlot {s : State} {c : Copy} (hc : s.consumer = .copying c)
    (htodo : c.todo = Field.all) :
    exec step readSlot s = State.takeSlot { s with consumer := .copying { c with
      cur := s.slots (s.capacity.index (c.tail + c.out.length))
      todo := []
      overrun := c.overrun ||
        decide (c.tail + c.out.length + s.capacity.size < s.frontier) } } := by
  have hfront : ∀ k, State.frontier { s with consumer := k } = s.frontier := fun _ => rfl
  simp [readSlot, Field.all, exec, step, State.readField, hc, htodo, Field.drop, Event.put,
    hfront]

theorem takeSlot_last {s : State} {c : Copy} {r : ℕ} (hc : s.consumer = .copying c)
    (htodo : c.todo = []) (hr : c.nextRunTail = some r) (hlast : c.limit ≤ c.out.length + 1) :
    s.takeSlot = some { s with consumer := .copied (c.push r) } := by
  have hlt : ¬ c.out.length + 1 < c.limit := by omega
  simp only [State.takeSlot, hc, htodo, hr, if_true, if_neg hlt]

theorem takeSlot_more {s : State} {c : Copy} {r : ℕ} (hc : s.consumer = .copying c)
    (htodo : c.todo = []) (hr : c.nextRunTail = some r) (hmore : c.out.length + 1 < c.limit) :
    s.takeSlot = some { s with consumer := .copying (c.push r) } := by
  simp only [State.takeSlot, hc, htodo, hr, if_true, if_pos hmore]

theorem takeSlot_stop {s : State} {c : Copy} (hc : s.consumer = .copying c)
    (htodo : c.todo = []) (hr : c.nextRunTail = none) :
    s.takeSlot = some { s with consumer := .copied c } := by
  simp only [State.takeSlot, hc, htodo, hr, if_true]

section Whole
variable {P : Op → Prop} {s : State} {op : Op}

theorem step_beginInline (hidle : s.producer = .idle) (hin : op.isInline = true)
    (hroom : s.cached + op.slots.length < 2 ^ 64) :
    step (.beginOp op) s = some { s with
      producer := .writing op s.cached 0 Field.all, ops := s.ops ++ [op] } := by
  simp only [step, State.beginOp, hidle, hin, if_pos hroom, if_true]

theorem exec_beginPush (hidle : s.producer = .idle) (hin : op.isInline = false)
    (hroom : s.cached + op.slots.length < 2 ^ 64) (hsync : s.head = s.cached)
    (had : op.admits s.capacity.size s.head s.tail = true) :
    exec step [.beginOp op, .loadTail] s = some { s with
      producer := .writing op s.cached 0 Field.all, ops := s.ops ++ [op] } := by
  rw [← hsync] at hroom ⊢
  simp only [exec, step, State.beginOp, hidle, hin, ← hsync, if_pos hroom, Bool.false_eq_true,
    if_false, if_true, Option.bind_some, State.loadTail, had]

/-- A whole one-slot inline operation. -/
theorem exec_write (op : Op) (hidle : s.producer = .idle) (hin : op.isInline = true)
    (hlen : op.slots.length = 1) (hroom : s.cached + 1 < 2 ^ 64) :
    exec step (.beginOp op :: storeSlot) s = some { s with
      slots := Function.update s.slots (s.capacity.index s.cached) (op.slot 0)
      producer := .idle
      cached := s.cached + 1
      head := if (s.cached + 1) &&& HEAD_FLUSH_MASK = 0 then s.cached + 1 else s.head
      ops := s.ops ++ [op] } := by
  rw [exec, step_beginInline hidle hin (by rwa [hlen]), Option.bind_some, exec_storeSlot rfl]
  simp [State.finishSlot, State.advance, hlen, hin]

/-- The rest of an operation, from slot `i` on. -/
theorem run_slots {base i : ℕ} (hp : s.producer = .writing op base i Field.all)
    (hi : i < op.slots.length) :
    ∃ slots, Run (Begins P) s (State.advance op base { s with slots := slots }) := by
  induction h : op.slots.length - i generalizing i s with
  | zero => omega
  | succ k ih =>
      by_cases hlast : i + 1 < op.slots.length
      · have hstore : exec step storeSlot s = some { s with
            slots := Function.update s.slots (s.capacity.index (base + i)) (op.slot i)
            producer := .writing op base (i + 1) Field.all } := by
          rw [exec_storeSlot hp]
          simp [State.finishSlot, hlast]
        obtain ⟨slots, hrun⟩ := ih (s := { s with
            slots := Function.update s.slots (s.capacity.index (base + i)) (op.slot i)
            producer := .writing op base (i + 1) Field.all }) rfl hlast (by omega)
        refine ⟨slots, (Reach.of_exec hstore (by simp [storeSlot, Field.all, Begins])).trans ?_⟩
        unfold State.advance at hrun ⊢
        split <;> simp_all
      · have hstore : exec step storeSlot s = some (State.advance op base { s with
            slots := Function.update s.slots (s.capacity.index (base + i)) (op.slot i) }) := by
          rw [exec_storeSlot hp]
          simp only [State.finishSlot, if_neg hlast, State.advance]
        exact ⟨_, .of_exec hstore (by simp [storeSlot, Field.all, Begins])⟩

theorem run_push (op : Op) (hop : P op) (hidle : s.producer = .idle) (hin : op.isInline = false)
    (hroom : s.cached + op.slots.length < 2 ^ 64) (hsync : s.head = s.cached)
    (had : op.admits s.capacity.size s.head s.tail = true) :
    ∃ slots, Run (Begins P) s
      (State.advance op s.cached { s with slots := slots, ops := s.ops ++ [op] }) := by
  obtain ⟨slots, hrun⟩ := run_slots (P := P) (s := { s with
      producer := .writing op s.cached 0 Field.all, ops := s.ops ++ [op] }) rfl op.slots_length_pos
  have hload := exec_beginPush hidle hin hroom hsync had
  refine ⟨slots, (Reach.of_exec hload (by simp [Begins, hop])).trans ?_⟩
  unfold State.advance at hrun ⊢
  split <;> simp_all

end Whole

/-- An 8-byte inline store of `value`. -/
def plainWrite (value : UInt64) : Op := .write 0 8 0 0 value 0

/-- A snapshot whose registers all hold 1. -/
def onesSnapshot : Op := .pushRegSnapshot 0 (fun _ => 1) 0 0

theorem written_replicate (n : ℕ) :
    (List.replicate n (plainWrite 0)).flatMap Op.written =
      List.replicate n ⟨plainWrite 0, 0⟩ := by
  induction n with
  | zero => rfl
  | succ n ih =>
      rw [List.replicate_succ, List.flatMap_cons, ih]
      rfl

theorem slots_replicate (n : ℕ) :
    (List.replicate n (plainWrite 0)).flatMap Op.slots =
      List.replicate n ((plainWrite 0).slot 0) := by
  induction n with
  | zero => rfl
  | succ n ih =>
      rw [List.replicate_succ, List.flatMap_cons, ih]
      rfl

section Repeat
variable {P : Op → Prop} {s : State} {op : Op} {n : ℕ}

/-- The state after `n` operations `op`, the head moved along when `pub`. -/
def State.after (s : State) (op : Op) (pub : Bool) (n : ℕ) (slots : ℕ → Event) : State :=
  { s with
    slots := slots
    cached := s.cached + n * op.slots.length
    head := if pub then s.cached + n * op.slots.length else s.head
    ops := s.ops ++ List.replicate n op }

theorem State.after_succ (slots slots' : ℕ → Event) (pub : Bool) :
    (s.after op pub n slots).after op pub 1 slots' = s.after op pub (n + 1) slots' := by
  have hcached : s.cached + n * op.slots.length + 1 * op.slots.length =
      s.cached + (n + 1) * op.slots.length := by
    rw [Nat.add_assoc, ← Nat.add_mul]
  cases pub <;>
    simp only [after, hcached, List.append_assoc, List.replicate_append_replicate,
      Bool.false_eq_true, if_false, if_true]

/-- A row of one operation, each of which finds what it needs. -/
theorem run_repeat (op : Op) (pub : Bool) (hsync : pub = true → s.head = s.cached) (n : ℕ)
    (hone : ∀ i < n, ∀ slots, ∃ slots', Run (Begins P) (s.after op pub i slots)
      ((s.after op pub i slots).after op pub 1 slots')) :
    ∃ slots, Run (Begins P) s (s.after op pub n slots) := by
  induction n with
  | zero =>
      have hsame : s.after op pub 0 s.slots = s := by
        cases s
        cases pub <;> simp_all [State.after]
      refine ⟨s.slots, ?_⟩
      rw [hsame]
      exact .start
  | succ n ih =>
      obtain ⟨slots, hrun⟩ := ih fun i hi => hone i (by omega)
      obtain ⟨slots', hnext⟩ := hone n (by omega) slots
      rw [State.after_succ] at hnext
      exact ⟨slots', hrun.trans hnext⟩

private theorem one_slot : (plainWrite 0).slots.length = 1 := rfl

theorem run_publishedWrite (hop : P (plainWrite 0)) (hidle : s.producer = .idle)
    (hroom : s.cached + 1 < 2 ^ 64) :
    ∃ slots, Run (Begins P) s (s.after (plainWrite 0) true 1 slots) := by
  have hwrite := exec_write (plainWrite 0) hidle rfl rfl hroom
  have hrun : Run (Begins P) s _ :=
    .of_exec hwrite (by simp [storeSlot, Field.all, Begins, hop])
  have hflush := hrun.next (l := .flush) (show Begins P .flush _ from trivial) rfl
  refine ⟨Function.update s.slots (s.capacity.index s.cached) ((plainWrite 0).slot 0), ?_⟩
  simp only [State.after, one_slot, Nat.mul_one, if_true, List.replicate_one, hidle]
  exact hflush

theorem run_hiddenWrite (hop : P (plainWrite 0)) (hidle : s.producer = .idle)
    (hroom : s.cached + 1 < 2 ^ 64) (hhidden : (s.cached + 1) &&& HEAD_FLUSH_MASK ≠ 0) :
    ∃ slots, Run (Begins P) s (s.after (plainWrite 0) false 1 slots) := by
  have hwrite := exec_write (plainWrite 0) hidle rfl rfl hroom
  rw [if_neg hhidden] at hwrite
  refine ⟨Function.update s.slots (s.capacity.index s.cached) ((plainWrite 0).slot 0), ?_⟩
  simp only [State.after, one_slot, Nat.mul_one, Bool.false_eq_true, if_false,
    List.replicate_one, hidle]
  exact .of_exec hwrite (by simp [storeSlot, Field.all, Begins, hop])

/-- A row of `n` published stores. -/
theorem run_writes (hop : P (plainWrite 0)) (hidle : s.producer = .idle)
    (hsync : s.head = s.cached) {n : ℕ} (hroom : s.cached + n < 2 ^ 64) :
    ∃ slots, Run (Begins P) s { s with
      slots := slots
      cached := s.cached + n
      head := s.cached + n
      ops := s.ops ++ List.replicate n (plainWrite 0) } := by
  obtain ⟨slots, hrun⟩ := run_repeat (P := P) (plainWrite 0) true (fun _ => hsync) n (by
    intro i hi slots
    exact run_publishedWrite hop hidle (by simp only [State.after, one_slot]; omega))
  refine ⟨slots, ?_⟩
  simpa only [State.after, one_slot, Nat.mul_one, if_true] using hrun

/-- A row of stores that reaches no multiple of 64 is not published. -/
theorem run_hiddenWrites (hop : P (plainWrite 0)) (hidle : s.producer = .idle)
    (hroom : s.cached + n < 2 ^ 64)
    (hhidden : ∀ i < n, (s.cached + i + 1) &&& HEAD_FLUSH_MASK ≠ 0) :
    ∃ slots, Run (Begins P) s (s.after (plainWrite 0) false n slots) := by
  apply run_repeat (plainWrite 0) false (by simp)
  intro i hi slots
  refine run_hiddenWrite hop hidle ?_ ?_
  · simp only [State.after, one_slot]
    omega
  · simpa only [State.after, one_slot, Nat.mul_one] using hhidden i hi

/-- A row of pushes into a ring with room for all of them. -/
theorem run_pushes (op : Op) (hop : P op) (hidle : s.producer = .idle) (hin : op.isInline = false)
    (hsync : s.head = s.cached) (hroom : s.cached + n * op.slots.length < 2 ^ 64)
    (had : ∀ i < n,
      op.admits s.capacity.size (s.cached + i * op.slots.length) s.tail = true) :
    ∃ slots, Run (Begins P) s (s.after op true n slots) := by
  apply run_repeat op true fun _ => hsync
  intro i hi slots
  have hle : (i + 1) * op.slots.length ≤ n * op.slots.length :=
    Nat.mul_le_mul_right _ (by omega)
  rw [Nat.add_mul] at hle
  obtain ⟨slots', hrun⟩ := run_push (s := s.after op true i slots) op hop hidle hin
    (by simp only [State.after]; omega) rfl (by simpa only [State.after, if_true] using had i hi)
  refine ⟨slots', ?_⟩
  simpa only [State.after, State.advance, hin, Bool.false_eq_true, if_false, if_true, Nat.one_mul,
    List.replicate_one, hidle] using hrun

end Repeat

/-- `run_tail` after copying all of `events` from slot `n` on, or `none` when the
loop stops on the way. -/
def scan (limit : ℕ) : ℕ → ℕ → List Event → Option ℕ
  | _, runTail, [] => some runTail
  | n, runTail, e :: es => (runTailAfter limit n runTail e).bind (scan limit (n + 1) · es)

theorem scan_append (limit n runTail : ℕ) (xs ys : List Event) :
    scan limit n runTail (xs ++ ys) =
      (scan limit n runTail xs).bind (scan limit (n + xs.length) · ys) := by
  induction xs generalizing n runTail with
  | nil => rfl
  | cons x xs ih =>
      simp only [List.cons_append, scan]
      cases runTailAfter limit n runTail x with
      | none => rfl
      | some r =>
          simp only [Option.bind_some, ih, List.length_cons]
          rw [show n + 1 + xs.length = n + (xs.length + 1) by omega]

theorem scan_single {limit : ℕ} {events : List Event} (n runTail : ℕ)
    (h : ∀ e ∈ events, e.kind ≠ EVENT_REG_SNAPSHOT ∧ e.isCompound = false) :
    scan limit n runTail events = some (runTail - events.length) := by
  induction events generalizing n runTail with
  | nil => rfl
  | cons e es ih =>
      have he := h e (by simp)
      have hnext : runTailAfter limit n runTail e = some (runTail - 1) := by
        unfold runTailAfter
        split
        · rename_i h0
          simp [he.1, he.2, h0]
        · rfl
      rw [scan, hnext, Option.bind_some, ih _ _ fun x hx => h x (by simp [hx]), List.length_cons,
        Nat.sub_sub, Nat.add_comm 1]

section Loop
variable {P : Op → Prop} {s : State} {c : Copy} {events : List Event} {outLen t : ℕ}

/-- The copy loop over slots of known contents that do not fill the batch. -/
theorem run_prefix (hc : s.consumer = .copying c) (htodo : c.todo = Field.all)
    (hlen : c.out.length + events.length < c.limit)
    (hslots : ∀ j e, events[j]? = some e →
      s.slots (s.capacity.index (c.tail + c.out.length + j)) = e) {r : ℕ}
    (hscan : scan c.limit c.out.length c.runTail events = some r) :
    ∃ c' : Copy, c'.tail = c.tail ∧ c'.limit = c.limit ∧ c'.out = c.out ++ events ∧
      c'.runTail = r ∧ c'.todo = Field.all ∧
      Run (Begins P) s { s with consumer := .copying c' } := by
  induction events generalizing s c with
  | nil =>
      refine ⟨c, rfl, rfl, by simp, by simpa [scan] using hscan, htodo, ?_⟩
      rw [← hc]
      exact .start
  | cons e es ih =>
      have he := hslots 0 e rfl
      rw [Nat.add_zero] at he
      simp only [scan, Option.bind_eq_some_iff] at hscan
      obtain ⟨r', hr', hscan⟩ := hscan
      simp only [List.length_cons] at hlen
      have hread := exec_readSlot hc htodo
      rw [he] at hread
      generalize hcur : ({ c with
        cur := e
        todo := []
        overrun := c.overrun ||
          decide (c.tail + c.out.length + s.capacity.size < s.frontier) } : Copy) = d at hread
      have hd : d.tail = c.tail ∧ d.limit = c.limit ∧ d.out = c.out ∧ d.todo = [] ∧
          d.nextRunTail = some r' := by
        rw [← hcur]
        exact ⟨rfl, rfl, rfl, rfl, hr'⟩
      obtain ⟨htail, hlimit, hout, hdtodo, hnext⟩ := hd
      have hcure : d.cur = e := by rw [← hcur]
      rw [takeSlot_more (c := d) rfl hdtodo hnext (by rw [hout, hlimit]; omega)] at hread
      have hpushed : (d.push r').out = c.out ++ [e] := by rw [Copy.push, hout, hcure]
      have hcount : (d.push r').out.length = c.out.length + 1 := by simp [hpushed]
      have hmore : (d.push r').tail = c.tail ∧ (d.push r').limit = c.limit := ⟨htail, hlimit⟩
      obtain ⟨c', htail', hlimit', hout', hrun', htodo', hrun⟩ := ih
        (s := { s with consumer := .copying (d.push r') }) (c := d.push r') rfl rfl
        (by rw [hcount, hmore.2]; omega)
        (by
          intro j x hx
          rw [hcount, hmore.1, Nat.add_assoc, Nat.add_assoc, Nat.add_comm 1 j, ← Nat.add_assoc]
          exact hslots (j + 1) x (by simpa using hx))
        (by
          rw [hcount, hmore.2]
          exact hscan)
      refine ⟨c', htail'.trans htail, hlimit'.trans hlimit, by rw [hout', hpushed]; simp, hrun',
        htodo', ?_⟩
      exact (Reach.of_exec hread (by simp [readSlot, Field.all, Begins])).trans hrun

/-- The loop reads one more slot and ends there, with or without it. -/
theorem run_last (hc : s.consumer = .copying c) (htodo : c.todo = Field.all) {e : Event}
    (he : s.slots (s.capacity.index (c.tail + c.out.length)) = e) {out : List Event}
    (hend : (∃ r, runTailAfter c.limit c.out.length c.runTail e = some r ∧
        c.limit ≤ c.out.length + 1 ∧ out = c.out ++ [e]) ∨
      (runTailAfter c.limit c.out.length c.runTail e = none ∧ out = c.out)) :
    ∃ c' : Copy, c'.tail = c.tail ∧ c'.out = out ∧
      Run (Begins P) s { s with consumer := .copied c' } := by
  have hread := exec_readSlot hc htodo
  rw [he] at hread
  generalize hcur : ({ c with
    cur := e
    todo := []
    overrun := c.overrun ||
      decide (c.tail + c.out.length + s.capacity.size < s.frontier) } : Copy) = d at hread
  have hd : d.tail = c.tail ∧ d.limit = c.limit ∧ d.out = c.out ∧ d.todo = [] ∧ d.cur = e ∧
      d.nextRunTail = runTailAfter c.limit c.out.length c.runTail e := by
    rw [← hcur]
    exact ⟨rfl, rfl, rfl, rfl, rfl, rfl⟩
  obtain ⟨htail, hlimit, hout, hdtodo, hcure, hnext⟩ := hd
  rcases hend with ⟨r, hr, hlast, rfl⟩ | ⟨hr, rfl⟩
  · rw [takeSlot_last (c := d) rfl hdtodo (hnext.trans hr) (by rwa [hlimit, hout])] at hread
    refine ⟨d.push r, htail, by rw [Copy.push, hout, hcure], ?_⟩
    exact .of_exec hread (by simp [readSlot, Field.all, Begins])
  · rw [takeSlot_stop (c := d) rfl hdtodo (hnext.trans hr)] at hread
    exact ⟨d, htail, hout, .of_exec hread (by simp [readSlot, Field.all, Begins])⟩

/-- A call, made while nothing else moves, up to its copy loop: it starts at the
oldest intact slot. -/
theorem run_enter (outLen t : ℕ) (ht : t = max s.tail (s.head - s.capacity.size))
    (hlt : t < s.head) (hpos : 0 < outLen) :
    ∃ s₁, Run (Begins P) { s with consumer := .started outLen s.tail } s₁ ∧
      SameProducer s s₁ ∧ s₁.batches = s.batches ∧
      s₁.consumer =
        .copying ⟨t, s.head, min (s.head - t) outLen, 0, [], .zero, Field.all, false⟩ := by
  have henter : Consumer.enter t s.head outLen =
      .copying ⟨t, s.head, min (s.head - t) outLen, 0, [], .zero, Field.all, false⟩ := by
    rw [Consumer.enter, if_neg (by omega)]
  by_cases hlap : s.capacity.size < s.head - s.tail
  · rw [max_eq_right (by omega)] at ht
    refine ⟨{ s.recordLap (t - s.tail) with consumer := .enter t s.head outLen },
      .next .start (l := .loadHead) trivial ?_, ⟨rfl, rfl, rfl, rfl, rfl, rfl, rfl⟩, rfl, henter⟩
    simp only [step, State.loadHead, if_pos hlap, ← ht]
    rfl
  · rw [max_eq_left (by omega)] at ht
    rw [← ht] at hlap
    refine ⟨{ s with consumer := .enter t s.head outLen },
      .next .start (l := .loadHead) trivial ?_, ⟨rfl, rfl, rfl, rfl, rfl, rfl, rfl⟩, rfl, henter⟩
    simp only [step, State.loadHead, ← ht, if_neg hlap]

/-- The end of a call whose batch is kept. -/
theorem run_return (hc : s.consumer = .copied c) (hkeep : s.head - c.tail ≤ s.capacity.size) :
    Run (Begins P) s { s with
      consumer := .idle
      tail := c.tail + c.out.length
      batches := s.batches ++ [⟨c.tail, c.out⟩] } := by
  have hexec : exec step [.recheck, .commit] s = some { s with
      consumer := .idle
      tail := c.tail + c.out.length
      batches := s.batches ++ [⟨c.tail, c.out⟩] } := by
    simp only [exec, step, State.recheck, hc, if_neg (Nat.not_lt.mpr hkeep), Option.bind_some,
      State.commit, Option.toList_some]
  exact .of_exec hexec (by simp [Begins])

/-- A whole call, made while nothing else moves, whose loop takes `events` and
then ends. -/
theorem run_call (outLen t : ℕ) (events : List Event)
    (ht : t = max s.tail (s.head - s.capacity.size)) (hlt : t < s.head) (hpos : 0 < outLen)
    (hslots : ∀ j e, events[j]? = some e → s.slots (s.capacity.index (t + j)) = e)
    (hloop : ∀ s₁ c, s₁.consumer = .copying c → s₁.slots = s.slots → s₁.capacity = s.capacity →
      c = ⟨t, s.head, min (s.head - t) outLen, 0, [], .zero, Field.all, false⟩ →
      ∃ c' : Copy, c'.tail = t ∧ c'.out = events ∧
        Run (Begins P) s₁ { s₁ with consumer := .copied c' }) :
    ∃ s', Run (Begins P) { s with consumer := .started outLen s.tail } s' ∧ SameProducer s s' ∧
      s'.consumer = .idle ∧ s'.tail = t + events.length ∧
      s'.batches = s.batches ++ [⟨t, events⟩] := by
  obtain ⟨s₁, henter, hsame, hbatches, hc⟩ := run_enter (P := P) outLen t ht hlt hpos
  obtain ⟨c', rfl, rfl, hcopy⟩ := hloop s₁ _ hc hsame.slots hsame.capacity rfl
  have hreturn := run_return (P := P) (s := { s₁ with consumer := .copied c' }) rfl
    (by simp only [hsame.head, hsame.capacity]; omega)
  refine ⟨_, (henter.trans hcopy).trans hreturn, ?_, rfl, rfl, by simp only [hbatches]⟩
  exact ⟨hsame.capacity, hsame.slots, hsame.head, hsame.cached, hsame.producer, hsame.ops,
    hsame.terminal⟩

/-- A call that fills its batch. -/
theorem run_consume (outLen t : ℕ) (events : List Event) (hidle : s.consumer = .idle)
    (ht : t = max s.tail (s.head - s.capacity.size)) (hlt : t < s.head) (hpos : 0 < outLen)
    (hlen : events.length = min (s.head - t) outLen)
    (hslots : ∀ j e, events[j]? = some e → s.slots (s.capacity.index (t + j)) = e)
    (hscan : (scan events.length 0 0 events).isSome = true) :
    ∃ s', Run (Begins P) s s' ∧ SameProducer s s' ∧ s'.consumer = .idle ∧
      s'.tail = t + events.length ∧ s'.batches = s.batches ++ [⟨t, events⟩] := by
  obtain ⟨s', hrun, hrest⟩ := run_call (P := P) outLen t events ht hlt hpos hslots (by
    rintro s₁ c hc hmem hcap rfl
    obtain rfl | ⟨init, last, rfl⟩ := List.eq_nil_or_concat' events
    · simp only [List.length_nil] at hlen
      omega
    obtain ⟨r', hr'⟩ := Option.isSome_iff_exists.mp hscan
    rw [scan_append, Option.bind_eq_some_iff] at hr'
    obtain ⟨r, hinit, hlast⟩ := hr'
    simp only [scan, Option.bind_eq_some_iff] at hlast
    obtain ⟨r', hlast, -⟩ := hlast
    rw [hlen] at hinit hlast
    simp only [List.length_append, List.length_singleton] at hlen
    obtain ⟨c, htail, hlimit, hout, hrt, htodo, hinitRun⟩ := run_prefix (P := P) hc rfl
      (by simp only [List.length_nil]; omega)
      (by
        intro j e he
        rw [hmem, hcap]
        exact hslots j e (by rw [List.getElem?_append_left (List.getElem?_eq_some_iff.mp he).choose, he]))
      hinit
    simp only [List.nil_append] at hout
    simp only at htail hlimit
    obtain ⟨c', htail', hout', hlastRun⟩ := run_last (P := P)
      (s := { s₁ with consumer := .copying c }) rfl htodo (e := last)
      (by
        simp only [htail, hout, hmem, hcap]
        exact hslots init.length last (by simp))
      (.inl ⟨r', by rw [hlimit, hout, hrt, ← Nat.zero_add init.length]; exact hlast,
        by rw [hlimit, hout]; omega, rfl⟩)
    exact ⟨c', htail'.trans htail, by rw [hout', hout], hinitRun.trans hlastRun⟩)
  refine ⟨s', Reach.trans (.next .start (l := .call outLen) trivial ?_) hrun, hrest⟩
  simp only [step, State.call, hidle, if_pos hpos]

/-- A call that ends at a run that does not fit. -/
theorem run_stop (outLen t : ℕ) (events : List Event)
    (ht : t = max s.tail (s.head - s.capacity.size)) (hlt : t < s.head)
    (hlen : events.length < min (s.head - t) outLen)
    (hslots : ∀ j e, events[j]? = some e → s.slots (s.capacity.index (t + j)) = e) {r : ℕ}
    (hscan : scan (min (s.head - t) outLen) 0 0 events = some r) {e : Event}
    (he : s.slots (s.capacity.index (t + events.length)) = e)
    (hstop : runTailAfter (min (s.head - t) outLen) events.length r e = none) :
    ∃ s', Run (Begins P) { s with consumer := .started outLen s.tail } s' ∧ SameProducer s s' ∧
      s'.consumer = .idle ∧ s'.tail = t + events.length ∧
      s'.batches = s.batches ++ [⟨t, events⟩] := by
  apply run_call outLen t events ht hlt (by omega) hslots
  rintro s₁ c hc hmem hcap rfl
  obtain ⟨c, htail, hlimit, hout, hrt, htodo, hrun⟩ := run_prefix (P := P) hc rfl
    (by simpa using hlen) (by rw [hmem, hcap]; exact hslots) hscan
  simp only [List.nil_append] at hout
  simp only at htail hlimit
  obtain ⟨c', htail', hout', hlast⟩ := run_last (P := P) (s := { s₁ with consumer := .copying c })
    rfl htodo (e := e) (by simp only [htail, hout, hmem, hcap]; exact he)
    (.inr ⟨by rw [hlimit, hout, hrt]; exact hstop, rfl⟩)
  exact ⟨c', htail'.trans htail, hout'.trans hout, hrun.trans hlast⟩

end Loop

end Rtmap.Ring
