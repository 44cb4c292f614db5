import Rtmap.Ring.Delivery

/-!
# Accounting for one ring

`consume_batch` as a function of what it reads: the published head twice and the slots
in between. A call reports a lap when it finds the tail more than a capacity behind,
before the copy or after it, and every index that the tail passes is delivered or lapped.
-/
namespace Rtmap.Ring

/-- What one call of `consume_batch` reads: the head before the copy, the slot of each
turn of the loop, and the head behind it. -/
structure Call where
  outLen : ℕ
  head : ℕ
  slot : ℕ → Event
  head2 : ℕ

/-- What the calls on a ring update. -/
structure Cursor where
  capacity : Capacity
  tail : ℕ
  lappedEvents : ℕ := 0
  lapEpisodes : ℕ := 0

namespace Cursor

def recordLap (lost : ℕ) (r : Cursor) : Cursor :=
  { r with lappedEvents := r.lappedEvents + lost, lapEpisodes := r.lapEpisodes + 1 }

/-- The first resynchronization, with the position `t` it leaves. -/
def resync (head : ℕ) (r : Cursor) : Cursor × ℕ :=
  if r.capacity.size < head - r.tail then
    (r.recordLap (head - r.capacity.size - r.tail), head - r.capacity.size)
  else (r, r.tail)

/-- The copy from turn `n` on, `left` turns before the limit. -/
def copy (slot : ℕ → Event) (limit : ℕ) : (left n runTail : ℕ) → List Event
  | 0, _, _ => []
  | left + 1, n, runTail =>
      match runTailAfter limit n runTail (slot n) with
      | none => []
      | some r => slot n :: copy slot limit left (n + 1) r

/-- The end of a call: discard the batch and skip what was lapped meanwhile, or keep it. -/
def finish (t head2 : ℕ) (out : List Event) (r : Cursor) : Cursor × List Event :=
  if r.capacity.size < head2 - t then
    ({ r.recordLap (head2 - r.capacity.size - t) with tail := head2 - r.capacity.size }, [])
  else ({ r with tail := t + out.length }, out)

/-- The number of slots that a call copies at most. -/
def limit (c : Call) (r : Cursor) : ℕ := min (c.head - (r.resync c.head).2) c.outLen

def consumeBatch (c : Call) (r : Cursor) : Cursor × List Event :=
  let s := r.resync c.head
  if r.limit c = 0 then (s.1, [])
  else s.1.finish s.2 c.head2 (copy c.slot (r.limit c) (r.limit c) 0 0)

/-- The last head that a call reads. -/
def lastHead (c : Call) (r : Cursor) : ℕ := if r.limit c = 0 then c.head else c.head2

end Cursor

/-- A ring behind some calls, with the events they delivered and the last head read. -/
structure Drained where
  ring : Cursor
  events : List Event := []
  lastHead : ℕ

namespace Drained

def call (s : Drained) (c : Call) : Drained where
  ring := (s.ring.consumeBatch c).1
  events := s.events ++ (s.ring.consumeBatch c).2
  lastHead := s.ring.lastHead c

def calls (cs : List Call) (s : Drained) : Drained := cs.foldl call s

/-- A ring as the engine opens it. -/
def opened (capacity : Capacity) (tail : ℕ) : Drained where
  ring := { capacity := capacity, tail := tail }
  lastHead := tail

end Drained

/-- The heads of the calls, in the order they are read. -/
def Call.heads (cs : List Call) : List ℕ := cs.flatMap fun c => [c.head, c.head2]

namespace Cursor
variable {c : Call} {r : Cursor} {t head count : ℕ}

theorem length_copy_le (slot : ℕ → Event) (limit left n runTail : ℕ) :
    (copy slot limit left n runTail).length ≤ left := by
  induction left generalizing n runTail with
  | zero => exact Nat.zero_le _
  | succ left ih =>
      unfold copy
      split
      · exact Nat.zero_le _
      · exact Nat.succ_le_succ (ih _ _)

/-- The position does not go back and is at most a capacity behind the head, and what
was skipped is counted. -/
theorem resync_spec (h : r.tail ≤ head) :
    (r.resync head).1.capacity = r.capacity ∧ (r.resync head).1.tail = r.tail ∧
      (r.resync head).1.lappedEvents + r.tail = r.lappedEvents + (r.resync head).2 ∧
        r.tail ≤ (r.resync head).2 ∧ (r.resync head).2 ≤ head ∧
          ((r.resync head).2 = r.tail ∨ (r.resync head).2 < head) := by
  have hpos := r.capacity.size_pos
  unfold resync
  split
  · refine ⟨rfl, rfl, ?_, ?_, ?_, ?_⟩
    · simp only [recordLap]
      omega
    · dsimp only
      omega
    · dsimp only
      omega
    · dsimp only
      omega
  · exact ⟨rfl, rfl, rfl, le_rfl, h, .inl rfl⟩

theorem finish_spec {head2 : ℕ} {out : List Event} (h : t + out.length ≤ head2)
    (hcount : r.lappedEvents + r.tail = count + t) (hle : r.tail ≤ t) :
    (r.finish t head2 out).1.tail ≤ head2 ∧ r.tail ≤ (r.finish t head2 out).1.tail ∧
      (r.finish t head2 out).2.length + (r.finish t head2 out).1.lappedEvents + r.tail =
        count + (r.finish t head2 out).1.tail := by
  unfold finish
  split
  · simp only [recordLap, List.length_nil]
    omega
  · dsimp only
    omega

/-- One call: the tail grows by what is delivered and what is lapped, up to the last
head read at most. -/
theorem consumeBatch_spec (hlen : 0 < c.outLen) (htail : r.tail ≤ c.head)
    (hheads : c.head ≤ c.head2) :
    r.tail ≤ (r.consumeBatch c).1.tail ∧ (r.consumeBatch c).1.tail ≤ r.lastHead c ∧
      (r.consumeBatch c).2.length + (r.consumeBatch c).1.lappedEvents + r.tail =
        r.lappedEvents + (r.consumeBatch c).1.tail := by
  obtain ⟨hcap, hsame, hcount, hle, hhead, hmoved⟩ := resync_spec htail
  unfold consumeBatch lastHead
  split
  · rename_i hnone
    -- nothing is there: the first resynchronization has not moved the position either
    have hstay : (r.resync c.head).2 = r.tail := by
      rcases hmoved with hstay | hbehind
      · exact hstay
      · rw [limit] at hnone
        omega
    dsimp only
    rw [hsame, List.length_nil]
    exact ⟨le_rfl, htail, by omega⟩
  · have hcopied := length_copy_le c.slot (r.limit c) (r.limit c) 0 0
    have hlimit : r.limit c ≤ c.head - (r.resync c.head).2 := Nat.min_le_left _ _
    have hroom : (r.resync c.head).2 +
        (copy c.slot (r.limit c) (r.limit c) 0 0).length ≤ c.head2 := by omega
    obtain ⟨hle2, hge, htotal⟩ := finish_spec hroom (by rw [hsame]; exact hcount)
      (by rw [hsame]; exact hle)
    rw [hsame] at hge htotal
    exact ⟨hge, hle2, htotal⟩

/-- The count of lapped events never goes back. -/
theorem lappedEvents_le (c : Call) (r : Cursor) :
    r.lappedEvents ≤ (r.consumeBatch c).1.lappedEvents := by
  have hresync : r.lappedEvents ≤ (r.resync c.head).1.lappedEvents := by
    unfold resync
    split
    · exact Nat.le_add_right _ _
    · exact le_rfl
  have hfinish (t head2 : ℕ) (out : List Event) (r : Cursor) :
      r.lappedEvents ≤ (r.finish t head2 out).1.lappedEvents := by
    unfold finish
    split
    · exact Nat.le_add_right _ _
    · exact le_rfl
  unfold consumeBatch
  split
  · exact hresync
  · exact hresync.trans (hfinish _ _ _ _)

end Cursor

namespace Drained
variable {s : Drained} {start : ℕ}

theorem calls_append (front rest : List Call) (s : Drained) :
    s.calls (front ++ rest) = (s.calls front).calls rest := List.foldl_append

/-- Every index from `start` to the tail is delivered or lapped. -/
structure Balanced (start : ℕ) (s : Drained) : Prop where
  tail_le : s.ring.tail ≤ s.lastHead
  balance : s.events.length + s.ring.lappedEvents + start = s.ring.tail

theorem balanced_opened (capacity : Capacity) (tail : ℕ) :
    (opened capacity tail).Balanced tail where
  tail_le := le_rfl
  balance := Nat.zero_add tail

theorem Balanced.call {c : Call} (h : s.Balanced start) (hlen : 0 < c.outLen)
    (hlast : s.lastHead ≤ c.head) (hheads : c.head ≤ c.head2) :
    (s.call c).Balanced start ∧ s.ring.tail ≤ (s.call c).ring.tail ∧
      (s.call c).lastHead ≤ c.head2 := by
  obtain ⟨hle, hlast', hcount⟩ := Cursor.consumeBatch_spec hlen (h.tail_le.trans hlast) hheads
  have hbalance := h.balance
  refine ⟨⟨hlast', ?_⟩, hle, ?_⟩
  · simp only [Drained.call, List.length_append]
    omega
  · simp only [Drained.call, Cursor.lastHead]
    split
    · exact hheads
    · exact le_rfl

/-- Along the calls the tail grows and the balance is kept. What bounds all heads bounds
the last one read. -/
theorem Balanced.calls {cs : List Call} (h : s.Balanced start) (hlen : ∀ c ∈ cs, 0 < c.outLen)
    (hheads : (s.lastHead :: Call.heads cs).Pairwise (· ≤ ·)) :
    (s.calls cs).Balanced start ∧ s.ring.tail ≤ (s.calls cs).ring.tail ∧
      ∀ bound, (∀ x ∈ s.lastHead :: Call.heads cs, x ≤ bound) → (s.calls cs).lastHead ≤ bound := by
  induction cs generalizing s with
  | nil => exact ⟨h, le_rfl, fun bound hbound => hbound _ List.mem_cons_self⟩
  | cons c cs ih =>
      obtain ⟨hlast, hsorted⟩ := List.pairwise_cons.mp hheads
      obtain ⟨hfirst, hrest⟩ := List.pairwise_cons.mp hsorted
      have hpair : c.head ≤ c.head2 := hfirst _ List.mem_cons_self
      obtain ⟨hbalanced, hle, hnext⟩ :=
        h.call (hlen c List.mem_cons_self) (hlast _ List.mem_cons_self) hpair
      have hchain : ((s.call c).lastHead :: Call.heads cs).Pairwise (· ≤ ·) := by
        obtain ⟨hsecond, htail⟩ := List.pairwise_cons.mp hrest
        exact List.pairwise_cons.mpr ⟨fun x hx => hnext.trans (hsecond x hx), htail⟩
      obtain ⟨hdone, hgrown, hbounded⟩ :=
        ih hbalanced (fun d hd => hlen d (List.mem_cons_of_mem c hd)) hchain
      refine ⟨hdone, hle.trans hgrown, fun bound hbound => hbounded bound fun x hx => ?_⟩
      rcases List.mem_cons.mp hx with rfl | hx
      · exact hnext.trans (hbound _ (by simp [Call.heads]))
      · exact hbound x (by simp only [Call.heads, List.flatMap_cons] at hx ⊢; simp [hx])

end Drained

/-- Whatever heads and slots its calls read, a ring's tail never moves back or past the
last head read, and what is delivered and lapped makes up its advance. -/
theorem ring_accounting (capacity : Capacity) (start : ℕ) (cs : List Call)
    (hlen : ∀ c ∈ cs, 0 < c.outLen) (hheads : (start :: Call.heads cs).Pairwise (· ≤ ·)) :
    let s := (Drained.opened capacity start).calls cs
    (∀ front, front <+: cs →
      ((Drained.opened capacity start).calls front).ring.tail ≤ s.ring.tail) ∧
    s.ring.tail ≤ s.lastHead ∧
    s.events.length + s.ring.lappedEvents = s.ring.tail - start ∧
    ∀ head, s.lastHead ≤ head → head ≤ s.ring.tail →
      s.events.length + s.ring.lappedEvents = head - start := by
  have hopened := Drained.balanced_opened capacity start
  obtain ⟨hbalanced, -⟩ := hopened.calls hlen hheads
  have htail := hbalanced.tail_le
  have hbalance := hbalanced.balance
  refine ⟨?_, htail, by omega, fun head hlast hdrained => by omega⟩
  rintro front ⟨rest, rfl⟩
  rw [Call.heads, List.flatMap_append, ← List.cons_append] at hheads
  obtain ⟨hfront, hrest, hacross⟩ := List.pairwise_append.mp hheads
  obtain ⟨hreached, -, hbounded⟩ :=
    hopened.calls (fun c hc => hlen c (List.mem_append_left rest hc)) hfront
  have hchain := List.pairwise_cons.mpr
    ⟨fun x hx => hbounded x fun y hy => hacross y hy x hx, hrest⟩
  have hgrown := (hreached.calls (fun c hc => hlen c (List.mem_append_right front hc)) hchain).2.1
  rwa [← Drained.calls_append] at hgrown

/-- Two calls of a ring of four slots, each lapped before its copy, the second one behind
it too. -/
def lappedCalls : List Call := [⟨8, 6, fun _ => .zero, 6⟩, ⟨8, 15, fun _ => .zero, 20⟩]

theorem lapped_calls_balance :
    let s := (Drained.opened ⟨4, ⟨2, rfl⟩, by decide⟩ 0).calls lappedCalls
    s.events.length = 4 ∧ s.ring.lappedEvents = 12 ∧ s.ring.tail = 16 ∧
      s.events.length + s.ring.lappedEvents = s.ring.tail - 0 := by
  refine ⟨by decide, by decide, by decide, ?_⟩
  exact (ring_accounting ⟨4, ⟨2, rfl⟩, by decide⟩ 0 lappedCalls (by decide) (by decide)).2.2.1

section Steps
variable {s s' : State} {c : Copy} {r : Cursor} {seen : List ℕ}

/-- What the calls see of a ring. -/
def State.cursor (s : State) : Cursor := ⟨s.capacity, s.tail, s.lappedEvents, s.lapEpisodes⟩

/-- A copy under way is that of any slots which go on from those read. -/
def Copy.Reads (c : Copy) : Prop :=
  ∀ slot : ℕ → Event, (∀ i e, c.out[i]? = some e → slot i = e) →
    Cursor.copy slot c.limit c.limit 0 0 =
      c.out ++ Cursor.copy slot c.limit (c.limit - c.out.length) c.out.length c.runTail

/-- The locals of a call that found the ring at `r` and the heads `seen` before. -/
structure Copy.Entered (c : Copy) (s : State) (r : Cursor) (seen : List ℕ) (outLen : ℕ) : Prop where
  nonempty : 0 < outLen
  head_le : c.head ≤ s.head
  seen_le : ∀ x ∈ seen, x ≤ c.head
  resync : r.resync c.head = (s.cursor, c.tail)
  limit : c.limit = min (c.head - c.tail) outLen
  pos : 0 < c.limit

/-- Where a call of the ring's steps stands, of a ring that it found at `r`. -/
def Consumer.Underway (s : State) (r : Cursor) (seen : List ℕ) : Consumer → Prop
  | .idle => s.cursor = r
  | .started outLen t => s.cursor = r ∧ t = s.tail ∧ 0 < outLen
  | .copying c => (∃ outLen, c.Entered s r seen outLen) ∧ c.out.length < c.limit ∧ c.Reads
  | .copied c => (∃ outLen, c.Entered s r seen outLen) ∧
      ∃ slot, Cursor.copy slot c.limit c.limit 0 0 = c.out
  | .storing newTail batch => ∃ call : Call, 0 < call.outLen ∧ (∀ x ∈ seen, x ≤ call.head) ∧
      call.head ≤ call.head2 ∧ call.head2 ≤ s.head ∧
        r.consumeBatch call = ({ s.cursor with tail := newTail }, batch.toList.flatMap Batch.events)

/-- Some calls have brought the ring where it is. -/
structure Called (cs : List Call) (s : State) : Prop where
  nonempty : ∀ c ∈ cs, 0 < c.outLen
  sorted : (Call.heads cs).Pairwise (· ≤ ·)
  bounded : ∀ x ∈ Call.heads cs, x ≤ s.head
  events : ((Drained.opened s.capacity 0).calls cs).events = s.batches.flatMap Batch.events
  pc : s.consumer.Underway s ((Drained.opened s.capacity 0).calls cs).ring (Call.heads cs)

/-- The slot that ends the loop is read and not taken. -/
theorem Copy.Reads.stop (h : c.Reads) (hlt : c.out.length < c.limit)
    (hnone : c.nextRunTail = none) : ∃ slot, Cursor.copy slot c.limit c.limit 0 0 = c.out := by
  refine ⟨fun i => (c.out ++ [c.cur]).getD i .zero, ?_⟩
  have hread : ∀ i e, c.out[i]? = some e → (c.out ++ [c.cur]).getD i .zero = e := by
    intro i e he
    have hi := (List.getElem?_eq_some_iff.mp he).choose
    rw [List.getD_eq_getElem?_getD, List.getElem?_append_left hi, he, Option.getD_some]
  have hcur : (c.out ++ [c.cur]).getD c.out.length .zero = c.cur := by simp
  rw [h _ hread, show c.limit - c.out.length = c.limit - c.out.length - 1 + 1 by omega,
    Cursor.copy, hcur]
  rw [Copy.nextRunTail] at hnone
  rw [hnone, List.append_nil]

/-- A slot taken is the next one of the copy. -/
theorem Copy.Reads.push {runTail : ℕ} (h : c.Reads) (hlt : c.out.length < c.limit)
    (hsome : c.nextRunTail = some runTail) : (c.push runTail).Reads := by
  intro slot hslot
  have hbefore : ∀ i e, c.out[i]? = some e → slot i = e := by
    intro i e he
    have hi := (List.getElem?_eq_some_iff.mp he).choose
    exact hslot i e (by rw [Copy.push, List.getElem?_append_left hi, he])
  have hcur : slot c.out.length = c.cur := hslot _ _ (by simp [Copy.push])
  have hstep := h slot hbefore
  rw [show c.limit - c.out.length = c.limit - (c.out.length + 1) + 1 by omega, Cursor.copy, hcur]
    at hstep
  rw [Copy.nextRunTail] at hsome
  rw [hsome] at hstep
  simpa [Copy.push] using hstep

theorem Copy.Reads.done {runTail : ℕ} (h : (c.push runTail).Reads)
    (hlast : c.limit ≤ c.out.length + 1) :
    ∃ slot, Cursor.copy slot c.limit c.limit 0 0 = (c.push runTail).out := by
  refine ⟨fun i => (c.push runTail).out.getD i .zero, ?_⟩
  have hread := h (fun i => (c.push runTail).out.getD i .zero) fun i e he => by
    rw [List.getD_eq_getElem?_getD, he, Option.getD_some]
  have hlen : (c.push runTail).out.length = c.out.length + 1 := by simp [Copy.push]
  rw [hlen, show (c.push runTail).limit - (c.out.length + 1) = 0 by simp [Copy.push]; omega,
    Cursor.copy, List.append_nil] at hread
  exact hread

theorem Copy.Entered.mono {outLen : ℕ} (h : c.Entered s r seen outLen)
    (hcursor : s'.cursor = s.cursor) (hhead : s.head ≤ s'.head) : c.Entered s' r seen outLen where
  nonempty := h.nonempty
  head_le := h.head_le.trans hhead
  seen_le := h.seen_le
  resync := hcursor ▸ h.resync
  limit := h.limit
  pos := h.pos

theorem Consumer.Underway.mono {k : Consumer} (h : k.Underway s r seen)
    (hcursor : s'.cursor = s.cursor) (hhead : s.head ≤ s'.head) : k.Underway s' r seen := by
  have htail : s'.tail = s.tail := congrArg Cursor.tail hcursor
  cases k with
  | idle => exact hcursor.trans h
  | started outLen t => exact ⟨hcursor.trans h.1, h.2.1.trans htail.symm, h.2.2⟩
  | copying c =>
      obtain ⟨⟨outLen, hentered⟩, hrest⟩ := h
      exact ⟨⟨outLen, hentered.mono hcursor hhead⟩, hrest⟩
  | copied c =>
      obtain ⟨⟨outLen, hentered⟩, hrest⟩ := h
      exact ⟨⟨outLen, hentered.mono hcursor hhead⟩, hrest⟩
  | storing newTail batch =>
      obtain ⟨call, hlen, hseen, hpair, hle, hbatch⟩ := h
      exact ⟨call, hlen, hseen, hpair, hle.trans hhead, hcursor ▸ hbatch⟩

/-- A step that ends no call. -/
theorem Called.same {cs : List Call} (h : Called cs s) (hcapacity : s'.capacity = s.capacity)
    (hhead : s.head ≤ s'.head) (hbatches : s'.batches = s.batches)
    (hpc : s'.consumer.Underway s' ((Drained.opened s.capacity 0).calls cs).ring
      (Call.heads cs)) : Called cs s' where
  nonempty := h.nonempty
  sorted := h.sorted
  bounded := fun x hx => (h.bounded x hx).trans hhead
  events := by rw [hcapacity, hbatches, h.events]
  pc := by rw [hcapacity]; exact hpc

/-- The last step of a call. -/
theorem Called.append {cs : List Call} {call : Call} (h : Called cs s)
    (hcapacity : s'.capacity = s.capacity) (hidle : s'.consumer = .idle)
    (hlen : 0 < call.outLen) (hseen : ∀ x ∈ Call.heads cs, x ≤ call.head)
    (hpair : call.head ≤ call.head2) (hhead : call.head2 ≤ s'.head) {events : List Event}
    (hbatches : s'.batches.flatMap Batch.events = s.batches.flatMap Batch.events ++ events)
    (hcall : ((Drained.opened s.capacity 0).calls cs).ring.consumeBatch call =
      (s'.cursor, events)) : Called (cs ++ [call]) s' where
  nonempty := fun c hc => by
    rcases List.mem_append.mp hc with hc | hc
    · exact h.nonempty c hc
    · exact List.mem_singleton.mp hc ▸ hlen
  sorted := by
    rw [Call.heads, List.flatMap_append]
    refine List.pairwise_append.mpr ⟨h.sorted, by simpa using hpair, fun x hx y hy => ?_⟩
    rcases (by simpa using hy : y = call.head ∨ y = call.head2) with rfl | rfl
    · exact hseen x hx
    · exact (hseen x hx).trans hpair
  bounded := fun x hx => by
    rw [Call.heads, List.flatMap_append] at hx
    rcases List.mem_append.mp hx with hx | hx
    · exact ((hseen x hx).trans hpair).trans hhead
    · rcases (by simpa using hx : x = call.head ∨ x = call.head2) with rfl | rfl
      · exact hpair.trans hhead
      · exact hhead
  events := by
    rw [hcapacity, Drained.calls_append, hbatches, ← h.events]
    exact congrArg _ (congrArg Prod.snd hcall)
  pc := by
    rw [hidle, hcapacity, Drained.calls_append]
    exact (congrArg Prod.fst hcall).symm

/-- Loading the head ends a call that finds nothing and starts the copy otherwise. -/
theorem Called.enter {cs : List Call} {outLen t : ℕ} (h : Called cs s) (hlen : 0 < outLen)
    (hcapacity : s'.capacity = s.capacity) (hhead : s'.head = s.head)
    (hbatches : s'.batches = s.batches) (hconsumer : s'.consumer = .enter t s.head outLen)
    (hresync : ((Drained.opened s.capacity 0).calls cs).ring.resync s.head = (s'.cursor, t)) :
    ∃ cs', Called cs' s' := by
  by_cases hnone : min (s.head - t) outLen = 0
  · rw [Consumer.enter, if_pos hnone] at hconsumer
    let call : Call := ⟨outLen, s.head, fun _ => .zero, s.head⟩
    have hcall : ((Drained.opened s.capacity 0).calls cs).ring.consumeBatch call =
        (s'.cursor, []) := by
      rw [Cursor.consumeBatch, Cursor.limit, hresync, if_pos hnone]
    exact ⟨cs ++ [call], h.append hcapacity hconsumer hlen h.bounded le_rfl hhead.ge
      (by rw [hbatches, List.append_nil]) hcall⟩
  · rw [Consumer.enter, if_neg hnone] at hconsumer
    refine ⟨cs, h.same hcapacity hhead.ge hbatches ?_⟩
    rw [hconsumer]
    refine ⟨⟨outLen, hlen, hhead.ge, h.bounded, hresync, rfl, by dsimp only; omega⟩,
      by dsimp only; rw [List.length_nil]; omega, fun slot _ => rfl⟩

/-- What the second load of the head makes of a copy. -/
theorem Copy.Entered.consumeBatch {outLen : ℕ} {slot : ℕ → Event}
    (h : c.Entered s r seen outLen) (hslot : Cursor.copy slot c.limit c.limit 0 0 = c.out)
    (head2 : ℕ) : r.consumeBatch ⟨outLen, c.head, slot, head2⟩ =
      s.cursor.finish c.tail head2 c.out := by
  have hlimit : r.limit ⟨outLen, c.head, slot, head2⟩ = c.limit := by
    rw [Cursor.limit, h.resync, h.limit]
  have hpos := h.pos
  rw [Cursor.consumeBatch, if_neg (by rw [hlimit]; omega), hlimit, h.resync, ← hslot]

theorem Called.step {cs : List Call} {l : Label} (h : Called cs s) (hl : l.isProducer = false)
    (hs : Ring.step l s = some s') : ∃ cs', Called cs' s' := by
  have hpc := h.pc
  cases l with
  | beginOp | loadTail | storeField | finishSlot | flush | exit => simp [Label.isProducer] at hl
  | call outLen =>
      obtain ⟨hc, hpos, rfl⟩ := State.call_cases hs
      rw [hc] at hpc
      exact ⟨cs, h.same rfl le_rfl rfl ⟨hpc, rfl, hpos⟩⟩
  | loadHead =>
      obtain ⟨outLen, t, hc, hcase⟩ := State.loadHead_cases hs
      rw [hc] at hpc
      obtain ⟨hring, rfl, hlen⟩ := hpc
      rcases hcase with ⟨hlap, rfl⟩ | ⟨hlap, rfl⟩
      · refine h.enter hlen rfl rfl rfl rfl ?_
        rw [← hring, Cursor.resync, if_pos (by exact hlap)]
        rfl
      · refine h.enter hlen rfl rfl rfl rfl ?_
        rw [← hring, Cursor.resync, if_neg (by exact Nat.not_lt.mpr hlap)]
        rfl
  | readField f =>
      obtain ⟨c, hc, -, rfl⟩ := State.readField_cases hs
      rw [hc] at hpc
      obtain ⟨⟨outLen, hentered⟩, hlt, hreads⟩ := hpc
      refine ⟨cs, h.same rfl le_rfl rfl ⟨⟨outLen, ?_⟩, hlt, hreads⟩⟩
      exact ⟨hentered.nonempty, hentered.head_le, hentered.seen_le, hentered.resync,
        hentered.limit, hentered.pos⟩
  | takeSlot =>
      obtain ⟨c, hc, -, hcase⟩ := State.takeSlot_cases hs
      rw [hc] at hpc
      obtain ⟨⟨outLen, hentered⟩, hlt, hreads⟩ := hpc
      have hpushed (r : ℕ) : (c.push r).Entered s ((Drained.opened s.capacity 0).calls cs).ring
          (Call.heads cs) outLen :=
        ⟨hentered.nonempty, hentered.head_le, hentered.seen_le, hentered.resync, hentered.limit,
          hentered.pos⟩
      rcases hcase with ⟨hnone, rfl⟩ | ⟨r, hsome, ⟨hmore, rfl⟩ | ⟨hlast, rfl⟩⟩
      · exact ⟨cs, h.same rfl le_rfl rfl ⟨⟨outLen, hentered.mono rfl le_rfl⟩, hreads.stop hlt hnone⟩⟩
      · refine ⟨cs, h.same rfl le_rfl rfl
          ⟨⟨outLen, (hpushed r).mono rfl le_rfl⟩, ?_, hreads.push hlt hsome⟩⟩
        simpa [Copy.push] using hmore
      · exact ⟨cs, h.same rfl le_rfl rfl
          ⟨⟨outLen, (hpushed r).mono rfl le_rfl⟩, (hreads.push hlt hsome).done hlast⟩⟩
  | recheck =>
      obtain ⟨c, hc, hcase⟩ := State.recheck_cases hs
      rw [hc] at hpc
      obtain ⟨⟨outLen, hentered⟩, slot, hslot⟩ := hpc
      have hcall := hentered.consumeBatch hslot s.head
      rcases hcase with ⟨hlap, rfl⟩ | ⟨hlap, rfl⟩
      · refine ⟨cs, h.same rfl le_rfl rfl ⟨⟨outLen, c.head, slot, s.head⟩, hentered.nonempty,
          hentered.seen_le, hentered.head_le, le_rfl, ?_⟩⟩
        rw [hcall, Cursor.finish, if_pos (by exact hlap)]
        rfl
      · refine ⟨cs, h.same rfl le_rfl rfl ⟨⟨outLen, c.head, slot, s.head⟩, hentered.nonempty,
          hentered.seen_le, hentered.head_le, le_rfl, ?_⟩⟩
        rw [hcall, Cursor.finish, if_neg (by exact Nat.not_lt.mpr hlap)]
        simp [State.cursor]
  | commit =>
      obtain ⟨newTail, batch, hc, rfl⟩ := State.commit_cases hs
      rw [hc] at hpc
      obtain ⟨call, hlen, hseen, hpair, hle, hbatch⟩ := hpc
      exact ⟨_, h.append rfl rfl hlen hseen hpair hle List.flatMap_append hbatch⟩
  | retire =>
      obtain ⟨hc, rfl⟩ := State.retire_cases hs
      exact ⟨cs, h.same rfl le_rfl rfl (hpc.mono rfl le_rfl)⟩

/-- The ring's steps, interleaved with its thread's, make up calls of `consumeBatch`. -/
theorem Run.exists_calls {capacity : Capacity} {spin : Bool} {ok : Label → State → Prop}
    (h : Run ok (State.init capacity spin) s) : ∃ cs, Called cs s := by
  have hboth : Produced s ∧ ∃ cs, Called cs s := by
    refine h.invariant (I := fun s => Produced s ∧ ∃ cs, Called cs s) ⟨produced_init capacity spin,
      [], by simp, .nil, by simp [Call.heads], rfl, rfl⟩ fun l u v hu _ hs => ?_
    obtain ⟨hproduced, cs, hcalled⟩ := hu
    refine ⟨hproduced.step hs, ?_⟩
    cases hl : l.isProducer with
    | false => exact hcalled.step hl hs
    | true =>
        have e := sameConsumer_of_step hl hs
        have hhead := (hproduced.advances hs).head
        have hcursor : v.cursor = u.cursor := by
          simp only [State.cursor, e.capacity, e.tail, e.lappedEvents, e.lapEpisodes]
        refine ⟨cs, hcalled.same e.capacity hhead e.batches ?_⟩
        rw [e.consumer]
        exact hcalled.pc.mono hcursor hhead
  exact hboth.2

/-- Between its calls a ring has delivered or counted as lapped every index below its tail. -/
theorem Run.accounting {capacity : Capacity} {spin : Bool} {ok : Label → State → Prop}
    (h : Run ok (State.init capacity spin) s) (hidle : s.consumer = .idle) :
    (s.batches.flatMap Batch.events).length + s.lappedEvents = s.tail := by
  obtain ⟨cs, hcalled⟩ := Run.exists_calls h
  have hpc := hcalled.pc
  rw [hidle] at hpc
  have hbalance := ((Drained.balanced_opened s.capacity 0).calls hcalled.nonempty
    (List.pairwise_cons.mpr ⟨fun x _ => Nat.zero_le x, hcalled.sorted⟩)).1.balance
  rw [hcalled.events, ← hpc] at hbalance
  exact hbalance

end Steps

end Rtmap.Ring
