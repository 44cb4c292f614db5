import Rtmap.Engine.ChildIds
import Rtmap.Ring.Delivery
import Rtmap.Ring.Discovery

/-!
# Retirement of children

The engine reads a child's control page and rings through an orchestrator, which
`discover` removes once the process is gone and enough drains in a row have found
nothing. A call carries the steps that the traced processes take meanwhile, so a
run has every interleaving of discoveries and drains with registrations, polls and
the two sides of every ring.
-/
namespace Rtmap.Engine
open Rtmap.Ring Transition SwapRemove

def BATCH_SIZE : ℕ := 4096

/-- A traced process: the thread table of its control page and, by name, its rings
and whether a batch has been taken from them that the producer had overrun. -/
structure TracedProcess where
  table : Discovery.State := .init
  rings : List UInt8 → Ring.State
  overrun : List UInt8 → Bool := fun _ => false
  exited : Bool := false

/-- A `RingOrchestrator`, its control page apart. -/
structure Orchestrator where
  knownCount : ℕ := 0
  rings : List Discovery.ThreadRing := []
  rrIdx : ℕ := 0

/-- The second head check accepts a batch that was overrun. -/
def acceptsOverrun : Ring.Label → Ring.State → Bool
  | .recheck, r =>
      match r.consumer with
      | .copied c => decide (r.head - c.tail ≤ r.capacity.size) && c.overrun
      | _ => false
  | _, _ => false

/-- Some step of the trace does. -/
def overruns : List Ring.Label → Ring.State → Bool
  | [], _ => false
  | l :: ls, r =>
      acceptsOverrun l r ||
        match Ring.step l r with
        | some r' => overruns ls r'
        | none => false

/-- Steps of threads, which a process that is gone does not take. -/
def isThread : Discovery.Label → Bool
  | .start _ _ | .advance _ | .die _ => true
  | .poll | .engine | .retire _ => false

/-- Steps within a poll. -/
def duringPoll (exited : Bool) (l : Discovery.Label) : Bool :=
  match l with
  | .engine => true
  | _ => isThread l && !exited

/-- Steps within a call of `consume_batch`, after its first. -/
def duringCall (exited : Bool) (l : Ring.Label) : Bool :=
  match l with
  | .call _ | .retire => false
  | _ => !(l.isProducer && exited)

/-- One call of `consume_batch`, with the events it returns. -/
def consumeBatch (outLen : ℕ) (ls : List Ring.Label) (name : List UInt8) (q : TracedProcess) :
    Option (TracedProcess × List Event) :=
  if ls.all (duringCall q.exited) then
    (exec Ring.step (.call outLen :: ls) (q.rings name)).bind fun r =>
      match r.consumer with
      | .idle =>
          some ({ q with
            rings := Function.update q.rings name r
            overrun := Function.update q.overrun name
              (q.overrun name || overruns (.call outLen :: ls) (q.rings name)) },
            (r.batches.drop (q.rings name).batches.length).flatMap Batch.events)
      | _ => none
  else none

namespace Orchestrator

/-- `poll_new_rings`. -/
def pollNewRings (ls : List Discovery.Label) (q : TracedProcess) (o : Orchestrator) :
    Option (TracedProcess × Orchestrator) :=
  if ls.all (duringPoll q.exited) then
    (exec Discovery.step (.poll :: ls)
      { q.table with knownCount := o.knownCount, rings := o.rings, poll := .idle }).bind fun t =>
      if t.poll = .idle then
        some ({ q with table := t }, { o with knownCount := t.knownCount, rings := t.rings })
      else none
  else none

/-- A ring that is terminal and drained is no longer alive. -/
def lastGasp (i : ℕ) (r : Ring.State) (o : Orchestrator) : Orchestrator :=
  if r.terminal && r.head == r.tail then
    { o with rings := o.rings.modify i fun x => { x with alive := false } }
  else o

/-- The turns of `batch_drain` at the rings of the places listed. -/
def drainRings (limit : ℕ) (meanwhile : ℕ → List Ring.Label) :
    List ℕ → TracedProcess → Orchestrator → Option (TracedProcess × Orchestrator × List Event)
  | [], q, o => some (q, o, [])
  | i :: is, q, o =>
      o.rings[i]?.bind fun ring =>
        (consumeBatch limit (meanwhile i) ring.name q).bind fun x =>
          (drainRings limit meanwhile is x.1 (o.lastGasp i (x.1.rings ring.name))).map fun y =>
            (y.1, y.2.1, x.2 ++ y.2.2)

/-- `batch_drain` of an orchestrator. -/
def batchDrain (perRing : ℕ) (meanwhile : ℕ → List Ring.Label) (q : TracedProcess)
    (o : Orchestrator) : Option (TracedProcess × Orchestrator × List Event) :=
  let n := o.rings.length
  if n = 0 then some (q, o, [])
  else
    (drainRings (min perRing BATCH_SIZE) meanwhile
      ((List.range n).map fun offset => (o.rrIdx + offset) % n) q o).map fun x =>
        (x.1, { x.2.1 with rrIdx := (x.2.1.rrIdx + 1) % max n 1 }, x.2.2)

end Orchestrator

namespace ChildWatch

/-- The processes that a discovery removes. -/
def removed (d : Discovery) (w : ChildWatch) : List ℕ :=
  (sweep (fun x => ChildTracker.retires d x.1) (w.attached d)).2.map Prod.snd

end ChildWatch

/-- The tracker, the traced processes, the orchestrators by the order in which they
were attached, and the processes as they were when their orchestrator was removed. -/
structure Family where
  watch : ChildWatch := {}
  process : ℕ → TracedProcess
  orchestrator : ℕ → Orchestrator := fun _ => {}
  retired : List TracedProcess := []

/-- Calls of the tracker with the steps taken meanwhile, and steps between calls. -/
inductive FamilyLabel where
  | rootPid (pid : UInt32)
  | fork (pid : UInt32)
  | thread (p : ℕ) (l : Discovery.Label)
  | ring (p : ℕ) (name : List UInt8) (l : Ring.Label)
  | exit (p : ℕ)
  | discover (d : Discovery) (polls : ℕ → List Discovery.Label)
  | drain (limit : ℕ) (meanwhile : ℕ → ℕ → List Ring.Label)

namespace Family

def init (spin : Bool) : Family where
  process _ := { rings := fun _ => .init THREAD_RING_CAPACITY spin }

def setProcess (s : Family) (p : ℕ) (q : TracedProcess) : Family :=
  { s with process := Function.update s.process p q }

def setOrchestrator (s : Family) (k : ℕ) (o : Orchestrator) : Family :=
  { s with orchestrator := Function.update s.orchestrator k o }

section Calls
-- orchestrator `k` has the control page of process `page k`
variable (page : ℕ → ℕ)

/-- The polls at the end of a discovery, of the orchestrators in their places. -/
def pollAll (polls : ℕ → List Discovery.Label) : List ℕ → Family → Option Family
  | [], s => some s
  | k :: ks, s =>
      ((s.orchestrator k).pollNewRings (polls k) (s.process (page k))).bind fun x =>
        pollAll polls ks ((s.setProcess (page k) x.1).setOrchestrator k x.2)

/-- The drains of the orchestrators in their places, with what each returns. -/
def drainAll (limit : ℕ) (meanwhile : ℕ → ℕ → List Ring.Label) :
    ℕ → List ℕ → Family → Option (Family × List (List Event))
  | _, [], s => some (s, [])
  | total, k :: ks, s =>
      if total ≥ limit then some (s, [])
      else
        ((s.orchestrator k).batchDrain (limit - total) (meanwhile k) (s.process (page k))).bind fun x =>
          (drainAll limit meanwhile (total + x.2.2.length) ks
            ((s.setProcess (page k) x.1).setOrchestrator k x.2.1)).map fun y => (y.1, x.2.2 :: y.2)

/-- The processes that a discovery finds gone have exited. -/
def sees (d : Discovery) (s : Family) : Bool :=
  (s.watch.attached d).all fun x =>
    match x.1.pid with
    | some pid => !d.gone pid || (s.process (page x.2)).exited
    | none => true

def step : FamilyLabel → Family → Option Family
  | .rootPid pid, s => some { s with watch := s.watch.apply (.rootPid pid) }
  | .fork pid, s => some { s with watch := s.watch.apply (.fork pid) }
  | .thread p l, s =>
      let q := s.process p
      if isThread l && !q.exited then
        (Discovery.step l q.table).map fun t => s.setProcess p { q with table := t }
      else none
  | .ring p name l, s =>
      let q := s.process p
      if l.isProducer && !q.exited then
        (Ring.step l (q.rings name)).map fun r =>
          s.setProcess p { q with rings := Function.update q.rings name r }
      else none
  | .exit p, s => some (s.setProcess p { s.process p with exited := true })
  | .discover d polls, s =>
      if s.sees page d then
        (s.pollAll page polls (s.watch.kept d)).map fun t => { t with
          watch := s.watch.apply (.discover d)
          retired := s.retired ++ (s.watch.removed d).map fun k => s.process (page k) }
      else none
  | .drain limit meanwhile, s =>
      (s.drainAll page limit meanwhile 0 s.watch.processes).map fun x => { x.1 with
        watch := s.watch.apply (.drain limit fun ci => x.2.getD ci []) }

end Calls

end Family

/-- A batch holds the event written for the index. -/
def HandedOut (r : Ring.State) (p : ℕ) : Prop :=
  ∃ b ∈ r.batches, ∃ j w, b.start + j = p ∧ r.entry p = some w ∧ b.events[j]? = some w.event

/-- The registration has given the thread its slot, which names the ring. -/
def Registered (x : Discovery.Registration) : Bool :=
  match x.stage with
  | .done _ | .exited _ => true
  | _ => false

namespace TracedProcess

/-- Every event published to a registered ring has been returned. -/
def Returned (q : TracedProcess) : Prop :=
  ∀ x ∈ q.table.threads, Registered x → ∀ p < (q.rings x.name.bytes).head,
    HandedOut (q.rings x.name.bytes) p

/-- No registered ring holds published events or has been found lapped. -/
def Drained (q : TracedProcess) : Prop :=
  ∀ x ∈ q.table.threads, Registered x →
    (q.rings x.name.bytes).tail = (q.rings x.name.bytes).head ∧
      (q.rings x.name.bytes).lappedEvents = 0

/-- No overrun batch has been taken from a registered ring. -/
def Untorn (q : TracedProcess) : Prop :=
  ∀ x ∈ q.table.threads, Registered x → q.overrun x.name.bytes = false

instance : DecidablePred Drained := fun q => by
  unfold Drained
  infer_instance

instance : DecidablePred Untorn := fun q => by
  unfold Untorn
  infer_instance

end TracedProcess

/-- No process that has been retired has left an event behind. -/
def Family.Returned (s : Family) : Prop := ∀ q ∈ s.retired, q.Returned

/-- A discovery removes only orchestrators whose process has drained rings. -/
def Settled (page : ℕ → ℕ) : FamilyLabel → Family → Prop
  | .discover d _, s =>
      ∀ k ∈ s.watch.removed d, (s.process (page k)).Drained ∧ (s.process (page k)).Untorn
  | _, _ => True

instance (page : ℕ → ℕ) (l : FamilyLabel) (s : Family) : Decidable (Settled page l s) := by
  cases l <;> unfold Settled <;> infer_instance

/-- What a ring between two calls keeps. -/
structure Resting (r : Ring.State) (torn : Bool) : Prop where
  idle : r.consumer = .idle
  produced : Produced r
  consumed : Consumed r
  sound : torn = false → Sound r

section Rings

variable {r r' : Ring.State}

theorem resting_init (capacity : Capacity) (spin : Bool) : Resting (.init capacity spin) false :=
  ⟨rfl, produced_init capacity spin, consumed_init capacity spin, fun _ => sound_init capacity spin⟩

theorem noOverrun_of_not_accepts {l : Ring.Label} (h : acceptsOverrun l r = false) :
    NoOverrun l r := by
  cases l with
  | recheck =>
      intro c hc hle
      simpa [acceptsOverrun, hc, hle] using h
  | _ => trivial

theorem consumed_step {l : Ring.Label} (hp : Produced r) (hc : Consumed r)
    (hs : Ring.step l r = some r') : Consumed r' := by
  cases hl : l.isProducer with
  | true => exact hc.of_producer (sameConsumer_of_step hl hs) (hp.advances hs).head
  | false => exact hc.step hl hs

theorem consumed_exec {ls : List Ring.Label} (h : exec Ring.step ls r = some r')
    (hp : Produced r) (hc : Consumed r) : Produced r' ∧ Consumed r' := by
  refine exec_invariant (I := fun u => Produced u ∧ Consumed u) h ⟨hp, hc⟩ ?_
  rintro l u v ⟨hu, hu'⟩ hs
  exact ⟨hu.step hs, consumed_step hu hu' hs⟩

/-- A trace that accepts no overrun batch keeps deliveries exact. -/
theorem sound_exec {ls : List Ring.Label} (h : exec Ring.step ls r = some r') (hsound : Sound r)
    (hok : overruns ls r = false) : Sound r' := by
  induction ls generalizing r with
  | nil =>
      obtain rfl := Option.some.inj h
      exact hsound
  | cons l ls ih =>
      obtain ⟨u, hu, hrest⟩ := Option.bind_eq_some_iff.mp h
      rw [overruns, hu, Bool.or_eq_false_iff] at hok
      exact ih hrest (hsound.step (noOverrun_of_not_accepts hok.1) hu) hok.2

/-- The producer's steps between calls. -/
theorem Resting.producer {torn : Bool} {l : Ring.Label} (h : Resting r torn)
    (hl : l.isProducer = true) (hs : Ring.step l r = some r') : Resting r' torn := by
  refine ⟨?_, h.produced.step hs, consumed_step h.produced h.consumed hs, fun htorn => ?_⟩
  · rw [(sameConsumer_of_step hl hs).consumer]
    exact h.idle
  · refine (h.sound htorn).step ?_ hs
    cases l with
    | recheck => cases hl
    | _ => trivial

/-- Between calls the tail separates what has been passed from what has not, and
what has been passed is in a batch or counted as lapped. -/
theorem Resting.lost_tail {torn : Bool} (h : Resting r torn) :
    Ring.lost r.batches r.tail = r.lappedEvents := by
  have hlapped := h.consumed.lapped
  rwa [State.position, h.idle] at hlapped

theorem Resting.handedOut_of_lt {torn : Bool} (h : Resting r torn) (htorn : torn = false)
    (hlapped : r.lappedEvents = 0) {p : ℕ} (hp : p < r.tail) : HandedOut r p := by
  have hcount := h.lost_tail
  rw [hlapped, Ring.lost, Nat.count_iff_forall_not] at hcount
  obtain ⟨b, hb, hle, hlt⟩ := not_not.mp (hcount p hp)
  have hj : p - b.start < b.events.length := by omega
  have hstart : b.start + (p - b.start) = p := by omega
  obtain ⟨w, hw, hevent⟩ :=
    (h.sound htorn).faithful b hb (p - b.start) _ (List.getElem?_eq_getElem hj)
  refine ⟨b, hb, p - b.start, w, hstart, ?_, ?_⟩
  · rwa [hstart] at hw
  · rw [List.getElem?_eq_getElem hj, hevent]

theorem HandedOut.covered {p : ℕ} (h : HandedOut r p) : Covered r.batches p := by
  obtain ⟨b, hb, j, w, rfl, -, hj⟩ := h
  have hlt := (List.getElem?_eq_some_iff.mp hj).choose
  exact ⟨b, hb, by omega, by omega⟩

/-- Everything published has been returned exactly when nothing is left and nothing
has been skipped. -/
theorem Resting.handedOut_iff {torn : Bool} (h : Resting r torn) (htorn : torn = false) :
    (∀ p < r.head, HandedOut r p) ↔ r.tail = r.head ∧ r.lappedEvents = 0 := by
  have hle := h.consumed.tail_le
  constructor
  · intro hall
    have htail : r.tail = r.head := by
      refine hle.eq_of_not_lt fun hlt => ?_
      obtain ⟨b, hb, -, hin⟩ := (hall r.tail hlt).covered
      have hbelow := h.consumed.below b hb
      omega
    refine ⟨htail, ?_⟩
    rw [← h.lost_tail, Ring.lost, Nat.count_iff_forall_not]
    intro p hp hnot
    exact hnot (hall p (htail ▸ hp)).covered
  · rintro ⟨htail, hlapped⟩ p hp
    exact h.handedOut_of_lt htorn hlapped (htail ▸ hp)

end Rings

/-- All rings of a process are between two calls. -/
def TracedProcess.Resting (q : TracedProcess) : Prop :=
  ∀ name, Engine.Resting (q.rings name) (q.overrun name)

section Calls

variable {q q' : TracedProcess} {o o' : Orchestrator}

theorem TracedProcess.Resting.returned_iff (h : q.Resting) (huntorn : q.Untorn) :
    q.Returned ↔ q.Drained := by
  refine forall_congr' fun x => forall_congr' fun hx => forall_congr' fun hreg => ?_
  exact (h x.name.bytes).handedOut_iff (huntorn x hx hreg)

theorem resting_consumeBatch {outLen : ℕ} {ls : List Ring.Label} {name : List UInt8}
    {evs : List Event} (hq : q.Resting) (h : consumeBatch outLen ls name q = some (q', evs)) :
    q'.Resting := by
  unfold consumeBatch at h
  split at h
  · obtain ⟨r, hr, hidle⟩ := Option.bind_eq_some_iff.mp h
    split at hidle
    · rename_i hconsumer
      cases hidle
      intro other
      by_cases hname : other = name
      · subst hname
        obtain ⟨hp, hc⟩ := consumed_exec hr (hq other).produced (hq other).consumed
        simp only [Function.update_self]
        refine ⟨hconsumer, hp, hc, fun htorn => ?_⟩
        rw [Bool.or_eq_false_iff] at htorn
        exact sound_exec hr ((hq other).sound htorn.1) htorn.2
      · simp only [Function.update_of_ne hname]
        exact hq other
    · cases hidle
  · cases h

theorem resting_drainRings {limit : ℕ} {meanwhile : ℕ → List Ring.Label} {is : List ℕ}
    {evs : List Event} (hq : q.Resting)
    (h : Orchestrator.drainRings limit meanwhile is q o = some (q', o', evs)) : q'.Resting := by
  induction is generalizing q o evs with
  | nil =>
      cases h
      exact hq
  | cons i is ih =>
      obtain ⟨ring, -, h⟩ := Option.bind_eq_some_iff.mp h
      obtain ⟨⟨u, front⟩, hcall, h⟩ := Option.bind_eq_some_iff.mp h
      obtain ⟨⟨v, w, rest⟩, hrest, heq⟩ := Option.map_eq_some_iff.mp h
      cases heq
      exact ih (resting_consumeBatch hq hcall) hrest

theorem resting_batchDrain {perRing : ℕ} {meanwhile : ℕ → List Ring.Label} {evs : List Event}
    (hq : q.Resting) (h : o.batchDrain perRing meanwhile q = some (q', o', evs)) :
    q'.Resting := by
  simp only [Orchestrator.batchDrain] at h
  split at h
  · cases h
    exact hq
  · obtain ⟨⟨u, v, rest⟩, hrings, heq⟩ := Option.map_eq_some_iff.mp h
    cases heq
    exact resting_drainRings hq hrings

/-- A poll reads the table alone. -/
theorem resting_pollNewRings {ls : List Discovery.Label} (hq : q.Resting)
    (h : o.pollNewRings ls q = some (q', o')) : q'.Resting := by
  unfold Orchestrator.pollNewRings at h
  split at h
  · obtain ⟨t, -, h⟩ := Option.bind_eq_some_iff.mp h
    split at h
    · cases h
      exact hq
    · cases h
  · cases h

end Calls

namespace Family

variable {page : ℕ → ℕ} {s t : Family}

/-- All rings of all processes are between two calls. -/
def Resting (s : Family) : Prop := ∀ p, (s.process p).Resting

theorem Resting.set (h : s.Resting) {q : TracedProcess} (hq : q.Resting) (p : ℕ) :
    (s.setProcess p q).Resting := by
  intro p'
  by_cases hp : p' = p
  · subst hp
    simpa only [setProcess, Function.update_self] using hq
  · simpa only [setProcess, Function.update_of_ne hp] using h p'

theorem Resting.turn (h : s.Resting) {q : TracedProcess} (hq : q.Resting) (p k : ℕ)
    (o : Orchestrator) : ((s.setProcess p q).setOrchestrator k o).Resting :=
  h.set hq p

theorem Resting.pollAll {polls : ℕ → List Discovery.Label} {ks : List ℕ} (h : s.Resting)
    (hs : s.pollAll page polls ks = some t) : t.Resting := by
  induction ks generalizing s with
  | nil =>
      obtain rfl := Option.some.inj hs
      exact h
  | cons k ks ih =>
      obtain ⟨⟨q, o⟩, hpoll, hrest⟩ := Option.bind_eq_some_iff.mp hs
      exact ih (h.turn (resting_pollNewRings (h (page k)) hpoll) (page k) k o) hrest

theorem Resting.drainAll {limit total : ℕ} {meanwhile : ℕ → ℕ → List Ring.Label} {ks : List ℕ}
    {batches : List (List Event)} (h : s.Resting)
    (hs : s.drainAll page limit meanwhile total ks = some (t, batches)) : t.Resting := by
  induction ks generalizing s total batches with
  | nil =>
      cases hs
      exact h
  | cons k ks ih =>
      rw [Family.drainAll] at hs
      split at hs
      · cases hs
        exact h
      · obtain ⟨⟨q, o, evs⟩, hdrain, hs⟩ := Option.bind_eq_some_iff.mp hs
        obtain ⟨⟨u, rest⟩, hrest, heq⟩ := Option.map_eq_some_iff.mp hs
        cases heq
        exact ih (h.turn (resting_batchDrain (h (page k)) hdrain) (page k) k o) hrest

/-- A drain retires nothing. -/
theorem retired_drainAll {limit total : ℕ} {meanwhile : ℕ → ℕ → List Ring.Label} {ks : List ℕ}
    {batches : List (List Event)} (hs : s.drainAll page limit meanwhile total ks = some (t, batches)) :
    t.retired = s.retired := by
  induction ks generalizing s total batches with
  | nil =>
      cases hs
      rfl
  | cons k ks ih =>
      rw [Family.drainAll] at hs
      split at hs
      · cases hs
        rfl
      · obtain ⟨⟨q, o, evs⟩, hdrain, hs⟩ := Option.bind_eq_some_iff.mp hs
        obtain ⟨⟨u, rest⟩, hrest, heq⟩ := Option.map_eq_some_iff.mp hs
        cases heq
        exact (ih hrest).trans rfl

theorem Resting.step {l : FamilyLabel} (h : s.Resting) (hs : Family.step page l s = some t) :
    t.Resting := by
  cases l with
  | rootPid pid | fork pid =>
      obtain rfl := Option.some.inj hs
      exact h
  | thread p l =>
      simp only [Family.step] at hs
      split at hs
      · obtain ⟨table, -, rfl⟩ := Option.map_eq_some_iff.mp hs
        refine h.set ?_ p
        exact h p
      · cases hs
  | ring p name l =>
      simp only [Family.step] at hs
      split at hs
      · rename_i hl
        obtain ⟨r, hr, rfl⟩ := Option.map_eq_some_iff.mp hs
        refine h.set (fun other => ?_) p
        by_cases hname : other = name
        · subst hname
          simpa only [Function.update_self] using
            (h p other).producer (Bool.and_eq_true_iff.mp hl).1 hr
        · simpa only [Function.update_of_ne hname] using h p other
      · cases hs
  | exit p =>
      obtain rfl := Option.some.inj hs
      refine h.set ?_ p
      exact h p
  | discover d polls =>
      simp only [Family.step] at hs
      split at hs
      · obtain ⟨u, hu, rfl⟩ := Option.map_eq_some_iff.mp hs
        have hpolled : u.Resting := h.pollAll hu
        exact hpolled
      · cases hs
  | drain limit meanwhile =>
      obtain ⟨⟨u, batches⟩, hu, rfl⟩ := Option.map_eq_some_iff.mp hs
      have hdrained : u.Resting := h.drainAll hu
      exact hdrained

/-- A discovery retires the processes of the orchestrators that it removes. -/
theorem retired_discover {d : Discovery} {polls : ℕ → List Discovery.Label}
    (hs : Family.step page (.discover d polls) s = some t) :
    t.retired = s.retired ++ (s.watch.removed d).map fun k => s.process (page k) := by
  simp only [Family.step] at hs
  split at hs
  · obtain ⟨u, -, rfl⟩ := Option.map_eq_some_iff.mp hs
    rfl
  · cases hs

theorem returned_discover {d : Discovery} {polls : ℕ → List Discovery.Label} (h : s.Returned)
    (hs : Family.step page (.discover d polls) s = some t) :
    t.Returned ↔ ∀ k ∈ s.watch.removed d, (s.process (page k)).Returned := by
  rw [Family.Returned, retired_discover hs, List.forall_mem_append, List.forall_mem_map]
  exact and_iff_right h

/-- Nothing else retires a process. -/
theorem retired_eq {l : FamilyLabel} (hs : Family.step page l s = some t)
    (hl : ∀ d polls, l ≠ .discover d polls) : t.retired = s.retired := by
  cases l with
  | rootPid pid | fork pid | exit p =>
      obtain rfl := Option.some.inj hs
      rfl
  | thread p l | ring p name l =>
      simp only [Family.step] at hs
      split at hs
      · obtain ⟨_, -, rfl⟩ := Option.map_eq_some_iff.mp hs
        rfl
      · cases hs
  | discover d polls => exact absurd rfl (hl d polls)
  | drain limit meanwhile =>
      obtain ⟨⟨u, batches⟩, hu, rfl⟩ := Option.map_eq_some_iff.mp hs
      have hretired : u.retired = s.retired := retired_drainAll hu
      exact hretired

theorem Returned.step {l : FamilyLabel} (h : s.Returned) (hrest : s.Resting)
    (hok : Settled page l s) (hs : Family.step page l s = some t) : t.Returned := by
  cases l with
  | discover d polls =>
      refine (returned_discover h hs).mpr fun k hk => ?_
      have hsettled : (s.process (page k)).Drained ∧ (s.process (page k)).Untorn := hok k hk
      obtain ⟨hdrained, huntorn⟩ := hsettled
      exact ((hrest (page k)).returned_iff huntorn).mpr hdrained
  | _ =>
      rw [Family.Returned, retired_eq hs (by simp)]
      exact h

theorem resting_init (spin : Bool) : (init spin).Resting := fun _ _ =>
  Engine.resting_init THREAD_RING_CAPACITY spin

end Family

/-- While the rings of every process retired are drained and were never lapped or
overrun, no process retired leaves an event behind; and a discovery that removes no
process with an overrun ring leaves none exactly if those rings are. -/
theorem retirement_loses_nothing {page : ℕ → ℕ} {spin : Bool} {s : Family}
    (h : Reach (Family.step page) (Settled page) (.init spin) s) :
    s.Returned ∧ ∀ d polls t, Family.step page (.discover d polls) s = some t →
      (∀ k ∈ s.watch.removed d, (s.process (page k)).Untorn) →
        (t.Returned ↔ ∀ k ∈ s.watch.removed d, (s.process (page k)).Drained) := by
  have hkept : s.Resting ∧ s.Returned := by
    refine h.invariant (I := fun u => u.Resting ∧ u.Returned)
      ⟨Family.resting_init spin, by simp [Family.Returned, Family.init]⟩ ?_
    rintro l u v ⟨hrest, hret⟩ hok hs
    exact ⟨hrest.step hs, hret.step hrest hok hs⟩
  obtain ⟨hrest, hret⟩ := hkept
  refine ⟨hret, fun d polls t hs huntorn => ?_⟩
  rw [Family.returned_discover hret hs]
  exact forall_congr' fun k => forall_congr' fun hk => (hrest (page k)).returned_iff (huntorn k hk)

/-- A discovery that finds the child gone. -/
def finding (pid : UInt32) : Discovery where
  gone p := p == pid

/-- The ring of the child's only thread. -/
def childRing : List UInt8 := (Discovery.nameOf 1).bytes

/-- A child with one thread is attached and its ring opened. -/
def attachChild : List FamilyLabel :=
  .fork 2 :: Discovery.registerFirst.map (.thread 0) ++
    [.discover (attaching [2]) fun _ => List.replicate 6 .engine]

/-- The thread stores once and publishes the event. -/
def storeOnce : List FamilyLabel :=
  (Label.beginOp (plainWrite 0) :: storeSlot ++ [Label.flush]).map (.ring 0 childRing)

def drainEvent : FamilyLabel :=
  .drain 4096 fun _ _ => .loadHead :: readSlot ++ [.recheck, .commit]

def idleDrains : List FamilyLabel := List.replicate 150 (.drain 4096 fun _ _ => [.loadHead])

/-- The child exits and is retired. -/
def exitChild : List FamilyLabel := [.exit 0, .discover (finding 2) fun _ => []]

/-- What a process retired had published in the child's ring and what of it is in a
batch, with the rings registered. -/
def TracedProcess.account (q : TracedProcess) : List (List UInt8) × ℕ × ℕ :=
  ((q.table.threads.filter Registered).map (·.name.bytes), (q.rings childRing).head,
    (q.rings childRing).batches.length)

/-- The event is drained while the child lives, and 150 drains find nothing more. -/
theorem drained_child_loses_nothing :
    ∃ s, Reach (Family.step id) (Settled id) (.init false) s ∧
      s.retired.map TracedProcess.account = [([childRing], 1, 1)] ∧ s.Returned := by
  have hrun : ((exec (guarded (Family.step id) (Settled id))
      (attachChild ++ storeOnce ++ drainEvent :: idleDrains ++ exitChild) (.init false)).map fun s =>
        s.retired.map TracedProcess.account) = some [([childRing], 1, 1)] := by
    decide +kernel
  obtain ⟨s, hs, hretired⟩ := Option.map_eq_some_iff.mp hrun
  have hreach : Reach (Family.step id) (Settled id) (.init false) s := .of_guarded hs
  exact ⟨s, hreach, hretired, (retirement_loses_nothing hreach).1⟩

/-- The child is idle for 150 drains, stores once and exits: it is retired before the
next drain, with the event still in its ring. -/
theorem late_event_is_lost :
    ∃ s, exec (Family.step id) (attachChild ++ idleDrains ++ storeOnce ++ exitChild) (.init false) =
        some s ∧
      s.retired.map TracedProcess.account = [([childRing], 1, 0)] ∧ ¬ s.Returned := by
  have hrun : ((exec (Family.step id) (attachChild ++ idleDrains ++ storeOnce ++ exitChild)
      (.init false)).map fun s => s.retired.map TracedProcess.account) =
        some [([childRing], 1, 0)] := by
    decide +kernel
  obtain ⟨s, hs, hretired⟩ := Option.map_eq_some_iff.mp hrun
  refine ⟨s, hs, hretired, fun h => ?_⟩
  obtain ⟨q, hq, haccount⟩ := List.mem_map.mp
    (show ([childRing], 1, 0) ∈ s.retired.map TracedProcess.account by simp [hretired])
  simp only [TracedProcess.account, Prod.mk.injEq, List.length_eq_zero_iff] at haccount
  obtain ⟨hregistered, hhead, hbatches⟩ := haccount
  obtain ⟨x, hx, hname⟩ := List.mem_map.mp
    (show childRing ∈ (q.table.threads.filter Registered).map (·.name.bytes) by simp [hregistered])
  obtain ⟨hmem, hreg⟩ := List.mem_filter.mp hx
  obtain ⟨b, hb, -⟩ := h q hq x hmem hreg 0 (by rw [hname, hhead]; exact Nat.one_pos)
  rw [hname, hbatches] at hb
  cases hb

end Rtmap.Engine
