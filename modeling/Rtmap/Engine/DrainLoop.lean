import Rtmap.Lib.RoundRobin
import Rtmap.Engine.RecordReplay
import Rtmap.Engine.Retirement
import Rtmap.Ring.Accounting

/-!
# Draining to the end

The inner loops of `run_headless` and of `run` while the producers rest. A pass takes a batch
from each ring of the root and then of the children. The headless loop ends with all rings
empty, or with its budget spent. The interactive one ends with the first pass in which the
root has nothing, before the children have their turn.
-/
namespace Rtmap.Engine
open Rtmap.Ring RoundRobin

/-! ## Whole runs -/

/-- A run, as `consume_batch` measures it by its first slot. -/
def IsRun : List Event → Prop
  | [] => False
  | e :: rest => rest.length + 1 = runLength e

/-- Slots that are one run after the other. -/
def Runs (es : List Event) : Prop := ∃ us : List (List Event), (∀ u ∈ us, IsRun u) ∧ us.flatten = es

section Runs

theorem runs_nil : Runs [] := ⟨[], fun _ h => absurd h List.not_mem_nil, rfl⟩

theorem runs_append (es fs : List Event) (hes : Runs es) (hfs : Runs fs) : Runs (es ++ fs) := by
  obtain ⟨us, hus, rfl⟩ := hes
  obtain ⟨vs, hvs, rfl⟩ := hfs
  refine ⟨us ++ vs, fun u hu => ?_, List.flatten_append⟩
  rcases List.mem_append.mp hu with h | h
  · exact hus u h
  · exact hvs u h

theorem runLength_le (e : Event) : runLength e ≤ 8 := by
  rw [runLength]
  split
  · decide
  · rw [Event.compoundSlots]
    split
    · decide
    · exact Nat.min_le_right _ _

theorem IsRun.ne_nil {u : List Event} (h : IsRun u) : u ≠ [] := by
  rintro rfl
  exact h

theorem IsRun.length_le {u : List Event} (h : IsRun u) : u.length ≤ 8 := by
  cases u with
  | nil => exact Nat.zero_le _
  | cons e rest =>
      rw [List.length_cons, show rest.length + 1 = runLength e from h]
      exact runLength_le e

end Runs

/-! ## The copy of a batch -/

section Copy
variable {slot : ℕ → Event} {limit n : ℕ} {e : Event} {u : List Event}

/-- A run is entered if it fits. -/
theorem runTailAfter_start (hpos : 0 < runLength e) (hn : n < limit) :
    runTailAfter limit n 0 e =
      if limit < n + runLength e then none else some (runLength e - 1) := by
  have hle := runLength_le e
  rw [runTailAfter, if_pos rfl]
  rw [runLength] at hpos hle ⊢
  split
  · rfl
  · rename_i hkind
    rw [if_neg hkind] at hpos hle
    split
    · rw [show (e.compoundSlots + 255) % 256 = e.compoundSlots - 1 by omega]
    · rename_i hplain
      have hone : e.compoundSlots = 1 := by
        rw [Event.compoundSlots, if_pos (by simpa using hplain)]
      rw [hone, if_neg (by omega)]

/-- The rest of a run is copied without a look. -/
theorem copy_inside (k : ℕ) : ∀ n left, k ≤ left → Cursor.copy slot limit left n k =
    (List.range k).map (fun i => slot (n + i)) ++ Cursor.copy slot limit (left - k) (n + k) 0 := by
  induction k with
  | zero => exact fun _ _ _ => rfl
  | succ k ih =>
      intro n left hleft
      obtain ⟨left, rfl⟩ := Nat.exists_eq_add_of_le' (Nat.one_le_of_lt hleft)
      have hnext : runTailAfter limit n (k + 1) (slot n) = some k := rfl
      rw [Cursor.copy, hnext]
      dsimp only
      rw [ih (n + 1) left (by omega), List.range_succ_eq_map, List.map_cons, List.map_map,
        List.cons_append, Nat.add_sub_add_right, Nat.add_right_comm n 1 k]
      have hshift : (fun i => slot (n + i)) ∘ Nat.succ = fun i => slot (n + 1 + i) := by
        funext i
        rw [Function.comp_apply, Nat.succ_eq_add_one, Nat.add_right_comm, Nat.add_assoc n i 1]
      rw [hshift]
      rfl

/-- The slots of a run from `n` on. -/
def Lies (slot : ℕ → Event) (n : ℕ) (es : List Event) : Prop :=
  ∀ i, i < es.length → es[i]? = some (slot (n + i))

theorem Lies.eq_map (h : Lies slot n u) : u = (List.range u.length).map fun i => slot (n + i) := by
  apply List.ext_getElem?
  intro i
  by_cases hi : i < u.length
  · rw [h i hi, List.getElem?_map, List.getElem?_range hi]
    rfl
  · rw [List.getElem?_eq_none (Nat.le_of_not_lt hi), List.getElem?_eq_none]
    simpa using hi

theorem Lies.left {v : List Event} (h : Lies slot n (u ++ v)) : Lies slot n u := by
  intro i hi
  rw [← List.getElem?_append_left hi]
  exact h i (by rw [List.length_append]; omega)

theorem Lies.right {v : List Event} (h : Lies slot n (u ++ v)) : Lies slot (n + u.length) v := by
  intro i hi
  have hback := h (u.length + i) (by rw [List.length_append]; omega)
  rw [List.getElem?_append_right (Nat.le_add_right _ _), Nat.add_sub_cancel_left] at hback
  rw [hback, Nat.add_assoc]

theorem copy_run (hu : IsRun u) (hlies : Lies slot n u) (hfits : n + u.length ≤ limit) :
    Cursor.copy slot limit (limit - n) n 0 =
      u ++ Cursor.copy slot limit (limit - (n + u.length)) (n + u.length) 0 := by
  cases u with
  | nil => exact hu.elim
  | cons e rest =>
      have hlength : rest.length + 1 = runLength e := hu
      rw [List.length_cons] at hfits ⊢
      have hfirst : slot n = e := (Option.some.inj (hlies 0 (Nat.succ_pos _))).symm
      have hrest : Lies slot (n + 1) rest := Lies.right (u := [e]) hlies
      obtain ⟨left, hleft⟩ : ∃ left, limit - n = left + 1 := ⟨limit - n - 1, by omega⟩
      rw [hleft, Cursor.copy, hfirst, runTailAfter_start (by omega) (by omega),
        if_neg (by omega), ← hlength, Nat.add_sub_cancel]
      dsimp only
      rw [copy_inside rest.length (n + 1) left (by omega), ← hrest.eq_map, List.cons_append,
        show left - rest.length = limit - (n + (rest.length + 1)) by omega,
        show n + 1 + rest.length = n + (rest.length + 1) by omega]

theorem copy_stop (hu : IsRun u) (hlies : Lies slot n u) (hlong : limit < n + u.length) :
    Cursor.copy slot limit (limit - n) n 0 = [] := by
  cases u with
  | nil => exact hu.elim
  | cons e rest =>
      have hlength : rest.length + 1 = runLength e := hu
      have hfirst : slot n = e := (Option.some.inj (hlies 0 (Nat.succ_pos _))).symm
      rw [List.length_cons] at hlong
      cases hleft : limit - n with
      | zero => rfl
      | succ left =>
          rw [Cursor.copy, hfirst, runTailAfter_start (by omega) (by omega), if_pos (by omega)]

/-- A batch is made of the whole runs that fit, up to the first that does not. -/
theorem copy_runs {us : List (List Event)} (hus : ∀ u ∈ us, IsRun u) : ∀ n, n ≤ limit →
    Lies slot n us.flatten → limit ≤ n + us.flatten.length → ∃ vs ws, us = vs ++ ws ∧
      Cursor.copy slot limit (limit - n) n 0 = vs.flatten ∧
        ∀ w ∈ ws.head?, limit < n + vs.flatten.length + w.length := by
  induction us with
  | nil =>
      intro n hn _ hlimit
      have hleft : limit - n = 0 := Nat.sub_eq_zero_of_le hlimit
      refine ⟨[], [], rfl, ?_, fun w hw => absurd hw (Option.not_mem_none w)⟩
      rw [hleft]
      rfl
  | cons u us ih =>
      intro n hn hlies hlimit
      have hu := hus u List.mem_cons_self
      rw [List.flatten_cons] at hlies hlimit
      rw [List.length_append] at hlimit
      by_cases hfits : n + u.length ≤ limit
      · obtain ⟨vs, ws, rfl, hcopy, hnext⟩ := ih (fun v hv => hus v (List.mem_cons_of_mem _ hv))
          (n + u.length) hfits hlies.right (by omega)
        refine ⟨u :: vs, ws, rfl, ?_, fun w hw => ?_⟩
        · rw [copy_run hu hlies.left hfits, hcopy, List.flatten_cons]
        · have hw' := hnext w hw
          rw [List.flatten_cons, List.length_append]
          omega
      · refine ⟨[], u :: us, rfl, copy_stop hu hlies.left (Nat.lt_of_not_le hfits), fun w hw => ?_⟩
        obtain rfl : u = w := Option.some.inj hw
        rw [List.flatten_nil, List.length_nil]
        omega

end Copy

/-! ## Rings at rest -/

/-- A ring of which only the engine moves a counter: `consume_batch` reads the same head and
the same slots whenever it looks. -/
structure StillRing where
  cursor : Cursor
  head : ℕ
  slots : ℕ → Event
  terminal : Bool := false
  alive : Bool := true

namespace StillRing

/-- What a call reads. -/
def call (outLen : ℕ) (r : StillRing) : Ring.Call where
  outLen := outLen
  head := r.head
  slot n := r.slots (r.cursor.capacity.index ((r.cursor.resync r.head).2 + n))
  head2 := r.head

def consume (outLen : ℕ) (r : StillRing) : StillRing × List Event :=
  let x := r.cursor.consumeBatch (r.call outLen)
  ({ r with cursor := x.1 }, x.2)

/-- The last gasp of a ring: terminal and drained, it is retired. -/
def lastGasp (r : StillRing) : StillRing :=
  if r.alive && r.terminal && r.head == r.cursor.tail then { r with alive := false } else r

/-- The turn of a ring in `batch_drain`. -/
def turn (limit : ℕ) (r : StillRing) : StillRing × List Event :=
  ((r.consume limit).1.lastGasp, (r.consume limit).2)

/-- The slots between the position that a call starts from and the head. -/
def pending (r : StillRing) : List Event :=
  (List.range (r.head - (r.cursor.resync r.head).2)).map (r.call 0).slot

section Consume
variable {r : StillRing} {us : List (List Event)}

theorem lies_pending (r : StillRing) (outLen : ℕ) : Lies (r.call outLen).slot 0 r.pending := by
  intro i hi
  rw [pending, List.length_map, List.length_range] at hi
  rw [pending, List.getElem?_map, List.getElem?_range hi, Nat.zero_add]
  rfl

theorem resync_resync (c : Cursor) (head : ℕ) :
    ((c.resync head).1.resync head).2 = (c.resync head).2 := by
  unfold Cursor.resync
  split
  · rename_i hlap
    have hlap' : (c.recordLap (head - c.capacity.size - c.tail)).capacity.size <
        head - (c.recordLap (head - c.capacity.size - c.tail)).tail := hlap
    rw [if_pos hlap']
    rfl
  · rfl

/-- From where a call starts the ring is not behind. -/
theorem sub_resync_le (c : Cursor) (head : ℕ) :
    head - (c.resync head).2 ≤ c.capacity.size := by
  unfold Cursor.resync
  split
  · dsimp only
    omega
  · dsimp only
    omega

theorem capacity_resync (c : Cursor) (head : ℕ) : (c.resync head).1.capacity = c.capacity := by
  unfold Cursor.resync
  split <;> rfl

/-- A tail that has moved on by `n` leaves what is behind the first `n` slots. -/
theorem pending_advance {c : Cursor} (hcap : c.capacity = r.cursor.capacity) {n : ℕ}
    (htail : c.tail = (r.cursor.resync r.head).2 + n) :
    ({ r with cursor := c } : StillRing).pending = r.pending.drop n := by
  have hnear : ¬ c.capacity.size < r.head - c.tail := by
    have hle := sub_resync_le r.cursor r.head
    rw [hcap, htail]
    omega
  have hstay : c.resync r.head = (c, c.tail) := by rw [Cursor.resync, if_neg hnear]
  have hslots : ∀ i,
      (({ r with cursor := c } : StillRing).call 0).slot i = (r.call 0).slot (n + i) := by
    intro i
    simp only [call, hstay, hcap, htail, Nat.add_assoc]
  apply List.ext_getElem?
  intro i
  simp only [pending, hstay, htail, List.getElem?_drop, List.getElem?_map]
  by_cases hi : n + i < r.head - (r.cursor.resync r.head).2
  · rw [List.getElem?_range (by omega), List.getElem?_range hi]
    exact congrArg some (hslots i)
  · rw [List.getElem?_eq_none (by rw [List.length_range]; omega),
      List.getElem?_eq_none (by rw [List.length_range]; omega)]
    rfl

/-- A call takes whole runs from the front, and one at least if the buffer holds eight. -/
theorem consume_spec (outLen : ℕ) (hus : ∀ u ∈ us, IsRun u) (h : us.flatten = r.pending) :
    ∃ vs ws, us = vs ++ ws ∧ (r.consume outLen).2 = vs.flatten ∧
      (r.consume outLen).1.pending = ws.flatten ∧ (8 ≤ outLen → us ≠ [] → vs ≠ []) := by
  have hlength : r.pending.length = r.head - (r.cursor.resync r.head).2 := by
    rw [pending, List.length_map, List.length_range]
  have hlimit : r.cursor.limit (r.call outLen) = min r.pending.length outLen := by
    rw [hlength]
    rfl
  by_cases hzero : r.cursor.limit (r.call outLen) = 0
  · have hcall : r.consume outLen = ({ r with cursor := (r.cursor.resync r.head).1 }, []) := by
      rw [consume, Cursor.consumeBatch, if_pos hzero]
      rfl
    refine ⟨[], us, rfl, by rw [hcall]; rfl, ?_, fun height hne => ?_⟩
    · have hsame : (({ r with cursor := (r.cursor.resync r.head).1 } : StillRing)).pending =
          r.pending := by
        simp only [pending, call, resync_resync, capacity_resync]
      rw [hcall, hsame, h]
    · have hnone : r.pending.length = 0 := by
        rw [hlimit] at hzero
        omega
      rw [← h, List.length_eq_zero_iff, List.flatten_eq_nil_iff] at hnone
      obtain ⟨u, us, rfl⟩ := List.exists_cons_of_ne_nil hne
      exact absurd (hnone u List.mem_cons_self) (hus u List.mem_cons_self).ne_nil
  · have hlies : Lies (r.call outLen).slot 0 us.flatten := h ▸ lies_pending r outLen
    have hle : r.cursor.limit (r.call outLen) ≤ 0 + us.flatten.length := by
      rw [h, hlimit, Nat.zero_add]
      exact Nat.min_le_left _ _
    obtain ⟨vs, ws, rfl, hcopy, hnext⟩ := copy_runs hus 0 (Nat.zero_le _) hlies hle
    rw [Nat.sub_zero] at hcopy
    have hnear :
        ¬ (r.cursor.resync r.head).1.capacity.size < r.head - (r.cursor.resync r.head).2 := by
      rw [capacity_resync]
      exact Nat.not_lt_of_le (sub_resync_le _ _)
    obtain ⟨c, hcap, htail, hcall⟩ : ∃ c : Cursor, c.capacity = r.cursor.capacity ∧
        c.tail = (r.cursor.resync r.head).2 + vs.flatten.length ∧
          r.consume outLen = ({ r with cursor := c }, vs.flatten) := by
      refine ⟨{ (r.cursor.resync r.head).1 with
        tail := (r.cursor.resync r.head).2 + vs.flatten.length }, capacity_resync _ _, rfl, ?_⟩
      rw [consume, Cursor.consumeBatch, if_neg hzero, hcopy]
      dsimp only
      rw [Cursor.finish, show (r.call outLen).head2 = r.head from rfl,
        show (r.call outLen).head = r.head from rfl, if_neg hnear]
    refine ⟨vs, ws, rfl, by rw [hcall], ?_, fun height _ hvs => ?_⟩
    · rw [hcall, pending_advance hcap htail, ← h, List.flatten_append, List.drop_left]
    · subst hvs
      cases ws with
      | nil =>
          rw [hlimit, ← h] at hzero
          exact hzero (Nat.zero_min _)
      | cons w ws =>
          have hlong := hnext w rfl
          have hwle := (hus w (List.mem_append_right _ List.mem_cons_self)).length_le
          have hin : w.length ≤ r.pending.length := by
            rw [← h, List.nil_append, List.flatten_cons, List.length_append]
            exact Nat.le_add_right _ _
          rw [hlimit, List.flatten_nil, List.length_nil] at hlong
          omega

theorem pending_lastGasp (r : StillRing) : r.lastGasp.pending = r.pending := by
  rw [lastGasp]
  split <;> rfl

end Consume

/-- The tail is not beyond the head, and what is pending is whole runs. -/
structure Whole (r : StillRing) : Prop where
  tail_le : r.cursor.tail ≤ r.head
  runs : Runs r.pending

/-- Nothing is pending, and a terminal ring is retired. -/
structure Settled (r : StillRing) : Prop where
  pending : r.pending = []
  retired : r.terminal = true → r.alive = false

section Turn
variable {r : StillRing} {limit : ℕ}

/-- Nothing is pending where the tail has come to the head. -/
theorem tail_eq_of_pending (htail : r.cursor.tail ≤ r.head) (h : r.pending = []) :
    r.cursor.tail = r.head := by
  have hnone : r.head - (r.cursor.resync r.head).2 = 0 := by
    rw [← List.length_range (n := r.head - (r.cursor.resync r.head).2),
      ← List.length_map (f := (r.call 0).slot)]
    exact List.length_eq_zero_iff.mpr h
  have hpos := r.cursor.capacity.size_pos
  rw [Cursor.resync] at hnone
  split at hnone
  · dsimp only at hnone
    omega
  · dsimp only at hnone
    omega

theorem tail_turn (hlimit : 0 < limit) (htail : r.cursor.tail ≤ r.head) :
    (r.turn limit).1.cursor.tail ≤ (r.turn limit).1.head := by
  have hsame : (r.turn limit).1.cursor = (r.consume limit).1.cursor ∧
      (r.turn limit).1.head = r.head := by
    rw [turn, lastGasp]
    dsimp only
    split <;> exact ⟨rfl, rfl⟩
  have hcall := (Cursor.consumeBatch_spec (c := r.call limit) hlimit htail le_rfl).2.1
  have hlast : r.cursor.lastHead (r.call limit) = r.head := ite_self _
  rw [hsame.1, hsame.2, ← hlast]
  exact hcall

/-- What a turn takes and what it leaves. -/
theorem turn_spec (h : r.Whole) (hlimit : 0 < limit) :
    (r.turn limit).2 ++ (r.turn limit).1.pending = r.pending ∧ Runs (r.turn limit).2 ∧
      (r.turn limit).1.Whole ∧ (8 ≤ limit → (r.turn limit).2 = [] → r.pending = []) := by
  obtain ⟨us, hus, hflat⟩ := h.runs
  obtain ⟨vs, ws, rfl, htaken, hleft, hmoves⟩ := consume_spec limit hus hflat
  have hpending : (r.turn limit).1.pending = ws.flatten := (pending_lastGasp _).trans hleft
  have hwhole : (r.turn limit).1.Whole :=
    ⟨tail_turn hlimit h.tail_le, ws, fun w hw => hus w (List.mem_append_right _ hw), hpending.symm⟩
  refine ⟨?_, ⟨vs, fun v hv => hus v (List.mem_append_left _ hv), htaken.symm⟩, hwhole,
    fun height hnone => ?_⟩
  · rw [hpending, ← hflat, List.flatten_append]
    exact congrArg (· ++ ws.flatten) htaken
  · rw [← hflat]
    by_contra hne
    have hvs := hmoves height (fun hus => hne (by rw [hus]; rfl))
    obtain ⟨v, vs, rfl⟩ := List.exists_cons_of_ne_nil hvs
    have hflatten : (v :: vs).flatten = [] := htaken.symm.trans hnone
    rw [List.flatten_eq_nil_iff] at hflatten
    exact (hus v List.mem_cons_self).ne_nil (hflatten v List.mem_cons_self)

/-- A terminal ring is retired by the turn that leaves nothing. -/
theorem alive_turn (hlimit : 0 < limit) (htail : r.cursor.tail ≤ r.head)
    (h : (r.turn limit).1.pending = [])
    (hterminal : r.terminal = true) : (r.turn limit).1.alive = false := by
  have hmoved := tail_eq_of_pending (tail_turn hlimit htail) h
  rw [turn, lastGasp] at hmoved ⊢
  dsimp only at hmoved ⊢
  split
  · rfl
  · rename_i hkept
    rw [if_neg hkept] at hmoved
    cases halive : (r.consume limit).1.alive with
    | false => rfl
    | true =>
        refine absurd ?_ hkept
        rw [halive, hmoved, beq_self_eq_true,
          show (r.consume limit).1.terminal = true from hterminal]
        rfl

/-- A turn that finds nothing leaves the ring settled. -/
theorem settled_turn (h : r.Whole) (hlimit : 8 ≤ limit) (hnone : (r.turn limit).2 = []) :
    (r.turn limit).1.Settled := by
  have hpos : 0 < limit := by omega
  obtain ⟨hkept, -, -, hempty⟩ := turn_spec h hpos
  have hleft : (r.turn limit).1.pending = [] := by
    rw [hnone, List.nil_append, hempty hlimit hnone] at hkept
    exact hkept
  have hterminal : (r.turn limit).1.terminal = r.terminal := by
    rw [turn, lastGasp]
    dsimp only
    split <;> rfl
  exact ⟨hleft, fun h' => alive_turn hpos h.tail_le hleft (hterminal.symm.trans h')⟩

end Turn

end StillRing

/-! ## Orchestrators and their passes -/

/-- A `RingOrchestrator` over rings at rest. -/
structure StillOrchestrator where
  rings : List StillRing := []
  rrIdx : ℕ := 0

namespace StillOrchestrator

/-- `batch_drain` of an orchestrator: the buffer holds each event with the place of its ring. -/
def batchDrain (perRing : ℕ) (o : StillOrchestrator) : StillOrchestrator × List (ℕ × Event) :=
  let n := o.rings.length
  if n = 0 then (o, [])
  else
    let x := visit (StillRing.turn (min perRing BATCH_SIZE)) (rotation o.rrIdx n) o.rings
    ({ rings := x.1, rrIdx := (o.rrIdx + 1) % max n 1 }, x.2)

def Whole (o : StillOrchestrator) : Prop := ∀ r ∈ o.rings, r.Whole

/-- What is pending in the ring at a place. -/
def pendingAt (i : ℕ) (o : StillOrchestrator) : List Event :=
  match o.rings[i]? with
  | none => []
  | some r => r.pending

/-- The number of events pending. -/
def pendingCount (o : StillOrchestrator) : ℕ := (o.rings.map fun r => r.pending.length).sum

section Drain
variable {o : StillOrchestrator} {perRing : ℕ}

theorem rings_batchDrain (o : StillOrchestrator) (perRing : ℕ) :
    (o.batchDrain perRing).1.rings =
      o.rings.map fun r => (r.turn (min perRing BATCH_SIZE)).1 := by
  rw [batchDrain]
  dsimp only
  split
  · rename_i hnone
    rw [List.length_eq_zero_iff.mp hnone]
    rfl
  · exact fst_visit_rotation

theorem ofPlace_batchDrain (o : StillOrchestrator) (perRing i : ℕ) :
    ofPlace i (o.batchDrain perRing).2 =
      yields (StillRing.turn (min perRing BATCH_SIZE)) o.rings i := by
  rw [batchDrain]
  dsimp only
  split
  · rename_i hnone
    rw [List.length_eq_zero_iff.mp hnone]
    rfl
  · exact ofPlace_visit_rotation i

theorem limit_pos (hper : 0 < perRing) : 0 < min perRing BATCH_SIZE := lt_min hper (by decide)

theorem whole_batchDrain (h : o.Whole) (hper : 0 < perRing) : (o.batchDrain perRing).1.Whole := by
  intro r hr
  rw [rings_batchDrain] at hr
  obtain ⟨q, hq, rfl⟩ := List.mem_map.mp hr
  exact (StillRing.turn_spec (h q hq) (limit_pos hper)).2.2.1

/-- The buffer cuts no run. -/
theorem runs_batchDrain (h : o.Whole) (hper : 0 < perRing) :
    Runs ((o.batchDrain perRing).2.map Prod.snd) := by
  rw [batchDrain]
  dsimp only
  split
  · exact runs_nil
  · exact snd_visit_induction runs_nil runs_append (nodup_rotation _ _) fun r hr =>
      (StillRing.turn_spec (h r hr) (limit_pos hper)).2.1

/-- Each ring gives its oldest events and keeps the others. -/
theorem pendingAt_batchDrain (h : o.Whole) (hper : 0 < perRing) (i : ℕ) :
    ofPlace i (o.batchDrain perRing).2 ++ (o.batchDrain perRing).1.pendingAt i =
      o.pendingAt i := by
  rw [ofPlace_batchDrain, pendingAt, pendingAt, rings_batchDrain, List.getElem?_map, yields]
  cases hr : o.rings[i]? with
  | none => rfl
  | some r => exact (StillRing.turn_spec (h r (List.mem_of_getElem? hr)) (limit_pos hper)).1

theorem count_batchDrain (h : o.Whole) (hper : 0 < perRing) :
    (o.batchDrain perRing).2.length + (o.batchDrain perRing).1.pendingCount = o.pendingCount := by
  have hbuffer : (o.batchDrain perRing).2.length =
      (o.rings.map fun r => (r.turn (min perRing BATCH_SIZE)).2.length).sum := by
    rw [batchDrain]
    dsimp only
    split
    · rename_i hnone
      rw [List.length_eq_zero_iff.mp hnone]
      rfl
    · exact length_snd_visit_rotation
  rw [hbuffer, pendingCount, rings_batchDrain, List.map_map, ← List.sum_map_add, pendingCount]
  refine congrArg List.sum (List.map_congr_left fun r hr => ?_)
  have hkept := (StillRing.turn_spec (h r hr) (limit_pos hper)).1
  rw [← hkept, List.length_append]
  rfl

/-- A drain that returns nothing leaves all rings settled. -/
theorem settled_batchDrain (h : o.Whole) (hper : 8 ≤ perRing)
    (hnone : (o.batchDrain perRing).2 = []) : ∀ r ∈ (o.batchDrain perRing).1.rings, r.Settled := by
  intro r hr
  rw [rings_batchDrain] at hr
  obtain ⟨q, hq, rfl⟩ := List.mem_map.mp hr
  obtain ⟨i, hi⟩ := List.getElem?_of_mem hq
  have hplace : yields (StillRing.turn (min perRing BATCH_SIZE)) o.rings i = [] := by
    rw [← ofPlace_batchDrain, hnone]
    rfl
  rw [yields, hi] at hplace
  exact StillRing.settled_turn (h q hq) (le_min hper (by decide)) hplace

end Drain

end StillOrchestrator

/-- The rings of the root and of the children, in the order of `child_orchs`. -/
structure StillEngine where
  root : StillOrchestrator := {}
  children : List StillOrchestrator := []

/-- The buffers of a pass: the root's, and what each child has added to the other one. -/
structure TickPass where
  root : List (ℕ × Event)
  children : List (List (ℕ × Event))

namespace TickPass

/-- The number of events of a pass: `got` and `child_got`. -/
def size (p : TickPass) : ℕ := p.root.length + p.children.flatten.length

/-- The children's buffer, under the ids of their places. -/
def childBuffer (p : TickPass) : List (ℕ × Event) :=
  (p.children.mapIdx fun ci buf => buf.map fun x =>
    (x.1, { x.2 with threadId := namespaceChildTid x.2.threadId ci })).flatten

/-- The pass as the session takes it. -/
def hosted (host : Host) (p : TickPass) : Session.Pass where
  root := p.root.map fun x => (host, x.2)
  children := p.childBuffer.map fun x => (host, x.2)

/-- The root has given something. -/
def rootGives (p : TickPass) : Bool := !p.root.isEmpty

/-- What comes from the root, or from the child at a place. -/
def buffer (p : TickPass) : Option ℕ → List (ℕ × Event)
  | none => p.root
  | some ci => p.children.getD ci []

end TickPass

namespace StillEngine

/-- `batch_drain` of the child tracker: what each child visited gives. -/
def drainChildren (limit : ℕ) : ℕ → List StillOrchestrator →
    List StillOrchestrator × List (List (ℕ × Event))
  | _, [] => ([], [])
  | total, co :: cos =>
      if total ≥ limit then (co :: cos, [])
      else
        let x := co.batchDrain (limit - total)
        let rest := drainChildren limit (total + x.2.length) cos
        (x.1 :: rest.1, x.2 :: rest.2)

def drainRoot (e : StillEngine) : StillEngine × List (ℕ × Event) :=
  let x := e.root.batchDrain BATCH_SIZE
  ({ e with root := x.1 }, x.2)

/-- A pass over the root and the children. -/
def pass (e : StillEngine) : StillEngine × TickPass :=
  let got := e.drainRoot
  let childGot := drainChildren BATCH_SIZE 0 e.children
  ({ got.1 with children := childGot.1 }, ⟨got.2, childGot.2⟩)

/-- The loop of `run_headless`: passes until one finds nothing or the budget is spent. -/
def headlessTick (budget tickEvents : ℕ) (e : StillEngine) : StillEngine × List TickPass :=
  if tickEvents < budget then
    let x := e.pass
    if _h : x.2.size = 0 then (x.1, [x.2])
    else
      let rest := headlessTick budget (tickEvents + x.2.size) x.1
      (rest.1, x.2 :: rest.2)
  else (e, [])
termination_by budget - tickEvents
decreasing_by
  have hpos : 0 < e.pass.2.size := Nat.pos_of_ne_zero _h
  omega

/-- The loop of `run`: it ends where the root gives nothing, before the children's turn. -/
def interactiveTick (budget tickEvents : ℕ) (e : StillEngine) : StillEngine × List TickPass :=
  if tickEvents < budget then
    let got := e.drainRoot
    if _h : got.2.length = 0 then (got.1, [])
    else
      let x := e.pass
      let rest := interactiveTick budget (tickEvents + x.2.size) x.1
      (rest.1, x.2 :: rest.2)
  else (e, [])
termination_by budget - tickEvents
decreasing_by
  have hpos : 0 < e.pass.2.size := Nat.lt_of_lt_of_le (Nat.pos_of_ne_zero _h) (Nat.le_add_right _ _)
  omega

/-- The root, or the child at a place. -/
def orchestratorAt (e : StillEngine) : Option ℕ → Option StillOrchestrator
  | none => some e.root
  | some ci => e.children[ci]?

/-- What is pending in ring `i` of the root or of a child. -/
def pendingAt (k : Option ℕ) (i : ℕ) (e : StillEngine) : List Event :=
  match e.orchestratorAt k with
  | none => []
  | some o => o.pendingAt i

structure Whole (e : StillEngine) : Prop where
  root : e.root.Whole
  children : ∀ co ∈ e.children, co.Whole

/-- No ring has anything pending, and the terminal ones are retired. -/
structure Settled (e : StillEngine) : Prop where
  root : ∀ r ∈ e.root.rings, r.Settled
  children : ∀ co ∈ e.children, ∀ r ∈ co.rings, r.Settled

def pendingCount (e : StillEngine) : ℕ :=
  e.root.pendingCount + (e.children.map StillOrchestrator.pendingCount).sum

/-- What the passes hand over of ring `i` of the root or of a child. -/
def handedAt (k : Option ℕ) (i : ℕ) (passes : List TickPass) : List Event :=
  passes.flatMap fun p => ofPlace i (p.buffer k)

/-- The number of events that the passes hand over. -/
def handedCount (passes : List TickPass) : ℕ := (passes.map TickPass.size).sum

section Children
variable {limit total : ℕ} {cos : List StillOrchestrator}

theorem whole_drainChildren (h : ∀ co ∈ cos, co.Whole) (total : ℕ) :
    ∀ co ∈ (drainChildren limit total cos).1, co.Whole := by
  induction cos generalizing total with
  | nil => exact h
  | cons co cos ih =>
      rw [drainChildren]
      split
      · exact h
      · rename_i hroom
        intro co' hco'
        rcases List.mem_cons.mp hco' with rfl | hrest
        · exact StillOrchestrator.whole_batchDrain (h co List.mem_cons_self) (by omega)
        · exact ih (fun c hc => h c (List.mem_cons_of_mem _ hc)) _ co' hrest

theorem runs_drainChildren (h : ∀ co ∈ cos, co.Whole) (total : ℕ) :
    ∀ buf ∈ (drainChildren limit total cos).2, Runs (buf.map Prod.snd) := by
  induction cos generalizing total with
  | nil => exact fun buf hbuf => absurd hbuf List.not_mem_nil
  | cons co cos ih =>
      rw [drainChildren]
      split
      · exact fun buf hbuf => absurd hbuf List.not_mem_nil
      · rename_i hroom
        intro buf hbuf
        rcases List.mem_cons.mp hbuf with rfl | hrest
        · exact StillOrchestrator.runs_batchDrain (h co List.mem_cons_self) (by omega)
        · exact ih (fun c hc => h c (List.mem_cons_of_mem _ hc)) _ buf hrest

theorem pendingAt_drainChildren (h : ∀ co ∈ cos, co.Whole) (total ci i : ℕ) :
    ofPlace i ((drainChildren limit total cos).2.getD ci []) ++
        (match (drainChildren limit total cos).1[ci]? with
          | none => []
          | some o => o.pendingAt i) =
      match cos[ci]? with
      | none => []
      | some o => o.pendingAt i := by
  induction cos generalizing total ci with
  | nil => rfl
  | cons co cos ih =>
      rw [drainChildren]
      split
      · rfl
      · rename_i hroom
        cases ci with
        | zero =>
            exact StillOrchestrator.pendingAt_batchDrain (h co List.mem_cons_self) (by omega) i
        | succ ci => exact ih (fun c hc => h c (List.mem_cons_of_mem _ hc)) _ ci

theorem count_drainChildren (h : ∀ co ∈ cos, co.Whole) (total : ℕ) :
    (drainChildren limit total cos).2.flatten.length +
        ((drainChildren limit total cos).1.map StillOrchestrator.pendingCount).sum =
      (cos.map StillOrchestrator.pendingCount).sum := by
  induction cos generalizing total with
  | nil => rfl
  | cons co cos ih =>
      rw [drainChildren]
      split
      · exact Nat.zero_add _
      · rename_i hroom
        have hfirst := StillOrchestrator.count_batchDrain (h co List.mem_cons_self)
          (Nat.sub_pos_of_lt (Nat.lt_of_not_le hroom))
        have hrest := ih (fun c hc => h c (List.mem_cons_of_mem _ hc))
          (total + (co.batchDrain (limit - total)).2.length)
        dsimp only
        rw [List.flatten_cons, List.length_append, List.map_cons, List.sum_cons, List.map_cons,
          List.sum_cons, ← hfirst, ← hrest]
        omega

/-- Children that give nothing are settled, all of them visited. -/
theorem settled_drainChildren (h : ∀ co ∈ cos, co.Whole) (hroom : total + 8 ≤ limit)
    (hnone : (drainChildren limit total cos).2.flatten = []) :
    ∀ co ∈ (drainChildren limit total cos).1, ∀ r ∈ co.rings, r.Settled := by
  induction cos with
  | nil => exact fun co hco => absurd hco List.not_mem_nil
  | cons co cos ih =>
      rw [drainChildren, if_neg (by omega)] at hnone ⊢
      obtain ⟨hfirst, hrest⟩ := List.append_eq_nil_iff.mp hnone
      intro co' hco'
      rcases List.mem_cons.mp hco' with rfl | hmem
      · exact StillOrchestrator.settled_batchDrain (h co List.mem_cons_self) (by omega) hfirst
      · rw [hfirst, List.length_nil, Nat.add_zero] at hrest hmem
        exact ih (fun c hc => h c (List.mem_cons_of_mem _ hc)) hrest co' hmem

end Children

section Passes
variable {e : StillEngine} {budget tickEvents : ℕ}

theorem pendingAt_of_settled (h : e.Settled) (k : Option ℕ) (i : ℕ) : e.pendingAt k i = [] := by
  have hring {o : StillOrchestrator} (ho : ∀ r ∈ o.rings, r.Settled) : o.pendingAt i = [] := by
    rw [StillOrchestrator.pendingAt]
    split
    · rfl
    · rename_i r hr
      exact (ho r (List.mem_of_getElem? hr)).pending
  rw [pendingAt]
  split
  · rfl
  · rename_i o ho
    cases k with
    | none =>
        obtain rfl : e.root = o := Option.some.inj ho
        exact hring h.root
    | some ci => exact hring (h.children o (List.mem_of_getElem? ho))

theorem whole_drainRoot (h : e.Whole) : e.drainRoot.1.Whole :=
  ⟨StillOrchestrator.whole_batchDrain h.root (by decide), h.children⟩

theorem whole_pass (h : e.Whole) : e.pass.1.Whole :=
  ⟨(whole_drainRoot h).root, whole_drainChildren h.children 0⟩

theorem pendingAt_pass (h : e.Whole) (k : Option ℕ) (i : ℕ) :
    ofPlace i (e.pass.2.buffer k) ++ e.pass.1.pendingAt k i = e.pendingAt k i := by
  cases k with
  | none => exact StillOrchestrator.pendingAt_batchDrain h.root (by decide) i
  | some ci => exact pendingAt_drainChildren h.children 0 ci i

theorem runs_pass (h : e.Whole) (k : Option ℕ) : Runs ((e.pass.2.buffer k).map Prod.snd) := by
  cases k with
  | none => exact StillOrchestrator.runs_batchDrain h.root (by decide)
  | some ci =>
      show Runs (((drainChildren BATCH_SIZE 0 e.children).2.getD ci []).map Prod.snd)
      rw [List.getD_eq_getElem?_getD]
      cases hbuf : (drainChildren BATCH_SIZE 0 e.children).2[ci]? with
      | none => exact runs_nil
      | some buf => exact runs_drainChildren h.children 0 buf (List.mem_of_getElem? hbuf)

theorem settled_pass (h : e.Whole) (hnone : e.pass.2.size = 0) : e.pass.1.Settled := by
  rw [TickPass.size, Nat.add_eq_zero_iff, List.length_eq_zero_iff, List.length_eq_zero_iff] at hnone
  exact ⟨StillOrchestrator.settled_batchDrain h.root (by decide) hnone.1,
    settled_drainChildren h.children (by decide) hnone.2⟩

theorem count_pass (h : e.Whole) : e.pass.2.size + e.pass.1.pendingCount = e.pendingCount := by
  have hroot := StillOrchestrator.count_batchDrain h.root (show 0 < BATCH_SIZE by decide)
  have hchildren := @count_drainChildren BATCH_SIZE _ h.children 0
  exact (Nat.add_add_add_comm _ _ _ _).trans (congrArg₂ (· + ·) hroot hchildren)

/-- The root gives what its rings have and keeps the rest; the children are not touched. -/
theorem pendingAt_drainRoot (h : e.Whole) (hnone : e.drainRoot.2.length = 0) (k : Option ℕ)
    (i : ℕ) : e.drainRoot.1.pendingAt k i = e.pendingAt k i := by
  cases k with
  | none =>
      have hkept : ofPlace i e.drainRoot.2 ++ e.drainRoot.1.pendingAt none i = e.pendingAt none i :=
        StillOrchestrator.pendingAt_batchDrain h.root (by decide) i
      rw [List.length_eq_zero_iff.mp hnone] at hkept
      exact hkept
  | some ci => rfl

end Passes

section Loops
variable {e : StillEngine}

theorem handedAt_cons (k : Option ℕ) (i : ℕ) (p : TickPass) (passes : List TickPass) :
    handedAt k i (p :: passes) = ofPlace i (p.buffer k) ++ handedAt k i passes := List.flatMap_cons

theorem handedAt_append (k : Option ℕ) (i : ℕ) (front back : List TickPass) :
    handedAt k i (front ++ back) = handedAt k i front ++ handedAt k i back := List.flatMap_append

theorem handedCount_append (front back : List TickPass) :
    handedCount (front ++ back) = handedCount front + handedCount back := by
  rw [handedCount, List.map_append, List.sum_append]
  rfl

/-- The headless loop keeps the order of each ring and cuts no run, and it ends with nothing
pending or over its budget. -/
theorem headlessTick_spec (budget tickEvents : ℕ) (h : e.Whole) :
    ((headlessTick budget tickEvents e).1.Settled ∨
        budget ≤ tickEvents + handedCount (headlessTick budget tickEvents e).2) ∧
      (∀ k i, handedAt k i (headlessTick budget tickEvents e).2 ++
        (headlessTick budget tickEvents e).1.pendingAt k i = e.pendingAt k i) ∧
      ∀ p ∈ (headlessTick budget tickEvents e).2, ∀ k, Runs ((p.buffer k).map Prod.snd) := by
  fun_induction headlessTick budget tickEvents e with
  | case1 tickEvents e hroom x hnone =>
      refine ⟨.inl (settled_pass h hnone), fun k i => ?_, fun p hp => ?_⟩
      · rw [handedAt_cons]
        exact (congrArg (· ++ _) (List.append_nil _)).trans (pendingAt_pass h k i)
      · rw [List.mem_singleton] at hp
        exact hp ▸ runs_pass h
  | case2 tickEvents e hroom x hsome rest ih =>
      obtain ⟨hend, hkept, hruns⟩ := ih (whole_pass h)
      refine ⟨?_, fun k i => ?_, fun p hp => ?_⟩
      · rw [handedCount, List.map_cons, List.sum_cons, ← Nat.add_assoc]
        exact hend
      · rw [handedAt_cons, List.append_assoc, hkept]
        exact pendingAt_pass h k i
      · rcases List.mem_cons.mp hp with rfl | hmem
        · exact runs_pass h
        · exact hruns p hmem
  | case3 tickEvents e hover =>
      exact ⟨.inr (by rw [handedCount]; simpa using hover), fun _ _ => rfl,
        fun p hp => absurd hp List.not_mem_nil⟩

/-- The interactive loop takes the passes of the headless one up to the first in which the
root has nothing. -/
theorem interactiveTick_passes (budget tickEvents : ℕ) (e : StillEngine) :
    (interactiveTick budget tickEvents e).2 =
      (headlessTick budget tickEvents e).2.takeWhile TickPass.rootGives := by
  fun_induction interactiveTick budget tickEvents e with
  | case1 tickEvents e hroom got hnone =>
      have hroot : ¬ e.pass.2.rootGives = true := by
        rw [TickPass.rootGives, show e.pass.2.root = e.drainRoot.2 from rfl,
          List.length_eq_zero_iff.mp hnone]
        exact Bool.false_ne_true
      rw [headlessTick, if_pos hroom]
      dsimp only
      split
      · rw [List.takeWhile_cons_of_neg hroot]
      · rw [List.takeWhile_cons_of_neg hroot]
  | case2 tickEvents e hroom got hsome x rest ih =>
      have hsize : ¬ e.pass.2.size = 0 := fun hzero =>
        hsome (Nat.eq_zero_of_add_eq_zero_right hzero)
      have hroot : e.pass.2.rootGives = true := by
        cases hgot : e.drainRoot.2 with
        | nil => exact absurd (congrArg List.length hgot) hsome
        | cons y ys =>
            rw [TickPass.rootGives, show e.pass.2.root = e.drainRoot.2 from rfl, hgot]
            rfl
      rw [headlessTick, if_pos hroom]
      dsimp only
      rw [dif_neg hsize]
      dsimp only
      rw [List.takeWhile_cons_of_pos hroot]
      exact congrArg (e.pass.2 :: ·) ih
  | case3 tickEvents e hover =>
      rw [headlessTick, if_neg hover]
      rfl

/-- The interactive loop ends with nothing pending in the root or over its budget, and keeps
the order of each ring. -/
theorem interactiveTick_spec (budget tickEvents : ℕ) (h : e.Whole) :
    (interactiveTick budget tickEvents e).1.Whole ∧
      ((∀ r ∈ (interactiveTick budget tickEvents e).1.root.rings, r.Settled) ∨
        budget ≤ tickEvents + handedCount (interactiveTick budget tickEvents e).2) ∧
      ∀ k i, handedAt k i (interactiveTick budget tickEvents e).2 ++
        (interactiveTick budget tickEvents e).1.pendingAt k i = e.pendingAt k i := by
  fun_induction interactiveTick budget tickEvents e with
  | case1 tickEvents e hroom got hnone =>
      refine ⟨whole_drainRoot h, .inl ?_, fun k i => pendingAt_drainRoot h hnone k i⟩
      exact StillOrchestrator.settled_batchDrain h.root (by decide)
        (List.length_eq_zero_iff.mp hnone)
  | case2 tickEvents e hroom got hsome x rest ih =>
      obtain ⟨hwhole, hend, hkept⟩ := ih (whole_pass h)
      refine ⟨hwhole, ?_, fun k i => ?_⟩
      · rw [handedCount, List.map_cons, List.sum_cons, ← Nat.add_assoc]
        exact hend
      · rw [handedAt_cons, List.append_assoc, hkept]
        exact pendingAt_pass h k i
  | case3 tickEvents e hover =>
      exact ⟨h, .inr (by rw [handedCount]; simpa using hover), fun _ _ => rfl⟩

theorem count_headlessTick (budget tickEvents : ℕ) (h : e.Whole) :
    handedCount (headlessTick budget tickEvents e).2 +
      (headlessTick budget tickEvents e).1.pendingCount = e.pendingCount := by
  fun_induction headlessTick budget tickEvents e with
  | case1 tickEvents e hroom x hnone => exact count_pass h
  | case2 tickEvents e hroom x hsome rest ih =>
      have hrest := ih (whole_pass h)
      rw [handedCount, List.map_cons, List.sum_cons, Nat.add_assoc]
      exact (congrArg (x.2.size + ·) hrest).trans (count_pass h)
  | case3 tickEvents e hover => exact Nat.zero_add _

/-- A budget that is not spent is of no matter. -/
theorem headlessTick_budget {budget tickEvents : ℕ} (budget' : ℕ) (h : e.Whole)
    (hroom : tickEvents + e.pendingCount < budget) (hle : budget ≤ budget') :
    headlessTick budget tickEvents e = headlessTick budget' tickEvents e := by
  fun_induction headlessTick budget tickEvents e with
  | case1 tickEvents e hlt x hnone =>
      rw [headlessTick, if_pos (hlt.trans_le hle)]
      dsimp only
      rw [dif_pos hnone]
  | case2 tickEvents e hlt x hsome rest ih =>
      have hcount := count_pass h
      have hnext := ih (whole_pass h) (by rw [Nat.add_assoc, hcount]; exact hroom)
      rw [headlessTick.eq_1 budget', if_pos (hlt.trans_le hle)]
      dsimp only
      rw [dif_neg hsome, ← hnext]
  | case3 tickEvents e hover => exact absurd (Nat.lt_of_le_of_lt (Nat.le_add_right _ _) hroom) hover

end Loops

/-! ## The session on top -/

section Counting

theorem length_childBuffer (p : TickPass) : p.childBuffer.length = p.children.flatten.length := by
  have hlengths (f : ℕ → ℕ × Event → ℕ × Event) (bufs : List (List (ℕ × Event))) :
      (bufs.mapIdx fun ci buf => buf.map (f ci)).flatten.length = bufs.flatten.length := by
    induction bufs generalizing f with
    | nil => rfl
    | cons buf bufs ih =>
        rw [List.mapIdx_cons, List.flatten_cons, List.length_append, List.length_map,
          List.flatten_cons, List.length_append]
        exact congrArg (buf.length + ·) (ih fun ci => f (ci + 1))
  exact hlengths (fun ci x => (x.1, { x.2 with threadId := namespaceChildTid x.2.threadId ci })) _

end Counting

end StillEngine

namespace Session
variable {s : Session}

theorem total_applySnapshot (header : Event) (cont : List Event) (s : Session) :
    (s.applySnapshot header cont).total = s.total := by
  rw [applySnapshot]
  split <;> rfl

theorem total_rootPiece (s : Session) (p : Piece) :
    (rootPiece s p).total = s.total + p.weight fun _ => 1 := by
  cases p with
  | event host ev => exact (handles_rootPiece.event host ev s).2.1
  | snapshot header cont =>
      have htracked :=
        (track_frame header (recordSnapshot header (applySnapshot header cont s))).2.1
      have happlied := total_applySnapshot header cont s
      rw [Piece.weight, Nat.mul_one]
      exact congrArg (· + consumed header cont) (htracked.trans happlied)

theorem total_childPiece (s : Session) (p : Piece) :
    (childPiece s p).total = s.total + p.weight fun _ => 1 := by
  cases p with
  | event host ev => exact (handles_childPiece.event host ev s).2.1
  | snapshot header cont =>
      rw [Piece.weight, Nat.mul_one]
      exact congrArg (· + consumed header cont) (total_applySnapshot header cont s)

/-- A buffer counts for the slots looked at, whatever the pieces it falls into. -/
theorem total_foldl {f : Session → Piece → Session}
    (hf : ∀ s p, (f s p).total = s.total + p.weight fun _ => 1) (buf : List Slot) (s : Session) :
    ((pieces false 0 buf).foldl f s).total = s.total + buf.length := by
  have hpieces (ps : List Piece) (s : Session) :
      (ps.foldl f s).total = s.total + (ps.map (Piece.weight fun _ => 1)).sum := by
    induction ps generalizing s with
    | nil => rfl
    | cons p ps ih => rw [List.foldl_cons, ih, hf, List.map_cons, List.sum_cons, Nat.add_assoc]
  have hweights := sum_weight_pieces false (fun _ _ _ => rfl : ∀ e e' : Event, e.kind = e'.kind →
    (fun _ => 1 : Event → ℕ) e = (fun _ => 1 : Event → ℕ) e') buf
  have hall : lookedAt false buf = buf := List.filter_eq_self.mpr fun _ _ => rfl
  rw [hpieces, ← hweights, hall, List.map_const', List.sum_replicate_nat, Nat.mul_one]

theorem total_tick (orders : IndexOrders) (passes : List Pass) (s : Session) :
    (s.tick false orders passes).total =
      s.total + (passes.map fun p => p.root.length + p.children.length).sum := by
  have hpasses (passes : List Pass) (s : Session) : (passes.foldl (drainPass false) s).total =
      s.total + (passes.map fun p => p.root.length + p.children.length).sum := by
    induction passes generalizing s with
    | nil => rfl
    | cons p passes ih =>
        rw [List.foldl_cons, ih, drainPass, drainChildren, total_foldl total_childPiece, drainRoot,
          total_foldl total_rootPiece, List.map_cons, List.sum_cons]
        omega
  rw [← hpasses passes { s with needFinalize := false }, tick]
  split <;> rfl

end Session

namespace StillEngine
variable {e : StillEngine}

def HEADLESS_BUDGET : ℕ := 500000

def TICK_BUDGET : ℕ := 200000

/-- The drain of a tick of `run_headless`. -/
def headless (e : StillEngine) : StillEngine × List TickPass := headlessTick HEADLESS_BUDGET 0 e

/-- The drain of a tick of `run`. -/
def interactive (e : StillEngine) : StillEngine × List TickPass := interactiveTick TICK_BUDGET 0 e

/-- A headless tick empties all rings unless it runs out of budget. Whatever it leaves, it
hands over the oldest events of each ring in order, it cuts no run, and the session counts
each of them. -/
theorem headless_drains (h : e.Whole) (orders : IndexOrders) (host : Host) (s : Session) :
    (e.headless.1.Settled ∨ HEADLESS_BUDGET ≤ handedCount e.headless.2) ∧
      (∀ k i, handedAt k i e.headless.2 ++ e.headless.1.pendingAt k i = e.pendingAt k i) ∧
      (∀ p ∈ e.headless.2, ∀ k, Runs ((p.buffer k).map Prod.snd)) ∧
      (s.tick false orders (e.headless.2.map (TickPass.hosted host))).total +
        e.headless.1.pendingCount = s.total + e.pendingCount := by
  obtain ⟨hend, hkept, hruns⟩ := headlessTick_spec HEADLESS_BUDGET 0 h
  rw [Nat.zero_add] at hend
  refine ⟨hend, hkept, hruns, ?_⟩
  have hsizes : ((e.headless.2.map (TickPass.hosted host)).map fun p =>
      p.root.length + p.children.length) = e.headless.2.map TickPass.size := by
    rw [List.map_map]
    refine List.map_congr_left fun p _ => ?_
    rw [Function.comp_apply, TickPass.hosted, List.length_map, List.length_map,
      length_childBuffer]
    rfl
  rw [Session.total_tick, hsizes, Nat.add_assoc]
  exact congrArg (s.total + ·) (count_headlessTick HEADLESS_BUDGET 0 h)

/-- A root without events ends an interactive tick at once. -/
theorem interactive_of_settled (h : e.Whole) (hroot : ∀ r ∈ e.root.rings, r.Settled) :
    e.interactive.1.Whole ∧ (∀ r ∈ e.interactive.1.root.rings, r.Settled) ∧
      ∀ k i, e.interactive.1.pendingAt k i = e.pendingAt k i := by
  have hcount := StillOrchestrator.count_batchDrain h.root (show 0 < BATCH_SIZE by decide)
  have hzero : e.root.pendingCount = 0 := by
    rw [StillOrchestrator.pendingCount, List.sum_eq_zero_iff_forall_eq_nat]
    intro n hn
    obtain ⟨r, hr, rfl⟩ := List.mem_map.mp hn
    rw [(hroot r hr).pending]
    rfl
  have hnone : e.drainRoot.2.length = 0 := by
    rw [hzero] at hcount
    exact Nat.eq_zero_of_add_eq_zero_right hcount
  have htick : e.interactive = (e.drainRoot.1, []) := by
    rw [interactive, interactiveTick, if_pos (by decide)]
    exact dif_pos hnone
  rw [htick]
  exact ⟨whole_drainRoot h, StillOrchestrator.settled_batchDrain h.root (by decide)
    (List.length_eq_zero_iff.mp hnone), fun k i => pendingAt_drainRoot h hnone k i⟩

/-- The interactive tick takes the passes of the headless one up to the first in which the
root has nothing, and that is the end: what the headless tick takes of the children after
that, no number of interactive ticks does while the root rests. -/
theorem interactive_starves (h : e.Whole) (hbudget : e.pendingCount < TICK_BUDGET) (n : ℕ) :
    e.interactive.2 = e.headless.2.takeWhile TickPass.rootGives ∧
      ∀ k i, ((fun e => e.interactive.1)^[n + 1] e).pendingAt k i =
        handedAt k i (e.headless.2.dropWhile TickPass.rootGives) := by
  have hsame : headlessTick TICK_BUDGET 0 e = e.headless :=
    headlessTick_budget HEADLESS_BUDGET h (by rw [Nat.zero_add]; exact hbudget) (by decide)
  have hpasses : e.interactive.2 = e.headless.2.takeWhile TickPass.rootGives := by
    rw [← hsame]
    exact interactiveTick_passes TICK_BUDGET 0 e
  refine ⟨hpasses, ?_⟩
  obtain ⟨hwhole, hend, hkept⟩ := interactiveTick_spec TICK_BUDGET 0 h
  have hsplit : e.headless.2.takeWhile TickPass.rootGives ++
      e.headless.2.dropWhile TickPass.rootGives = e.headless.2 := List.takeWhile_append_dropWhile
  have hcount := count_headlessTick TICK_BUDGET 0 h
  have hdrained : e.headless.1.Settled := by
    rw [← hsame]
    exact (headlessTick_spec TICK_BUDGET 0 h).1.resolve_right (by omega)
  have hrest (k : Option ℕ) (i : ℕ) : e.interactive.1.pendingAt k i =
      handedAt k i (e.headless.2.dropWhile TickPass.rootGives) := by
    have hall : handedAt k i e.headless.2 ++ e.headless.1.pendingAt k i = e.pendingAt k i :=
      (headlessTick_spec HEADLESS_BUDGET 0 h).2.1 k i
    rw [pendingAt_of_settled hdrained, List.append_nil, ← hkept k i, ← hsplit, handedAt_append,
      ← hpasses] at hall
    exact (List.append_cancel_left hall).symm
  have hroot : ∀ r ∈ e.interactive.1.root.rings, r.Settled := by
    refine hend.resolve_right fun hover => ?_
    have hpart : handedCount e.interactive.2 ≤ handedCount e.headless.2 := by
      rw [hpasses, ← congrArg handedCount hsplit, handedCount_append]
      exact Nat.le_add_right _ _
    rw [hsame] at hcount
    rw [Nat.zero_add] at hover
    exact absurd (hover.trans hpart) (by omega)
  have hstays : ((fun e => e.interactive.1)^[n + 1] e).Whole ∧
      (∀ r ∈ ((fun e => e.interactive.1)^[n + 1] e).root.rings, r.Settled) ∧
        ∀ k i, ((fun e => e.interactive.1)^[n + 1] e).pendingAt k i =
          e.interactive.1.pendingAt k i := by
    induction n with
    | zero => exact ⟨hwhole, hroot, fun _ _ => rfl⟩
    | succ n ih =>
        obtain ⟨hwhole', hroot', hpending⟩ := ih
        obtain ⟨hnext, hnext', hsame'⟩ := interactive_of_settled hwhole' hroot'
        rw [Function.iterate_succ_apply']
        exact ⟨hnext, hnext', fun k i => (hsame' k i).trans (hpending k i)⟩
  exact fun k i => (hstays.2.2 k i).trans (hrest k i)

/-- A root with nothing pending, and a child with an event. -/
def waitingChild : StillEngine where
  children := [{ rings := [⟨{ capacity := ⟨8, ⟨3, rfl⟩, by decide⟩, tail := 0 }, 1, fun _ => .zero,
    false, true⟩] }]

theorem waitingChild_whole : waitingChild.Whole := by
  refine ⟨fun r hr => absurd hr List.not_mem_nil, fun co hco r hr => ?_⟩
  rw [List.mem_singleton.mp hco] at hr
  rw [List.mem_singleton.mp hr]
  refine ⟨by decide, [[.zero]], fun u hu => ?_, rfl⟩
  rw [List.mem_singleton.mp hu]
  rfl

theorem waitingChild_drained : waitingChild.headless.1.pendingAt (some 0) 0 = [] ∧
    handedAt (some 0) 0 waitingChild.headless.2 = [.zero] := by
  have hcount : handedCount waitingChild.headless.2 < HEADLESS_BUDGET := by
    decide +kernel
  obtain ⟨hend, hkept, -⟩ :=
    headless_drains waitingChild_whole (Host.plain.orders) .plain {}
  have hempty := pendingAt_of_settled (hend.resolve_right (Nat.not_le_of_lt hcount)) (some 0) 0
  have hall := hkept (some 0) 0
  rw [hempty, List.append_nil] at hall
  exact ⟨hempty, hall⟩

theorem waitingChild_starves :
    ((fun e => e.interactive.1)^[1000] waitingChild).pendingAt (some 0) 0 = [.zero] := by
  have hleft := (interactive_starves waitingChild_whole (by decide) 999).2 (some 0) 0
  have hhanded : handedAt (some 0) 0 (waitingChild.headless.2.dropWhile TickPass.rootGives) =
      [.zero] := by decide +kernel
  exact hleft.trans hhanded

end StillEngine
end Rtmap.Engine
