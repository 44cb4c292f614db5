import Rtmap.Engine.Types
import Rtmap.Lib.BitWords
import Rtmap.Tracer.Slots

/-!
# Priority reads under backpressure

The filter of priority addresses decides which reads are buffered under
backpressure. The flush does not ask it: `rtmap_push_sampled` sheds every buffered
READ while the ring's backpressure is raised.
-/
namespace Rtmap.Tracer
open Rtmap.Ring Transition

section Bloom

def BLOOM_BITS : UInt32 := 512 * 64

/-- The hash of the eight bytes of an address. -/
def fnv (basis prime : UInt32) (addr : UInt64) : UInt32 :=
  (List.range 8).foldl
    (fun h i => (h ^^^ (addr >>> UInt64.ofNat (i * 8)).toUInt8.toUInt32) * prime) basis

def bloomH1 (addr : UInt64) : UInt32 := fnv 0x811c9dc5 0x01000193 addr % BLOOM_BITS
def bloomH2 (addr : UInt64) : UInt32 := fnv 0x01000193 0x811c9dc5 addr % BLOOM_BITS

/-- The words of `priority_bloom`. -/
abbrev Bloom := ℕ → UInt64

def bloomInsert (bloom : Bloom) (addr : UInt64) : Bloom :=
  BitWords.set (BitWords.set bloom (bloomH1 addr).toNat) (bloomH2 addr).toNat

def bloomQuery (bloom : Bloom) (addr : UInt64) : Bool :=
  BitWords.test bloom (bloomH1 addr).toNat && BitWords.test bloom (bloomH2 addr).toNat

theorem bloomQuery_insert_self (bloom : Bloom) (addr : UInt64) :
    bloomQuery (bloomInsert bloom addr) addr = true := by
  simp [bloomQuery, bloomInsert, BitWords.test_set]

/-- No bit is ever cleared. -/
theorem bloomQuery_insert {bloom : Bloom} {addr : UInt64} (h : bloomQuery bloom addr = true)
    (x : UInt64) : bloomQuery (bloomInsert bloom x) addr = true := by
  rw [bloomQuery, Bool.and_eq_true] at h
  simp [bloomQuery, bloomInsert, BitWords.test_set, h.1, h.2]

end Bloom

section Flush
variable {env : Env} {t : Thread}

/-- Pushes behind others start where these have brought the head. -/
theorem admitted_append (capacity head : ℕ) (seq : UInt32) (n : ℕ) (ps qs : List Thread.Push) :
    Thread.admitted env capacity head seq n (ps ++ qs) =
      Thread.admitted env capacity head seq n ps ++
        Thread.admitted env capacity
          (head + ((Thread.admitted env capacity head seq n ps).flatMap Op.slots).length)
          (seq + UInt32.ofNat ps.length) (n + ps.length) qs := by
  induction ps generalizing head seq n with
  | nil => simp [Thread.admitted]
  | cons p ps ih =>
      have hseq : seq + 1 + UInt32.ofNat ps.length = seq + UInt32.ofNat (ps.length + 1) := by
        rw [UInt32.ofNat_add, UInt32.add_assoc, UInt32.add_comm 1]
        rfl
      have hn : n + 1 + ps.length = n + (ps.length + 1) := by omega
      simp only [List.cons_append, Thread.admitted, List.length_cons]
      split
      · rw [ih, hseq, hn]
      · rw [ih, hseq, hn, List.cons_append, List.flatMap_cons, List.length_append, Nat.add_assoc]

/-- An admitted push passed both tests in its turn. -/
theorem mem_admitted_at {capacity head : ℕ} {seq : UInt32} {n : ℕ} {ps : List Thread.Push} {op : Op}
    (h : op ∈ Thread.admitted env capacity head seq n ps) : ∃ k p, ps[k]? = some p ∧
      op = p.op (seq + UInt32.ofNat k) ∧ (p.sampled = true → env.pressure (n + k) = 0) ∧
      op.admits capacity (head + ((Thread.admitted env capacity head seq n (ps.take k)).flatMap
        Op.slots).length) (env.tail (n + k)) = true := by
  induction ps using List.reverseRecOn generalizing op with
  | nil => simp [Thread.admitted] at h
  | append_singleton ps p ih =>
      rw [admitted_append] at h
      rcases List.mem_append.mp h with h | h
      · obtain ⟨k, q, hk, hop⟩ := ih h
        have hlt : k < ps.length := (List.getElem?_eq_some_iff.mp hk).choose
        refine ⟨k, q, by rw [List.getElem?_append_left hlt, hk], ?_⟩
        rw [List.take_append_of_le_length hlt.le]
        exact hop
      · simp only [Thread.admitted] at h
        split at h
        · cases h
        · rename_i hpass
          obtain rfl := List.mem_singleton.mp h
          rw [Bool.or_eq_true, not_or, Bool.and_eq_true, not_and, Bool.not_eq_true',
            Bool.not_eq_false] at hpass
          refine ⟨ps.length, p, by simp, rfl, fun hs => ?_, ?_⟩
          · simpa using hpass.1 hs
          · rw [List.take_left]
            exact hpass.2

/-- The push of the `i`-th buffered read. -/
def readOp (t : Thread) (i : ℕ) (r : ReadEntry) : Op :=
  .pushExFlags r.addr r.size r.value EVENT_READ 0 t.tid (t.tlsSeq + UInt32.ofNat i)

/-- The head that this push finds. -/
def readHead (env : Env) (t : Thread) (i : ℕ) : ℕ :=
  t.cached + ((Thread.admitted env t.capacity.size t.cached t.tlsSeq 0
    (t.readPushes.take i)).flatMap Op.slots).length

/-- The ring is not full at the push of the `i`-th buffered read. -/
def HasRoom (env : Env) (t : Thread) (i : ℕ) (r : ReadEntry) : Prop :=
  t.mapped = true ∧ (readOp t i r).admits t.capacity.size (readHead env t i) (env.tail i) = true

/-- The flush leaves the `i`-th buffered read as a READ in the ring. -/
def Published (env : Env) (t : Thread) (i : ℕ) (r : ReadEntry) : Prop :=
  ∃ p, t.cached ≤ p ∧ p < (t.flushReadBuf env).head ∧
    (t.flushReadBuf env).slots (t.capacity.index p) = (readOp t i r).slot 0

theorem getElem?_readPushes {i : ℕ} {p : Thread.Push} (h : t.readPushes[i]? = some p) :
    ∃ r, t.rdbuf[i]? = some r ∧ p.sampled = true ∧
      p.op (t.tlsSeq + UInt32.ofNat i) = readOp t i r := by
  rw [Thread.readPushes, List.getElem?_map, Option.map_eq_some_iff] at h
  obtain ⟨r, hr, rfl⟩ := h
  exact ⟨r, hr, rfl, rfl⟩

/-- The number of a push tells its place in the buffer. -/
theorem place_of_slot {i k : ℕ} {r r' : ReadEntry} (hi : i < 2 ^ 32) (hk : k < 2 ^ 32)
    (h : (readOp t k r').slot 0 = (readOp t i r).slot 0) : k = i := by
  have hnumber (j : ℕ) (x : ReadEntry) :
      ((readOp t j x).slot 0).seq32 = t.tlsSeq + UInt32.ofNat j := seq32_split ..
  have hseq : t.tlsSeq + UInt32.ofNat k = t.tlsSeq + UInt32.ofNat i := by
    rw [← hnumber k r', h, hnumber]
  have hoff : UInt32.ofNat k = UInt32.ofNat i := (UInt32.add_right_inj _).mp hseq
  have hnat := congrArg UInt32.toNat hoff
  rwa [UInt32.toNat_ofNat', UInt32.toNat_ofNat', Nat.mod_eq_of_lt hk, Nat.mod_eq_of_lt hi] at hnat

/-- What the flush pushes. -/
def flushed (env : Env) (t : Thread) : List Event :=
  (Thread.admitted env t.capacity.size t.cached t.tlsSeq 0 t.readPushes).flatMap Op.slots

/-- Each event of a flush is the READ of an entry that was not shed and found room. -/
theorem mem_flushed {e : Event} (h : e ∈ flushed env t) : ∃ i r, t.rdbuf[i]? = some r ∧
    e = (readOp t i r).slot 0 ∧ env.pressure i = 0 ∧
      (readOp t i r).admits t.capacity.size (readHead env t i) (env.tail i) = true := by
  obtain ⟨op, hop, hmem⟩ := List.mem_flatMap.mp h
  obtain ⟨i, p, hi, rfl, hpressure, hroom⟩ := mem_admitted_at hop
  obtain ⟨r, hr, hsampled, hp⟩ := getElem?_readPushes hi
  rw [Nat.zero_add] at hpressure hroom
  rw [hp] at hmem hroom
  exact ⟨i, r, hr, List.mem_singleton.mp hmem, hpressure hsampled, hroom⟩

theorem length_flushed_le : (flushed env t).length ≤ t.rdbuf.length := by
  have hone (op : Op) (hop : op ∈ Thread.admitted env t.capacity.size t.cached t.tlsSeq 0
      t.readPushes) : op.slots.length = 1 := by
    obtain ⟨i, p, hi, rfl, -⟩ := mem_admitted_at hop
    obtain ⟨r, -, -, hp⟩ := getElem?_readPushes hi
    rw [hp]
    rfl
  rw [flushed, List.length_flatMap, List.map_congr_left hone, List.map_const', List.sum_replicate_nat,
    mul_one]
  exact (length_admitted_le ..).trans (List.length_map ..).le

/-- An entry that is not shed and finds room is pushed behind those before it. -/
theorem getElem?_flushed {i : ℕ} {r : ReadEntry} (hi : t.rdbuf[i]? = some r)
    (hpressure : env.pressure i = 0)
    (hroom : (readOp t i r).admits t.capacity.size (readHead env t i) (env.tail i) = true) :
    (flushed env t)[readHead env t i - t.cached]? = some ((readOp t i r).slot 0) := by
  have hat : t.readPushes[i]? = some ⟨fun seq => .pushExFlags r.addr r.size r.value EVENT_READ 0
      t.tid seq, true⟩ := by
    rw [Thread.readPushes, List.getElem?_map, hi]
    rfl
  obtain ⟨hlt, hget⟩ := List.getElem?_eq_some_iff.mp hat
  have hsplit : t.readPushes = t.readPushes.take i ++ ⟨fun seq => .pushExFlags r.addr r.size r.value
      EVENT_READ 0 t.tid seq, true⟩ :: t.readPushes.drop (i + 1) := by
    rw [← hget, List.getElem_cons_drop, List.take_append_drop]
  have hlen : (t.readPushes.take i).length = i := List.length_take_of_le hlt.le
  have hpass : ¬((true && env.pressure (0 + i) ≠ 0) || !(readOp t i r).admits t.capacity.size
      (readHead env t i) (env.tail (0 + i))) = true := by
    simp [hpressure, hroom]
  rw [flushed, hsplit, admitted_append, hlen, List.flatMap_append, readHead,
    Nat.add_sub_cancel_left, List.getElem?_append_right (Nat.le_refl _), Nat.sub_self,
    Thread.admitted]
  rw [readHead, readOp] at hpass
  rw [if_neg hpass, List.flatMap_cons]
  rfl

/-- Of the buffered reads with room the flush publishes those without backpressure. -/
theorem published_iff {i : ℕ} {r : ReadEntry} (hphase : env.phase = .trace)
    (hguard : t.guard = false) (hmapped : t.mapped = true) (hlen : t.rdbuf.length ≤ RDBUF_CAP)
    (hcap : RDBUF_CAP ≤ t.capacity.size) (hi : t.rdbuf[i]? = some r) :
    Published env t i r ↔ env.pressure i = 0 ∧ HasRoom env t i r := by
  have hlt : i < t.rdbuf.length := (List.getElem?_eq_some_iff.mp hi).choose
  have hne : t.rdbuf ≠ [] := List.ne_nil_of_length_pos (by omega)
  have hcount : (flushed env t).length ≤ t.rdbuf.length := length_flushed_le
  obtain ⟨seq, hflush⟩ := push_eq Thread.readPushes env hmapped
  have hdone : t.flushReadBuf env = { t with
      slots := storeRun t.capacity t.slots t.cached (flushed env t)
      head := t.cached + (flushed env t).length
      cached := t.cached + (flushed env t).length
      tlsSeq := seq
      bp := env.tier
      rdbuf := [] } := by
    rw [Thread.flushReadBuf, if_neg (by rw [hphase]; decide), if_neg (by rw [hguard]; decide),
      if_neg hne, if_neg (by rw [hmapped]; decide), hflush]
    rfl
  have hslot {j : ℕ} {e : Event} (he : (flushed env t)[j]? = some e) :
      storeRun t.capacity t.slots t.cached (flushed env t) (t.capacity.index (t.cached + j)) = e :=
    storeRun_at he (by omega)
  rw [Published, hdone]
  dsimp only
  constructor
  · rintro ⟨p, hlo, hhi, hp⟩
    have hj : p - t.cached < (flushed env t).length := by omega
    have hstored := hslot (List.getElem?_eq_getElem hj)
    rw [show t.cached + (p - t.cached) = p by omega, hp] at hstored
    obtain ⟨k, r', hk, he, hpressure, hroom⟩ := mem_flushed (List.getElem_mem hj)
    have hklt : k < t.rdbuf.length := (List.getElem?_eq_some_iff.mp hk).choose
    have hcap32 : RDBUF_CAP < 2 ^ 32 := by decide
    obtain rfl := place_of_slot (by omega) (by omega) (he.symm.trans hstored.symm)
    obtain rfl : r = r' := Option.some.inj (hi.symm.trans hk)
    exact ⟨hpressure, hmapped, hroom⟩
  · rintro ⟨hpressure, -, hroom⟩
    have hat := getElem?_flushed hi hpressure hroom
    have hj := (List.getElem?_eq_some_iff.mp hat).choose
    have hbehind : t.cached ≤ readHead env t i := Nat.le_add_right ..
    have hstored := hslot hat
    rw [show t.cached + (readHead env t i - t.cached) = readHead env t i by omega] at hstored
    exact ⟨readHead env t i, hbehind, by omega, hstored⟩

end Flush

/-- A thread with its read buffer and the filter, null if the control page is not
mapped. `inserted` is what the filter was given, and `early` says of each buffered read
whether its address was among it. -/
structure Reader where
  thread : Thread
  phase : Phase := .boot
  bloom : Option Bloom := some fun _ => 0
  inserted : List UInt64 := []
  early : List Bool := []

/-- The backpressure is read from the ring at every read and every push. -/
inductive ReadLabel where
  | trace
  | insert (addr : UInt64)
  | read (addr : UInt64) (size : UInt32) (mem : Memory) (env : Env)
  | flushIfNeeded (needed : ℕ) (env : Env)
  | flush (env : Env)

namespace Reader

/-- `g_ctl && rtmap_bloom_query(g_ctl->priority_bloom, addr)`. -/
def isPriority (s : Reader) (addr : UInt64) : Bool := s.bloom.any (bloomQuery · addr)

def env (s : Reader) (env : Env) : Env := { env with phase := s.phase }

/-- What a read finds. -/
def readEnv (s : Reader) (addr : UInt64) (env : Env) : Env :=
  { env with phase := s.phase, priority := s.isPriority addr }

/-- The thread behind a flush, which may have emptied the buffer. -/
def withFlushed (s : Reader) (t : Thread) : Reader :=
  { s with thread := t, early := if t.rdbuf = [] then [] else s.early }

def step : ReadLabel → Reader → Option Reader
  | .trace, s => some { s with phase := .trace }
  | .insert addr, s => s.bloom.map fun bloom =>
      { s with bloom := some (bloomInsert bloom addr), inserted := s.inserted ++ [addr] }
  | .read addr size mem env, s =>
      let t := { s.thread with mem := mem }
      some { s with
        thread := t.atMemReadBuf addr size (s.readEnv addr env)
        early := s.early ++ ((t.recorded addr size (s.readEnv addr env)).toList.map fun _ =>
          decide (addr ∈ s.inserted)) }
  | .flushIfNeeded needed env, s =>
      some (s.withFlushed (s.thread.flushReadBufIfNeeded needed (s.env env)))
  | .flush env, s => some (s.withFlushed (s.thread.flushReadBuf (s.env env)))

end Reader

/-- The flush that a label makes, and what it finds. -/
def ReadLabel.flushes : ReadLabel → Reader → Option Env
  | .flush env, s => some (s.env env)
  | .flushIfNeeded needed env, s =>
      if s.thread.rdbuf.length + needed ≤ RDBUF_CAP then none else some (s.env env)
  | _, _ => none

/-- Reads of addresses that were inserted before are buffered while there is room, and a
flush leaves those of them in the ring for which it is not full. -/
def Survives (l : ReadLabel) (s : Reader) : Prop :=
  (∀ addr size mem env, l = .read addr size mem env → s.phase = .trace →
    s.thread.rdbuf.length < RDBUF_CAP → addr ∈ s.inserted →
      ({ s.thread with mem := mem }.recorded addr size (s.readEnv addr env)).isSome = true) ∧
  ∀ env, l.flushes s = some env → ∀ i r, s.thread.rdbuf[i]? = some r → s.early[i]? = some true →
    HasRoom env s.thread i r → Published env s.thread i r

/-- The backpressure is 0 wherever a flush has room for a read of such an address. -/
def Calm (l : ReadLabel) (s : Reader) : Prop :=
  ∀ env, l.flushes s = some env → ∀ i r, s.thread.rdbuf[i]? = some r → s.early[i]? = some true →
    HasRoom env s.thread i r → env.pressure i = 0

/-- A thread as `event_thread_init` leaves it. -/
def Reader.start (mapped : Bool) (tid : UInt16) (mem : Memory) (bloom : Option Bloom) : Reader where
  thread := .start THREAD_RING_CAPACITY mapped tid mem
  bloom := bloom

/-- The filter holds what it was given, and reads are buffered in the tracing phase only. -/
structure Reader.Sound (s : Reader) : Prop where
  filter : ∀ addr ∈ s.inserted, s.isPriority addr = true
  length : s.thread.rdbuf.length ≤ RDBUF_CAP
  boot : s.phase = .boot → s.thread.rdbuf = []
  guard : s.thread.guard = false
  capacity : s.thread.capacity = THREAD_RING_CAPACITY

section Runs
variable {s t : Reader} {l : ReadLabel}

theorem Reader.isPriority_eq {bloom : Bloom} (h : s.bloom = some bloom) (addr : UInt64) :
    s.isPriority addr = bloomQuery bloom addr := by
  rw [isPriority, h, Option.any_some]

theorem flushReadBuf_frame (env : Env) (t : Thread) :
    ((t.flushReadBuf env).rdbuf = t.rdbuf ∨ (t.flushReadBuf env).rdbuf = []) ∧
      (t.flushReadBuf env).guard = t.guard ∧ (t.flushReadBuf env).capacity = t.capacity := by
  rcases flushReadBuf_cases env t with ⟨-, h | h⟩ | ⟨seq, h⟩ <;> rw [h] <;> simp

theorem Reader.Sound.withFlushed (h : s.Sound) {u : Thread}
    (hbuf : u.rdbuf = s.thread.rdbuf ∨ u.rdbuf = []) (hguard : u.guard = s.thread.guard)
    (hcap : u.capacity = s.thread.capacity) : (s.withFlushed u).Sound where
  filter := h.filter
  length := by
    rcases hbuf with hbuf | hbuf
    · exact hbuf ▸ h.length
    · exact hbuf ▸ Nat.zero_le _
  boot := fun hboot => hbuf.elim (fun heq => heq.trans (h.boot hboot)) id
  guard := hguard.trans h.guard
  capacity := hcap.trans h.capacity

theorem Reader.Sound.step (h : s.Sound) (hs : Reader.step l s = some t) : t.Sound := by
  cases l with
  | trace =>
      obtain rfl := Option.some.inj hs
      exact ⟨h.filter, h.length, nofun, h.guard, h.capacity⟩
  | insert addr =>
      obtain ⟨bloom, hbloom, rfl⟩ := Option.map_eq_some_iff.mp hs
      refine ⟨fun x hx => ?_, h.length, h.boot, h.guard, h.capacity⟩
      rw [Reader.isPriority_eq rfl]
      rcases List.mem_append.mp hx with hx | hx
      · have hquery := h.filter x hx
        rw [Reader.isPriority_eq hbloom] at hquery
        exact bloomQuery_insert hquery addr
      · rw [List.mem_singleton.mp hx, bloomQuery_insert_self]
  | read addr size mem env =>
      obtain rfl := Option.some.inj hs
      refine ⟨h.filter, ?_, fun hboot => ?_, h.guard, h.capacity⟩
      · have hlen := h.length
        simp only [Thread.atMemReadBuf, List.length_append, Thread.recorded]
        split
        · exact hlen
        · split
          · exact hlen
          · split
            · exact hlen
            · simp only [Option.toList_some, List.length_singleton]
              omega
      · have hphase : (s.readEnv addr env).phase = .boot := hboot
        simp only [Thread.atMemReadBuf, Thread.recorded, if_pos hphase, Option.toList_none,
          List.append_nil]
        exact h.boot hboot
  | flushIfNeeded needed env =>
      obtain rfl := Option.some.inj hs
      obtain ⟨hbuf, hguard, hcap⟩ := flushReadBuf_frame (s.env env) s.thread
      unfold Thread.flushReadBufIfNeeded
      split
      · exact h.withFlushed (.inl rfl) rfl rfl
      · split
        · exact h.withFlushed (.inl rfl) rfl rfl
        · exact h.withFlushed hbuf hguard hcap
  | flush env =>
      obtain rfl := Option.some.inj hs
      obtain ⟨hbuf, hguard, hcap⟩ := flushReadBuf_frame (s.env env) s.thread
      exact h.withFlushed hbuf hguard hcap

theorem phase_flushes {env : Env} (h : l.flushes s = some env) : env.phase = s.phase := by
  cases l with
  | flush env' =>
      obtain rfl := Option.some.inj h
      rfl
  | flushIfNeeded needed env' =>
      simp only [ReadLabel.flushes] at h
      split at h
      · cases h
      · obtain rfl := Option.some.inj h
        rfl
  | trace | insert | read => cases h

/-- A buffered read of an address inserted before survives exactly a calm step. -/
theorem Reader.Sound.survives_iff (h : s.Sound) : Survives l s ↔ Calm l s := by
  have hflush {env : Env} {i : ℕ} {r : ReadEntry} (hl : l.flushes s = some env)
      (hi : s.thread.rdbuf[i]? = some r) (hroom : HasRoom env s.thread i r) :
      Published env s.thread i r ↔ env.pressure i = 0 := by
    have hphase : env.phase = .trace := by
      rw [phase_flushes hl]
      cases hp : s.phase with
      | boot =>
          rw [h.boot hp] at hi
          cases hi
      | trace => rfl
    rw [published_iff hphase h.guard hroom.1 h.length (by rw [h.capacity]; decide) hi]
    exact and_iff_left hroom
  constructor
  · rintro ⟨-, hsurvives⟩ env hl i r hi hearly hroom
    exact (hflush hl hi hroom).mp (hsurvives env hl i r hi hearly hroom)
  · intro hcalm
    refine ⟨fun addr size mem env _ hphase hspace hmem => ?_,
      fun env hl i r hi hearly hroom => (hflush hl hi hroom).mpr (hcalm env hl i r hi hearly hroom)⟩
    -- the filter keeps the read
    have hkept : (s.readEnv addr env).priority = true := h.filter addr hmem
    have htrace : (s.readEnv addr env).phase = .trace := hphase
    simp only [Thread.recorded, htrace, hkept, reduceCtorEq, if_false, Bool.not_true,
      Bool.and_false, Bool.false_eq_true]
    rw [if_neg (by omega)]
    rfl

theorem sound_exec {ls : List ReadLabel} {mapped : Bool} {tid : UInt16} {mem : Memory}
    {bloom : Option Bloom} (h : Transition.exec Reader.step ls (.start mapped tid mem bloom) = some s) :
    s.Sound :=
  exec_invariant h ⟨by simp [Reader.start], Nat.zero_le _, fun _ => rfl, rfl, rfl⟩
    fun _ _ _ hu hs => hu.step hs

/-- In every run of reads, flushes and insertions the priority reads survive exactly if
the backpressure is 0 wherever a flush has room for one of them. -/
theorem priority_reads_survive_iff (mapped : Bool) (tid : UInt16) (mem : Memory)
    (bloom : Option Bloom) (ls : List ReadLabel) :
    (∀ front l s, front ++ [l] <+: ls →
      Transition.exec Reader.step front (.start mapped tid mem bloom) = some s → Survives l s) ↔
    ∀ front l s, front ++ [l] <+: ls →
      Transition.exec Reader.step front (.start mapped tid mem bloom) = some s → Calm l s :=
  forall_congr' fun _ => forall_congr' fun _ => forall_congr' fun _ => forall_congr' fun _ =>
    forall_congr' fun hs => (sound_exec hs).survives_iff

end Runs

def raised : Env := { Env.plain with pressure := fun _ => 1 }

/-- A read of an inserted address passes the filter under backpressure. -/
def priorityRead : List ReadLabel := [.trace, .insert 0x1000, .read 0x1000 8 (fun _ => some 7) raised]

/-- The flush sheds it, although the ring is empty. -/
theorem priority_read_is_shed : ∃ s,
    Transition.exec Reader.step priorityRead (.start true 1 (fun _ => some 0) (some fun _ => 0)) = some s ∧
      s.early = [true] ∧ s.thread.head = 0 ∧ ¬Survives (.flush raised) s := by
  have hrun : (Transition.exec Reader.step priorityRead
      (.start true 1 (fun _ => some 0) (some fun _ => 0))).any (fun s =>
        s.early = [true] && s.thread.head = 0 && s.thread.mapped && s.thread.rdbuf =
          [⟨0x1000, 8, 0x0707070707070707⟩] &&
        (readOp s.thread 0 ⟨0x1000, 8, 0x0707070707070707⟩).admits s.thread.capacity.size
          (readHead (s.env raised) s.thread 0) 0) = true := by
    decide +kernel
  obtain ⟨s, hs, hfacts⟩ := (Option.any_eq_true _ _).mp hrun
  simp only [Bool.and_eq_true, decide_eq_true_eq] at hfacts
  obtain ⟨⟨⟨⟨hearly, hhead⟩, hmapped⟩, hbuf⟩, hroom⟩ := hfacts
  refine ⟨s, hs, hearly, hhead, fun hsurvives => ?_⟩
  have hcalm := (sound_exec hs).survives_iff.mp hsurvives
  have hzero := hcalm (s.env raised) rfl 0 _ (by rw [hbuf]; rfl) (by rw [hearly]; rfl)
    ⟨hmapped, hroom⟩
  cases hzero

end Rtmap.Tracer
