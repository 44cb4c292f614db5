import Rtmap.Tracer.Slots

/-!
# The value of a store

`event_bb_insert` takes the value from an immediate operand, from an inline
re-read of eight bytes or from a clean call, as the operands and the size decide.
`value_recorded_iff` says for which stores the slot then holds what was stored.
-/
namespace Rtmap.Tracer
open Rtmap.Ring

section Memory
variable (m m' : Memory)

theorem toNat_wordAt_lt {n : ℕ} (hn : n ≤ 8) (a : UInt64) :
    (wordAt m a n).toNat < 256 ^ n ∧ ∀ k, n = k + 1 →
      (wordAt m a n).toNat = (byteAt m a).toNat + 256 * (wordAt m (a + 1) k).toNat := by
  induction n generalizing a with
  | zero => exact ⟨Nat.one_pos, nofun⟩
  | succ n ih =>
      obtain ⟨hlt, -⟩ := ih (by omega) (a + 1)
      have hpow : 256 ^ (n + 1) ≤ 256 ^ 8 := Nat.pow_le_pow_right (by decide) hn
      have hbyte := (byteAt m a).toNat_lt
      have hshift : (wordAt m (a + 1) n <<< 8).toNat = 256 * (wordAt m (a + 1) n).toNat := by
        rw [UInt64.toNat_shiftLeft, Nat.shiftLeft_eq]
        have hsmall : (wordAt m (a + 1) n).toNat * 2 ^ 8 < 2 ^ 64 := by
          rw [Nat.pow_succ] at hpow
          omega
        exact (Nat.mod_eq_of_lt hsmall).trans (Nat.mul_comm _ _)
      have heq : (wordAt m a (n + 1)).toNat =
          (byteAt m a).toNat + 256 * (wordAt m (a + 1) n).toNat := by
        rw [wordAt, UInt64.toNat_or, hshift, UInt8.toNat_toUInt64, Nat.or_comm,
          show 256 * (wordAt m (a + 1) n).toNat = 2 ^ 8 * (wordAt m (a + 1) n).toNat from rfl,
          ← Nat.two_pow_add_eq_or_of_lt hbyte, Nat.add_comm]
      refine ⟨?_, fun k hk => ?_⟩
      · rw [heq, Nat.pow_succ]
        omega
      · obtain rfl := Nat.succ.inj hk
        exact heq

theorem toNat_wordAt_succ {n : ℕ} (hn : n + 1 ≤ 8) (a : UInt64) :
    (wordAt m a (n + 1)).toNat = (byteAt m a).toNat + 256 * (wordAt m (a + 1) n).toNat :=
  (toNat_wordAt_lt m hn a).2 n rfl

/-- A word is the shorter value, zero-extended, exactly if the bytes agree and the
further ones are 0. -/
theorem wordAt_eq_iff {n k : ℕ} (hk : k ≤ n) (hn : n ≤ 8) (a : UInt64) :
    wordAt m a n = wordAt m' a k ↔
      (∀ j < k, byteAt m (a + UInt64.ofNat j) = byteAt m' (a + UInt64.ofNat j)) ∧
        ∀ j < n, k ≤ j → byteAt m (a + UInt64.ofNat j) = 0 := by
  have hfirst (a : UInt64) : a + UInt64.ofNat 0 = a := UInt64.add_zero a
  have hnext (a : UInt64) (j : ℕ) : a + UInt64.ofNat (j + 1) = a + 1 + UInt64.ofNat j := by
    rw [UInt64.ofNat_add, UInt64.add_assoc, UInt64.add_comm 1]
    rfl
  induction n generalizing a k with
  | zero =>
      obtain rfl := Nat.le_zero.mp hk
      exact iff_of_true rfl ⟨nofun, nofun⟩
  | succ n ih =>
      have hbyte := (byteAt m a).toNat_lt
      have hread := toNat_wordAt_succ m hn a
      cases k with
      | zero =>
          have hsplit : wordAt m a (n + 1) = wordAt m' a 0 ↔
              byteAt m a = 0 ∧ wordAt m (a + 1) n = wordAt m' (a + 1) 0 := by
            rw [← UInt64.toNat_inj, ← UInt8.toNat_inj, ← UInt64.toNat_inj, hread]
            show _ = 0 ↔ _ = 0 ∧ _ = 0
            omega
          refine hsplit.trans ((and_congr_right' (ih (Nat.zero_le n) (by omega) (a + 1))).trans ?_)
          rw [Nat.forall_lt_succ_left, hfirst]
          simp only [hnext, Nat.zero_le, true_imp_iff, Nat.not_lt_zero, false_imp_iff, implies_true,
            true_and]
      | succ k =>
          have hbyte' := (byteAt m' a).toNat_lt
          have hread' := toNat_wordAt_succ m' (hk.trans hn) a
          have hsplit : wordAt m a (n + 1) = wordAt m' a (k + 1) ↔
              byteAt m a = byteAt m' a ∧ wordAt m (a + 1) n = wordAt m' (a + 1) k := by
            rw [← UInt64.toNat_inj, ← UInt8.toNat_inj, ← UInt64.toNat_inj, hread, hread']
            omega
          refine hsplit.trans
            ((and_congr_right' (ih (Nat.le_of_succ_le_succ hk) (by omega) (a + 1))).trans ?_)
          rw [Nat.forall_lt_succ_left, Nat.forall_lt_succ_left, hfirst]
          simp only [hnext, Nat.add_le_add_iff_right]
          have hzero : (k + 1 ≤ 0 → byteAt m a = 0) ↔ True := iff_of_true (fun h => absurd h (by omega)) trivial
          rw [hzero, true_and, and_assoc]

end Memory

/-- The bytes of the store that the value field has room for. -/
def PreWrite.width (w : PreWrite) : ℕ := (min w.size 8).toNat

/-- What the value field is for, given memory behind the store. -/
def PreWrite.stored (w : PreWrite) (after : Memory) : UInt64 := wordAt after w.ea w.width

/-- The code between the halves of the instruction's store. -/
def Instr.between (i : Instr) (last : Bool) : List Action :=
  if last then [] else i.readCode ++ [.app i.effect]

def Instr.storeCode (i : Instr) (w : PreWrite) (last : Bool) : List Action :=
  .emitPreWrite w i.effect :: (i.between last ++ [.emitPostWrite w.post])

def Action.isPreWrite : Action → Bool
  | .emitPreWrite .. => true
  | _ => false

/-- Run inserted code, each piece in an environment of its own. -/
def perform (envs : ℕ → Env) : List Action → Thread → Thread
  | [], t => t
  | a :: as, t => perform (fun n => envs (n + 1)) as (exec (envs 0) t a)

/-- The slot that the first half filled holds the stored value behind the second, and a
COMPOUND flag is followed by the continuations, which the cached head covers. -/
structure Recorded (w : PreWrite) (after : Memory) (first second : Thread) (slot : ℕ) : Prop where
  value : (second.slots slot).value = w.stored after
  continued : (first.slots slot).isCompound = true →
    1 < totalSlots w.size ∧ first.cached + totalSlots w.size ≤ second.cached ∧
      ∃ chunks, ∀ k < totalSlots w.size - 1, second.slots (second.capacity.index (slot + 1 + k)) =
        continuation w.ea w.size first.tid chunks k

/-- An immediate is at most a word and what the instruction stores. A re-read word is 0
behind the store, and in the last instruction of a block, where it is read too early,
the store changes nothing. The clean call, and a re-read that faults because the word goes on
where nothing is mapped, are for zeros only. -/
def PreWrite.Recordable (w : PreWrite) (effect : Memory → Memory) (last : Bool) (mem : Memory) :
    Prop :=
  match w.imm with
  | some v => w.wide = false ∧ v = w.stored (effect mem)
  | none =>
      let byte (m : Memory) (k : ℕ) := byteAt m (w.ea + UInt64.ofNat k)
      let seen := if last then mem else effect mem
      if w.size ≤ 8 ∨ w.wide = true then
        (w.wide = true → 1 < totalSlots w.size) ∧
          if Readable seen w.ea 8 then
            (last = true → ∀ k < w.width, byte mem k = byte (effect mem) k) ∧
              ∀ k < 8, w.width ≤ k → byte seen k = 0
          else ∀ k < w.width, byte (effect mem) k = 0
      else ∀ k < 8, byte (effect mem) k = 0

section Perform

theorem perform_append (envs : ℕ → Env) (as bs : List Action) (t : Thread) :
    perform envs (as ++ bs) t =
      perform (fun n => envs (as.length + n)) bs (perform envs as t) := by
  induction as generalizing envs t with
  | nil => simp only [List.nil_append, List.length_nil, Nat.zero_add, perform]
  | cons a as ih =>
      rw [List.cons_append, perform, ih, perform, List.length_cons]
      congr 1
      funext n
      congr 1
      omega

/-- What each action keeps, the code keeps. -/
theorem perform_invariant {P : Thread → Prop} {as : List Action}
    (h : ∀ a ∈ as, ∀ env t, P t → P (exec env t a)) (envs : ℕ → Env) {t : Thread} (ht : P t) :
    P (perform envs as t) := by
  induction as generalizing envs t with
  | nil => exact ht
  | cons a as ih =>
      exact ih (fun b hb => h b (List.mem_cons_of_mem a hb)) _ (h a List.mem_cons_self _ _ ht)

end Perform

section Split
variable {i : Instr} {w : PreWrite}

theorem isPreWrite_readCode (i : Instr) : i.readCode.countP Action.isPreWrite = 0 := by
  rw [List.countP_eq_zero]
  intro a ha
  unfold Instr.readCode at ha
  split at ha
  · cases ha
  · split at ha
    · obtain rfl := List.mem_singleton.mp ha
      nofun
    · rcases List.mem_cons.mp ha with rfl | ha
      · nofun
      · obtain ⟨src, -, hsrc⟩ := List.mem_filterMap.mp ha
        split at hsrc
        · obtain rfl := Option.some.inj hsrc
          nofun
        · cases hsrc

theorem isPreWrite_controlCode (i : Instr) (last : Bool) :
    (i.controlCode last).countP Action.isPreWrite = 0 := by
  rw [List.countP_eq_zero]
  intro a ha
  simp only [Instr.controlCode, List.mem_append, List.mem_map] at ha
  rcases ha with (⟨_, -, rfl⟩ | ha) | ha
  · exact Bool.false_ne_true
  · split at ha
    · obtain rfl := List.mem_singleton.mp ha
      exact Bool.false_ne_true
    · cases ha
  · split at ha
    · obtain ⟨_, -, rfl⟩ := List.mem_map.mp ha
      exact Bool.false_ne_true
    · cases ha

/-- The code of the rest of a block holds that of each store in it, behind the first
halves of the stores before. -/
theorem insertFrom_split (hw : i.preWrite = some w) (hasReads first : Bool)
    (pending : Option PostWrite) (xs ys : List Instr) : ∃ before after,
      insertFrom hasReads first pending (xs ++ i :: ys) =
        before ++ (i.storeCode w ys.isEmpty ++ after) ∧
      before.countP Action.isPreWrite = xs.countP (fun j => j.preWrite.isSome) := by
  have hpending (pending : Option PostWrite) :
      (pending.toList.map Action.emitPostWrite).countP Action.isPreWrite = 0 := by
    cases pending <;> rfl
  have hentry (first : Bool) (j : Instr) :
      (if first && j.inMain && j.entryOk then [Action.emitBbEntry j.pc j.rip] else []).countP
        Action.isPreWrite = 0 := by
    split <;> rfl
  induction xs generalizing first pending with
  | nil =>
      refine ⟨(if first && i.inMain && i.entryOk then [.emitBbEntry i.pc i.rip] else []) ++
        (pending.toList.map .emitPostWrite ++ i.controlCode ys.isEmpty), ?_⟩
      cases ys with
      | nil =>
          refine ⟨.flushHeadCache :: (i.readCode ++
            ((if hasReads then [.flushReadBuf] else []) ++ [.app i.effect])), ?_, ?_⟩
          · simp only [List.nil_append, insertFrom, hw, Instr.storeCode, Instr.between,
              List.isEmpty_nil, if_true, Option.toList_some, List.map_cons, List.map_nil,
              List.append_assoc, List.cons_append, Bool.true_and]
          · simp only [List.countP_append, hentry, hpending, isPreWrite_controlCode]
            rfl
      | cons j ys =>
          refine ⟨insertFrom hasReads false none (j :: ys), ?_, ?_⟩
          · simp only [List.nil_append, insertFrom, hw, Instr.storeCode, Instr.between,
              List.isEmpty_cons, Bool.false_eq_true, if_false, Option.toList_some, Option.toList_none, Option.map_some,
              List.map_cons, List.map_nil, List.append_assoc, List.cons_append, Bool.false_and]
          · simp only [List.countP_append, hentry, hpending, isPreWrite_controlCode]
            rfl
  | cons x xs ih =>
      have hlast : (xs ++ i :: ys).isEmpty = false := by cases xs <;> rfl
      obtain ⟨before, after, hcode, hcount⟩ := ih false (x.preWrite.map PreWrite.post)
      refine ⟨(if first && x.inMain && x.entryOk then [.emitBbEntry x.pc x.rip] else []) ++
        (pending.toList.map .emitPostWrite ++ (x.controlCode false ++
          (x.preWrite.toList.map (.emitPreWrite · x.effect) ++
            (x.readCode ++ (.app x.effect :: before))))), after, ?_, ?_⟩
      · rw [List.cons_append, insertFrom]
        simp only [hlast, Bool.false_eq_true, if_false, Bool.false_and, List.nil_append, hcode,
          List.append_assoc, List.cons_append]
      · simp only [List.countP_append, hentry, hpending, isPreWrite_controlCode,
          isPreWrite_readCode, List.countP_cons, hcount]
        cases x.preWrite <;> simp [Action.isPreWrite, Nat.add_comm]

end Split

section Between

/-- What the code between the halves leaves of the state that the first one made, with
memory as given. -/
structure Between (first : Thread) (slot : ℕ) (mem : Memory) (t : Thread) : Prop where
  capacity : t.capacity = first.capacity
  tid : t.tid = first.tid
  scratch0 : t.scratch0 = first.scratch0
  scratch1 : t.scratch1 = first.scratch1
  cached_le : first.cached ≤ t.cached
  threadId : (t.slots slot).threadId = first.tid
  mem : t.mem = mem

variable {first t : Thread} {slot : ℕ} {mem : Memory}

theorem storeRun_cases (c : Capacity) (slots : ℕ → Event) (base : ℕ) (events : List Event) (p : ℕ) :
    storeRun c slots base events p = slots p ∨ storeRun c slots base events p ∈ events := by
  induction events generalizing slots base with
  | nil => exact .inl rfl
  | cons e es ih =>
      rcases ih (Function.update slots (c.index base) e) (base + 1) with h | h
      · rw [storeRun, h]
        by_cases hp : p = c.index base
        · rw [hp, Function.update_self]
          exact .inr List.mem_cons_self
        · rw [Function.update_of_ne hp]
          exact .inl rfl
      · exact .inr (List.mem_cons_of_mem e h)

/-- A flush may take the slot of the store in flight, for an event of the same thread. -/
theorem Between.flushReadBuf (h : Between first slot mem t) (env : Env) :
    Between first slot mem (t.flushReadBuf env) := by
  rcases flushReadBuf_cases env t with ⟨-, heq | heq⟩ | ⟨seq, heq⟩
  · rw [heq]
    exact h
  · rw [heq]
    exact ⟨h.capacity, h.tid, h.scratch0, h.scratch1, h.cached_le, h.threadId, h.mem⟩
  · rw [heq]
    refine ⟨h.capacity, h.tid, h.scratch0, h.scratch1, h.cached_le.trans (Nat.le_add_right ..), ?_,
      h.mem⟩
    rcases storeRun_cases t.capacity t.slots t.cached (pushed Thread.readPushes env t) slot with
      hold | hnew
    · exact (congrArg Event.threadId hold).trans h.threadId
    · obtain ⟨p, hp, q, he⟩ := mem_pushed hnew
      obtain ⟨r, -, rfl⟩ := List.mem_map.mp hp
      exact (congrArg Event.threadId (List.mem_singleton.mp he)).trans h.tid

theorem Between.readCode {i : Instr} (hstore : i.preWrite ≠ none) (h : Between first slot mem t)
    (envs : ℕ → Env) : Between first slot mem (perform envs i.readCode t) := by
  refine perform_invariant (fun a ha env u hu => ?_) envs h
  unfold Instr.readCode at ha
  split at ha
  · cases ha
  · split at ha
    · rename_i hreload
      exact absurd (Instr.store_of_reload (by rw [hreload]; nofun)) hstore
    · rcases List.mem_cons.mp ha with rfl | ha
      · simp only [exec, Thread.flushReadBufIfNeeded]
        split
        · exact hu
        · split
          · exact hu
          · exact hu.flushReadBuf env
      · obtain ⟨src, -, hsrc⟩ := List.mem_filterMap.mp ha
        split at hsrc
        · obtain rfl := Option.some.inj hsrc
          exact ⟨hu.capacity, hu.tid, hu.scratch0, hu.scratch1, hu.cached_le, hu.threadId, hu.mem⟩
        · cases hsrc

end Between

section SecondHalf
variable {first t : Thread} {slot : ℕ} {mem : Memory} {w : PreWrite}

theorem emitPostWrite_slots {p : PostWrite} (hs1 : t.scratch1 = some slot) :
    (t.emitPostWrite p).slots = (t.captureValue p slot).slots ∧
      (t.emitPostWrite p).cached = (t.captureValue p slot).cached + 1 ∧
      (t.emitPostWrite p).capacity = (t.captureValue p slot).capacity := by
  simp only [Thread.emitPostWrite, hs1, Thread.bumpHead, and_self]

/-- An immediate is in the slot already. -/
theorem emitPostWrite_imm {v : UInt64} (himm : w.imm = some v) (hs1 : t.scratch1 = some slot) :
    (t.emitPostWrite w.post).slots = t.slots ∧ (t.emitPostWrite w.post).cached = t.cached + 1 := by
  obtain ⟨hslots, hcached, -⟩ := emitPostWrite_slots (p := w.post) hs1
  have hkeep : t.captureValue w.post slot = t := by
    simp only [Thread.captureValue, PreWrite.post, himm, Option.isSome_some, Bool.not_true,
      Bool.false_and, Bool.false_eq_true, if_false]
  rw [hslots, hcached, hkeep]
  exact ⟨rfl, rfl⟩

/-- The clean call leaves 0 for a store of more than a word. -/
theorem emitPostWrite_clean (himm : w.imm = none) (hsize : ¬ w.size ≤ 8) (hwide : w.wide = false)
    (hs1 : t.scratch1 = some slot) : ((t.emitPostWrite w.post).slots slot).value = 0 := by
  obtain ⟨hslots, -⟩ := emitPostWrite_slots (p := w.post) hs1
  rw [hslots]
  simp only [Thread.captureValue, PreWrite.post, himm, hwide, Thread.safeReadIntoSlot, hsize,
    Thread.setValue, Option.isSome_none, Bool.not_false, decide_false, Bool.or_false,
    Bool.and_false, Bool.false_eq_true, if_false, if_true, Function.update_self]

/-- The continuations go behind the slot and leave it alone. -/
theorem compoundFill_slots (hcap : t.capacity = THREAD_RING_CAPACITY) (hs1 : t.scratch1 = some slot)
    (hslot : slot < THREAD_RING_CAPACITY.size) {size : UInt32} (hone : ¬ totalSlots size ≤ 1) :
    (t.compoundFillContinuations size).slots slot = t.slots slot ∧
      (t.compoundFillContinuations size).cached = t.cached + (totalSlots size - 1) ∧
      (t.compoundFillContinuations size).capacity = THREAD_RING_CAPACITY ∧
      ∀ k < totalSlots size - 1,
        (t.compoundFillContinuations size).slots (THREAD_RING_CAPACITY.index (slot + 1 + k)) =
          continuation t.scratch0 size (t.slots slot).threadId (Thread.chunk t.mem t.scratch0 size) k := by
  have htotal := Op.totalSlots_le size
  have hsize : THREAD_RING_CAPACITY.size = 2 ^ 20 := rfl
  have hindex : THREAD_RING_CAPACITY.index slot = slot := by
    rw [Capacity.index_eq_mod, Nat.mod_eq_of_lt hslot]
  simp only [Thread.compoundFillContinuations, hs1, hone, if_false, hcap, true_and]
  constructor
  · have hroom (events : List Event) (h : events.length ≤ 8) :
        storeRun THREAD_RING_CAPACITY t.slots (slot + 1) events (THREAD_RING_CAPACITY.index slot) =
          t.slots (THREAD_RING_CAPACITY.index slot) :=
      storeRun_before events (Nat.lt_succ_self slot) (by omega)
    rw [hindex] at hroom
    exact hroom _ (by rw [List.length_map, List.length_range]; omega)
  · intro k hk
    refine storeRun_at ?_ (by rw [List.length_map, List.length_range]; omega)
    rw [List.getElem?_map, List.getElem?_range hk]
    rfl

/-- The inline re-read, with the continuations of a wide store. -/
theorem Between.reread (h : Between first slot mem t) (hcap : first.capacity = THREAD_RING_CAPACITY)
    (hslot : slot < first.capacity.size) (hs1 : first.scratch1 = some slot)
    (hs0 : first.scratch0 = w.ea) (himm : w.imm = none) (hreread : w.size ≤ 8 ∨ w.wide = true) :
    ((t.emitPostWrite w.post).slots slot).value = readMem mem w.ea 8 ∧
      (w.wide = true → 1 < totalSlots w.size →
        first.cached + totalSlots w.size ≤ (t.emitPostWrite w.post).cached ∧
          ∃ chunks, ∀ k < totalSlots w.size - 1,
            (t.emitPostWrite w.post).slots
                ((t.emitPostWrite w.post).capacity.index (slot + 1 + k)) =
              continuation w.ea w.size first.tid chunks k) := by
  have hs1' : t.scratch1 = some slot := h.scratch1.trans hs1
  have hs0' : t.scratch0 = w.ea := h.scratch0.trans hs0
  have hcap' : t.capacity = THREAD_RING_CAPACITY := h.capacity.trans hcap
  have hle := h.cached_le
  have hread : t.captureValue w.post slot =
      if w.wide = true then
        (t.setValue slot (readMem mem w.ea 8)).compoundFillContinuations w.size
      else t.setValue slot (readMem mem w.ea 8) := by
    have hor : (decide (w.size ≤ 8) || w.wide) = true := by simpa using hreread
    simp only [Thread.captureValue, PreWrite.post, himm, Option.isSome_none, Bool.not_false, hor,
      Bool.true_and, if_true, h.mem, hs0']
  obtain ⟨hslots, hcached, hcapacity⟩ := emitPostWrite_slots (p := w.post) hs1'
  rw [hslots, hcached, hcapacity, hread]
  by_cases hwide : w.wide = true
  · rw [if_pos hwide]
    by_cases hone : totalSlots w.size ≤ 1
    · simp only [Thread.compoundFillContinuations, Thread.setValue, hs1', hone, if_true,
        Function.update_self, true_and]
      exact fun _ hmore => absurd hone (Nat.not_le.mpr hmore)
    · obtain ⟨hkept, hmoved, hcaps, hcont⟩ :=
        compoundFill_slots (t := t.setValue slot (readMem mem w.ea 8)) hcap' hs1' (hcap ▸ hslot) hone
      rw [hkept, hmoved, hcaps]
      simp only [Thread.setValue, Function.update_self, true_and, hs0', h.threadId, h.mem] at hcont ⊢
      exact fun _ _ => ⟨by omega, Thread.chunk mem w.ea w.size, hcont⟩
  · rw [if_neg hwide]
    refine ⟨?_, fun hyes => absurd hyes hwide⟩
    simp only [Thread.setValue, Function.update_self]

end SecondHalf

section Stores
variable {t : Thread} {slot : ℕ} {w : PreWrite} {i : Instr} {env : Env}

/-- A first half that fills a slot. -/
structure Filled (w : PreWrite) (t first : Thread) (slot : ℕ) : Prop where
  capacity : first.capacity = t.capacity
  slot_lt : slot < first.capacity.size
  scratch0 : first.scratch0 = w.ea
  scratch1 : first.scratch1 = some slot
  mem : first.mem = t.mem
  threadId : (first.slots slot).threadId = first.tid
  isCompound : (first.slots slot).isCompound = w.wide
  value : ∀ v, w.imm = some v → (first.slots slot).value = v

theorem filled_emitPreWrite (h : (t.emitPreWrite w env).scratch1 = some slot) :
    Filled w t (t.emitPreWrite w env) slot := by
  rcases t.emitPreWrite_cases w env with ⟨_, _, _, heq⟩ | heq
  · rw [heq] at h
    cases h
  · rw [heq] at h ⊢
    obtain rfl := Option.some.inj h
    refine ⟨rfl, ?_, rfl, rfl, rfl, ?_, ?_, fun v hv => ?_⟩
    · rw [Capacity.index_eq_mod]
      exact Nat.mod_lt _ t.capacity.size_pos
    · simp only [Function.update_self]
      rfl
    · simp only [Function.update_self]
      have hflags : (t.preWritten w (t.slots (t.capacity.index t.cached))).flags =
        if w.wide then FLAG_COMPOUND else 0 := flags_makeKf ..
      rw [Event.isCompound, hflags]
      cases w.wide <;> rfl
    · simp only [Function.update_self, Thread.preWritten, hv, Option.getD_some]

/-- Behind the code between the halves memory is as the store left it, but in the last
instruction of a block as it was. -/
theorem Filled.between {first : Thread} (h : Filled w t first slot) (hw : i.preWrite = some w)
    (last : Bool) (envs : ℕ → Env) :
    Between first slot (if last then t.mem else i.effect t.mem)
      (perform envs (i.between last) first) := by
  have hstart : Between first slot t.mem first :=
    ⟨rfl, rfl, rfl, rfl, le_rfl, h.threadId, h.mem⟩
  cases last with
  | true => exact hstart
  | false =>
      have hread := hstart.readCode (i := i) (by rw [hw]; nofun) envs
      simp only [Instr.between, Bool.false_eq_true, if_false, perform_append]
      exact ⟨hread.capacity, hread.tid, hread.scratch0, hread.scratch1, hread.cached_le,
        hread.threadId, congrArg i.effect hread.mem⟩

/-- With an immediate there is nothing but the instruction between the halves. -/
theorem slots_between {v : UInt64} (hw : i.preWrite = some w) (himm : w.imm = some v) (last : Bool)
    (envs : ℕ → Env) (first : Thread) :
    (perform envs (i.between last) first).slots = first.slots ∧
      (perform envs (i.between last) first).cached = first.cached := by
  have hsrcs : i.srcs.any Src.isMem = false := by
    obtain ⟨_, -, rfl⟩ := Option.map_eq_some_iff.mp hw
    simp only [Instr.imm] at himm
    split at himm
    · cases himm
    · rename_i hopen
      simp only [Bool.or_eq_true, not_or, Bool.not_eq_true] at hopen
      exact hopen.2
  cases last with
  | true => exact ⟨rfl, rfl⟩
  | false =>
      have hbetween : i.between false = [.app i.effect] := by
        simp only [Instr.between, Instr.readCode, hsrcs, Bool.false_eq_true, if_false, Bool.not_false,
          if_true, List.nil_append]
      rw [hbetween]
      exact ⟨rfl, rfl⟩

theorem width_le (w : PreWrite) : w.width ≤ 8 := by
  show (if w.size ≤ 8 then w.size else 8).toNat ≤ 8
  split
  · exact UInt32.le_iff_toNat_le.mp ‹_›
  · exact le_rfl

theorem width_of_wide (h : ¬ w.size ≤ 8) : w.width = 8 :=
  congrArg UInt32.toNat (if_neg h)

/-- The re-read word is the stored value: what it shows of the store is what is there, or it
faults on a store of zeros. -/
theorem readMem_eq_stored_iff (effect : Memory → Memory) (last : Bool) (mem : Memory) :
    readMem (if last then mem else effect mem) w.ea 8 = w.stored (effect mem) ↔
      if Readable (if last then mem else effect mem) w.ea 8 then
        (last = true → ∀ k < w.width, byteAt mem (w.ea + UInt64.ofNat k) =
          byteAt (effect mem) (w.ea + UInt64.ofNat k)) ∧
        ∀ k < 8, w.width ≤ k →
          byteAt (if last then mem else effect mem) (w.ea + UInt64.ofNat k) = 0
      else ∀ k < w.width, byteAt (effect mem) (w.ea + UInt64.ofNat k) = 0 := by
  by_cases hread : Readable (if last then mem else effect mem) w.ea 8
  · have hsame : (∀ k < w.width,
        byteAt (if last then mem else effect mem) (w.ea + UInt64.ofNat k) =
          byteAt (effect mem) (w.ea + UInt64.ofNat k)) ↔
        (last = true → ∀ k < w.width, byteAt mem (w.ea + UInt64.ofNat k) =
          byteAt (effect mem) (w.ea + UInt64.ofNat k)) := by
      cases last <;> simp
    rw [readMem, if_pos hread, if_pos hread, PreWrite.stored,
      wordAt_eq_iff _ _ (width_le w) le_rfl, hsame]
  · have hzero := wordAt_eq_iff (effect mem) mem (Nat.zero_le w.width) (width_le w) w.ea
    rw [readMem, if_neg hread, if_neg hread, PreWrite.stored, eq_comm]
    refine hzero.trans ?_
    simp

section Captured
variable {first : Thread} {after : Memory}

/-- An immediate is what was stored, and is not followed by continuations. -/
theorem Filled.recorded_imm (h : Filled w t first slot) (hw : i.preWrite = some w) {v : UInt64}
    (himm : w.imm = some v) (last : Bool) (envs : ℕ → Env) :
    Recorded w after first ((perform envs (i.between last) first).emitPostWrite w.post) slot ↔
      w.wide = false ∧ v = w.stored after := by
  have hs1 := (h.between hw last envs).scratch1.trans h.scratch1
  obtain ⟨hslots, hcached⟩ := emitPostWrite_imm himm hs1
  obtain ⟨hkept, hstay⟩ := slots_between hw himm last envs first
  have hvalue := h.value v himm
  constructor
  · rintro ⟨hright, hcont⟩
    rw [hslots, hkept, hvalue] at hright
    refine ⟨?_, hright⟩
    by_contra hwide
    obtain ⟨hmore, hcover, -⟩ := hcont (by rw [h.isCompound]; simpa using hwide)
    rw [hcached, hstay] at hcover
    omega
  · rintro ⟨hwide, hright⟩
    refine ⟨by rw [hslots, hkept, hvalue, hright], fun hflag => ?_⟩
    rw [h.isCompound, hwide] at hflag
    cases hflag

/-- A re-read word is what memory holds behind the code between the halves. -/
theorem Filled.recorded_reread (h : Filled w t first slot) (hcap : t.capacity = THREAD_RING_CAPACITY)
    (hw : i.preWrite = some w) (himm : w.imm = none) (hreread : w.size ≤ 8 ∨ w.wide = true)
    (last : Bool) (envs : ℕ → Env) :
    Recorded w after first ((perform envs (i.between last) first).emitPostWrite w.post) slot ↔
      (w.wide = true → 1 < totalSlots w.size) ∧
        readMem (if last then t.mem else i.effect t.mem) w.ea 8 = w.stored after := by
  obtain ⟨hvalue, hcont⟩ := (h.between hw last envs).reread (h.capacity.trans hcap) h.slot_lt
    h.scratch1 h.scratch0 himm hreread
  constructor
  · rintro ⟨hright, hmore⟩
    exact ⟨fun hwide => (hmore (h.isCompound.trans hwide)).1, hvalue.symm.trans hright⟩
  · rintro ⟨hmore, hright⟩
    refine ⟨hvalue.trans hright, fun hflag => ?_⟩
    have hwide := h.isCompound.symm.trans hflag
    exact ⟨hmore hwide, hcont hwide (hmore hwide)⟩

/-- The clean call leaves 0. -/
theorem Filled.recorded_clean (h : Filled w t first slot) (hw : i.preWrite = some w)
    (himm : w.imm = none) (hsize : ¬ w.size ≤ 8) (hwide : w.wide = false) (last : Bool)
    (envs : ℕ → Env) :
    Recorded w after first ((perform envs (i.between last) first).emitPostWrite w.post) slot ↔
      0 = w.stored after := by
  have hs1 := (h.between hw last envs).scratch1.trans h.scratch1
  have hvalue := emitPostWrite_clean himm hsize hwide hs1
  constructor
  · rintro ⟨hright, -⟩
    rwa [hvalue] at hright
  · refine fun hright => ⟨hvalue.trans hright, fun hflag => ?_⟩
    rw [h.isCompound, hwide] at hflag
    cases hflag

end Captured

theorem recorded_iff (hcap : t.capacity = THREAD_RING_CAPACITY) (hw : i.preWrite = some w)
    (last : Bool) (envs : ℕ → Env) (h : (t.emitPreWrite w (envs 0)).scratch1 = some slot) :
    Recorded w (i.effect t.mem) (t.emitPreWrite w (envs 0)) (perform envs (i.storeCode w last) t)
      slot ↔ w.Recordable i.effect last t.mem := by
  have hfilled := filled_emitPreWrite h
  have hcode : perform envs (i.storeCode w last) t =
      (perform (fun n => envs (n + 1)) (i.between last) (t.emitPreWrite w (envs 0))).emitPostWrite
        w.post := by
    rw [Instr.storeCode, perform, perform_append]
    rfl
  rw [hcode, PreWrite.Recordable]
  cases himm : w.imm with
  | some v => exact hfilled.recorded_imm hw himm last fun n => envs (n + 1)
  | none =>
      by_cases hreread : w.size ≤ 8 ∨ w.wide = true
      · simp only [if_pos hreread]
        rw [hfilled.recorded_reread hcap hw himm hreread last fun n => envs (n + 1)]
        exact and_congr_right' (readMem_eq_stored_iff i.effect last t.mem)
      · rw [not_or, Bool.not_eq_true] at hreread
        obtain ⟨hsize, hwide⟩ := hreread
        have hiff := wordAt_eq_iff (i.effect t.mem) t.mem (Nat.zero_le 8) le_rfl w.ea
        have hstored : w.stored (i.effect t.mem) = wordAt (i.effect t.mem) w.ea 8 := by
          rw [PreWrite.stored, width_of_wide hsize]
        simp only [hsize, hwide, Bool.false_eq_true, or_self, if_false]
        rw [hfilled.recorded_clean hw himm hsize hwide last fun n => envs (n + 1), hstored, eq_comm]
        refine hiff.trans ?_
        simp

end Stores

/-- `vextracti128 [0x2000], ymm, 1`, with 7 in the upper half of the register. -/
def Instr.extracts : Instr where
  pc := 0x1000
  rip := 0x1000
  inMain := true
  entryOk := false
  callTo := none
  isReturn := false
  tailCallTo := none
  forceClean := false
  dsts := [.mem 16 0x2000 true]
  srcs := [.reg false, .imm 1]
  effect := fun m => Function.update m 0x2000 (some 7)

end Rtmap.Tracer
