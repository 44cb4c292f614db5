import Rtmap.Tracer.ValueCapture

/-!
# The slots of a compound write

`compound_fill_continuations` cuts a wide store into chunks of eight bytes and stores
them behind the header, as many as the engine's `compound_slots` makes of the header.
Sizes are of 32 bits in the tracer and of 64 in the engine, so the two counts part
where the tracer's `write_size + 7` wraps.
-/
namespace Rtmap.Tracer
open Rtmap.Ring

/-- A part of a store as a slot tells it. -/
structure Piece where
  addr : UInt64
  len : ℕ
  value : UInt64

/-- The pieces cover `total` bytes from `a` on, one behind the other. -/
def Tiles (a : UInt64) : List Piece → ℕ → Prop
  | [], total => total = 0
  | p :: ps, total => p.addr = a ∧ 0 < p.len ∧ p.len ≤ total ∧
      Tiles (a + UInt64.ofNat p.len) ps (total - p.len)

/-- The bytes of the piece are those of memory. A piece that is not mapped, which none of a store
just made is, carries 0. -/
def Piece.Carries (p : Piece) (m : Memory) : Prop :=
  if Readable m p.addr p.len then
    ∀ j < p.len, (p.value >>> UInt64.ofNat (8 * j)).toUInt8 = byteAt m (p.addr + UInt64.ofNat j)
  else p.value = 0

section Pieces
variable {ea : UInt64} {size n : ℕ} {value : ℕ → UInt64}

/-- Piece `k` of a store of `size` bytes that is cut at every word. -/
def wordPiece (ea : UInt64) (size : ℕ) (value : ℕ → UInt64) (k : ℕ) : Piece :=
  ⟨ea + UInt64.ofNat (8 * k), min (size - 8 * k) 8, value k⟩

theorem tiles_wordPieces {i m : ℕ} (hn : n = min ((size + 7) / 8) 8) (him : i + m = n) :
    Tiles (ea + UInt64.ofNat (8 * i)) ((List.range' i m).map (wordPiece ea size value))
      (min size 64 - 8 * i) := by
  induction m generalizing i with
  | zero =>
      simp only [List.range'_zero, List.map_nil, Tiles]
      omega
  | succ m ih =>
      refine ⟨rfl, by simp only [wordPiece]; omega, by simp only [wordPiece]; omega, ?_⟩
      rcases Nat.eq_zero_or_pos m with rfl | hm
      · simp only [List.range'_zero, List.map_nil, Tiles, wordPiece]
        omega
      · -- only the last piece is shorter than a word
        have hword : (wordPiece ea size value i).len = 8 := by
          simp only [wordPiece]
          omega
        have hnext := ih (i := i + 1) (by omega)
        rw [hword, UInt64.add_assoc, ← UInt64.ofNat_add, Nat.sub_sub]
        exact hnext

theorem byte_of_wordAt (m : Memory) {n j : ℕ} (hn : n ≤ 8) (hj : j < n) (a : UInt64) :
    (wordAt m a n).toNat / 256 ^ j % 256 = (byteAt m (a + UInt64.ofNat j)).toNat := by
  induction j generalizing a n with
  | zero =>
      obtain ⟨k, rfl⟩ := Nat.exists_eq_add_one.mpr hj
      have hbyte := (byteAt m a).toNat_lt
      rw [toNat_wordAt_succ m hn a, show a + UInt64.ofNat 0 = a from UInt64.add_zero a]
      omega
  | succ j ih =>
      obtain ⟨k, rfl⟩ := Nat.exists_eq_add_one.mpr (Nat.zero_lt_of_lt hj)
      have hbyte := (byteAt m a).toNat_lt
      have hrest := ih (n := k) (by omega) (by omega) (a + 1)
      have hdrop : ((byteAt m a).toNat + 256 * (wordAt m (a + 1) k).toNat) / 256 =
          (wordAt m (a + 1) k).toNat := by omega
      rw [toNat_wordAt_succ m hn a, Nat.pow_succ, Nat.mul_comm (256 ^ j),
        ← Nat.div_div_eq_div_mul, hdrop, hrest, UInt64.ofNat_add, UInt64.add_assoc,
        UInt64.add_comm 1]
      rfl

theorem carries_readMem (m : Memory) (a : UInt64) {n : ℕ} (hn : n ≤ 8) :
    Piece.Carries ⟨a, n, readMem m a n⟩ m := by
  unfold Piece.Carries readMem
  dsimp only
  split
  swap
  · rfl
  intro j hj
  have hshift : (UInt64.ofNat (8 * j)).toNat % 64 = 8 * j := by
    rw [UInt64.toNat_ofNat']
    omega
  have hpow : 2 ^ (8 * j) = 256 ^ j := by
    rw [Nat.pow_mul]
  apply UInt8.toNat_inj.mp
  rw [UInt64.toNat_toUInt8, UInt64.toNat_shiftRight, hshift, Nat.shiftRight_eq_div_pow, hpow]
  exact byte_of_wordAt m hn hj a

end Pieces

namespace Thread

/-- The header's chunk and those of the continuations, as the slots of `t` tell them. -/
def pieces (t : Thread) (h n : ℕ) : List Piece :=
  ⟨t.scratch0, 8, (t.slots (t.capacity.index h)).value⟩ ::
    (List.range' 1 (n - 1)).map fun k =>
      let slot := t.slots (t.capacity.index (h + k))
      ⟨slot.addr, slot.size.toNat, slot.value⟩

end Thread

/-- The second half of a wide store of `size` bytes with its header at position `h`: the
continuations fill the slots behind the header, as many as the engine counts, and nothing
else; header and continuations tile the store and carry it; and the cached head moves
past them. -/
structure CompoundWritten (t : Thread) (h : ℕ) (size : UInt32) (n : ℕ) : Prop where
  filled : ∀ k, 1 ≤ k → k < n →
    let slot := (t.compoundFillContinuations size).slots (t.capacity.index (h + k))
    slot.kind = EVENT_WRITE ∧ slot.isContinuation = true ∧
      slot.threadId = (t.slots (t.capacity.index h)).threadId
  frame : ∀ p, (∀ k, 1 ≤ k → k < n → p ≠ t.capacity.index (h + k)) →
    (t.compoundFillContinuations size).slots p = t.slots p
  inside : ∀ k, t.capacity.index (h + k) < t.capacity.size
  apart : ∀ j k, j < k → k < n → t.capacity.index (h + j) ≠ t.capacity.index (h + k)
  tiles : Tiles t.scratch0 ((t.emitPostWrite ⟨size, false, true⟩).pieces h n) (min size.toNat 64)
  carries : ∀ p ∈ (t.emitPostWrite ⟨size, false, true⟩).pieces h n, p.Carries t.mem
  cached : (t.emitPostWrite ⟨size, false, true⟩).cached = t.cached + n

section Codec
variable {t : Thread} {h : ℕ} {size : UInt32}

/-- The tracer's count is the engine's unless its sum wraps. -/
theorem totalSlots_eq (hfits : size.toNat + 7 < 2 ^ 32) :
    totalSlots size = min ((size.toNat + 7) / 8) 8 := by
  have hsum : (size + 7).toNat = size.toNat + 7 := by
    rw [UInt32.toNat_add]
    exact Nat.mod_eq_of_lt hfits
  rw [totalSlots, UInt32.toNat_div, hsum]
  rfl

theorem totalSlots_wraps (hwraps : 2 ^ 32 ≤ size.toNat + 7) : totalSlots size = 0 := by
  have hlt := size.toNat_lt
  have hsum : (size + 7).toNat = size.toNat + 7 - 2 ^ 32 := by
    rw [UInt32.toNat_add, show (7 : UInt32).toNat = 7 from rfl]
    omega
  have hzero : (size.toNat + 7 - 2 ^ 32) / (8 : UInt32).toNat = 0 := by
    rw [show (8 : UInt32).toNat = 8 from rfl]
    omega
  rw [totalSlots, UInt32.toNat_div, hsum, hzero, Nat.zero_min]

theorem compoundSlots_of_size {e : Event} (hflag : e.isCompound = true) :
    e.compoundSlots = min ((e.size.toNat + 7) / 8) 8 := by
  rw [Event.compoundSlots, hflag]
  rfl

/-- The length that a continuation tells. -/
theorem chunkSize_eq {k : ℕ} (hk : 8 * (k + 1) ≤ size.toNat) :
    chunkSize size k = min (size.toNat - 8 * (k + 1)) 8 := by
  have hlt := size.toNat_lt
  have hoff : ((k + 1 : ℕ).toUInt32 * 8).toNat = 8 * (k + 1) := by
    rw [UInt32.toNat_mul, show (8 : UInt32).toNat = 8 from rfl, Nat.toUInt32,
      UInt32.toNat_ofNat', Nat.mod_eq_of_lt (a := k + 1) (by omega)]
    omega
  have hsub : (size - (k + 1 : ℕ).toUInt32 * 8).toNat = size.toNat - 8 * (k + 1) := by
    rw [UInt32.toNat_sub_of_le _ _ (by rw [UInt32.le_iff_toNat_le, hoff]; exact hk), hoff]
  have hmin (a b : UInt32) : (min a b).toNat = min a.toNat b.toNat := by
    show (if a ≤ b then a else b).toNat = _
    rw [Nat.min_def]
    simp only [UInt32.le_iff_toNat_le]
    split <;> rfl
  rw [chunkSize, hmin, hsub]
  rfl

theorem chunkAddr_eq (ea : UInt64) (k : ℕ) :
    chunkAddr ea k = ea + UInt64.ofNat (8 * (k + 1)) := by
  rw [chunkAddr, Nat.toUInt64, Nat.mul_comm 8, UInt64.ofNat_mul]
  rfl

theorem storeRun_of_ne {c : Capacity} {slots : ℕ → Event} {base p : ℕ} {events : List Event}
    (hp : ∀ j < events.length, p ≠ c.index (base + j)) :
    storeRun c slots base events p = slots p := by
  induction events generalizing slots base with
  | nil => rfl
  | cons e es ih =>
      rw [storeRun, ih fun j hj => by
        rw [Nat.add_assoc, Nat.add_comm 1]
        exact hp (j + 1) (by simpa using hj)]
      exact Function.update_of_ne (hp 0 (by simp)) e slots

/-- What the fill stores behind the header, and where. -/
theorem compoundFill_spec (hcap : 8 ≤ t.capacity.size)
    (hs1 : t.scratch1 = some (t.capacity.index h)) (hone : 1 < totalSlots size) :
    (∀ k, 1 ≤ k → k < totalSlots size →
      (t.compoundFillContinuations size).slots (t.capacity.index (h + k)) =
        continuation t.scratch0 size (t.slots (t.capacity.index h)).threadId
          (Thread.chunk t.mem t.scratch0 size) (k - 1)) ∧
    (∀ p, (∀ k, 1 ≤ k → k < totalSlots size → p ≠ t.capacity.index (h + k)) →
      (t.compoundFillContinuations size).slots p = t.slots p) ∧
    (t.compoundFillContinuations size).cached = t.cached + (totalSlots size - 1) ∧
    (t.compoundFillContinuations size).capacity = t.capacity ∧
    (t.compoundFillContinuations size).scratch0 = t.scratch0 := by
  have htotal := Op.totalSlots_le size
  simp only [Thread.compoundFillContinuations, hs1, if_neg (Nat.not_le.mpr hone), and_true]
  rw [storeRun_index]
  constructor
  · intro k hk hlt
    rw [show h + k = h + 1 + (k - 1) by omega]
    refine storeRun_at ?_ (by rw [List.length_map, List.length_range]; omega)
    rw [List.getElem?_map, List.getElem?_range (by omega)]
    rfl
  · intro p hp
    refine storeRun_of_ne fun j hj => ?_
    rw [List.length_map, List.length_range] at hj
    rw [Nat.add_assoc, Nat.add_comm 1]
    exact hp (j + 1) (by omega) (by omega)

/-- The re-read of the header comes first, and the fill leaves the header alone. -/
theorem emitPostWrite_wide (hs1 : t.scratch1 = some (t.capacity.index h)) :
    let u := t.setValue (t.capacity.index h) (readMem t.mem t.scratch0 8)
    (t.emitPostWrite ⟨size, false, true⟩).slots = (u.compoundFillContinuations size).slots ∧
      (t.emitPostWrite ⟨size, false, true⟩).cached =
        (u.compoundFillContinuations size).cached + 1 ∧
      (t.emitPostWrite ⟨size, false, true⟩).capacity =
        (u.compoundFillContinuations size).capacity ∧
      (t.emitPostWrite ⟨size, false, true⟩).scratch0 =
        (u.compoundFillContinuations size).scratch0 := by
  simp only [Thread.emitPostWrite, hs1, Thread.captureValue, Bool.not_false, Bool.or_true,
    Bool.and_true, if_true, Thread.bumpHead, and_self]

variable (hcap : 8 ≤ t.capacity.size) (hs1 : t.scratch1 = some (t.capacity.index h))
  (hflag : (t.slots (t.capacity.index h)).isCompound = true)
  (hheader : (t.slots (t.capacity.index h)).size = size) (hsize : 8 < size)

include hflag hheader hsize in
theorem one_lt_compoundSlots :
    1 < (t.slots (t.capacity.index h)).compoundSlots ∧
      (t.slots (t.capacity.index h)).compoundSlots ≤ 8 := by
  have hlt : 8 < size.toNat := UInt32.lt_iff_toNat_lt.mp hsize
  rw [compoundSlots_of_size hflag, hheader]
  omega

include hs1 hflag hheader hsize in
/-- Where the tracer's sum wraps it stores no continuation. -/
theorem not_compoundWritten (hwraps : 2 ^ 32 ≤ size.toNat + 7) :
    ¬ CompoundWritten t h size (t.slots (t.capacity.index h)).compoundSlots := by
  intro hwritten
  have hslots := one_lt_compoundSlots hflag hheader hsize
  have hnone : totalSlots size ≤ 1 := by
    rw [totalSlots_wraps hwraps]
    exact Nat.zero_le 1
  have hmoved : (t.emitPostWrite ⟨size, false, true⟩).cached = t.cached + 1 := by
    obtain ⟨-, hcached, -⟩ := @emitPostWrite_wide t h size hs1
    rw [hcached]
    simp only [Thread.compoundFillContinuations, Thread.setValue, hs1, if_pos hnone]
  have hall := hwritten.cached
  omega

theorem index_apart (hcap : 8 ≤ t.capacity.size) {n : ℕ} (hn : n ≤ 8) :
    ∀ j k, j < k → k < n → t.capacity.index (h + j) ≠ t.capacity.index (h + k) :=
  fun j k hjk hk => Capacity.index_ne (by omega) (by omega)

include hcap hs1 in
/-- After the second half the slots hold the words of the store, one behind the other. -/
theorem pieces_emitPostWrite (hone : 1 < totalSlots size) (hmax : totalSlots size ≤ 8)
    (hword : totalSlots size = min ((size.toNat + 7) / 8) 8) :
    (t.emitPostWrite ⟨size, false, true⟩).pieces h (totalSlots size) =
      (List.range' 0 (totalSlots size)).map
        (wordPiece t.scratch0 size.toNat fun k => readMem t.mem
          (t.scratch0 + UInt64.ofNat (8 * k)) (min (size.toNat - 8 * k) 8)) := by
  -- it stores the header's value before it calls the fill
  set u := t.setValue (t.capacity.index h) (readMem t.mem t.scratch0 8) with hu
  obtain ⟨hslots, -, hcapacity, hscratch⟩ := @emitPostWrite_wide t h size hs1
  obtain ⟨hfill, hframe, -, hcapacity', hscratch'⟩ := @compoundFill_spec u h size hcap hs1 hone
  have hfirst : ((u.compoundFillContinuations size).slots (t.capacity.index h)).value =
      readMem t.mem t.scratch0 8 := by
    rw [hframe (t.capacity.index h) fun k hk hlt => index_apart hcap hmax 0 k hk hlt]
    simp only [hu, Thread.setValue, Function.update_self]
  obtain ⟨m, hm⟩ := Nat.exists_eq_add_one.mpr (Nat.zero_lt_of_lt hone)
  rw [hm, List.range'_succ, List.map_cons, Thread.pieces, hslots, hcapacity, hcapacity', hscratch,
    hscratch']
  refine congrArg₂ List.cons ?_ (List.map_congr_left fun k hk => ?_)
  · have hone : min (size.toNat - 8 * 0) 8 = 8 := by omega
    have hbase : t.scratch0 + UInt64.ofNat (8 * 0) = t.scratch0 := UInt64.add_zero _
    rw [wordPiece, hone, hbase]
    exact congrArg _ hfirst
  · obtain ⟨hk1, hkm⟩ := List.mem_range'_1.mp hk
    obtain ⟨i, rfl⟩ := Nat.exists_eq_add_one.mpr hk1
    have hslot := hfill (i + 1) hk1 (by omega)
    have hlen := @chunkSize_eq size i (by omega)
    show Piece.mk _ _ _ = _
    rw [show u.capacity = t.capacity from rfl] at hslot ⊢
    rw [hslot, Nat.add_sub_cancel]
    show Piece.mk (chunkAddr t.scratch0 i) (chunkSize size i)
      (readMem t.mem (chunkAddr t.scratch0 i) (chunkSize size i)) = _
    rw [chunkAddr_eq, hlen]
    rfl

include hcap hs1 hflag hheader hsize in
theorem compoundWritten (hfits : size.toNat + 7 < 2 ^ 32) :
    CompoundWritten t h size (t.slots (t.capacity.index h)).compoundSlots := by
  obtain ⟨hone, hmax⟩ := one_lt_compoundSlots hflag hheader hsize
  have hlt : 8 < size.toNat := UInt32.lt_iff_toNat_lt.mp hsize
  have hn : (t.slots (t.capacity.index h)).compoundSlots = totalSlots size := by
    rw [compoundSlots_of_size hflag, hheader, totalSlots_eq hfits]
  rw [hn] at hone hmax ⊢
  have hword : totalSlots size = min ((size.toNat + 7) / 8) 8 := totalSlots_eq hfits
  have hpieces := pieces_emitPostWrite hcap hs1 hone hmax hword
  obtain ⟨hfill, hframe, -⟩ := compoundFill_spec hcap hs1 hone
  obtain ⟨-, hcached, -⟩ := @emitPostWrite_wide t h size hs1
  obtain ⟨-, -, hcached', -⟩ := @compoundFill_spec (t.setValue (t.capacity.index h)
    (readMem t.mem t.scratch0 8)) h size hcap hs1 hone
  refine ⟨fun k hk hklt => ?_, hframe, fun k => ?_, index_apart hcap hmax, ?_, ?_, ?_⟩
  · rw [hfill k hk hklt]
    refine ⟨kind_makeKf .., ?_, rfl⟩
    rw [Event.isContinuation, show Event.flags (continuation ..) = FLAG_CONTINUATION from
      flags_makeKf ..]
    rfl
  · rw [Capacity.index_eq_mod]
    exact Nat.mod_lt _ t.capacity.size_pos
  · rw [hpieces]
    have htiles := @tiles_wordPieces t.scratch0 size.toNat (totalSlots size) (fun k => readMem t.mem
      (t.scratch0 + UInt64.ofNat (8 * k)) (min (size.toNat - 8 * k) 8)) 0 _ hword (Nat.zero_add _)
    simpa using htiles
  · rw [hpieces]
    intro p hp
    obtain ⟨k, -, rfl⟩ := List.mem_map.mp hp
    exact carries_readMem t.mem _ (Nat.min_le_right _ _)
  · rw [hcached, hcached']
    simp only [Thread.setValue]
    omega

include hcap hs1 hflag hheader hsize in
/-- A wide store reaches the ring whole exactly if the sum of the tracer's slot count
fits 32 bits. -/
theorem compoundWritten_iff :
    CompoundWritten t h size (t.slots (t.capacity.index h)).compoundSlots ↔
      size.toNat + 7 < 2 ^ 32 := by
  refine ⟨fun hwritten => ?_, compoundWritten hcap hs1 hflag hheader hsize⟩
  by_contra hwraps
  exact not_compoundWritten hs1 hflag hheader hsize (Nat.not_lt.mp hwraps) hwritten

end Codec

/-- A thread between the halves of its first store, a wide one. -/
def wideStore (size : UInt32) : Thread :=
  (Thread.start THREAD_RING_CAPACITY true 1 fun _ => some 7).emitPreWrite
    ⟨0x1000, size, 0x40, none, true⟩ .plain

theorem compound_of_twenty_bytes :
    CompoundWritten (wideStore 20) 0 20 ((wideStore 20).slots 0).compoundSlots :=
  (compoundWritten_iff (t := wideStore 20) (h := 0) (by decide) rfl (by decide) rfl
    (by decide)).mpr (by decide)

end Rtmap.Tracer
