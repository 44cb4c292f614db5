import Rtmap.Tracer.PriorityReads

/-!
# The filter of priority addresses

The engine marks the bits of an address in the control page and the tracer tests them.
The hashes are written once in each of the two, and both index the 512 words
`priority_bloom` by them.
-/
namespace Rtmap.Ring

def BLOOM_U64S : ℕ := 512
def BLOOM_BITS : UInt32 := 512 * 64

/-- The engine's hash of the eight bytes of an address. -/
def bloomHash (basis prime : UInt32) (addr : UInt64) : UInt32 :=
  (List.range 8).foldl
    (fun h i => (h ^^^ ((addr >>> UInt64.ofNat (i * 8)) &&& 0xFF).toUInt32) * prime) basis

def bloomH1 (addr : UInt64) : UInt32 := bloomHash 0x811c9dc5 0x01000193 addr % BLOOM_BITS
def bloomH2 (addr : UInt64) : UInt32 := bloomHash 0x01000193 0x811c9dc5 addr % BLOOM_BITS

/-- `priority_bloom` of the control page. -/
abbrev PriorityBloom := Vector UInt64 BLOOM_U64S

/-- `priority_bloom[i] |= bits`. An index outside the array panics. -/
def orWord (bloom : PriorityBloom) (i : UInt64) (bits : UInt64) : Option PriorityBloom :=
  if h : i.toNat < BLOOM_U64S then some (bloom.set i.toNat (bloom[i.toNat] ||| bits)) else none

/-- `bloom_insert`. Indices are `usize`. -/
def bloomInsert (bloom : PriorityBloom) (addr : UInt64) : Option PriorityBloom := do
  let b1 := (bloomH1 addr).toUInt64
  let b2 := (bloomH2 addr).toUInt64
  let bloom ← orWord bloom (b1 / 64) (1 <<< (b1 % 64))
  orWord bloom (b2 / 64) (1 <<< (b2 % 64))

def bloomInsertAll (addrs : List UInt64) (bloom : PriorityBloom) : Option PriorityBloom :=
  addrs.foldlM bloomInsert bloom

/-- The filter of a fresh control page. -/
def zeroedBloom : PriorityBloom := Vector.replicate BLOOM_U64S 0

end Rtmap.Ring

namespace Rtmap.Tracer
open Rtmap.Ring (PriorityBloom)

/-- `bloom[i] & bits`. A read outside the array is undefined. -/
def testWord (bloom : PriorityBloom) (i : UInt32) (bits : UInt64) : Option Bool :=
  bloom[i.toNat]?.map fun word => word &&& bits != 0

/-- The second word is read if the first test succeeds. -/
def rtmapBloomQuery (bloom : PriorityBloom) (addr : UInt64) : Option Bool := do
  let b1 := bloomH1 addr
  let b2 := bloomH2 addr
  if ← testWord bloom (b1 / 64) (1 <<< (b1 % 64).toUInt64) then
    testWord bloom (b2 / 64) (1 <<< (b2 % 64).toUInt64)
  else
    return false

end Rtmap.Tracer

namespace Rtmap.Ring

section Hashes

theorem toUInt32_byte (x : UInt64) : (x &&& 0xFF).toUInt32 = x.toUInt8.toUInt32 := by
  have hmask : x.toNat &&& 255 = x.toNat % 2 ^ 8 := Nat.and_two_pow_sub_one_eq_mod x.toNat 8
  rw [← UInt32.toNat_inj, UInt64.toNat_toUInt32, UInt64.toNat_and, UInt8.toNat_toUInt32,
    UInt64.toNat_toUInt8, show (0xFF : UInt64).toNat = 255 from rfl, hmask]
  omega

theorem bloomHash_eq (basis prime : UInt32) (addr : UInt64) :
    bloomHash basis prime addr = Tracer.fnv basis prime addr := by
  unfold bloomHash Tracer.fnv
  congr 1
  funext h i
  rw [toUInt32_byte]

/-- The hashes agree on every address. -/
theorem bloomH1_eq (addr : UInt64) : bloomH1 addr = Tracer.bloomH1 addr := by
  rw [bloomH1, bloomHash_eq]
  rfl

theorem bloomH2_eq (addr : UInt64) : bloomH2 addr = Tracer.bloomH2 addr := by
  rw [bloomH2, bloomHash_eq]
  rfl

theorem toNat_mod_bits_lt (h : UInt32) : (h % BLOOM_BITS).toNat < BLOOM_U64S * 64 := by
  rw [UInt32.toNat_mod]
  exact Nat.mod_lt _ (by decide)

theorem bloomH1_lt (addr : UInt64) : (bloomH1 addr).toNat < BLOOM_U64S * 64 :=
  toNat_mod_bits_lt _

theorem bloomH2_lt (addr : UInt64) : (bloomH2 addr).toNat < BLOOM_U64S * 64 :=
  toNat_mod_bits_lt _

end Hashes

section Words
variable {bloom bloom' : PriorityBloom}

/-- The array as a set of bits. -/
def words (bloom : PriorityBloom) : Tracer.Bloom := fun i => bloom[i]?.getD 0

/-- An index in range marks its bit. -/
theorem orWord_bit {b : UInt32} (hb : b.toNat < BLOOM_U64S * 64) (bloom : PriorityBloom) :
    ∃ bloom', orWord bloom (b.toUInt64 / 64) (1 <<< (b.toUInt64 % 64)) = some bloom' ∧
      words bloom' = BitWords.set (words bloom) b.toNat := by
  have hdiv : (b.toUInt64 / 64).toNat = b.toNat / 64 := by
    rw [UInt64.toNat_div, UInt32.toNat_toUInt64]
    rfl
  have hbit : 1 <<< (b.toUInt64 % 64) = BitWords.mask b.toNat := by
    rw [BitWords.mask, ← UInt64.ofNat_toNat (x := b.toUInt64 % 64), UInt64.toNat_mod,
      UInt32.toNat_toUInt64]
    rfl
  have hlt : b.toNat / 64 < BLOOM_U64S := by omega
  rw [orWord, dif_pos (by rw [hdiv]; exact hlt), hbit]
  refine ⟨_, rfl, ?_⟩
  funext i
  simp only [words, BitWords.set, hdiv]
  by_cases hi : i = b.toNat / 64
  · rw [hi, Function.update_self, Vector.getElem?_set_self hlt, Vector.getElem?_eq_getElem hlt]
    rfl
  · rw [Function.update_of_ne hi, Vector.getElem?_set_ne hlt (Ne.symm hi), words]

theorem bloomInsert_eq (bloom : PriorityBloom) (addr : UInt64) :
    ∃ bloom', bloomInsert bloom addr = some bloom' ∧
      words bloom' = Tracer.bloomInsert (words bloom) addr := by
  obtain ⟨mid, hmid, hwords⟩ := orWord_bit (bloomH1_lt addr) bloom
  obtain ⟨bloom', hinsert, hwords'⟩ := orWord_bit (bloomH2_lt addr) mid
  refine ⟨bloom', ?_, ?_⟩
  · have hsteps : bloomInsert bloom addr =
        (orWord bloom ((bloomH1 addr).toUInt64 / 64) (1 <<< ((bloomH1 addr).toUInt64 % 64))).bind
          fun mid => orWord mid ((bloomH2 addr).toUInt64 / 64)
            (1 <<< ((bloomH2 addr).toUInt64 % 64)) := rfl
    rw [hsteps, hmid, Option.bind_some, hinsert]
  · rw [hwords', hwords, Tracer.bloomInsert, bloomH1_eq, bloomH2_eq]

theorem testWord_bit {b : UInt32} (hb : b.toNat < BLOOM_U64S * 64) (bloom : PriorityBloom) :
    Tracer.testWord bloom (b / 64) (1 <<< (b % 64).toUInt64) =
      some (BitWords.test (words bloom) b.toNat) := by
  have hlt : b.toNat / 64 < BLOOM_U64S := by omega
  have hdiv : (b / 64).toNat = b.toNat / 64 := UInt32.toNat_div b 64
  have hbit : 1 <<< (b % 64).toUInt64 = BitWords.mask b.toNat := by
    rw [BitWords.mask, ← UInt64.ofNat_toNat (x := (b % 64).toUInt64), UInt32.toNat_toUInt64,
      UInt32.toNat_mod]
    rfl
  rw [Tracer.testWord, hdiv, hbit, BitWords.test, words, Vector.getElem?_eq_getElem hlt]
  rfl

theorem rtmapBloomQuery_eq (bloom : PriorityBloom) (addr : UInt64) :
    Tracer.rtmapBloomQuery bloom addr = some (Tracer.bloomQuery (words bloom) addr) := by
  have h1 := testWord_bit (bloomH1_lt addr) bloom
  have h2 := testWord_bit (bloomH2_lt addr) bloom
  rw [bloomH1_eq] at h1
  rw [bloomH2_eq] at h2
  have hsteps : Tracer.rtmapBloomQuery bloom addr =
      (Tracer.testWord bloom (Tracer.bloomH1 addr / 64)
        (1 <<< (Tracer.bloomH1 addr % 64).toUInt64)).bind fun first =>
          if first then Tracer.testWord bloom (Tracer.bloomH2 addr / 64)
            (1 <<< (Tracer.bloomH2 addr % 64).toUInt64)
          else some false := rfl
  rw [hsteps, h1, h2, Option.bind_some, Tracer.bloomQuery]
  cases BitWords.test (words bloom) (Tracer.bloomH1 addr).toNat with
  | false => simp
  | true => simp

/-- The bits set in one filter are set in the other. -/
def Extends (bloom bloom' : PriorityBloom) : Prop :=
  ∀ b, BitWords.test (words bloom) b = true → BitWords.test (words bloom') b = true

/-- An insertion sets the bits of the two hashes and leaves every other bit. -/
theorem test_bloomInsert {addr : UInt64} (h : bloomInsert bloom addr = some bloom') (b : ℕ) :
    BitWords.test (words bloom') b =
      (BitWords.test (words bloom) b || (bloomH1 addr).toNat == b || (bloomH2 addr).toNat == b) := by
  obtain ⟨mid, hmid, hwords⟩ := bloomInsert_eq bloom addr
  obtain rfl : mid = bloom' := Option.some.inj (hmid.symm.trans h)
  rw [hwords, Tracer.bloomInsert, BitWords.test_set, BitWords.test_set, bloomH1_eq, bloomH2_eq]

theorem Extends.insert {addr : UInt64} (h : bloomInsert bloom addr = some bloom') :
    Extends bloom bloom' := by
  intro b hb
  rw [test_bloomInsert h, hb, Bool.true_or, Bool.true_or]

/-- The filter behind any insertions: it keeps the bits it had, and its query succeeds
on what was inserted. -/
theorem bloomInsertAll_spec (addrs : List UInt64) (bloom : PriorityBloom) :
    ∃ bloom', bloomInsertAll addrs bloom = some bloom' ∧ Extends bloom bloom' ∧
      ∀ addr ∈ addrs, Tracer.bloomQuery (words bloom') addr = true := by
  induction addrs generalizing bloom with
  | nil => exact ⟨bloom, rfl, fun _ hb => hb, by simp⟩
  | cons addr addrs ih =>
      obtain ⟨mid, hmid, hwords⟩ := bloomInsert_eq bloom addr
      obtain ⟨bloom', hrest, hext, hquery⟩ := ih mid
      refine ⟨bloom', ?_, fun b hb => hext b (Extends.insert hmid b hb), fun x hx => ?_⟩
      · simp only [bloomInsertAll, List.foldlM_cons, hmid] at hrest ⊢
        exact hrest
      · rcases List.mem_cons.mp hx with rfl | hx
        · have hself := Tracer.bloomQuery_insert_self (words bloom) x
          rw [← hwords, Tracer.bloomQuery, Bool.and_eq_true] at hself
          rw [Tracer.bloomQuery, Bool.and_eq_true]
          exact ⟨hext _ hself.1, hext _ hself.2⟩
        · exact hquery x hx

end Words

/-- The tracer finds every address that the engine inserted into a zeroed filter: their
hashes agree, an insertion sets the bits of the two hashes and clears none, a query is the
test of these two bits, and no index leaves the array. -/
theorem bloom_query_of_inserted :
    (∀ addr, bloomH1 addr = Tracer.bloomH1 addr ∧ bloomH2 addr = Tracer.bloomH2 addr) ∧
    (∀ bloom addr, ∃ bloom', bloomInsert bloom addr = some bloom' ∧ Extends bloom bloom' ∧
      ∀ b, BitWords.test (words bloom') b = (BitWords.test (words bloom) b ||
        (bloomH1 addr).toNat == b || (bloomH2 addr).toNat == b)) ∧
    (∀ bloom addr, Tracer.rtmapBloomQuery bloom addr =
      some (BitWords.test (words bloom) (Tracer.bloomH1 addr).toNat &&
        BitWords.test (words bloom) (Tracer.bloomH2 addr).toNat)) ∧
    ∀ addrs, ∃ bloom, bloomInsertAll addrs zeroedBloom = some bloom ∧
      ∀ addr ∈ addrs, Tracer.rtmapBloomQuery bloom addr = some true := by
  refine ⟨fun addr => ⟨bloomH1_eq addr, bloomH2_eq addr⟩, fun bloom addr => ?_,
    fun bloom addr => rtmapBloomQuery_eq bloom addr, fun addrs => ?_⟩
  · obtain ⟨bloom', hinsert, -⟩ := bloomInsert_eq bloom addr
    exact ⟨bloom', hinsert, Extends.insert hinsert, test_bloomInsert hinsert⟩
  · obtain ⟨bloom, hinsert, -, hquery⟩ := bloomInsertAll_spec addrs zeroedBloom
    refine ⟨bloom, hinsert, fun addr haddr => ?_⟩
    rw [rtmapBloomQuery_eq, hquery addr haddr]

end Rtmap.Ring
