import Mathlib.Data.UInt
import Mathlib.Tactic.Common

/-!
# FNV-1a over words

A hash that takes in words byte by byte. Each byte permutes the hash, and two words of
two bytes never take one hash to the same.
-/
namespace Rtmap.Fnv

def PRIME : UInt32 := 0x01000193
def BASIS : UInt32 := 0x811c9dc5

/-- The multiplicative inverse. -/
def INVERSE : UInt32 := 0x359c449b

def byteAt (v : UInt32) (i : ℕ) : UInt32 := (v >>> UInt32.ofNat (8 * i)) &&& 0xFF

def step (h b : UInt32) : UInt32 := (h ^^^ b) * PRIME

/-- Take in the four bytes of a word, the lowest first. -/
def feed (h v : UInt32) : UInt32 := (List.range 4).foldl (fun h i => step h (byteAt v i)) h

def hash (words : List UInt32) : UInt32 := words.foldl feed BASIS

section Permutation
variable {h h' b v : UInt32}

theorem mul_prime_inj : h * PRIME = h' * PRIME ↔ h = h' := by
  refine ⟨fun heq => ?_, fun heq => by rw [heq]⟩
  have hunit : PRIME * INVERSE = 1 := by decide
  calc h = h * (PRIME * INVERSE) := by rw [hunit, mul_one]
    _ = h' * PRIME * INVERSE := by rw [← mul_assoc, heq]
    _ = h' := by rw [mul_assoc, hunit, mul_one]

theorem step_inj : step h b = step h' b ↔ h = h' := by
  rw [step, step, mul_prime_inj, UInt32.xor_left_inj]

theorem feed_inj : feed h v = feed h' v ↔ h = h' := by
  simp only [feed, List.range, List.range.loop, List.foldl_cons, List.foldl_nil, step_inj]

theorem foldl_feed_inj (words : List UInt32) : words.foldl feed h = words.foldl feed h' ↔ h = h' := by
  induction words generalizing h h' with
  | nil => exact Iff.rfl
  | cons w words ih => rw [List.foldl_cons, List.foldl_cons, ih, feed_inj]

end Permutation

section Words
variable {h v v' : UInt32}

/-- Multiples of the prime by less than a byte are no close to each other. -/
theorem eq_zero_of_close {k d m : ℤ} (h : 16777619 * k = d + 4294967296 * m) (hk : -256 < k)
    (hk' : k < 256) (hd : -256 < d) (hd' : d < 256) : k = 0 := by
  -- the prime is 2^24 + 403, so `k` would have to be a multiple of 256
  have hlarge : 16777216 * (k - 256 * m) = d - 403 * k := by omega
  have hmultiple : k - 256 * m = 0 := by omega
  omega

/-- Low bytes that leave the rest of the product alone are the same. -/
theorem low_byte_of_product {q l l' : ℕ} (hl : l < 256) (hl' : l' < 256)
    (h : (256 * q + l) * 16777619 % 4294967296 / 256 =
      (256 * q + l') * 16777619 % 4294967296 / 256) : l = l' := by
  have hdiv := Nat.div_add_mod ((256 * q + l) * 16777619) 4294967296
  have hdiv' := Nat.div_add_mod ((256 * q + l') * 16777619) 4294967296
  have hzero : (l : ℤ) - l' = 0 := by
    refine eq_zero_of_close
      (d := ((256 * q + l) * 16777619 % 4294967296 : ℕ) - ((256 * q + l') * 16777619 % 4294967296 : ℕ))
      (m := ((256 * q + l) * 16777619 / 4294967296 : ℕ) - ((256 * q + l') * 16777619 / 4294967296 : ℕ))
      ?_ (by omega) (by omega) (by omega) (by omega)
    omega
  omega

theorem xor_byte (h b : UInt32) (hb : b.toNat < 256) :
    (h ^^^ b).toNat / 256 = h.toNat / 256 := by
  rw [UInt32.toNat_xor]
  have hshift : (h.toNat ^^^ b.toNat) >>> 8 = h.toNat >>> 8 ^^^ b.toNat >>> 8 :=
    Nat.shiftRight_xor_distrib
  have hbyte : b.toNat >>> 8 = 0 := by
    rw [Nat.shiftRight_eq_div_pow]
    exact Nat.div_eq_of_lt hb
  rw [hbyte, Nat.xor_zero, Nat.shiftRight_eq_div_pow, Nat.shiftRight_eq_div_pow] at hshift
  exact hshift

/-- Two bytes that take one hash to the same are the same. -/
theorem step_step_inj {b b' c c' : UInt32} (hb : b.toNat < 256) (hb' : b'.toNat < 256)
    (hc : c.toNat < 256) (hc' : c'.toNat < 256) (heq : step (step h b) c = step (step h b') c') :
    b = b' ∧ c = c' := by
  rw [step, step.eq_def _ c', mul_prime_inj] at heq
  have hproduct (x : UInt32) : (x * PRIME).toNat = x.toNat * 16777619 % 4294967296 :=
    UInt32.toNat_mul ..
  have hbyte : (h ^^^ b).toNat % 256 = (h ^^^ b').toNat % 256 := by
    have hupper := congrArg (fun x : UInt32 => x.toNat / 256) heq
    simp only [xor_byte _ _ hc, xor_byte _ _ hc', step, hproduct] at hupper
    have hq := xor_byte h b hb
    have hq' := xor_byte h b' hb'
    have hsplit := Nat.div_add_mod (h ^^^ b).toNat 256
    have hsplit' := Nat.div_add_mod (h ^^^ b').toNat 256
    refine low_byte_of_product (q := h.toNat / 256) (Nat.mod_lt _ (by decide))
      (Nat.mod_lt _ (by decide)) ?_
    rw [hq] at hsplit
    rw [hq'] at hsplit'
    rw [hsplit, hsplit']
    exact hupper
  have hxor : h ^^^ b = h ^^^ b' := by
    rw [← UInt32.toNat_inj]
    have hq := xor_byte h b hb
    have hq' := xor_byte h b' hb'
    omega
  have hbb : b = b' := (UInt32.xor_right_inj h).mp hxor
  subst hbb
  exact ⟨rfl, (UInt32.xor_right_inj _).mp heq⟩

theorem toNat_byteAt (v : UInt32) {i : ℕ} (hi : i < 4) :
    (byteAt v i).toNat = v.toNat / 2 ^ (8 * i) % 256 := by
  have hshift : (UInt32.ofNat (8 * i)).toNat % 32 = 8 * i := by
    rw [UInt32.toNat_ofNat', Nat.mod_eq_of_lt (by omega), Nat.mod_eq_of_lt (by omega)]
  rw [byteAt, UInt32.toNat_and, UInt32.toNat_shiftRight, hshift, Nat.shiftRight_eq_div_pow]
  exact Nat.and_two_pow_sub_one_eq_mod _ 8

/-- Words of two bytes that take one hash to the same are the same. -/
theorem feed_inj_right (hv : v < 65536) (hv' : v' < 65536) : feed h v = feed h v' ↔ v = v' := by
  refine ⟨fun heq => ?_, fun heq => by rw [heq]⟩
  have hlt : v.toNat < 65536 := UInt32.lt_iff_toNat_lt.mp hv
  have hlt' : v'.toNat < 65536 := UInt32.lt_iff_toNat_lt.mp hv'
  have hzero (w : UInt32) (hw : w.toNat < 65536) : byteAt w 2 = 0 ∧ byteAt w 3 = 0 := by
    rw [← UInt32.toNat_inj, ← UInt32.toNat_inj, toNat_byteAt w (by decide),
      toNat_byteAt w (by decide), Nat.div_eq_of_lt (by omega), Nat.div_eq_of_lt (by omega)]
    exact ⟨rfl, rfl⟩
  have hbyte (w : UInt32) {i : ℕ} (hi : i < 4) : (byteAt w i).toNat < 256 := by
    rw [toNat_byteAt w hi]
    exact Nat.mod_lt _ (by decide)
  simp only [feed, List.range, List.range.loop, List.foldl_cons, List.foldl_nil, hzero v hlt,
    hzero v' hlt', step_inj] at heq
  obtain ⟨hlow, hhigh⟩ := step_step_inj (hbyte v (by decide)) (hbyte v' (by decide))
    (hbyte v (by decide)) (hbyte v' (by decide)) heq
  rw [← UInt32.toNat_inj, toNat_byteAt v (by decide), toNat_byteAt v' (by decide)] at hlow hhigh
  rw [← UInt32.toNat_inj]
  omega

/-- A drift of one word changes the hash. -/
theorem hash_ne_of_drift (front back : List UInt32) (hv : v < 65536) (hv' : v' < 65536)
    (hne : v ≠ v') : hash (front ++ v :: back) ≠ hash (front ++ v' :: back) := by
  rw [hash, hash, List.foldl_append, List.foldl_append, List.foldl_cons, List.foldl_cons, ne_eq,
    foldl_feed_inj, feed_inj_right hv hv']
  exact hne

end Words

end Rtmap.Fnv
