import Mathlib.Data.Nat.Digits.Defs
import Mathlib.Data.List.Flatten
import Mathlib.Logic.Basic
import Mathlib.Tactic.Common

/-!
# Lines of text files

A file is a list of bytes. It is read as a whole, if it is UTF-8, and then line by line:
what a file of records, each ended by a newline, reads as is what its records read as.
-/
namespace Rtmap.Text

abbrev Bytes := List UInt8

def encode (s : String) : Bytes := s.toUTF8.data.toList

def decode (bs : Bytes) : Option String := String.fromUTF8? bs.toByteArray

theorem decode_eq_some_iff {bs : Bytes} {s : String} : decode bs = some s ↔ encode s = bs := by
  rw [decode, String.fromUTF8?]
  constructor
  · intro h
    split at h
    · obtain rfl := Option.some.inj h
      exact List.toList_data_toByteArray
    · cases h
  · rintro rfl
    have hbytes : (encode s).toByteArray = s.toByteArray := by
      rw [encode, ByteArray.ext_iff, List.data_toByteArray]
      exact Array.toArray_toList
    rw [hbytes, dif_pos s.isValidUTF8]
    rfl

theorem decode_encode (s : String) : decode (encode s) = some s := decode_eq_some_iff.mpr rfl

section Utf8

theorem encode_ofList (cs : List Char) :
    encode (String.ofList cs) = cs.flatMap String.utf8EncodeChar := by
  have hbytes : (String.ofList cs).toUTF8 = (cs.flatMap String.utf8EncodeChar).toByteArray :=
    String.toByteArray_ofList
  rw [encode, hbytes]
  exact List.toList_data_toByteArray

theorem isSome_decode_iff {bs : Bytes} :
    (decode bs).isSome = true ↔ ∃ cs : List Char, cs.flatMap String.utf8EncodeChar = bs := by
  rw [decode, String.fromUTF8?]
  constructor
  · intro h
    split at h
    · rename_i hvalid
      obtain ⟨cs, hcs⟩ := hvalid
      exact ⟨cs, (List.toByteArray_inj.mp hcs).symm⟩
    · cases h
  · rintro ⟨cs, rfl⟩
    rw [dif_pos ⟨cs, rfl⟩]
    rfl

/-- Only a character of one byte has a byte below 128. -/
theorem utf8EncodeChar_of_ascii {c : Char} {b : UInt8} (hb : b ∈ String.utf8EncodeChar c)
    (hascii : b < 128) : String.utf8EncodeChar c = [b] := by
  have hlarge (n : ℕ) (hn : 128 ≤ n) (hlt : n < 256) (h : b = UInt8.ofNat n) : False := by
    have hnat := congrArg UInt8.toNat h
    rw [UInt8.toNat_ofNat', Nat.mod_eq_of_lt hlt] at hnat
    have hsmall := UInt8.lt_iff_toNat_lt.mp hascii
    rw [hnat] at hsmall
    exact absurd hn (Nat.not_le.mpr hsmall)
  unfold String.utf8EncodeChar at hb ⊢
  dsimp only at hb ⊢
  split at hb
  · rename_i hone
    rw [if_pos hone, List.mem_singleton.mp hb]
  · exfalso
    split at hb
    · simp only [List.mem_cons, List.not_mem_nil, or_false] at hb
      rcases hb with h | h <;> exact hlarge _ (by omega) (by omega) h
    · split at hb
      · simp only [List.mem_cons, List.not_mem_nil, or_false] at hb
        rcases hb with h | h | h <;> exact hlarge _ (by omega) (by omega) h
      · simp only [List.mem_cons, List.not_mem_nil, or_false] at hb
        rcases hb with h | h | h | h <;> exact hlarge _ (by omega) (by omega) h

/-- Text around an ASCII byte is UTF-8 on both sides of it. -/
theorem isSome_decode_append {xs ys : Bytes} {b : UInt8} (hascii : b < 128) :
    (decode (xs ++ b :: ys)).isSome = true ↔
      (decode xs).isSome = true ∧ (decode ys).isSome = true := by
  simp only [isSome_decode_iff]
  constructor
  · rintro ⟨cs, hcs⟩
    induction cs generalizing xs with
    | nil => cases xs <;> cases hcs
    | cons c cs ih =>
        rw [List.flatMap_cons] at hcs
        rcases List.append_eq_append_iff.mp hcs with ⟨rest, hxs, hrest⟩ | ⟨rest, hc, hrest⟩
        · obtain ⟨⟨cs', hcs'⟩, hys⟩ := ih hrest
          exact ⟨⟨c :: cs', by rw [List.flatMap_cons, hcs', hxs]⟩, hys⟩
        · cases rest with
          | nil =>
              rw [List.append_nil] at hc
              have hrest' : cs.flatMap String.utf8EncodeChar = [] ++ b :: ys := hrest.symm
              obtain ⟨-, hys⟩ := ih hrest'
              exact ⟨⟨[c], by rw [List.flatMap_cons, hc]; simp⟩, hys⟩
          | cons b' rest =>
              obtain ⟨rfl, hys⟩ := List.cons.inj hrest
              have hmem : b ∈ String.utf8EncodeChar c := by
                rw [hc]
                exact List.mem_append_right _ List.mem_cons_self
              have hone := utf8EncodeChar_of_ascii hmem hascii
              rw [hone] at hc
              cases xs with
              | nil =>
                  obtain rfl : rest = [] := (List.cons.inj hc).2.symm
                  exact ⟨⟨[], rfl⟩, cs, hys.symm⟩
              | cons x xs => cases xs <;> cases (List.cons.inj hc).2
  · rintro ⟨⟨cs, rfl⟩, ds, rfl⟩
    have hb : String.utf8EncodeChar (Char.ofNat b.toNat) = [b] := by
      have hall : ∀ n < 128, String.utf8EncodeChar (Char.ofNat n) = [UInt8.ofNat n] := by
        decide +kernel
      rw [hall b.toNat (UInt8.lt_iff_toNat_lt.mp hascii), UInt8.ofNat_toNat]
    exact ⟨cs ++ Char.ofNat b.toNat :: ds, by
      rw [List.flatMap_append, List.flatMap_cons, hb]; rfl⟩

theorem isSome_decode_append_of_ascii {xs ys : Bytes} (hascii : ∀ b ∈ xs, b < 128) :
    (decode (xs ++ ys)).isSome = (decode ys).isSome := by
  induction xs with
  | nil => rfl
  | cons x xs ih =>
      rw [← ih fun b hb => hascii b (List.mem_cons_of_mem x hb), Bool.eq_iff_iff]
      have hempty : (decode []).isSome = true := isSome_decode_iff.mpr ⟨[], rfl⟩
      have hcons : (decode ([] ++ x :: (xs ++ ys))).isSome = true ↔
          (decode []).isSome = true ∧ (decode (xs ++ ys)).isSome = true :=
        isSome_decode_append (hascii x List.mem_cons_self)
      simpa [hempty] using hcons

end Utf8

section Lines

def NEWLINE : UInt8 := 10
def CARRIAGE_RETURN : UInt8 := 13

/-- A line that ends in a newline loses a carriage return before it. -/
def stripReturn (line : Bytes) : Bytes :=
  if line.getLast? = some CARRIAGE_RETURN then line.dropLast else line

def linesFrom (line : Bytes) : Bytes → List Bytes
  | [] => if line = [] then [] else [line]
  | b :: bs => if b = NEWLINE then stripReturn line :: linesFrom [] bs else linesFrom (line ++ [b]) bs

/-- The lines of a file, without their ends. -/
def lines : Bytes → List Bytes := linesFrom []

theorem linesFrom_append (line xs ys : Bytes) :
    linesFrom line (xs ++ NEWLINE :: ys) = linesFrom line (xs ++ [NEWLINE]) ++ lines ys := by
  induction xs generalizing line with
  | nil => rfl
  | cons x xs ih =>
      simp only [List.cons_append, linesFrom]
      split
      · rw [ih, List.cons_append]
      · exact ih _

/-- A file of records reads as its records do. -/
theorem lines_flatMap {α : Type*} (text : α → Bytes) (records : List α) :
    lines (records.flatMap fun r => text r ++ [NEWLINE]) =
      records.flatMap fun r => lines (text r ++ [NEWLINE]) := by
  induction records with
  | nil => rfl
  | cons r rs ih =>
      rw [List.flatMap_cons, List.flatMap_cons, List.append_assoc, List.singleton_append, lines,
        linesFrom_append, ih]
      rfl

theorem linesFrom_of_not_mem {xs : Bytes} (h : NEWLINE ∉ xs) (line : Bytes) :
    linesFrom line (xs ++ [NEWLINE]) = [stripReturn (line ++ xs)] := by
  induction xs generalizing line with
  | nil => simp [linesFrom]
  | cons x xs ih =>
      obtain ⟨hx, hxs⟩ := not_or.mp (List.mem_cons.not.mp h)
      rw [List.cons_append, linesFrom, if_neg (Ne.symm hx), ih hxs, List.append_assoc]
      rfl

/-- A record without ends of line of its own is one line. -/
theorem lines_record {xs : Bytes} (h : NEWLINE ∉ xs) (hreturn : xs.getLast? ≠ some CARRIAGE_RETURN) :
    lines (xs ++ [NEWLINE]) = [xs] := by
  rw [lines, linesFrom_of_not_mem h, List.nil_append, stripReturn, if_neg hreturn]

theorem newline_mem_encode {s : String} (h : NEWLINE ∈ encode s) : '\n' ∈ s.toList := by
  rw [← String.ofList_toList (s := s), encode_ofList, List.mem_flatMap] at h
  obtain ⟨c, hc, hmem⟩ := h
  have hone : String.utf8EncodeChar c = String.utf8EncodeChar '\n' :=
    utf8EncodeChar_of_ascii hmem (by decide)
  have hsame : encode (String.ofList ['\n']) = encode (String.ofList [c]) := by
    rw [encode_ofList, encode_ofList, List.flatMap_singleton, List.flatMap_singleton, hone]
  have hdecode := decode_eq_some_iff.mpr hsame
  rw [decode_encode] at hdecode
  have hchar := String.ofList_injective (Option.some.inj hdecode)
  rw [← (List.cons.inj hchar).1]
  exact hc

/-- A text without newlines that ends in a brace is one line of a file. -/
theorem lines_encode {cs : List Char} (h : '\n' ∉ cs) (hlast : cs.getLast? = some '}') :
    lines (encode (String.ofList cs) ++ [NEWLINE]) = [encode (String.ofList cs)] := by
  apply lines_record
  · intro hmem
    apply h
    simpa using newline_mem_encode hmem
  · obtain ⟨cs', rfl⟩ := List.getLast?_eq_some_iff.mp hlast
    rw [encode_ofList, List.flatMap_append]
    have hbrace : ['}'].flatMap String.utf8EncodeChar = [125] := by decide +kernel
    rw [hbrace, List.getLast?_concat]
    decide

/-- A file of records is UTF-8 exactly if all of them are. -/
theorem isSome_decode_flatMap {α : Type*} (text : α → Bytes) (records : List α) :
    (decode (records.flatMap fun r => text r ++ [NEWLINE])).isSome = true ↔
      ∀ r ∈ records, (decode (text r)).isSome = true := by
  induction records with
  | nil => exact iff_of_true (isSome_decode_iff.mpr ⟨[], rfl⟩) nofun
  | cons r rs ih =>
      rw [List.flatMap_cons, List.append_assoc, List.singleton_append,
        isSome_decode_append (by decide), ih, List.forall_mem_cons]

end Lines

section Hex

def hexDigit (d : ℕ) : UInt8 := UInt8.ofNat (if d < 10 then 48 + d else 87 + d)

/-- The digits of a number as `%llx` writes them. -/
def toHex (n : ℕ) : Bytes := if n = 0 then [48] else ((Nat.digits 16 n).map hexDigit).reverse

def hexValue (b : UInt8) : Option ℕ :=
  if 48 ≤ b ∧ b ≤ 57 then some (b.toNat - 48)
  else if 97 ≤ b ∧ b ≤ 102 then some (b.toNat - 87)
  else if 65 ≤ b ∧ b ≤ 70 then some (b.toNat - 55)
  else none

def hexFrom (n : ℕ) : Bytes → Option ℕ
  | [] => some n
  | b :: bs => (hexValue b).bind fun d => hexFrom (n * 16 + d) bs

/-- A hexadecimal number of 64 bits, with an optional sign as Rust's `from_str_radix` has it. -/
def fromStrRadix16 (bs : Bytes) : Option UInt64 :=
  (match bs with
    | [] | [43] => none
    | 43 :: b :: bs => hexFrom 0 (b :: bs)
    | b :: bs => hexFrom 0 (b :: bs)).bind fun n =>
      if n < 2 ^ 64 then some (UInt64.ofNat n) else none

theorem hexDigit_spec : ∀ d < 16, hexValue (hexDigit d) = some d ∧ hexDigit d < 128 ∧
    hexDigit d ≠ 32 ∧ hexDigit d ≠ NEWLINE ∧ hexDigit d ≠ 43 := by
  decide +kernel

theorem hexFrom_append (n : ℕ) (xs ys : Bytes) :
    hexFrom n (xs ++ ys) = (hexFrom n xs).bind fun m => hexFrom m ys := by
  induction xs generalizing n with
  | nil => rfl
  | cons x xs ih =>
      rw [List.cons_append, hexFrom, hexFrom]
      cases hexValue x with
      | none => rfl
      | some d => exact ih _

theorem hexFrom_digits {ds : List ℕ} (h : ∀ d ∈ ds, d < 16) :
    hexFrom 0 (ds.map hexDigit).reverse = some (Nat.ofDigits 16 ds) := by
  induction ds with
  | nil => rfl
  | cons d ds ih =>
      obtain ⟨hd, hds⟩ := List.forall_mem_cons.mp h
      rw [List.map_cons, List.reverse_cons, hexFrom_append, ih hds, Option.bind_some, hexFrom,
        (hexDigit_spec d hd).1, Option.bind_some, hexFrom, Nat.ofDigits_cons]
      congr 1
      omega

theorem mem_toHex {n : ℕ} {b : UInt8} (h : b ∈ toHex n) : ∃ d < 16, b = hexDigit d := by
  rw [toHex] at h
  split at h
  · exact ⟨0, by omega, List.mem_singleton.mp h⟩
  · obtain ⟨d, hd, rfl⟩ := List.mem_map.mp (List.mem_reverse.mp h)
    exact ⟨d, Nat.digits_lt_base (by omega) hd, rfl⟩

theorem hexFrom_toHex (n : ℕ) : hexFrom 0 (toHex n) = some n := by
  rw [toHex]
  split
  · rename_i hzero
    rw [hzero]
    rfl
  · rw [hexFrom_digits fun d hd => Nat.digits_lt_base (by omega) hd, Nat.ofDigits_digits]

/-- A number that was written is read back. -/
theorem fromStrRadix16_toHex (x : UInt64) : fromStrRadix16 (toHex x.toNat) = some x := by
  have hread := hexFrom_toHex x.toNat
  have hsign : 43 ∉ toHex x.toNat := fun hmem => by
    obtain ⟨d, hd, heq⟩ := mem_toHex hmem
    exact (hexDigit_spec d hd).2.2.2.2 heq.symm
  cases htext : toHex x.toNat with
  | nil =>
      rw [toHex] at htext
      split at htext
      · cases htext
      · rename_i hne
        simp only [List.reverse_eq_nil_iff, List.map_eq_nil_iff] at htext
        exact absurd (Nat.digits_eq_nil_iff_eq_zero.mp htext) hne
  | cons b bs =>
      rw [htext] at hread hsign
      obtain ⟨hb, -⟩ := not_or.mp (List.mem_cons.not.mp hsign)
      have hparse : fromStrRadix16 (b :: bs) = (hexFrom 0 (b :: bs)).bind fun n =>
          if n < 2 ^ 64 then some (UInt64.ofNat n) else none := by
        unfold fromStrRadix16
        split <;> simp_all
      rw [hparse, hread, Option.bind_some, if_pos x.toNat_lt, UInt64.ofNat_toNat]

end Hex

end Rtmap.Text
