import Mathlib.Algebra.Group.Nat.Defs
import Mathlib.Data.List.Flatten
import Mathlib.Data.List.Infix
import Mathlib.Logic.Basic
import Mathlib.Tactic.Common

/-!
# Strings as lists of characters

Searching, replacing, trimming, splitting into lines and parsing numbers, as Rust's
`str` does them, and numbers as its formatter prints them.
-/
namespace Rtmap.Str

abbrev Text := List Char

section Search

/-- What stands behind the first occurrence of `needle`. -/
def after (needle : Text) : Text → Option Text
  | [] => ([] : Text).dropPrefix? needle
  | c :: cs =>
      match (c :: cs).dropPrefix? needle with
      | some rest => some rest
      | none => after needle cs

theorem after_cons_of_prefix {needle cs : Text} {c : Char} {rest : Text}
    (h : (c :: cs).dropPrefix? needle = some rest) : after needle (c :: cs) = some rest := by
  rw [after, h]

theorem after_cons_of_no_match {needle cs : Text} {c : Char}
    (h : (c :: cs).dropPrefix? needle = none) : after needle (c :: cs) = after needle cs := by
  rw [after, h]

/-- A needle does not start at a character that is not its first. -/
theorem after_cons_of_ne {needle cs : Text} {c d : Char} (h : c ≠ d) :
    after (d :: needle) (c :: cs) = after (d :: needle) cs := by
  apply after_cons_of_no_match
  rw [List.dropPrefix?, if_neg (by simpa using h)]

theorem after_append_of_not_mem {needle xs ys : Text} {d : Char} (h : d ∉ xs) :
    after (d :: needle) (xs ++ ys) = after (d :: needle) ys := by
  induction xs with
  | nil => rfl
  | cons x xs ih =>
      obtain ⟨hx, hxs⟩ := not_or.mp (List.mem_cons.not.mp h)
      rw [List.cons_append, after_cons_of_ne (Ne.symm hx), ih hxs]

theorem after_singleton {c : Char} {xs : Text} (h : c ∉ xs) (ys : Text) :
    after [c] (xs ++ c :: ys) = some ys := by
  rw [after_append_of_not_mem h]
  apply after_cons_of_prefix
  simp [List.dropPrefix?]

theorem dropPrefix?_eq_some_iff_append {l p s : Text} :
    l.dropPrefix? p = some s ↔ l = p ++ s := by
  rw [List.dropPrefix?_eq_some_iff]
  constructor
  · rintro ⟨p', h, hp⟩
    rw [h, eq_of_beq hp]
  · intro h
    exact ⟨p, h, beq_self_eq_true p⟩

theorem dropPrefix?_eq_none_iff_append {l p : Text} :
    l.dropPrefix? p = none ↔ ∀ s, l ≠ p ++ s := by
  rw [Option.eq_none_iff_forall_ne_some]
  exact forall_congr' fun s => not_congr dropPrefix?_eq_some_iff_append

/-- Every occurrence of `pat` replaced, `skip` being what is left of the last one. -/
def replaceFrom (pat new : Text) : ℕ → Text → Text
  | _, [] => []
  | skip + 1, _ :: cs => replaceFrom pat new skip cs
  | 0, c :: cs =>
      if pat.isPrefixOf (c :: cs) then new ++ replaceFrom pat new (pat.length - 1) cs
      else c :: replaceFrom pat new 0 cs

/-- The text with the occurrences of `pat`, which is not empty, replaced from left to right. -/
def replace (pat new text : Text) : Text := replaceFrom pat new 0 text

/-- One character is replaced wherever it stands. -/
theorem replace_singleton (c : Char) (new text : Text) :
    replace [c] new text = text.flatMap fun d => if d = c then new else [d] := by
  unfold replace
  induction text with
  | nil => rfl
  | cons d ds ih =>
      rw [replaceFrom, List.flatMap_cons, ← ih]
      by_cases h : d = c
      · rw [if_pos h, if_pos (by simp [h])]
        rfl
      · rw [if_neg h, if_neg (by simpa using Ne.symm h)]
        rfl

/-- A pattern with a character that the text has not is not found there. -/
theorem replace_of_not_mem {pat new text : Text} {c : Char} (hc : c ∈ pat) (h : c ∉ text) :
    replace pat new text = text := by
  unfold replace
  induction text with
  | nil => rfl
  | cons d ds ih =>
      have hprefix : ¬ pat.isPrefixOf (d :: ds) = true := fun hp =>
        h ((List.isPrefixOf_iff_prefix.mp hp).subset hc)
      rw [replaceFrom, if_neg hprefix, ih fun hmem => h (List.mem_cons_of_mem d hmem)]

theorem mem_of_mem_replaceFrom {pat new text : Text} {c : Char} {skip : ℕ}
    (h : c ∈ replaceFrom pat new skip text) : c ∈ new ∨ c ∈ text := by
  induction text generalizing skip with
  | nil => cases skip <;> cases h
  | cons d ds ih =>
      cases skip with
      | succ skip => exact (ih h).imp_right (List.mem_cons_of_mem d)
      | zero =>
          rw [replaceFrom] at h
          split at h
          · rcases List.mem_append.mp h with h | h
            · exact .inl h
            · exact (ih h).imp_right (List.mem_cons_of_mem d)
          · rcases List.mem_cons.mp h with rfl | h
            · exact .inr List.mem_cons_self
            · exact (ih h).imp_right (List.mem_cons_of_mem d)

/-- A replacement brings in nothing but its text. -/
theorem mem_of_mem_replace {pat new text : Text} {c : Char} (h : c ∈ replace pat new text) :
    c ∈ new ∨ c ∈ text := mem_of_mem_replaceFrom h

/-- `str::split_once`. -/
def splitOnce (c : Char) : Text → Option (Text × Text)
  | [] => none
  | d :: ds => if d = c then some ([], ds) else (splitOnce c ds).map fun r => (d :: r.1, r.2)

/-- `str::rsplit_once`. -/
def rsplitOnce (c : Char) (s : Text) : Option (Text × Text) :=
  (splitOnce c s.reverse).map fun r => (r.2.reverse, r.1.reverse)

theorem splitOnce_eq_some {c : Char} {s xs ys : Text} :
    splitOnce c s = some (xs, ys) ↔ s = xs ++ c :: ys ∧ c ∉ xs := by
  induction s generalizing xs with
  | nil => simp [splitOnce]
  | cons d ds ih =>
      rw [splitOnce]
      split
      · rename_i hd
        subst hd
        cases xs with
        | nil => simp [eq_comm]
        | cons x xs => simp +contextual [eq_comm]
      · rename_i hd
        rw [Option.map_eq_some_iff]
        constructor
        · rintro ⟨⟨front, back⟩, hsplit, heq⟩
          obtain ⟨rfl, rfl⟩ := Prod.mk.inj heq
          obtain ⟨rfl, hfront⟩ := ih.mp hsplit
          exact ⟨rfl, List.not_mem_cons_of_ne_of_not_mem (Ne.symm hd) hfront⟩
        · rintro ⟨heq, hxs⟩
          cases xs with
          | nil => exact absurd (List.cons.inj heq).1 hd
          | cons x xs =>
              obtain ⟨rfl, hds⟩ := List.cons.inj heq
              exact ⟨(xs, ys), ih.mpr ⟨hds, fun h => hxs (List.mem_cons_of_mem _ h)⟩, rfl⟩

theorem rsplitOnce_eq_some {c : Char} {s xs ys : Text} :
    rsplitOnce c s = some (xs, ys) ↔ s = xs ++ c :: ys ∧ c ∉ ys := by
  rw [rsplitOnce, Option.map_eq_some_iff]
  constructor
  · rintro ⟨⟨back, front⟩, hsplit, heq⟩
    obtain ⟨rfl, rfl⟩ := Prod.mk.inj heq
    obtain ⟨hs, hback⟩ := splitOnce_eq_some.mp hsplit
    refine ⟨?_, fun h => hback (List.mem_reverse.mp h)⟩
    rw [← List.reverse_reverse s, hs]
    simp
  · rintro ⟨rfl, hys⟩
    refine ⟨(ys.reverse, xs.reverse), splitOnce_eq_some.mpr ⟨?_, ?_⟩, ?_⟩
    · simp
    · exact fun h => hys (List.mem_reverse.mp h)
    · simp

end Search

section Trim

/-- The characters with the Unicode property `White_Space`. -/
def isWhitespace (c : Char) : Bool :=
  let n := c.toNat
  (9 ≤ n && n ≤ 13) || n = 0x20 || n = 0x85 || n = 0xA0 || n = 0x1680 ||
    (0x2000 ≤ n && n ≤ 0x200A) || n = 0x2028 || n = 0x2029 || n = 0x202F || n = 0x205F ||
    n = 0x3000

def trimStart (s : Text) : Text := s.dropWhile isWhitespace

def trimEnd (s : Text) : Text := (s.reverse.dropWhile isWhitespace).reverse

def trim (s : Text) : Text := trimEnd (trimStart s)

/-- A text with neither end blank is its own trim. -/
theorem trim_eq_self {s : Text} {c d : Char} (hfirst : s.head? = some c)
    (hlast : s.getLast? = some d) (hc : isWhitespace c = false) (hd : isWhitespace d = false) :
    trim s = s := by
  have hdrop {t : Text} {e : Char} (h : t.head? = some e) (he : isWhitespace e = false) :
      t.dropWhile isWhitespace = t := by
    cases t with
    | nil => rfl
    | cons x xs =>
        obtain rfl : x = e := Option.some.inj h
        rw [List.dropWhile_cons_of_neg (by rw [he]; decide)]
  have hreverse : s.reverse.head? = some d := by
    rw [List.head?_reverse]
    exact hlast
  rw [trim, trimStart, hdrop hfirst hc, trimEnd, hdrop hreverse hd, List.reverse_reverse]

theorem dropWhile_append_cons {p : Char → Bool} {d : Char} (hd : p d = false) (xs ys : Text) :
    (xs ++ d :: ys).dropWhile p = xs.dropWhile p ++ d :: ys := by
  induction xs with
  | nil => rw [List.nil_append, List.dropWhile_cons_of_neg (by rw [hd]; decide)]; rfl
  | cons x xs ih =>
      rw [List.cons_append, List.dropWhile_cons, List.dropWhile_cons]
      split
      · exact ih
      · rfl

theorem trimEnd_append_cons {d : Char} (hd : isWhitespace d = false) (xs ys : Text) :
    trimEnd (xs ++ d :: ys) = xs ++ d :: trimEnd ys := by
  rw [trimEnd, List.reverse_append, List.reverse_cons, List.append_assoc, List.singleton_append,
    dropWhile_append_cons hd, trimEnd]
  simp

/-- What is trimmed around a character that is not blank. -/
theorem trim_append_cons {d : Char} (hd : isWhitespace d = false) (xs ys : Text) :
    trim (xs ++ d :: ys) = xs.dropWhile isWhitespace ++ d :: trimEnd ys := by
  rw [trim, trimStart, dropWhile_append_cons hd, trimEnd_append_cons hd]

theorem mem_trim {s : Text} {d : Char} (hd : isWhitespace d = false) (h : d ∈ s) : d ∈ trim s := by
  obtain ⟨xs, ys, rfl⟩ := List.append_of_mem h
  rw [trim_append_cons hd]
  exact List.mem_append_right _ List.mem_cons_self

end Trim

section Lines

/-- A line that ends in a newline loses a carriage return before it. -/
def stripReturn (line : Text) : Text :=
  if line.getLast? = some '\r' then line.dropLast else line

def linesFrom (line : Text) : Text → List Text
  | [] => if line = [] then [] else [line]
  | c :: cs => if c = '\n' then stripReturn line :: linesFrom [] cs else linesFrom (line ++ [c]) cs

/-- The lines of a text, without their ends. -/
def lines : Text → List Text := linesFrom []

theorem linesFrom_append (line xs ys : Text) :
    linesFrom line (xs ++ '\n' :: ys) = linesFrom line (xs ++ ['\n']) ++ lines ys := by
  induction xs generalizing line with
  | nil => rfl
  | cons x xs ih =>
      simp only [List.cons_append, linesFrom]
      split
      · rw [ih, List.cons_append]
      · exact ih _

/-- A table reads as its rows do. -/
theorem lines_flatMap {α : Type*} (text : α → Text) (rows : List α) :
    lines (rows.flatMap fun r => text r ++ ['\n']) =
      rows.flatMap fun r => lines (text r ++ ['\n']) := by
  induction rows with
  | nil => rfl
  | cons r rs ih =>
      rw [List.flatMap_cons, List.flatMap_cons, List.append_assoc, List.singleton_append, lines,
        linesFrom_append, ih]
      rfl

theorem linesFrom_of_not_mem {xs : Text} (h : '\n' ∉ xs) (line : Text) :
    linesFrom line (xs ++ ['\n']) = [stripReturn (line ++ xs)] := by
  induction xs generalizing line with
  | nil => simp [linesFrom]
  | cons x xs ih =>
      obtain ⟨hx, hxs⟩ := not_or.mp (List.mem_cons.not.mp h)
      rw [List.cons_append, linesFrom, if_neg (Ne.symm hx), ih hxs, List.append_assoc]
      rfl

/-- A row without ends of line of its own is one line. -/
theorem lines_row {xs : Text} (h : '\n' ∉ xs) (hreturn : xs.getLast? ≠ some '\r') :
    lines (xs ++ ['\n']) = [xs] := by
  rw [lines, linesFrom_of_not_mem h, List.nil_append, stripReturn, if_neg hreturn]

theorem not_mem_of_mem_linesFrom {line xs l : Text} (hline : '\n' ∉ line)
    (hl : l ∈ linesFrom line xs) : '\n' ∉ l := by
  have hstrip : '\n' ∉ stripReturn line := by
    rw [stripReturn]
    split
    · exact fun h => hline (List.mem_of_mem_dropLast h)
    · exact hline
  induction xs generalizing line with
  | nil =>
      rw [linesFrom] at hl
      split at hl
      · exact absurd hl List.not_mem_nil
      · rwa [List.mem_singleton.mp hl]
  | cons x xs ih =>
      rw [linesFrom] at hl
      split at hl
      · rcases List.mem_cons.mp hl with rfl | hl
        · exact hstrip
        · exact ih List.not_mem_nil hl (by decide)
      · rename_i hx
        have hmore : '\n' ∉ line ++ [x] := by
          rw [List.mem_append, List.mem_singleton, not_or]
          exact ⟨hline, Ne.symm hx⟩
        refine ih hmore hl ?_
        rw [stripReturn]
        split
        · exact fun h => hmore (List.mem_of_mem_dropLast h)
        · exact hmore

/-- No line has an end of line in it. -/
theorem not_mem_of_mem_lines {xs l : Text} (hl : l ∈ lines xs) : '\n' ∉ l :=
  not_mem_of_mem_linesFrom List.not_mem_nil hl

/-- What is in a column is in the line. -/
theorem mem_of_mem_splitOn {xs l : Text} {sep c : Char} (hl : l ∈ xs.splitOn sep) (hc : c ∈ l) :
    c ∈ xs := by
  induction xs generalizing l with
  | nil =>
      rw [List.splitOn_nil, List.mem_singleton] at hl
      rwa [hl] at hc
  | cons x xs ih =>
      rw [List.splitOn_cons_eq_if_modifyHead] at hl
      split at hl
      · rcases List.mem_cons.mp hl with rfl | hl
        · exact absurd hc List.not_mem_nil
        · exact List.mem_cons_of_mem _ (ih hl hc)
      · cases hsplit : xs.splitOn sep with
        | nil => exact absurd hsplit (List.splitOn_ne_nil sep xs)
        | cons y ys =>
            rw [hsplit] at hl ih
            rcases List.mem_cons.mp hl with rfl | hl
            · rcases List.mem_cons.mp hc with rfl | hc
              · exact List.mem_cons_self
              · exact List.mem_cons_of_mem _ (ih List.mem_cons_self hc)
            · exact List.mem_cons_of_mem _ (ih (List.mem_cons_of_mem _ hl) hc)

/-- No column has the separator in it. -/
theorem not_mem_of_mem_splitOn {xs l : Text} {sep : Char} (hl : l ∈ xs.splitOn sep) : sep ∉ l := by
  induction xs generalizing l with
  | nil =>
      rw [List.splitOn_nil, List.mem_singleton] at hl
      rw [hl]
      exact List.not_mem_nil
  | cons x xs ih =>
      rw [List.splitOn_cons_eq_if_modifyHead] at hl
      split at hl
      · rcases List.mem_cons.mp hl with rfl | hl
        · exact List.not_mem_nil
        · exact ih hl
      · rename_i hx
        cases hsplit : xs.splitOn sep with
        | nil => exact absurd hsplit (List.splitOn_ne_nil sep xs)
        | cons y ys =>
            rw [hsplit] at hl ih
            rcases List.mem_cons.mp hl with rfl | hl
            · intro h
              rcases List.mem_cons.mp h with rfl | h
              · exact hx (beq_self_eq_true _)
              · exact ih List.mem_cons_self h
            · exact ih (List.mem_cons_of_mem _ hl)

end Lines

section Numbers

/-- `char::to_digit`. -/
def toDigit (radix : ℕ) (c : Char) : Option ℕ :=
  let d :=
    if '0' ≤ c ∧ c ≤ '9' then c.toNat - '0'.toNat
    else if 'a' ≤ c ∧ c ≤ 'z' then c.toNat - 'a'.toNat + 10
    else if 'A' ≤ c ∧ c ≤ 'Z' then c.toNat - 'A'.toNat + 10
    else radix
  if d < radix then some d else none

def digitsFrom (radix n : ℕ) : Text → Option ℕ
  | [] => some n
  | c :: cs => (toDigit radix c).bind fun d => digitsFrom radix (n * radix + d) cs

/-- An unsigned number of 64 bits, with an optional sign. -/
def fromStrRadix (radix : ℕ) (s : Text) : Option ℕ :=
  (match s with
    | [] | ['+'] => none
    | '+' :: c :: cs => digitsFrom radix 0 (c :: cs)
    | c :: cs => digitsFrom radix 0 (c :: cs)).filter fun n => n < 2 ^ 64

/-- `str::parse` at an unsigned number of 64 bits. -/
def parse (s : Text) : Option ℕ := fromStrRadix 10 s

variable {radix : ℕ}

theorem digitsFrom_append (n : ℕ) (xs ys : Text) :
    digitsFrom radix n (xs ++ ys) = (digitsFrom radix n xs).bind fun m => digitsFrom radix m ys := by
  induction xs generalizing n with
  | nil => rfl
  | cons x xs ih =>
      rw [List.cons_append, digitsFrom, digitsFrom]
      cases toDigit radix x with
      | none => rfl
      | some d => exact ih _

theorem digitChar_spec : ∀ d < 16, toDigit 16 d.digitChar = some d ∧
    (d < 10 → toDigit 10 d.digitChar = some d) := by
  decide +kernel

theorem toDigit_digitChar (hradix : radix = 10 ∨ radix = 16) {d : ℕ} (hd : d < radix) :
    toDigit radix d.digitChar = some d := by
  rcases hradix with rfl | rfl
  · exact (digitChar_spec d (by omega)).2 hd
  · exact (digitChar_spec d hd).1

theorem exists_digit_of_mem_toDigits (hradix : radix = 10 ∨ radix = 16) {n : ℕ} {c : Char}
    (h : c ∈ Nat.toDigits radix n) : ∃ d < radix, c = d.digitChar := by
  induction n using Nat.strong_induction_on with
  | _ n ih =>
      rw [Nat.toDigits_eq_if (by omega)] at h
      split at h
      · exact ⟨n, by assumption, List.mem_singleton.mp h⟩
      · rcases List.mem_append.mp h with h | h
        · exact ih (n / radix) (Nat.div_lt_self (by omega) (by omega)) h
        · exact ⟨n % radix, Nat.mod_lt _ (by omega), List.mem_singleton.mp h⟩

theorem not_mem_toDigits (hradix : radix = 10 ∨ radix = 16) {c : Char}
    (hc : c ∉ (List.range 16).map Nat.digitChar) (n : ℕ) : c ∉ Nat.toDigits radix n := by
  intro hmem
  obtain ⟨d, hd, heq⟩ := exists_digit_of_mem_toDigits hradix hmem
  exact hc (List.mem_map.mpr ⟨d, List.mem_range.mpr (by omega), heq.symm⟩)

/-- What was printed is read back digit by digit. -/
theorem digitsFrom_toDigits (hradix : radix = 10 ∨ radix = 16) (n : ℕ) :
    digitsFrom radix 0 (Nat.toDigits radix n) = some n := by
  induction n using Nat.strong_induction_on with
  | _ n ih =>
      rw [Nat.toDigits_eq_if (by omega)]
      split
      · rename_i hlt
        rw [digitsFrom, toDigit_digitChar hradix hlt, Option.bind_some, digitsFrom]
        simp
      · rename_i hge
        have hmod : n % radix < radix := Nat.mod_lt _ (by omega)
        rw [digitsFrom_append, ih (n / radix) (Nat.div_lt_self (by omega) (by omega)),
          Option.bind_some, digitsFrom, toDigit_digitChar hradix hmod, Option.bind_some, digitsFrom,
          Nat.div_add_mod']

/-- A printed number parses to itself if it is one of 64 bits, and not at all otherwise. -/
theorem fromStrRadix_toDigits (hradix : radix = 10 ∨ radix = 16) (n : ℕ) :
    fromStrRadix radix (Nat.toDigits radix n) = if n < 2 ^ 64 then some n else none := by
  have hread := digitsFrom_toDigits hradix n
  have hsign : '+' ∉ Nat.toDigits radix n := not_mem_toDigits hradix (by decide) n
  cases htext : Nat.toDigits radix n with
  | nil => exact absurd htext Nat.toDigits_ne_nil
  | cons c cs =>
      rw [htext] at hread hsign
      obtain ⟨hc, -⟩ := not_or.mp (List.mem_cons.not.mp hsign)
      have hparse : fromStrRadix radix (c :: cs) =
          (digitsFrom radix 0 (c :: cs)).filter fun n => n < 2 ^ 64 := by
        unfold fromStrRadix
        split <;> simp_all
      rw [hparse, hread]
      split <;> simp_all [Option.filter]

theorem append_cons_inj_of_not_mem {c : Char} {xs ys zs ws : Text} (hxs : c ∉ xs) (hys : c ∉ ys)
    (h : xs ++ c :: zs = ys ++ c :: ws) : xs = ys ∧ zs = ws := by
  induction xs generalizing ys with
  | nil =>
      cases ys with
      | nil => exact ⟨rfl, (List.cons.inj h).2⟩
      | cons y ys => exact absurd ((List.cons.inj h).1 ▸ List.mem_cons_self) hys
  | cons x xs ih =>
      cases ys with
      | nil => exact absurd ((List.cons.inj h).1 ▸ List.mem_cons_self) hxs
      | cons y ys =>
          obtain ⟨rfl, hrest⟩ := List.cons.inj h
          obtain ⟨rfl, hzs⟩ := ih (fun hx => hxs (List.mem_cons_of_mem x hx))
            (fun hy => hys (List.mem_cons_of_mem x hy)) hrest
          exact ⟨rfl, hzs⟩

/-- A printed number and what follows it can be told apart. -/
theorem toDigits_append_cons_inj (hradix : radix = 10 ∨ radix = 16) {c : Char}
    (hc : c ∉ (List.range 16).map Nat.digitChar) {m n : ℕ} {xs ys : Text}
    (h : Nat.toDigits radix m ++ c :: xs = Nat.toDigits radix n ++ c :: ys) : m = n ∧ xs = ys := by
  obtain ⟨hdigits, hrest⟩ := append_cons_inj_of_not_mem (not_mem_toDigits hradix hc m)
    (not_mem_toDigits hradix hc n) h
  have hread := digitsFrom_toDigits hradix m
  rw [hdigits, digitsFrom_toDigits hradix n] at hread
  exact ⟨(Option.some.inj hread).symm, hrest⟩

theorem digitsFrom_eq_none {s : Text} {c : Char} (hc : toDigit radix c = none) (h : c ∈ s) (n : ℕ) :
    digitsFrom radix n s = none := by
  induction s generalizing n with
  | nil => cases h
  | cons x xs ih =>
      rw [digitsFrom]
      rcases List.mem_cons.mp h with rfl | h
      · rw [hc]
        rfl
      · cases toDigit radix x with
        | none => rfl
        | some d => exact ih h _

/-- A text with a character that is neither a digit nor the sign does not parse. -/
theorem fromStrRadix_eq_none {s : Text} {c : Char} (hc : toDigit radix c = none) (hsign : c ≠ '+')
    (h : c ∈ s) : fromStrRadix radix s = none := by
  have hnone {d : Char} {ds : Text} (hd : c ∈ d :: ds) :
      (digitsFrom radix 0 (d :: ds)).filter (fun n => n < 2 ^ 64) = none := by
    rw [digitsFrom_eq_none hc hd]
    rfl
  unfold fromStrRadix
  split
  · rfl
  · rfl
  · rcases List.mem_cons.mp h with rfl | h
    · exact absurd rfl hsign
    · exact hnone h
  · exact hnone h

theorem isWhitespace_digitChar : ∀ d < 10, isWhitespace (Nat.digitChar d) = false := by
  decide

/-- A printed number ends in a digit. -/
theorem exists_toDigits_concat (n : ℕ) :
    ∃ ds d, Nat.toDigits 10 n = ds ++ [d] ∧ isWhitespace d = false := by
  obtain ⟨ds, d, hd⟩ := List.eq_nil_or_concat'
    (Nat.toDigits 10 n) |>.resolve_left Nat.toDigits_ne_nil
  have hmem : d ∈ Nat.toDigits 10 n := by
    rw [hd]
    exact List.mem_append_right _ (List.mem_singleton_self d)
  obtain ⟨k, hk, rfl⟩ := exists_digit_of_mem_toDigits (.inl rfl) hmem
  exact ⟨ds, _, hd, isWhitespace_digitChar k hk⟩

/-- Behind a printed number there is nothing to trim. -/
theorem trimEnd_append_toDigits (xs : Text) (n : ℕ) :
    trimEnd (xs ++ Nat.toDigits 10 n) = xs ++ Nat.toDigits 10 n := by
  obtain ⟨ds, d, hds, hd⟩ := exists_toDigits_concat n
  rw [hds, ← List.append_assoc, trimEnd_append_cons hd]
  rfl

theorem trim_blank_toDigits (n : ℕ) : trim (' ' :: Nat.toDigits 10 n) = Nat.toDigits 10 n := by
  cases htext : Nat.toDigits 10 n with
  | nil => exact absurd htext Nat.toDigits_ne_nil
  | cons c cs =>
      have hmem : c ∈ Nat.toDigits 10 n := by
        rw [htext]
        exact List.mem_cons_self
      obtain ⟨k, hk, rfl⟩ := exists_digit_of_mem_toDigits (.inl rfl) hmem
      have hc := isWhitespace_digitChar k hk
      have hend := trimEnd_append_toDigits [] n
      rw [List.nil_append, htext] at hend
      rw [trim, trimStart, List.dropWhile_cons_of_pos (by decide),
        List.dropWhile_cons_of_neg (by rw [hc]; decide), hend]

end Numbers

end Rtmap.Str
