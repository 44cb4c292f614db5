import Rtmap.Lib.Str

/-!
# Flat JSON objects read by substring search

An object of numbers and strings on one line, printed field by field, and a reader that
looks for `"key":` in the text of the whole line. The reader finds the field it looks
for as long as every quote inside a value has a backslash before it.
-/
namespace Rtmap.FlatJson
open Rtmap.Str

/-- A value as it is printed: a string is given by its escaped text. -/
inductive Value where
  | num (n : ℕ)
  | text (raw : Text)
deriving DecidableEq, Repr

structure Field where
  key : Text
  value : Value
deriving DecidableEq, Repr

/-- Every quote has a backslash before it. -/
inductive Guarded : Text → Prop
  | nil : Guarded []
  | char {c : Char} {cs : Text} (h : c ≠ '"') (hcs : Guarded cs) : Guarded (c :: cs)
  | quote {cs : Text} (hcs : Guarded cs) : Guarded ('\\' :: '"' :: cs)

theorem Guarded.of_not_mem {cs : Text} (h : '"' ∉ cs) : Guarded cs := by
  induction cs with
  | nil => exact .nil
  | cons c cs ih =>
      obtain ⟨hc, hcs⟩ := not_or.mp (List.mem_cons.not.mp h)
      exact .char (Ne.symm hc) (ih hcs)

theorem Guarded.append {xs ys : Text} (hxs : Guarded xs) (hys : Guarded ys) : Guarded (xs ++ ys) := by
  induction hxs with
  | nil => exact hys
  | char h _ ih => exact .char h ih
  | quote _ ih => exact .quote ih

/-- What stands before a quote ends in a backslash. -/
theorem Guarded.backslash_mem {cs : Text} (h : Guarded cs) :
    ∀ {xs ys : Text}, cs = xs ++ '"' :: ys → '\\' ∈ xs := by
  induction h with
  | nil =>
      intro xs ys h
      cases xs <;> cases h
  | char hc _ ih =>
      intro xs ys h
      cases xs with
      | nil => exact absurd (List.cons.inj h).1 hc
      | cons x xs => exact List.mem_cons_of_mem x (ih (List.cons.inj h).2)
  | quote _ _ =>
      intro xs ys h
      cases xs with
      | nil => exact absurd (List.cons.inj h).1 (by decide)
      | cons x xs =>
          rw [← (List.cons.inj h).1]
          exact List.mem_cons_self

def Value.print : Value → Text
  | .num n => Nat.toDigits 10 n
  | .text raw => '"' :: raw ++ ['"']

def Field.print (f : Field) : Text := '"' :: f.key ++ '"' :: ':' :: f.value.print

/-- The fields behind the first one, and the end of the object. -/
def printRest (fs : List Field) : Text := fs.flatMap (fun f => ',' :: f.print) ++ ['}']

def print : List Field → Text
  | [] => ['{', '}']
  | f :: fs => '{' :: f.print ++ printRest fs

/-- A key is not empty and has none of the characters that stand around it. -/
def IsKey (key : Text) : Prop := key ≠ [] ∧ ∀ c ∈ key, c ∉ ['"', '\\', ':', ',', '}', '\n']

-- through the list: characters are finitely many, which would be found first
instance (key : Text) : Decidable (IsKey key) :=
  @instDecidableAnd _ _ inferInstance (List.decidableBAll _ key)

/-- A field that can be printed on a line: its key is one, and a string is escaped. -/
structure Field.WellFormed (f : Field) : Prop where
  key : IsKey f.key
  text : ∀ raw, f.value = .text raw → Guarded raw
  line : ∀ raw, f.value = .text raw → '\n' ∉ raw

/-- What a reader looks for: the key and the colon, and the quote that opens a string. -/
def needle (key opening : Text) : Text := '"' :: key ++ '"' :: ':' :: opening

/-- The digits behind the key, if it is found. -/
def readDigits (key line : Text) : Option Text :=
  (after (needle key []) line).map fun rest => rest.takeWhile Char.isDigit

/-- The text behind the key up to the next quote, if both are found. -/
def readRaw (key line : Text) : Option Text :=
  (after (needle key ['"']) line).bind fun rest =>
    if '"' ∈ rest then some (rest.takeWhile fun c => c ≠ '"') else none

section Search
variable {key opening : Text}

/-- Two texts split at their first quote. -/
theorem split_quote {xs xs' ys ys' : Text} (hxs : '"' ∉ xs) (hxs' : '"' ∉ xs')
    (h : xs ++ '"' :: ys = xs' ++ '"' :: ys') : xs = xs' ∧ ys = ys' := by
  induction xs generalizing xs' with
  | nil =>
      cases xs' with
      | nil => exact ⟨rfl, (List.cons.inj h).2⟩
      | cons x' xs' =>
          rw [← (List.cons.inj h).1] at hxs'
          exact absurd List.mem_cons_self hxs'
  | cons x xs ih =>
      cases xs' with
      | nil =>
          rw [(List.cons.inj h).1] at hxs
          exact absurd List.mem_cons_self hxs
      | cons x' xs' =>
          obtain ⟨hx, hrest⟩ := List.cons.inj h
          obtain ⟨hsame, hys⟩ := ih (fun h => hxs (List.mem_cons_of_mem x h))
            (fun h => hxs' (List.mem_cons_of_mem x' h)) hrest
          exact ⟨by rw [hx, hsame], hys⟩

theorem IsKey.quote_not_mem (hkey : IsKey key) : '"' ∉ key := fun h => hkey.2 _ h (by decide)

theorem IsKey.backslash_not_mem (hkey : IsKey key) : '\\' ∉ key := fun h => hkey.2 _ h (by decide)

/-- What follows a value. -/
def Delimited (rest : Text) : Prop := rest.head? = some ',' ∨ rest.head? = some '}'

theorem printRest_cons (f : Field) (fs : List Field) :
    printRest (f :: fs) = ',' :: (f.print ++ printRest fs) := by
  simp [printRest]

theorem delimited_printRest (fs : List Field) : Delimited (printRest fs) := by
  cases fs with
  | nil => exact .inr rfl
  | cons f fs => exact .inl rfl

theorem Delimited.head_ne {rest cs : Text} {c : Char} (h : Delimited rest) (hrest : rest = c :: cs) :
    c = ',' ∨ c = '}' := by
  rw [hrest] at h
  exact h.imp Option.some.inj Option.some.inj

theorem after_needle_cons {c : Char} {cs : Text} (h : c ≠ '"') :
    after (needle key opening) (c :: cs) = after (needle key opening) cs := after_cons_of_ne h

theorem prefix_needle {cs s : Text} (h : '"' :: cs = needle key opening ++ s) :
    cs = key ++ '"' :: ':' :: (opening ++ s) := by
  have htail := (List.cons.inj h).2
  simpa [needle] using htail

/-- The needle starts at a quote only if that opens its key. -/
theorem not_prefix_of {cs : Text} (h : ∀ s, cs ≠ key ++ '"' :: ':' :: (opening ++ s)) :
    ('"' :: cs).dropPrefix? (needle key opening) = none := by
  rw [dropPrefix?_eq_none_iff_append]
  exact fun s hs => h s (prefix_needle hs)

/-- The needle does not start at a quote that closes. -/
theorem not_prefix_closing (hkey : IsKey key) {c : Char} {cs : Text}
    (hc : c ∈ ['"', '\\', ':', ',', '}', '\n']) :
    ('"' :: c :: cs).dropPrefix? (needle key opening) = none := by
  apply not_prefix_of
  intro s h
  cases key with
  | nil => exact hkey.1 rfl
  | cons k key =>
      rw [(List.cons.inj h).1] at hc
      exact hkey.2 k List.mem_cons_self hc

/-- The needle does not start at the quote that opens a value, or at one inside it. -/
theorem not_prefix_value (hkey : IsKey key) {raw rest : Text} (hraw : Guarded raw)
    (hrest : Delimited rest) :
    ('"' :: (raw ++ '"' :: rest)).dropPrefix? (needle key opening) = none := by
  apply not_prefix_of
  intro s h
  by_cases hquote : '"' ∈ raw
  · obtain ⟨xs, ys, hsplit, hxs⟩ := List.eq_append_cons_of_mem hquote
    rw [hsplit, List.append_assoc, List.cons_append] at h
    have hsame := (split_quote hxs hkey.quote_not_mem h).1
    exact hkey.backslash_not_mem (hsame ▸ hraw.backslash_mem hsplit)
  · have hcolon := (split_quote hquote hkey.quote_not_mem h).2
    rcases hrest.head_ne hcolon with h | h <;> cases h

/-- A search passes what is left of a string value. -/
theorem after_raw (hkey : IsKey key) {raw rest : Text} (hraw : Guarded raw)
    (hrest : Delimited rest) :
    after (needle key opening) (raw ++ '"' :: rest) = after (needle key opening) rest := by
  induction hraw with
  | nil =>
      cases rest with
      | nil => rcases hrest with h | h <;> cases h
      | cons c cs =>
          apply after_cons_of_no_match
          apply not_prefix_closing hkey
          rcases hrest.head_ne rfl with rfl | rfl <;> decide
  | char hc _ ih =>
      rw [← ih, List.cons_append, after_needle_cons hc]
  | quote hcs ih =>
      rw [← ih, List.cons_append, List.cons_append, after_needle_cons (by decide),
        after_cons_of_no_match (not_prefix_value hkey hcs hrest)]

/-- A search passes a value. -/
theorem after_value (hkey : IsKey key) {v : Value} {rest : Text}
    (hv : ∀ raw, v = .text raw → Guarded raw) (hrest : Delimited rest) :
    after (needle key opening) (v.print ++ rest) = after (needle key opening) rest := by
  cases v with
  | num n => exact after_append_of_not_mem (not_mem_toDigits (.inl rfl) (by decide) n)
  | text raw =>
      have hraw := hv raw rfl
      have htext : (Value.text raw).print ++ rest = '"' :: (raw ++ '"' :: rest) := by
        simp [Value.print]
      rw [htext, after_cons_of_no_match (not_prefix_value hkey hraw hrest)]
      exact after_raw hkey hraw hrest

/-- A search passes a field at whose key the needle does not start. -/
theorem after_field (hkey : IsKey key) {f : Field} (hf : f.WellFormed) {rest : Text}
    (hrest : Delimited rest)
    (hne : f.key ≠ key ∨ ∀ s, f.value.print ++ rest ≠ opening ++ s) :
    after (needle key opening) (f.print ++ rest) = after (needle key opening) rest := by
  have hskip : after (needle key opening) ('"' :: ':' :: (f.value.print ++ rest)) =
      after (needle key opening) rest := by
    rw [after_cons_of_no_match (not_prefix_closing hkey (by decide)),
      after_needle_cons (by decide), after_value hkey hf.text hrest]
  have hstart : ('"' :: (f.key ++ '"' :: ':' :: (f.value.print ++ rest))).dropPrefix?
      (needle key opening) = none := by
    apply not_prefix_of
    intro s h
    obtain ⟨hsame, hvalue⟩ := split_quote hf.key.quote_not_mem hkey.quote_not_mem h
    rcases hne with hne | hne
    · exact hne hsame
    · exact hne s (List.cons.inj hvalue).2
  have htext : f.print ++ rest = '"' :: (f.key ++ '"' :: ':' :: (f.value.print ++ rest)) := by
    simp [Field.print]
  rw [htext, after_cons_of_no_match hstart, ← hskip]
  exact after_append_of_not_mem hf.key.quote_not_mem

/-- A search ends at the field with the key, if its value opens as the needle does. -/
theorem after_match {f : Field} {rest s : Text} (h : f.value.print ++ rest = opening ++ s) :
    after (needle f.key opening) (f.print ++ rest) = some s := by
  have htext : f.print ++ rest = '"' :: (f.key ++ '"' :: ':' :: (f.value.print ++ rest)) := by
    simp [Field.print]
  rw [htext]
  apply after_cons_of_prefix
  rw [dropPrefix?_eq_some_iff_append, h]
  simp [needle]

end Search

section Line

theorem newline_not_mem_field {f : Field} (hf : f.WellFormed) : '\n' ∉ f.print := by
  have hkey : '\n' ∉ f.key := fun h => hf.key.2 _ h (by decide)
  have hvalue : '\n' ∉ f.value.print := by
    cases hv : f.value with
    | num n =>
        intro h
        exact absurd (Nat.isDigit_of_mem_toDigits (by decide) (by decide) h) (by decide)
    | text raw => simpa [Value.print] using hf.line raw hv
  simp [Field.print, hkey, hvalue]

/-- An object is one line. -/
theorem newline_not_mem_print {fs : List Field} (hfs : ∀ f ∈ fs, f.WellFormed) :
    '\n' ∉ print fs := by
  have hrest (fs : List Field) (hfs : ∀ f ∈ fs, f.WellFormed) : '\n' ∉ printRest fs := by
    induction fs with
    | nil => decide
    | cons f fs ih =>
        obtain ⟨hf, hfs⟩ := List.forall_mem_cons.mp hfs
        simp [printRest_cons, newline_not_mem_field hf, ih hfs]
  cases fs with
  | nil => decide
  | cons f fs =>
      obtain ⟨hf, hfs⟩ := List.forall_mem_cons.mp hfs
      simp [print, newline_not_mem_field hf, hrest fs hfs]

theorem head?_print (fs : List Field) : (print fs).head? = some '{' := by
  cases fs <;> rfl

theorem getLast?_print (fs : List Field) : (print fs).getLast? = some '}' := by
  cases fs with
  | nil => rfl
  | cons f fs =>
      rw [print, printRest, ← List.append_assoc]
      exact List.getLast?_concat

/-- An object is not blank at either end. -/
theorem trim_print (fs : List Field) : trim (print fs) = print fs :=
  trim_eq_self (head?_print fs) (getLast?_print fs) (by decide) (by decide)

end Line

section Lookup
variable {key : Text} {fs : List Field}

def Value.digits : Value → Text
  | .num n => Nat.toDigits 10 n
  | .text _ => []

def Value.raw? : Value → Option Text
  | .num _ => none
  | .text raw => some raw

/-- The first field with the key. -/
def digitsOf (key : Text) (fs : List Field) : Option Text :=
  (fs.find? fun f => f.key = key).map fun f => f.value.digits

/-- The first string with the key. -/
def rawOf (key : Text) (fs : List Field) : Option Text :=
  fs.findSome? fun f => if f.key = key then f.value.raw? else none

theorem takeWhile_digits (v : Value) {rest : Text} (hrest : Delimited rest) :
    (v.print ++ rest).takeWhile Char.isDigit = v.digits := by
  have hstop : rest.takeWhile Char.isDigit = [] := by
    cases rest with
    | nil => rfl
    | cons c cs =>
        apply List.takeWhile_cons_of_neg
        rcases hrest.head_ne rfl with rfl | rfl <;> decide
  cases v with
  | num n =>
      rw [Value.print, List.takeWhile_append_of_pos, hstop, List.append_nil, Value.digits]
      exact fun c hc => Nat.isDigit_of_mem_toDigits (by decide) (by decide) hc
  | text raw => exact List.takeWhile_cons_of_neg (by decide)

theorem takeWhile_raw (raw rest : Text) :
    (raw ++ '"' :: rest).takeWhile (fun c => c ≠ '"') = raw.takeWhile fun c => c ≠ '"' := by
  induction raw with
  | nil => exact List.takeWhile_cons_of_neg (by decide)
  | cons c cs ih =>
      rw [List.cons_append, List.takeWhile_cons, List.takeWhile_cons, ih]

/-- A reader passes what is not a quote. -/
theorem readDigits_cons {c : Char} {cs : Text} (h : c ≠ '"') :
    readDigits key (c :: cs) = readDigits key cs := by
  unfold readDigits
  rw [after_needle_cons h]

theorem readRaw_cons {c : Char} {cs : Text} (h : c ≠ '"') :
    readRaw key (c :: cs) = readRaw key cs := by
  unfold readRaw
  rw [after_needle_cons h]

theorem readDigits_field (hkey : IsKey key) {f : Field} (hf : f.WellFormed) {rest : Text}
    (hrest : Delimited rest) :
    readDigits key (f.print ++ rest) =
      if f.key = key then some f.value.digits else readDigits key rest := by
  unfold readDigits
  split
  · rename_i hsame
    rw [← hsame, after_match (List.nil_append _).symm, Option.map_some, takeWhile_digits _ hrest]
  · rename_i hne
    rw [after_field hkey hf hrest (.inl hne)]

theorem readRaw_field (hkey : IsKey key) {f : Field} (hf : f.WellFormed) {rest : Text}
    (hrest : Delimited rest) :
    readRaw key (f.print ++ rest) =
      ((if f.key = key then f.value.raw? else none).map fun raw =>
        raw.takeWhile fun c => c ≠ '"').or (readRaw key rest) := by
  unfold readRaw
  by_cases hsame : f.key = key
  · cases hv : f.value with
    | num n =>
        have hne (s : Text) : f.value.print ++ rest ≠ ['"'] ++ s := by
          intro h
          rw [hv, Value.print] at h
          cases hdigits : Nat.toDigits 10 n with
          | nil => exact Nat.toDigits_ne_nil hdigits
          | cons d ds =>
              rw [hdigits] at h
              have hquote : '"' ∉ Nat.toDigits 10 n := not_mem_toDigits (.inl rfl) (by decide) n
              rw [hdigits, (List.cons.inj h).1] at hquote
              exact hquote List.mem_cons_self
        rw [after_field hkey hf hrest (.inr hne)]
        simp [Value.raw?]
    | text raw =>
        have hopen : f.value.print ++ rest = ['"'] ++ (raw ++ '"' :: rest) := by
          rw [hv, Value.print]
          simp
        rw [if_pos hsame, ← hsame, after_match hopen, Option.bind_some,
          if_pos (List.mem_append_right _ List.mem_cons_self), takeWhile_raw]
        rfl
  · rw [after_field hkey hf hrest (.inl hsame), if_neg hsame]
    rfl

theorem readDigits_printRest (hkey : IsKey key) (hfs : ∀ f ∈ fs, f.WellFormed) :
    readDigits key (printRest fs) = digitsOf key fs := by
  induction fs with
  | nil => simp [printRest, readDigits, needle, after, List.dropPrefix?, digitsOf]
  | cons f fs ih =>
      obtain ⟨hf, hfs⟩ := List.forall_mem_cons.mp hfs
      rw [printRest_cons, readDigits_cons (by decide),
        readDigits_field hkey hf (delimited_printRest fs), ih hfs, digitsOf, digitsOf,
        List.find?_cons]
      split <;> simp_all

theorem readRaw_printRest (hkey : IsKey key) (hfs : ∀ f ∈ fs, f.WellFormed) :
    readRaw key (printRest fs) =
      (rawOf key fs).map fun raw => raw.takeWhile fun c => c ≠ '"' := by
  induction fs with
  | nil => simp [printRest, readRaw, needle, after, List.dropPrefix?, rawOf]
  | cons f fs ih =>
      obtain ⟨hf, hfs⟩ := List.forall_mem_cons.mp hfs
      rw [printRest_cons, readRaw_cons (by decide),
        readRaw_field hkey hf (delimited_printRest fs), ih hfs, rawOf, rawOf, List.findSome?_cons]
      cases (if f.key = key then f.value.raw? else none) <;> rfl

/-- A number is read from the first field with its key. -/
theorem readDigits_print (hkey : IsKey key) (hfs : ∀ f ∈ fs, f.WellFormed) :
    readDigits key (print fs) = digitsOf key fs := by
  cases fs with
  | nil => simp [print, readDigits, needle, after, List.dropPrefix?, digitsOf]
  | cons f fs =>
      rw [← readDigits_printRest hkey hfs, printRest_cons, readDigits_cons (by decide)]
      exact readDigits_cons (by decide)

/-- A string is read from the first string with its key, up to a quote in it. -/
theorem readRaw_print (hkey : IsKey key) (hfs : ∀ f ∈ fs, f.WellFormed) :
    readRaw key (print fs) = (rawOf key fs).map fun raw => raw.takeWhile fun c => c ≠ '"' := by
  cases fs with
  | nil => simp [print, readRaw, needle, after, List.dropPrefix?, rawOf]
  | cons f fs =>
      rw [← readRaw_printRest hkey hfs, printRest_cons, readRaw_cons (by decide)]
      exact readRaw_cons (by decide)

end Lookup

end Rtmap.FlatJson
