import Rtmap.Lib.Str

/-!
# Texts written row by row

What a text holds when it is searched, trimmed or cut into lines, and the lines of a text
that was put together from rows.
-/
namespace Rtmap.Str

section Infix
variable {needle line s l : Text}

/-- A search finds what stands somewhere in the text. -/
theorem isSome_after_iff : (after needle s).isSome = true ↔ needle <:+: s := by
  have hstart (t : Text) : (t.dropPrefix? needle).isSome = true ↔ needle <+: t := by
    rw [Option.isSome_iff_exists]
    simp only [dropPrefix?_eq_some_iff_append, List.IsPrefix, eq_comm]
  induction s with
  | nil => rw [after, hstart, List.prefix_nil, List.infix_nil]
  | cons c cs ih =>
      rw [List.infix_cons_iff]
      cases hdrop : (c :: cs).dropPrefix? needle with
      | none =>
          have hnot : ¬ needle <+: c :: cs := by simp [← hstart, hdrop]
          rw [after_cons_of_no_match hdrop, or_iff_right hnot]
          exact ih
      | some rest =>
          have hfirst : needle <+: c :: cs := by simp [← hstart, hdrop]
          have hafter := after_cons_of_prefix hdrop
          rw [hafter]
          exact iff_of_true rfl (.inl hfirst)

theorem infix_trim (s : Text) : trim s <:+: s := by
  have hend (t : Text) : trimEnd t <+: t := by
    rw [trimEnd, ← List.reverse_suffix, List.reverse_reverse]
    exact List.dropWhile_suffix _
  exact (hend _).isInfix.trans (List.dropWhile_suffix _).isInfix

/-- What is cut off as a line was there. -/
theorem infix_of_mem_linesFrom (hl : l ∈ linesFrom line s) : l <:+: line ++ s := by
  have hstrip (t : Text) : stripReturn t <+: t := by
    rw [stripReturn]
    split
    · exact List.dropLast_prefix t
    · exact List.prefix_rfl
  induction s generalizing line with
  | nil =>
      rw [linesFrom] at hl
      split at hl
      · exact absurd hl List.not_mem_nil
      · rw [List.mem_singleton.mp hl, List.append_nil]
  | cons c cs ih =>
      rw [linesFrom] at hl
      split at hl
      · rcases List.mem_cons.mp hl with rfl | hl
        · exact ((hstrip line).trans (List.prefix_append _ _)).isInfix
        · have hrest : cs <:+ line ++ c :: cs := ⟨line ++ [c], by simp⟩
          exact (ih hl).trans hrest.isInfix
      · simpa using ih hl

theorem infix_of_mem_lines (hl : l ∈ lines s) : l <:+: s := infix_of_mem_linesFrom hl

/-- What has no separator in it stands on one side of it. -/
theorem infix_append_cons_iff {c : Char} {xs ys : Text} (hc : c ∉ l) :
    l <:+: xs ++ c :: ys ↔ l <:+: xs ∨ l <:+: ys := by
  have hsplit {zs : Text} (hzs : c ∉ zs) (h : zs <+: c :: ys) : zs = [] := by
    rcases List.prefix_cons_iff.mp h with h | ⟨t, rfl, -⟩
    · exact h
    · exact absurd List.mem_cons_self hzs
  constructor
  · intro h
    rcases List.infix_append_iff.mp h with h | h | ⟨front, back, rfl, hfront, hback⟩
    · exact .inl h
    · rcases List.infix_cons_iff.mp h with h | h
      · exact .inl (hsplit hc h ▸ List.nil_infix)
      · exact .inr h
    · have hnil := hsplit (fun hmem => hc (List.mem_append_right front hmem)) hback
      rw [hnil, List.append_nil]
      exact .inl hfront.isInfix
  · rintro (h | h)
    · exact List.infix_append_of_infix_left h
    · exact List.infix_append_of_infix_right (h.trans (List.suffix_cons c ys).isInfix)

end Infix

section Blanks
variable {d : Char} {s : Text}

theorem trim_append_blank (hd : isWhitespace d = true) (s : Text) : trim (s ++ [d]) = trim s := by
  have hend (t : Text) : trimEnd (t ++ [d]) = trimEnd t := by
    rw [trimEnd, List.reverse_append, List.reverse_singleton, List.singleton_append,
      List.dropWhile_cons_of_pos hd, trimEnd]
  rw [trim, trim, trimStart, trimStart, List.dropWhile_append]
  split
  · rename_i hempty
    rw [List.isEmpty_iff.mp hempty, List.dropWhile_cons_of_pos hd, List.dropWhile_nil]
  · exact hend _

theorem trim_blank_cons (hd : isWhitespace d = true) (s : Text) : trim (d :: s) = trim s := by
  rw [trim, trim, trimStart, trimStart, List.dropWhile_cons_of_pos hd]

theorem trim_stripReturn (s : Text) : trim (stripReturn s) = trim s := by
  rw [stripReturn]
  split
  · rename_i hlast
    obtain ⟨ys, rfl⟩ := List.getLast?_eq_some_iff.mp hlast
    rw [List.dropLast_concat, trim_append_blank (by decide)]
  · rfl

theorem trim_trimEnd (s : Text) : trim (trimEnd s) = trim s := by
  induction s using List.reverseRecOn with
  | nil => rfl
  | append_singleton s d ih =>
      cases hd : isWhitespace d with
      | true =>
          have hdrop : trimEnd (s ++ [d]) = trimEnd s := by
            rw [trimEnd, List.reverse_append, List.reverse_singleton, List.singleton_append,
              List.dropWhile_cons_of_pos hd, trimEnd]
          rw [hdrop, ih, trim_append_blank hd]
      | false => rw [trimEnd_append_cons hd, trimEnd, List.reverse_nil, List.dropWhile_nil,
          List.reverse_nil]

end Blanks

section Rows
variable {α : Type*} {f : Text → Option α}

/-- A text of rows, each with an end of line. -/
def rowsText (rows : List Text) : Text := rows.flatMap fun r => r ++ ['\n']

/-- What is read off the lines of a text. -/
def readRows (f : Text → Option α) (s : Text) : List α := (lines s).filterMap f

/-- The reader takes a line as it takes what is left of it without its blanks, and nothing
of an empty one. -/
structure Trimming (f : Text → Option α) : Prop where
  blank : f [] = none
  stripReturn : ∀ l, f (stripReturn l) = f l

theorem Trimming.linesFrom_end (hf : Trimming f) (line s : Text) :
    (linesFrom line (s ++ ['\n'])).filterMap f = (linesFrom line s).filterMap f := by
  induction s generalizing line with
  | nil =>
      have hend : linesFrom line ['\n'] = [Str.stripReturn line] := rfl
      rw [List.nil_append, hend, linesFrom]
      split
      · rename_i hline
        rw [hline, List.filterMap_cons, hf.stripReturn, hf.blank]
      · rw [List.filterMap_cons, hf.stripReturn, List.filterMap_cons]
  | cons c cs ih =>
      rw [List.cons_append, linesFrom, linesFrom]
      split
      · rw [List.filterMap_cons, List.filterMap_cons, ih]
      · exact ih _

/-- Behind an end of line the reading goes on as from the start. -/
theorem Trimming.readRows_append (hf : Trimming f) (xs ys : Text) :
    readRows f (xs ++ '\n' :: ys) = readRows f xs ++ readRows f ys := by
  rw [readRows, lines, linesFrom_append, List.filterMap_append, hf.linesFrom_end]
  rfl

/-- A text of rows is read row by row. -/
theorem Trimming.readRows_rowsText (hf : Trimming f) {rows : List Text}
    (hrows : ∀ r ∈ rows, '\n' ∉ r) : readRows f (rowsText rows) = rows.filterMap f := by
  induction rows with
  | nil => rfl
  | cons r rs ih =>
      have hrow : readRows f r = [r].filterMap f := by
        rw [readRows, lines, ← hf.linesFrom_end,
          linesFrom_of_not_mem (hrows r List.mem_cons_self), List.filterMap_cons,
          List.nil_append, hf.stripReturn, List.filterMap_cons]
      have hrest := ih fun r' hr' => hrows r' (List.mem_cons_of_mem r hr')
      rw [rowsText, List.flatMap_cons, List.append_assoc, List.singleton_append,
        hf.readRows_append, hrow, ← rowsText, hrest, ← List.filterMap_append,
        List.singleton_append]

/-- What is searched for in one line stands in one of the rows. -/
theorem infix_rowsText_iff {l : Text} (hne : l ≠ []) (hl : '\n' ∉ l) {rows : List Text} :
    l <:+: rowsText rows ↔ ∃ r ∈ rows, l <:+: r := by
  induction rows with
  | nil => simp [rowsText, hne]
  | cons r rs ih =>
      rw [rowsText, List.flatMap_cons, List.append_assoc, List.singleton_append,
        infix_append_cons_iff hl, ← rowsText, List.exists_mem_cons_iff]
      exact or_congr_right ih

end Rows

end Rtmap.Str
