import Rtmap.Check.Assertions

/-!
# Assertions read back

The documented spelling of an assertion and what the parser makes of it. Commas and parentheses
are looked for before quotes are, so that names in which they stand can end an argument.
-/
namespace Rtmap.Check
open Rtmap.Str

namespace Assertion

/-- A name in quotes. -/
def quoted (name : String) : Text := '"' :: (name.toList ++ ['"'])

/-- The documented spelling. -/
def spell : Assertion → Text
  | .noHazards => "no_hazards".toList
  | .liveAllocsLt limit => "live_allocs".toList ++ " < ".toList ++ Nat.toDigits 10 limit
  | .maxChain typeName field limit => "max_chain(".toList ++ ("type(".toList ++ (quoted typeName ++
      ("), ".toList ++ (quoted field ++ (") < ".toList ++ Nat.toDigits 10 limit)))))
  | .typeStable source expectedType => "type_stable(".toList ++ ("global(".toList ++
      (quoted source ++ ("), ".toList ++ (quoted expectedType ++ ")".toList))))
  | .noFalseSharing nameA nameB => "no_false_sharing(".toList ++ (quoted nameA ++
      (", ".toList ++ (quoted nameB ++ ")".toList)))
  | .stmProjectionsGt min => "stm_projections".toList ++ " > ".toList ++ Nat.toDigits 10 min
  | .allocBeforeStamp => "alloc_before_stamp".toList
  | .noUseAfterFree => "no_use_after_free".toList
  | .monotonicSeq => "monotonic_seq".toList
  | .stampBeforeLink => "stamp_before_link".toList

/-- The names have no quote, and the numbers are machine words. -/
def Spellable : Assertion → Prop
  | .liveAllocsLt limit | .stmProjectionsGt limit => limit < 2 ^ 64
  | .maxChain typeName field limit =>
      '"' ∉ typeName.toList ∧ '"' ∉ field.toList ∧ limit < 2 ^ 64
  | .typeStable source expectedType => '"' ∉ source.toList ∧ '"' ∉ expectedType.toList
  | .noFalseSharing nameA nameB => '"' ∉ nameA.toList ∧ '"' ∉ nameB.toList
  | _ => True

end Assertion

example : Assertion.spell (.maxChain "node" "next" 100) =
    "max_chain(type(\"node\"), \"next\") < 100".toList := by decide

def opens (s : Text) : ℕ := s.count '('
def closes (s : Text) : ℕ := s.count ')'

/-- The parenthesis behind the names is the one that closes the list of arguments: none before
it does, and it does. -/
structure ClosesLast (typeName field : Text) : Prop where
  inType : ∀ p ∈ typeName.inits, closes p ≤ opens p + 1
  inField : ∀ p ∈ field.inits, closes typeName + closes p ≤ opens typeName + opens p
  balanced : closes typeName + closes field = opens typeName + opens field

/-- No comma comes before the one between the arguments, or the second name is just what stands
between the quotes of both. -/
def CommaApart (first second : String) : Prop := ',' ∉ first.toList ∨ second = "), "

/-- The assertion's names let its arguments be told apart. -/
def Assertion.Separable : Assertion → Prop
  | .maxChain typeName field _ =>
      ClosesLast typeName.toList field.toList ∧ CommaApart typeName field
  | .typeStable source expectedType => CommaApart source expectedType
  | .noFalseSharing nameA nameB => ',' ∉ nameA.toList ∧ ',' ∉ nameB.toList
  | _ => True

section Parentheses
variable {d : ℕ} {c : Char} {s xs ys : Text}

@[simp] theorem opens_nil : opens [] = 0 := rfl
@[simp] theorem closes_nil : closes [] = 0 := rfl

theorem opens_cons (c : Char) (s : Text) : opens (c :: s) = opens s + if c = '(' then 1 else 0 := by
  rw [opens, opens, List.count_cons]
  simp

theorem closes_cons (c : Char) (s : Text) :
    closes (c :: s) = closes s + if c = ')' then 1 else 0 := by
  rw [closes, closes, List.count_cons]
  simp

/-- No parenthesis of the text closes the outermost of `d` levels. -/
def StaysOpen (d : ℕ) (s : Text) : Prop := ∀ p ∈ s.inits, closes p < d + opens p

theorem StaysOpen.pos (h : StaysOpen d s) : 0 < d := h [] (by simp)

theorem staysOpen_cons : StaysOpen d (c :: s) ↔
    0 < d ∧ ∀ p ∈ s.inits, closes (c :: p) < d + opens (c :: p) := by
  rw [StaysOpen, List.inits_cons, List.forall_mem_cons, List.forall_mem_map]
  rfl

theorem staysOpen_open (hd : 0 < d) : StaysOpen d ('(' :: s) ↔ StaysOpen (d + 1) s := by
  rw [staysOpen_cons, and_iff_right hd]
  refine forall₂_congr fun p _ => ?_
  rw [closes_cons, opens_cons, if_neg (by decide), if_pos rfl]
  omega

theorem staysOpen_close : StaysOpen (d + 1) (')' :: s) ↔ StaysOpen d s := by
  rw [staysOpen_cons, and_iff_right (Nat.succ_pos d)]
  refine forall₂_congr fun p _ => ?_
  rw [closes_cons, opens_cons, if_pos rfl, if_neg (by decide)]
  omega

theorem staysOpen_other (hopen : c ≠ '(') (hclose : c ≠ ')') :
    StaysOpen d (c :: s) ↔ StaysOpen d s := by
  rw [staysOpen_cons]
  simp only [closes_cons, opens_cons, if_neg hopen, if_neg hclose, Nat.add_zero]
  exact and_iff_right_of_imp StaysOpen.pos

theorem map_cons_eq_some {r : Option (Text × Text)} :
    (r.map fun r => (c :: r.1, r.2)) = some (xs, ys) ↔
      ∃ front, xs = c :: front ∧ r = some (front, ys) := by
  rw [Option.map_eq_some_iff]
  constructor
  · rintro ⟨⟨front, back⟩, hr, heq⟩
    obtain ⟨rfl, rfl⟩ := Prod.mk.inj heq
    exact ⟨front, rfl, hr⟩
  · rintro ⟨front, rfl, hr⟩
    exact ⟨_, hr, rfl⟩

/-- What is inside the level that the text closes. -/
def Closes (d : ℕ) (s xs ys : Text) : Prop :=
  s = xs ++ ')' :: ys ∧ StaysOpen d xs ∧ closes xs + 1 = d + opens xs

/-- A character that does not close the level is the first one of what is inside. -/
theorem closes_cons_iff {d' : ℕ} (hinside : ¬(c = ')' ∧ d = 1))
    (hstays : ∀ front, StaysOpen d (c :: front) ↔ StaysOpen d' front)
    (hcount : ∀ front, closes (c :: front) + 1 = d + opens (c :: front) ↔
      closes front + 1 = d' + opens front) :
    Closes d (c :: s) xs ys ↔ ∃ front, xs = c :: front ∧ Closes d' s front ys := by
  unfold Closes
  cases xs with
  | nil =>
      simp only [List.nil_append, List.cons.injEq, closes_nil, opens_nil]
      constructor
      · rintro ⟨⟨rfl, -⟩, -, hone⟩
        exact absurd ⟨rfl, by omega⟩ hinside
      · rintro ⟨front, hfront, -⟩
        cases hfront
  | cons x front =>
      simp only [List.cons_append, List.cons.injEq]
      constructor
      · rintro ⟨⟨rfl, rfl⟩, hopen, hend⟩
        exact ⟨front, ⟨rfl, rfl⟩, rfl, (hstays _).mp hopen, (hcount _).mp hend⟩
      · rintro ⟨front', ⟨rfl, rfl⟩, rfl, hopen, hend⟩
        exact ⟨⟨rfl, rfl⟩, (hstays _).mpr hopen, (hcount _).mpr hend⟩

theorem closes_one_iff : Closes 1 (')' :: s) xs ys ↔ xs = [] ∧ s = ys := by
  unfold Closes
  cases xs with
  | nil => simp [StaysOpen]
  | cons x front =>
      simp only [List.cons_append, List.cons.injEq]
      constructor
      · rintro ⟨⟨rfl, -⟩, hopen, -⟩
        exact absurd (staysOpen_close.mp hopen).pos (Nat.lt_irrefl 0)
      · rintro ⟨hnil, -⟩
        cases hnil

/-- A scan from a depth closes at the first parenthesis that brings it to zero. -/
theorem closeParen_eq_some (hd : 0 < d) : closeParen d s = some (xs, ys) ↔ Closes d s xs ys := by
  induction s generalizing d xs with
  | nil => simp [closeParen, Closes]
  | cons c cs ih =>
      rw [closeParen]
      split_ifs with hopen hclose hlast
      · subst hopen
        rw [map_cons_eq_some, closes_cons_iff (by simp) fun front => staysOpen_open hd]
        · simp only [ih (Nat.succ_pos d)]
        · intro front
          rw [closes_cons, opens_cons, if_neg (by decide), if_pos rfl]
          omega
      · subst hclose hlast
        rw [closes_one_iff, Option.some.injEq, Prod.mk.injEq, eq_comm]
      · subst hclose
        obtain ⟨d', rfl⟩ : ∃ d', d = d' + 1 := ⟨d - 1, by omega⟩
        rw [map_cons_eq_some, closes_cons_iff (by omega) fun front => staysOpen_close]
        · simp only [Nat.add_sub_cancel, ih (show 0 < d' by omega)]
        · intro front
          rw [closes_cons, opens_cons, if_pos rfl, if_neg (by decide)]
          omega
      · rw [map_cons_eq_some, closes_cons_iff (fun h => hclose h.1) fun front =>
          staysOpen_other hopen hclose]
        · simp only [ih hd]
        · intro front
          rw [closes_cons, opens_cons, if_neg hopen, if_neg hclose]
          simp only [Nat.add_zero]

theorem opens_append (xs ys : Text) : opens (xs ++ ys) = opens xs + opens ys := List.count_append

theorem closes_append (xs ys : Text) : closes (xs ++ ys) = closes xs + closes ys :=
  List.count_append

theorem staysOpen_append : StaysOpen d (xs ++ ys) ↔
    StaysOpen d xs ∧ StaysOpen (d + opens xs - closes xs) ys := by
  constructor
  · intro h
    have hfront : StaysOpen d xs := fun p hp => h p (by
      rw [List.mem_inits] at hp ⊢
      exact hp.trans (List.prefix_append _ _))
    refine ⟨hfront, fun q hq => ?_⟩
    have hxs := hfront xs (by simp)
    have hback := h (xs ++ q) (by
      rw [List.mem_inits] at hq ⊢
      exact (List.prefix_append_right_inj xs).mpr hq)
    rw [opens_append, closes_append] at hback
    omega
  · rintro ⟨hfront, hback⟩ p hp
    rw [List.mem_inits] at hp
    rcases List.prefix_or_prefix_of_prefix hp (List.prefix_append xs ys) with hp' | ⟨q, rfl⟩
    · exact hfront p ((List.mem_inits _ _).mpr hp')
    · have hq := hback q ((List.mem_inits _ _).mpr ((List.prefix_append_right_inj xs).mp hp))
      have hxs := hfront xs (by simp)
      rw [opens_append, closes_append]
      omega

theorem staysOpen_nil : StaysOpen d [] ↔ 0 < d := by
  simp [StaysOpen]

theorem staysOpen_quoted {name : String} :
    StaysOpen d (Assertion.quoted name) ↔ StaysOpen d name.toList := by
  rw [Assertion.quoted, staysOpen_other (by decide) (by decide), staysOpen_append,
    staysOpen_other (by decide) (by decide), staysOpen_nil]
  refine and_iff_left_of_imp fun h => ?_
  have hname := h name.toList (by simp)
  omega

@[simp] theorem opens_quoted (name : String) :
    opens (Assertion.quoted name) = opens name.toList := by
  simp [Assertion.quoted, opens_cons, opens_append]

@[simp] theorem closes_quoted (name : String) :
    closes (Assertion.quoted name) = closes name.toList := by
  simp [Assertion.quoted, closes_cons, closes_append]

end Parentheses

section Arguments
variable {pre x y z t f : Text}

/-- The text in the first quotes, whatever stands around them. -/
theorem extractPlainQuoted_eq (hx : '"' ∉ x) (hy : '"' ∉ y) (z : Text) :
    extractPlainQuoted (x ++ '"' :: (y ++ '"' :: z)) = some (String.ofList y) := by
  rw [extractPlainQuoted, after_singleton hx]
  have hmem : '"' ∈ y ++ '"' :: z := List.mem_append_right _ List.mem_cons_self
  have htake : (y ++ '"' :: z).takeWhile (fun c => c ≠ '"') = y := by
    rw [List.takeWhile_append_of_pos fun c hc => decide_eq_true (ne_of_mem_of_not_mem hc hy),
      List.takeWhile_cons_of_neg (by decide), List.append_nil]
  simp only [Option.bind_eq_bind, Option.bind_some, if_pos hmem, htake]

theorem extractPlainQuoted_trim (hx : '"' ∉ x) (hy : '"' ∉ y) (z : Text) :
    extractPlainQuoted (trim (x ++ '"' :: (y ++ '"' :: z))) = some (String.ofList y) := by
  have hquote : isWhitespace '"' = false := by decide
  rw [trim_append_cons hquote, trimEnd_append_cons hquote]
  exact extractPlainQuoted_eq (fun h => hx (List.dropWhile_subset _ h)) hy _

/-- Two quoted names, the first in parentheses. -/
def arguments (head : Text) (first second : String) : Text :=
  head ++ (Assertion.quoted first ++ ("), ".toList ++ Assertion.quoted second))

variable {head : Text} {first second : String}

theorem extractQuotedAfter_arguments (hfirst : '"' ∉ first.toList) :
    extractQuotedAfter (arguments head first second) head = some first := by
  have hdrop : (arguments head first second).dropPrefix? head =
      some (Assertion.quoted first ++ ("), ".toList ++ Assertion.quoted second)) :=
    dropPrefix?_eq_some_iff_append.mpr rfl
  have hquoted := extractPlainQuoted_eq (x := []) List.not_mem_nil hfirst
    ("), ".toList ++ Assertion.quoted second)
  rw [String.ofList_toList] at hquoted
  rw [extractQuotedAfter, hdrop, Option.bind_eq_bind, Option.bind_some, Assertion.quoted,
    ← hquoted]
  simp

/-- The parser takes for the second name what stands in the first quotes behind the first
comma. -/
theorem second_argument (head : Text) (hhead : ',' ∉ head) (hfirst : '"' ∉ first.toList)
    (hsecond : '"' ∉ second.toList) : ∃ rest, after [','] (arguments head first second) = some rest ∧
      extractPlainQuoted (trim rest) = some (if ',' ∈ first.toList then "), " else second) := by
  by_cases hcomma : ',' ∈ first.toList
  · obtain ⟨front, back, hsplit, hfront⟩ := List.eq_append_cons_of_mem hcomma
    have hbefore : ',' ∉ head ++ '"' :: front := by simp [hhead, hfront]
    have hafter := after_singleton hbefore
      (back ++ '"' :: ("), ".toList ++ '"' :: (second.toList ++ ['"'])))
    refine ⟨back ++ '"' :: ("), ".toList ++ '"' :: (second.toList ++ ['"'])), ?_, ?_⟩
    · rw [← hafter, arguments, Assertion.quoted, Assertion.quoted, hsplit]
      simp
    · rw [if_pos hcomma]
      have hback : '"' ∉ back := fun h => hfirst (by rw [hsplit]; simp [h])
      exact extractPlainQuoted_trim hback (by decide) _
  · have hbefore : ',' ∉ head ++ '"' :: (first.toList ++ ['"', ')']) := by simp [hhead, hcomma]
    have hafter := after_singleton hbefore (' ' :: '"' :: (second.toList ++ '"' :: []))
    refine ⟨' ' :: '"' :: (second.toList ++ '"' :: []), ?_, ?_⟩
    · rw [← hafter, arguments, Assertion.quoted, Assertion.quoted]
      simp
    · have hfound := extractPlainQuoted_trim (x := [' ']) (by decide) hsecond []
      rw [String.ofList_toList] at hfound
      rw [if_neg hcomma, ← hfound]
      rfl

/-- The second name is found exactly when no comma comes before it, or it is what is found then. -/
theorem commaApart_iff : (if ',' ∈ first.toList then "), " else second) = second ↔
    CommaApart first second := by
  rw [CommaApart]
  by_cases hcomma : ',' ∈ first.toList <;> simp [hcomma, eq_comm]

theorem opens_arguments : opens (arguments "type(".toList first second) =
    opens first.toList + opens second.toList + 1 := by
  rw [arguments, opens_append, opens_append, opens_append, opens_quoted, opens_quoted]
  have hhead : opens "type(".toList = 1 := by decide
  have hmiddle : opens "), ".toList = 0 := by decide
  omega

theorem closes_arguments : closes (arguments "type(".toList first second) =
    closes first.toList + closes second.toList + 1 := by
  rw [arguments, closes_append, closes_append, closes_append, closes_quoted, closes_quoted]
  have hhead : closes "type(".toList = 0 := by decide
  have hmiddle : closes "), ".toList = 1 := by decide
  omega

theorem staysOpen_arguments : StaysOpen 1 (arguments "type(".toList first second) ↔
    StaysOpen 2 first.toList ∧ StaysOpen (2 + opens first.toList - closes first.toList)
      (')' :: ',' :: ' ' :: Assertion.quoted second) := by
  change StaysOpen 1 ('t' :: 'y' :: 'p' :: 'e' :: '(' :: (Assertion.quoted first ++
    (')' :: ',' :: ' ' :: Assertion.quoted second))) ↔ _
  rw [staysOpen_other (by decide) (by decide), staysOpen_other (by decide) (by decide),
    staysOpen_other (by decide) (by decide), staysOpen_other (by decide) (by decide),
    staysOpen_open Nat.one_pos, staysOpen_append, staysOpen_quoted, opens_quoted, closes_quoted]

/-- The parenthesis behind the first name leaves one level less. -/
theorem staysOpen_behind {k : ℕ} :
    StaysOpen (k + 1) (')' :: ',' :: ' ' :: Assertion.quoted second) ↔
      StaysOpen k second.toList := by
  rw [staysOpen_close, staysOpen_other (by decide) (by decide),
    staysOpen_other (by decide) (by decide), staysOpen_quoted]

/-- The list of arguments ends at the parenthesis behind the names. -/
theorem closeParen_arguments {rest : Text} :
    closeParen 1 (arguments "type(".toList first second ++ ')' :: rest) =
      some (arguments "type(".toList first second, rest) ↔
        ClosesLast first.toList second.toList := by
  rw [closeParen_eq_some Nat.one_pos, Closes, and_iff_right rfl, opens_arguments, closes_arguments,
    staysOpen_arguments]
  constructor
  · rintro ⟨⟨hinType, hback⟩, hcount⟩
    obtain ⟨k, hk⟩ : ∃ k, 2 + opens first.toList - closes first.toList = k + 1 :=
      ⟨_, (Nat.succ_pred_eq_of_pos hback.pos).symm⟩
    rw [hk, staysOpen_behind] at hback
    refine ⟨fun p hp => ?_, fun p hp => ?_, by omega⟩
    · have hp := hinType p hp
      omega
    · have hp := hback p hp
      omega
  · rintro ⟨hinType, hinField, hbalanced⟩
    have hfirst := hinField [] (by simp)
    rw [closes_nil, opens_nil] at hfirst
    obtain ⟨k, hk⟩ : ∃ k, 2 + opens first.toList - closes first.toList = k + 1 :=
      ⟨1 + opens first.toList - closes first.toList, by omega⟩
    rw [hk, staysOpen_behind]
    refine ⟨⟨fun p hp => ?_, fun p hp => ?_⟩, by omega⟩
    · have hp := hinType p hp
      omega
    · have hp := hinField p hp
      omega

end Arguments

section Numbers

theorem parse_toDigits {n : ℕ} (hn : n < 2 ^ 64) : parse (Nat.toDigits 10 n) = some n := by
  rw [parse, fromStrRadix_toDigits (.inl rfl), if_pos hn]

/-- The number behind an operator. -/
theorem parse_behind (op : Char) (hop : isWhitespace op = false) {n : ℕ} (hn : n < 2 ^ 64) :
    ((trim (' ' :: op :: ' ' :: Nat.toDigits 10 n)).dropPrefix? [op]).bind
      (fun rest => parse (trim rest)) = some n := by
  have htrim := trim_append_cons hop [' '] (' ' :: Nat.toDigits 10 n)
  have hend := trimEnd_append_toDigits [' '] n
  rw [List.singleton_append] at htrim hend
  rw [htrim, hend]
  have hdrop : ([' '].dropWhile isWhitespace ++ op :: ' ' :: Nat.toDigits 10 n).dropPrefix? [op] =
      some (' ' :: Nat.toDigits 10 n) := dropPrefix?_eq_some_iff_append.mpr rfl
  rw [hdrop, Option.bind_some, trim_blank_toDigits, parse_toDigits hn]

/-- A text with a quote is no number behind an operator. -/
theorem not_parse_of_quote {rest : Text} (h : '"' ∈ rest) (op : Char) (hop : op ≠ '"') :
    ((trim rest).dropPrefix? [op]).bind (fun rest => parse (trim rest)) = none := by
  have hquote : isWhitespace '"' = false := by decide
  rw [Option.bind_eq_none_iff]
  intro back hback
  have htrim := mem_trim hquote h
  rw [dropPrefix?_eq_some_iff_append.mp hback, List.mem_append, List.mem_singleton] at htrim
  exact fromStrRadix_eq_none (c := '"') (by decide) (by decide)
    (mem_trim hquote (htrim.resolve_left (Ne.symm hop)))

end Numbers

section Words
variable {n : ℕ}

/-- The two forms that compare a count to a number. -/
theorem parseCompare_toDigits (word : String) {op : Char} (hop : isWhitespace op = false)
    (hn : n < 2 ^ 64) :
    parseCompare word op (word.toList ++ (' ' :: op :: ' ' :: Nat.toDigits 10 n)) = some n := by
  rw [parseCompare, dropPrefix?_eq_some_iff_append.mpr rfl]
  exact parse_behind op hop hn

theorem parseOne_liveAllocs (rest : Text) : parseOne ("live_allocs".toList ++ rest) =
    (parseCompare "live_allocs" '<' ("live_allocs".toList ++ rest)).map .liveAllocsLt := rfl

theorem parseOne_stmProjections (rest : Text) : parseOne ("stm_projections".toList ++ rest) =
    (parseCompare "stm_projections" '>' ("stm_projections".toList ++ rest)).map
      .stmProjectionsGt := rfl

theorem parseOne_maxChain (rest : Text) :
    parseOne ("max_chain(".toList ++ rest) = parseMaxChain rest := by
  have hword : "max_chain(".toList ++ rest ≠ "no_hazards".toList := by
    intro h
    cases h
  have hlive : "live_allocs".toList.isPrefixOf ("max_chain(".toList ++ rest) = false := rfl
  have hstm : "stm_projections".toList.isPrefixOf ("max_chain(".toList ++ rest) = false := rfl
  rw [parseOne, if_neg hword, hlive, hstm, dropPrefix?_eq_some_iff_append.mpr rfl]
  rfl

theorem parseOne_typeStable (rest : Text) :
    parseOne ("type_stable(".toList ++ rest) = parseTypeStable rest := by
  have hword : "type_stable(".toList ++ rest ≠ "no_hazards".toList := by
    intro h
    cases h
  have hlive : "live_allocs".toList.isPrefixOf ("type_stable(".toList ++ rest) = false := rfl
  have hstm : "stm_projections".toList.isPrefixOf ("type_stable(".toList ++ rest) = false := rfl
  have hchain : ("type_stable(".toList ++ rest).dropPrefix? "max_chain(".toList = none := rfl
  rw [parseOne, if_neg hword, hlive, hstm, hchain, dropPrefix?_eq_some_iff_append.mpr rfl]
  rfl

theorem parseOne_noFalseSharing (rest : Text) :
    parseOne ("no_false_sharing(".toList ++ rest) = parseNoFalseSharing rest := by
  have hword : parseOne ("no_false_sharing(".toList ++ rest) =
      (("no_false_sharing(".toList ++ rest).dropPrefix? "no_false_sharing(".toList).bind
        parseNoFalseSharing := rfl
  rw [hword, dropPrefix?_eq_some_iff_append.mpr rfl, Option.bind_some]

end Words

section Forms
variable {first second : String} {n : ℕ} {xs ys rest tail : Text}

/-- The texts before a parenthesis agree if the one ends in a quote and no quote is behind the
other. -/
theorem eq_of_quote (h : xs ++ ')' :: rest = ys ++ '"' :: ')' :: tail) (hrest : '"' ∉ rest)
    (htail : ')' ∉ tail) : xs = ys ++ ['"'] ∧ rest = tail := by
  have hsplit : xs ++ ')' :: rest = (ys ++ ['"']) ++ ')' :: tail := by
    rw [h, List.append_assoc, List.singleton_append]
  rcases List.append_eq_append_iff.mp hsplit with ⟨more, hys, hmore⟩ | ⟨more, hxs, hmore⟩
  · cases more with
    | nil => exact ⟨(hys.trans (List.append_nil xs)).symm, (List.cons.inj hmore).2⟩
    | cons m ms =>
        obtain ⟨rfl, hms⟩ := List.cons.inj hmore
        -- the quote that ends the longer text is behind the shorter one
        have hlast : (ys ++ ['"']).getLast? = some '"' := List.getLast?_concat
        rw [hys, List.getLast?_append_cons] at hlast
        cases ms with
        | nil => exact absurd hlast (by decide)
        | cons m' ms =>
            rw [List.getLast?_cons_cons] at hlast
            have hquote : '"' ∈ m' :: ms := List.mem_of_getLast? hlast
            exact absurd (hms ▸ List.mem_append_left _ hquote) hrest
  · cases more with
    | nil => exact ⟨hxs.trans (List.append_nil _), (List.cons.inj hmore).2.symm⟩
    | cons m ms => exact absurd ((List.cons.inj hmore).2 ▸ List.mem_append_cons_self) htail

theorem arguments_append (first second : String) (head zs : Text) :
    arguments head first second ++ zs =
      (head ++ (Assertion.quoted first ++ ("), ".toList ++ '"' :: second.toList))) ++ '"' :: zs := by
  simp [arguments, Assertion.quoted]

theorem parseMaxChain_arguments (hfirst : '"' ∉ first.toList) (hsecond : '"' ∉ second.toList)
    (hn : n < 2 ^ 64) :
    parseMaxChain (arguments "type(".toList first second ++ (") < ".toList ++ Nat.toDigits 10 n)) =
      some (.maxChain first second n) ↔
        ClosesLast first.toList second.toList ∧ CommaApart first second := by
  have hbehind : ") < ".toList ++ Nat.toDigits 10 n = ')' :: ' ' :: '<' :: ' ' :: Nat.toDigits 10 n :=
    rfl
  rw [hbehind]
  by_cases hcloses : ClosesLast first.toList second.toList
  · obtain ⟨rest, hcomma, hfound⟩ :=
      second_argument "type(".toList (by decide) hfirst hsecond
    have hlimit := parse_behind '<' (by decide) hn
    rw [and_iff_right hcloses, ← commaApart_iff, parseMaxChain, closeParen_arguments.mpr hcloses]
    simp only [Option.bind_eq_bind, Option.bind_some, Option.pure_def]
    rw [← Option.bind_assoc, hlimit, Option.bind_some, extractQuotedAfter_arguments hfirst,
      Option.bind_some, hcomma, Option.bind_some, hfound, Option.bind_some]
    simp
  · refine iff_of_false (fun hparse => ?_) fun h => hcloses h.1
    rw [parseMaxChain] at hparse
    simp only [Option.bind_eq_bind, Option.pure_def, Option.bind_eq_some_iff] at hparse
    obtain ⟨⟨args, rest⟩, hclose, behind, hbehind, limit, hlimit, -⟩ := hparse
    -- a number behind the list leaves no quote there, so that the list is the whole one
    have hrest : '"' ∉ rest := by
      intro hquote
      have hnone := not_parse_of_quote hquote '<' (by decide)
      rw [hbehind, Option.bind_some, hlimit] at hnone
      cases hnone
    have htail : ')' ∉ ' ' :: '<' :: ' ' :: Nat.toDigits 10 n := by
      simp [not_mem_toDigits (.inl rfl)]
    have htext := ((closeParen_eq_some Nat.one_pos).mp hclose).1
    rw [arguments_append] at htext
    obtain ⟨rfl, rfl⟩ := eq_of_quote htext.symm hrest htail
    have hlist := arguments_append first second "type(".toList []
    rw [List.append_nil] at hlist
    rw [← hlist] at hclose
    exact hcloses (closeParen_arguments.mp hclose)

theorem parseTypeStable_arguments (hfirst : '"' ∉ first.toList) (hsecond : '"' ∉ second.toList) :
    parseTypeStable (arguments "global(".toList first second ++ ")".toList) =
      some (.typeStable first second) ↔ CommaApart first second := by
  have hinner : (arguments "global(".toList first second ++ ")".toList).dropSuffix? [')'] =
      some (arguments "global(".toList first second) :=
    List.dropSuffix?_eq_some_iff.mpr ⟨_, rfl, rfl⟩
  obtain ⟨rest, hcomma, hfound⟩ :=
    second_argument "global(".toList (by decide) hfirst hsecond
  rw [← commaApart_iff, parseTypeStable, hinner]
  simp only [Option.bind_eq_bind, Option.bind_some, Option.pure_def]
  rw [extractQuotedAfter_arguments hfirst, Option.bind_some, hcomma, Option.bind_some, hfound,
    Option.bind_some]
  simp

/-- As many parts as separators, and one more. -/
theorem length_splitOn (c : Char) (s : Text) : (s.splitOn c).length = s.count c + 1 := by
  induction s with
  | nil => rfl
  | cons d ds ih =>
      rw [List.splitOn_cons_eq_if_modifyHead, List.count_cons]
      split
      · rw [List.length_cons, ih]
      · rw [List.length_modifyHead, ih, Nat.add_zero]

theorem parseNoFalseSharing_quoted (hfirst : '"' ∉ first.toList) (hsecond : '"' ∉ second.toList) :
    parseNoFalseSharing (Assertion.quoted first ++ (", ".toList ++
      (Assertion.quoted second ++ ")".toList))) = some (.noFalseSharing first second) ↔
        ',' ∉ first.toList ∧ ',' ∉ second.toList := by
  have hinner : (Assertion.quoted first ++ (", ".toList ++ (Assertion.quoted second ++
      ")".toList))).dropSuffix? [')'] =
        some (Assertion.quoted first ++ ',' :: ' ' :: Assertion.quoted second) :=
    List.dropSuffix?_eq_some_iff.mpr ⟨[')'], by simp, rfl⟩
  by_cases hcomma : ',' ∉ first.toList ∧ ',' ∉ second.toList
  · have hparts : (Assertion.quoted first ++ ',' :: ' ' :: Assertion.quoted second).splitOn ',' =
        [Assertion.quoted first, ' ' :: Assertion.quoted second] := by
      rw [List.splitOn_append_cons_self_of_not_mem (by simp [Assertion.quoted, hcomma.1]),
        List.splitOn_eq_singleton (by simp [Assertion.quoted, hcomma.2])]
    have hleft : extractPlainQuoted (trim (Assertion.quoted first)) =
        some (String.ofList first.toList) :=
      extractPlainQuoted_trim (x := []) List.not_mem_nil hfirst []
    have hright : extractPlainQuoted (trim (' ' :: Assertion.quoted second)) =
        some (String.ofList second.toList) :=
      extractPlainQuoted_trim (x := [' ']) (by decide) hsecond []
    refine iff_of_true ?_ hcomma
    rw [parseNoFalseSharing, hinner]
    simp only [Option.bind_eq_bind, Option.bind_some, Option.pure_def, hparts]
    rw [hleft, hright, Option.bind_some, Option.bind_some, String.ofList_toList,
      String.ofList_toList]
  · refine iff_of_false (fun hparse => ?_) hcomma
    rw [parseNoFalseSharing, hinner] at hparse
    simp only [Option.bind_eq_bind, Option.bind_some, Option.pure_def] at hparse
    split at hparse
    · rename_i a b hparts
      -- two parts are one comma, which is the one between the quotes
      have hlength := length_splitOn ',' (Assertion.quoted first ++ ',' :: ' ' ::
        Assertion.quoted second)
      rw [hparts] at hlength
      have hcount : first.toList.count ',' = 0 ∧ second.toList.count ',' = 0 := by
        simp [Assertion.quoted] at hlength
        omega
      rw [List.count_eq_zero, List.count_eq_zero] at hcount
      exact hcomma hcount
    · cases hparse

/-- An assertion is read back exactly when its arguments can be told apart. -/
theorem parseOne_spell_iff (a : Assertion) (h : a.Spellable) :
    parseOne a.spell = some a ↔ a.Separable := by
  cases a with
  | noHazards => exact iff_of_true rfl trivial
  | allocBeforeStamp => exact iff_of_true rfl trivial
  | noUseAfterFree => exact iff_of_true rfl trivial
  | monotonicSeq => exact iff_of_true rfl trivial
  | stampBeforeLink => exact iff_of_true rfl trivial
  | liveAllocsLt limit =>
      refine iff_of_true ?_ trivial
      change parseOne ("live_allocs".toList ++ (" < ".toList ++ Nat.toDigits 10 limit)) = _
      rw [parseOne_liveAllocs]
      exact congrArg _ (parseCompare_toDigits "live_allocs" (by decide) h)
  | stmProjectionsGt limit =>
      refine iff_of_true ?_ trivial
      change parseOne ("stm_projections".toList ++ (" > ".toList ++ Nat.toDigits 10 limit)) = _
      rw [parseOne_stmProjections]
      exact congrArg _ (parseCompare_toDigits "stm_projections" (by decide) h)
  | maxChain typeName field limit =>
      obtain ⟨hfirst, hsecond, hn⟩ := h
      have hparse := parseMaxChain_arguments hfirst hsecond hn
      rw [arguments, List.append_assoc, List.append_assoc, List.append_assoc,
        ← parseOne_maxChain] at hparse
      exact hparse
  | typeStable source expectedType =>
      obtain ⟨hfirst, hsecond⟩ := h
      have hparse := parseTypeStable_arguments hfirst hsecond
      rw [arguments, List.append_assoc, List.append_assoc, List.append_assoc,
        ← parseOne_typeStable] at hparse
      exact hparse
  | noFalseSharing nameA nameB =>
      obtain ⟨hfirst, hsecond⟩ := h
      have hparse := parseNoFalseSharing_quoted hfirst hsecond
      rw [← parseOne_noFalseSharing] at hparse
      exact hparse

/-- A function type without a comma is read back. -/
theorem functionType_separable :
    parseOne (Assertion.spell (.maxChain "f(map<int>)" "next" 100)) =
      some (.maxChain "f(map<int>)" "next" 100) :=
  (parseOne_spell_iff (.maxChain "f(map<int>)" "next" 100)
    ⟨by decide, by decide, by decide⟩).mpr ⟨⟨by decide, by decide, by decide⟩, .inl (by decide)⟩

/-- A comma in the first name of a list of arguments ends it. -/
theorem template_lost : ¬ ∀ a : Assertion, a.Spellable → parseOne a.spell = some a := by
  intro hall
  have hparse := hall (.noFalseSharing "map<int, f(x)>" "counter") ⟨by decide, by decide⟩
  revert hparse
  decide

end Forms

end Rtmap.Check
