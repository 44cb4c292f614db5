import Rtmap.Cli.ConfigFiles
import Rtmap.Lib.Rows

/-!
# Profiles that `init` writes

`rtmap init` writes a target's profile into the project's file. What it writes is read back as it
was meant, and leaves alone what the file had before.
-/
namespace Rtmap.Cli
open Rtmap.Str

/-- A line as the generated file has it. -/
inductive Row where
  | comment (text : String)
  | blank
  | setting (key val : String)

def Row.text : Row → Text
  | .comment text => '#' :: text.toList
  | .blank => []
  | .setting key val => key.toList ++ (" = ".toList ++ val.toList)

def fileText (rows : List Row) : Text := rowsText (rows.map Row.text)

def projectRows (targetName : String) (tripwire : Option String) : List Row :=
  [
    .comment " rtmap project configuration",
    .comment " Generated by 'rtmap init'. Edit freely.",
    .comment "",
    .comment " Target profiles: define per-binary defaults.",
    .comment " When you run 'rtmap <target>', these settings are applied automatically.",
    .comment " CLI args after '--' fully replace target.*.args (no merge).",
    .comment "",
    .comment (" Profile for: " ++ targetName),
    .blank,
    .comment " Tripwire symbol: instrumentation begins when this function is entered.",
    .comment " Skips init-phase noise (config parsing, static setup).",
    match tripwire with
      | some tw => .setting (fieldKey targetName "tripwire") tw
      | none => .comment (" " ++ fieldKey targetName "tripwire" ++ " = main"),
    .blank,
    .comment (" target args: override on CLI with: rtmap run " ++ targetName ++
      " -- --custom-flag"),
    .comment (" " ++ fieldKey targetName "args" ++ " ="),
    .blank,
    .setting (fieldKey targetName "topology") (targetName ++ ".topo.jsonl"),
    .setting (fieldKey targetName "heatmap") (targetName ++ ".heatmap.tsv"),
    .blank,
    .comment (" " ++ fieldKey targetName "no_bb" ++ " = false")]

/-- `generate_project_config`. -/
def generateProjectConfig (targetName : String) (tripwire : Option String) : Text :=
  fileText (projectRows targetName tripwire)

def appendedRows (targetName : String) (tripwire : Option String) : List Row :=
  .comment (" Profile for: " ++ targetName) ::
    ((tripwire.map fun tw => .setting (fieldKey targetName "tripwire") tw).toList ++
      [.comment (" " ++ fieldKey targetName "args" ++ " = ")])

/-- What `cmd_init` appends to a file that is there, behind an end of line. -/
def appendedProfile (targetName : String) (tripwire : Option String) : Text :=
  fileText (appendedRows targetName tripwire)

/-- The key of the tripwire is in the text, for `cmd_init` a sign that there is a profile. -/
def hasProfileKey (targetName : String) (existing : Text) : Bool :=
  (after (fieldKey targetName "tripwire").toList existing).isSome

/-- The project's file as `cmd_init` leaves it, from the one that was there. -/
def cmdInit (targetName : String) (tripwire : Option String) : Option Text → Text
  | none => generateProjectConfig targetName tripwire
  | some existing =>
      if hasProfileKey targetName existing then existing
      else existing ++ '\n' :: appendedProfile targetName tripwire

/-- A value as it is read back. -/
def trimmed (val : String) : String := String.ofList (trim val.toList)

/-- What a row assigns. -/
def Row.pair : Row → Option (String × String)
  | .setting key val => some (key, trimmed val)
  | _ => none

/-- A key that a line can start with: no blank at its ends, and nothing that ends it. -/
structure ClearKey (key : String) : Prop where
  first : ∃ c, key.toList.head? = some c ∧ isWhitespace c = false ∧ c ≠ '#'
  last : ∃ d, key.toList.getLast? = some d ∧ isWhitespace d = false
  separator : '=' ∉ key.toList
  line : '\n' ∉ key.toList

/-- The row is one line, and its key is read back. -/
def Row.Fine : Row → Prop
  | .comment text => '\n' ∉ text.toList
  | .blank => True
  | .setting key val => ClearKey key ∧ '\n' ∉ val.toList

section Letters
variable {c : Char} {s t : String}

theorem not_mem_literal {l : Text} (h : c ∉ l) : c ∉ (String.ofList l).toList := by
  rwa [String.toList_ofList]

theorem not_mem_append (hs : c ∉ s.toList) (ht : c ∉ t.toList) : c ∉ (s ++ t).toList := by
  rw [String.toList_append, List.mem_append, not_or]
  exact ⟨hs, ht⟩

theorem fine_literal {l : Text} (h : '\n' ∉ l) : (Row.comment (String.ofList l)).Fine :=
  not_mem_literal h

end Letters

section Assignments
variable {contents : Text}

theorem trimming_assignment : Trimming assignment where
  blank := rfl
  stripReturn l := by rw [assignment, assignment, trim_stripReturn]

theorem assignment_comment (cs : Text) : assignment ('#' :: cs) = none := by
  have htrim : trim ('#' :: cs) = '#' :: trimEnd cs := trim_append_cons (by decide) [] cs
  rw [assignment, htrim]
  exact if_pos (.inr rfl)

theorem ClearKey.assignment {key : String} (hkey : ClearKey key) (val : String) :
    assignment (Row.setting key val).text = some (key, trimmed val) := by
  obtain ⟨c, hfirst, hc, hne⟩ := hkey.first
  obtain ⟨d, hlast, hd⟩ := hkey.last
  obtain ⟨cs, hcons⟩ := List.head?_eq_some_iff.mp hfirst
  have hline : trim (Row.setting key val).text =
      (key.toList ++ [' ']) ++ '=' :: trimEnd (' ' :: val.toList) := by
    have hsplit : (Row.setting key val).text =
        (key.toList ++ [' ']) ++ '=' :: ' ' :: val.toList := by
      simp [Row.text]
    rw [hsplit, trim_append_cons (by decide), hcons, List.cons_append,
      List.dropWhile_cons_of_neg (by rw [hc]; decide)]
  have honce : splitOnce '=' ((key.toList ++ [' ']) ++ '=' :: trimEnd (' ' :: val.toList)) =
      some (key.toList ++ [' '], trimEnd (' ' :: val.toList)) := by
    rw [splitOnce_eq_some]
    simpa using hkey.separator
  have hread : trim (key.toList ++ [' ']) = key.toList := by
    rw [trim_append_blank (by decide), trim_eq_self hfirst hlast hc hd]
  have hval : trim (trimEnd (' ' :: val.toList)) = trim val.toList := by
    rw [trim_trimEnd, trim_blank_cons (by decide)]
  have hsome : ¬((key.toList ++ [' ']) ++ '=' :: trimEnd (' ' :: val.toList) = [] ∨
      ((key.toList ++ [' ']) ++ '=' :: trimEnd (' ' :: val.toList)).head? = some '#') := by
    rw [hcons]
    simpa using hne
  rw [Cli.assignment, hline, if_neg hsome, honce, Option.map_some, hread, hval,
    String.ofList_toList, trimmed]

theorem Row.Fine.assignment {r : Row} (h : r.Fine) : assignment r.text = r.pair := by
  cases r with
  | comment text => exact assignment_comment text.toList
  | blank => rfl
  | setting key val => exact h.1.assignment val

theorem Row.Fine.line {r : Row} (h : r.Fine) : '\n' ∉ r.text := by
  cases r with
  | comment text => exact List.not_mem_cons_of_ne_of_not_mem (by decide) h
  | blank => exact List.not_mem_nil
  | setting key val =>
      rw [Row.text, List.mem_append, List.mem_append, not_or, not_or]
      exact ⟨h.1.line, by decide, h.2⟩

/-- A generated file is read as it was meant. -/
theorem readRows_fileText {rows : List Row} (h : ∀ r ∈ rows, r.Fine) :
    readRows Cli.assignment (fileText rows) = rows.filterMap Row.pair := by
  have hline : ∀ l ∈ rows.map Row.text, '\n' ∉ l := by
    intro l hl
    obtain ⟨r, hr, rfl⟩ := List.mem_map.mp hl
    exact (h r hr).line
  rw [fileText, trimming_assignment.readRows_rowsText hline, List.filterMap_map]
  exact List.filterMap_congr fun r hr => (h r hr).assignment

/-- What a text assigns to a key stands in it. -/
theorem infix_of_assignment {k v : String}
    (h : (k, v) ∈ readRows assignment contents) : k.toList <:+: contents := by
  obtain ⟨l, hl, hassign⟩ := List.mem_filterMap.mp h
  rw [assignment] at hassign
  split at hassign
  · cases hassign
  · obtain ⟨⟨front, back⟩, honce, hpair⟩ := Option.map_eq_some_iff.mp hassign
    obtain ⟨hline, -⟩ := splitOnce_eq_some.mp honce
    obtain ⟨rfl, -⟩ := Prod.mk.inj hpair
    have hfront : front <:+: trim l := ⟨[], '=' :: back, hline.symm⟩
    rw [String.toList_ofList]
    exact (infix_trim front).trans (hfront.trans ((infix_trim l).trans (infix_of_mem_lines hl)))

end Assignments

namespace FlatConfig
variable {m : FlatConfig} {key k : String}

theorem get_empty (k : String) : empty.get k = none := rfl

theorem lookup_filter_ne (l : List (String × String)) :
    (l.filter fun e => e.1 ≠ key).lookup k = if k = key then none else l.lookup k := by
  induction l with
  | nil => rw [List.filter_nil, List.lookup_nil, ite_self]
  | cons e es ih =>
      obtain ⟨j, v⟩ := e
      by_cases hj : j = key
      · rw [List.filter_cons_of_neg (by simpa using hj), ih]
        by_cases hk : k = key
        · rw [if_pos hk, if_pos hk]
        · have hother : (k == j) = false := beq_false_of_ne fun h => hk (h.trans hj)
          rw [if_neg hk, if_neg hk, List.lookup_cons, hother]
      · rw [List.filter_cons_of_pos (by simpa using hj), List.lookup_cons, List.lookup_cons, ih]
        by_cases hk : k = j
        · rw [hk, if_neg hj, if_neg hj]
        · rw [beq_false_of_ne hk]

theorem get_insert (m : FlatConfig) (key val k : String) :
    (m.insert key val).get k = if k = key then some val else m.get k := by
  rw [get, insert, List.lookup_append, lookup_filter_ne, get]
  by_cases hk : k = key
  · rw [if_pos hk, if_pos hk, hk, List.lookup_cons_self, Option.none_or]
  · have hother : (k == key) = false := beq_false_of_ne hk
    rw [if_neg hk, if_neg hk, List.lookup_cons, hother, List.lookup_nil, Option.or_none]

/-- The pairs are inserted one after the other. -/
def insertAll (m : FlatConfig) (es : List (String × String)) : FlatConfig :=
  es.foldl (fun m e => m.insert e.1 e.2) m

theorem get_insertAll_of_not_mem {es : List (String × String)} (h : k ∉ es.map Prod.fst) :
    (m.insertAll es).get k = m.get k := by
  induction es generalizing m with
  | nil => rfl
  | cons e es ih =>
      rw [List.map_cons, List.mem_cons, not_or] at h
      rw [insertAll, List.foldl_cons, ← insertAll, ih h.2, get_insert, if_neg h.1]

theorem mem_of_get_insertAll {es : List (String × String)} {v : String}
    (h : (m.insertAll es).get k = some v) : m.get k = some v ∨ (k, v) ∈ es := by
  induction es generalizing m with
  | nil => exact .inl h
  | cons e es ih =>
      rcases ih h with h | h
      · rw [get_insert] at h
        split at h
        · rename_i hk
          rw [hk, ← Option.some.inj h]
          exact .inr List.mem_cons_self
        · exact .inl h
      · exact .inr (List.mem_cons_of_mem e h)

end FlatConfig

section Frame
variable {m : FlatConfig} {name other field key : String} {es : List (String × String)}

theorem fieldKey_inj {f g : String} : fieldKey name f = fieldKey name g ↔ f = g := by
  rw [← String.toList_inj, toList_fieldKey, toList_fieldKey, ← String.toList_inj]
  simp

theorem fieldKey_ne (h : key.toList.head? ≠ some 't') : key ≠ fieldKey name field := by
  rintro rfl
  rw [toList_fieldKey] at h
  exact h rfl

/-- The pairs are all about one target. -/
def About (name : String) (es : List (String × String)) : Prop :=
  ∀ e ∈ es, ∃ field, e.1 = fieldKey name field ∧ '.' ∉ field.toList

theorem About.fieldOf_eq_none (h : About name es) (hne : other ≠ name) {e : String × String}
    (he : e ∈ es) : fieldOf other e.1 = none := by
  obtain ⟨field, hkey, hfield⟩ := h e he
  have htarget := targetKey_eq_some.mpr ⟨hkey, hfield⟩
  rw [fieldOf, htarget, Option.bind_some, if_neg (Ne.symm hne)]

theorem fieldsFor_insert (h : fieldOf other key = none) (val : String) :
    fieldsFor (m.insert key val) other = fieldsFor m other := by
  rw [fieldsFor, FlatConfig.insert, List.filterMap_append, List.filterMap_filter,
    List.filterMap_cons, h]
  rw [Option.map_none, List.filterMap_nil, List.append_nil, fieldsFor]
  refine List.filterMap_congr fun e _ => ?_
  by_cases he : e.1 = key
  · simp [he, h]
  · simp [he]

/-- What is said of one target says nothing of another. -/
theorem About.projectConfigFromMap (h : About name es) (hne : other ≠ name) :
    projectConfigFromMap (m.insertAll es) other = projectConfigFromMap m other := by
  have hfields : fieldsFor (m.insertAll es) other = fieldsFor m other := by
    induction es generalizing m with
    | nil => rfl
    | cons e es ih =>
        have hfirst := fieldsFor_insert (m := m) (h.fieldOf_eq_none hne List.mem_cons_self) e.2
        rw [← hfirst]
        exact ih fun e' he' => h e' (List.mem_cons_of_mem e he')
  rw [Cli.projectConfigFromMap, hfields, ← Cli.projectConfigFromMap]

/-- What is said of a target is no setting of the file. -/
theorem About.configFromMap (h : About name es) :
    configFromMap (m.insertAll es) = configFromMap m := by
  have hget {key : String} (hkey : key.toList.head? ≠ some 't') :
      (m.insertAll es).get key = m.get key := by
    apply FlatConfig.get_insertAll_of_not_mem
    intro hmem
    obtain ⟨e, he, rfl⟩ := List.mem_map.mp hmem
    obtain ⟨field, heq, -⟩ := h e he
    exact fieldKey_ne hkey heq
  simp only [Cli.configFromMap]
  rw [hget (by decide), hget (by decide), hget (by decide), hget (by decide), hget (by decide),
    hget (by decide), hget (by decide), hget (by decide), hget (by decide)]

end Frame

/-- A name and a symbol that fit in their lines. -/
structure Plain (name : String) (tripwire : Option String) : Prop where
  separator : '=' ∉ name.toList
  line : '\n' ∉ name.toList
  tripwire : ∀ tw ∈ tripwire, '\n' ∉ tw.toList

section Written
variable {name : String} {tripwire : Option String} {existing : Text} {m : FlatConfig}

/-- The pairs of a fresh file. -/
def freshPairs (name : String) (tripwire : Option String) : List (String × String) :=
  (tripwire.map fun tw => (fieldKey name "tripwire", trimmed tw)).toList ++
    [(fieldKey name "topology", trimmed (name ++ ".topo.jsonl")),
      (fieldKey name "heatmap", trimmed (name ++ ".heatmap.tsv"))]

/-- The pairs that are appended. -/
def appendedPairs (name : String) (tripwire : Option String) : List (String × String) :=
  (tripwire.map fun tw => (fieldKey name "tripwire", trimmed tw)).toList

theorem Plain.clearKey (h : Plain name tripwire) (field : String) {d : Char}
    (hlast : field.toList.getLast? = some d) (hd : isWhitespace d = false)
    (hseparator : '=' ∉ field.toList) (hline : '\n' ∉ field.toList) :
    ClearKey (fieldKey name field) where
  first := ⟨'t', by rw [toList_fieldKey]; rfl, by decide, by decide⟩
  last := by
    refine ⟨d, ?_, hd⟩
    rw [toList_fieldKey, List.getLast?_append, List.getLast?_append, List.getLast?_cons, hlast]
    rfl
  separator := by
    rw [toList_fieldKey]
    simp [h.separator, hseparator]
  line := by
    rw [toList_fieldKey]
    simp [h.line, hline]

theorem Plain.clearKey_tripwire (h : Plain name tripwire) : ClearKey (fieldKey name "tripwire") :=
  h.clearKey "tripwire" (d := 'e') rfl (by decide) (by decide) (by decide)

/-- A comment with the name in it is one line. -/
theorem Plain.fine_named (h : Plain name tripwire) (front back : String)
    (hfront : '\n' ∉ front.toList) (hback : '\n' ∉ back.toList) :
    (Row.comment (front ++ name ++ back)).Fine :=
  not_mem_append (not_mem_append hfront h.line) hback

theorem Plain.fine_key (h : Plain name tripwire) (field back : String)
    (hfield : '\n' ∉ field.toList) (hback : '\n' ∉ back.toList) :
    (Row.comment (" " ++ fieldKey name field ++ back)).Fine := by
  have hkey : '\n' ∉ (fieldKey name field).toList := by
    rw [toList_fieldKey]
    simp [h.line, hfield]
  exact not_mem_append (not_mem_append (not_mem_literal (by decide)) hkey) hback

theorem Plain.fine_tripwire (h : Plain name tripwire) (tw : String) (htw : tw ∈ tripwire) :
    (Row.setting (fieldKey name "tripwire") tw).Fine :=
  ⟨h.clearKey_tripwire, h.tripwire tw htw⟩

theorem Plain.fine_projectRows (h : Plain name tripwire) :
    ∀ r ∈ projectRows name tripwire, r.Fine := by
  have hprofile : (Row.comment (" Profile for: " ++ name)).Fine :=
    not_mem_append (not_mem_literal (by decide)) h.line
  have hrun := h.fine_named " target args: override on CLI with: rtmap run " " -- --custom-flag"
    (not_mem_literal (by decide)) (not_mem_literal (by decide))
  have hargs := h.fine_key "args" " =" (by decide) (by decide)
  have hnoBb := h.fine_key "no_bb" " = false" (by decide) (by decide)
  have hmain := h.fine_key "tripwire" " = main" (by decide) (by decide)
  have htopology : (Row.setting (fieldKey name "topology") (name ++ ".topo.jsonl")).Fine :=
    ⟨h.clearKey "topology" (d := 'y') rfl (by decide) (by decide) (by decide),
      not_mem_append h.line (not_mem_literal (by decide))⟩
  have hheatmap : (Row.setting (fieldKey name "heatmap") (name ++ ".heatmap.tsv")).Fine :=
    ⟨h.clearKey "heatmap" (d := 'p') rfl (by decide) (by decide) (by decide),
      not_mem_append h.line (not_mem_literal (by decide))⟩
  have hwait : (match tripwire with
      | some tw => Row.setting (fieldKey name "tripwire") tw
      | none => .comment (" " ++ fieldKey name "tripwire" ++ " = main")).Fine := by
    cases tripwire with
    | none => exact hmain
    | some tw => exact h.fine_tripwire tw rfl
  unfold projectRows
  simp only [List.forall_mem_cons]
  exact ⟨fine_literal (by decide), fine_literal (by decide), fine_literal (by decide),
    fine_literal (by decide), fine_literal (by decide), fine_literal (by decide),
    fine_literal (by decide), hprofile, trivial, fine_literal (by decide),
    fine_literal (by decide), hwait, trivial, hrun, hargs, trivial, htopology, hheatmap, trivial,
    hnoBb, fun r hr => absurd hr List.not_mem_nil⟩

theorem Plain.fine_appendedRows (h : Plain name tripwire) :
    ∀ r ∈ appendedRows name tripwire, r.Fine := by
  intro r hr
  rcases List.mem_cons.mp hr with rfl | hr
  · exact not_mem_append (not_mem_literal (by decide)) h.line
  · rcases List.mem_append.mp hr with hr | hr
    · obtain ⟨tw, htw, rfl⟩ := Option.map_eq_some_iff.mp (Option.mem_toList.mp hr)
      exact h.fine_tripwire tw htw
    · rw [List.mem_singleton.mp hr]
      exact h.fine_key "args" " = " (by decide) (by decide)

theorem Plain.readRows_fresh (h : Plain name tripwire) :
    readRows assignment (generateProjectConfig name tripwire) = freshPairs name tripwire := by
  rw [generateProjectConfig, readRows_fileText h.fine_projectRows]
  cases tripwire <;> rfl

theorem Plain.readRows_appended (h : Plain name tripwire) :
    readRows assignment (appendedProfile name tripwire) = appendedPairs name tripwire := by
  rw [appendedProfile, readRows_fileText h.fine_appendedRows]
  cases tripwire <;> rfl

/-- The pairs that `cmd_init` adds. -/
def addedPairs (name : String) (tripwire : Option String) : Option Text → List (String × String)
  | none => freshPairs name tripwire
  | some existing => if hasProfileKey name existing then [] else appendedPairs name tripwire

theorem parseFlatConfig_eq (contents : Text) :
    parseFlatConfig contents = FlatConfig.empty.insertAll (readRows assignment contents) := rfl

theorem Plain.parse_cmdInit (h : Plain name tripwire) (here : Option Text) :
    parseFlatConfig (cmdInit name tripwire here) =
      (parseFlatConfig (here.getD [])).insertAll (addedPairs name tripwire here) := by
  cases here with
  | none =>
      rw [cmdInit, parseFlatConfig_eq, h.readRows_fresh]
      rfl
  | some existing =>
      rw [cmdInit, addedPairs, Option.getD_some]
      split
      · rfl
      · rw [parseFlatConfig_eq, trimming_assignment.readRows_append, h.readRows_appended,
          FlatConfig.insertAll, List.foldl_append]
        rfl

theorem about_appendedPairs (name : String) (tripwire : Option String) :
    About name (appendedPairs name tripwire) := by
  intro e he
  obtain ⟨tw, -, rfl⟩ := Option.map_eq_some_iff.mp (Option.mem_toList.mp he)
  exact ⟨"tripwire", rfl, by decide⟩

theorem about_addedPairs (name : String) (tripwire : Option String) (here : Option Text) :
    About name (addedPairs name tripwire here) := by
  cases here with
  | none =>
      intro e he
      rcases List.mem_append.mp he with he | he
      · exact about_appendedPairs name tripwire e he
      · rcases List.mem_pair.mp he with rfl | rfl
        · exact ⟨"topology", rfl, by decide⟩
        · exact ⟨"heatmap", rfl, by decide⟩
  | some existing =>
      rw [addedPairs]
      split
      · exact fun e he => absurd he List.not_mem_nil
      · exact about_appendedPairs name tripwire

/-- A file that says nothing of the key has no tripwire for the target. -/
theorem get_tripwire_eq_none (h : hasProfileKey name existing = false) :
    (parseFlatConfig existing).get (fieldKey name "tripwire") = none := by
  by_contra hsome
  obtain ⟨v, hv⟩ := Option.ne_none_iff_exists'.mp hsome
  rcases FlatConfig.mem_of_get_insertAll hv with hempty | hmem
  · cases hempty
  · have hfound := isSome_after_iff.mpr (infix_of_assignment hmem)
    rw [hasProfileKey, hfound] at h
    cases h

/-- The target's profile after `cmd_init`. -/
def initialised (name : String) (tripwire : Option String) (here : Option Text)
    (old : Profile) : Profile :=
  match here with
  | none =>
      { tripwire := tripwire.map trimmed, topology := some (trimmed (name ++ ".topo.jsonl"))
        heatmap := some (trimmed (name ++ ".heatmap.tsv")) }
  | some existing =>
      if hasProfileKey name existing then old else { old with tripwire := tripwire.map trimmed }

theorem given_fresh (name : String) (tripwire : Option String) (old : Profile) :
    given (FlatConfig.empty.insertAll (freshPairs name tripwire)) name =
      initialised name tripwire none old := by
  cases tripwire <;>
    simp [given, freshPairs, FlatConfig.insertAll, FlatConfig.get_insert, FlatConfig.get_empty,
      fieldKey_inj, initialised]

theorem given_appended (hnone : m.get (fieldKey name "tripwire") = none) :
    given (m.insertAll (appendedPairs name tripwire)) name =
      { given m name with tripwire := tripwire.map trimmed } := by
  cases tripwire <;>
    simp [given, appendedPairs, FlatConfig.insertAll, FlatConfig.get_insert, fieldKey_inj, hnone]

theorem given_addedPairs (name : String) (tripwire : Option String) (here : Option Text) :
    given ((parseFlatConfig (here.getD [])).insertAll (addedPairs name tripwire here)) name =
      initialised name tripwire here (given (parseFlatConfig (here.getD [])) name) := by
  cases here with
  | none => exact given_fresh name tripwire _
  | some existing =>
      rw [addedPairs, initialised, Option.getD_some]
      cases hkey : hasProfileKey name existing with
      | true => rfl
      | false => exact given_appended (get_tripwire_eq_none hkey)

theorem hasProfileKey_iff {contents : Text} : hasProfileKey name contents = true ↔
    (fieldKey name "tripwire").toList <:+: contents := isSome_after_iff

/-- The key stands in a file of rows exactly if it does in one of them. -/
theorem Plain.hasProfileKey_fileText (h : Plain name tripwire) {rows : List Row} :
    hasProfileKey name (fileText rows) = true ↔
      ∃ r ∈ rows, (fieldKey name "tripwire").toList <:+: r.text := by
  obtain ⟨c, hfirst, -⟩ := h.clearKey_tripwire.first
  have hne : (fieldKey name "tripwire").toList ≠ [] := by
    intro hnil
    rw [hnil] at hfirst
    cases hfirst
  rw [hasProfileKey_iff, fileText, infix_rowsText_iff hne h.clearKey_tripwire.line]
  simp only [List.mem_map, exists_exists_and_eq_and]

theorem Plain.hasProfileKey_fresh (h : Plain name tripwire) :
    hasProfileKey name (generateProjectConfig name tripwire) = true := by
  rw [generateProjectConfig, h.hasProfileKey_fileText]
  cases tripwire with
  | none =>
      have hrow : Row.comment (" " ++ fieldKey name "tripwire" ++ " = main") ∈
          projectRows name none := by
        simp [projectRows]
      exact ⟨_, hrow, "# ".toList, " = main".toList, by simp [Row.text]⟩
  | some tw =>
      have hrow : Row.setting (fieldKey name "tripwire") tw ∈ projectRows name (some tw) := by
        simp [projectRows]
      exact ⟨_, hrow, List.infix_append_left⟩

theorem Plain.hasProfileKey_appended (h : Plain name tripwire) :
    hasProfileKey name (appendedProfile name tripwire) = true ↔ tripwire.isSome = true := by
  rw [appendedProfile, h.hasProfileKey_fileText]
  have hkey : (fieldKey name "tripwire").toList.length = name.toList.length + 16 := by
    rw [toList_fieldKey]
    simp
  constructor
  · rintro ⟨r, hr, hinfix⟩
    cases tripwire with
    | some tw => rfl
    | none =>
        rcases List.mem_pair.mp hr with rfl | rfl
        · -- the comment is one letter too short
          have hlength := hinfix.length_le
          have hsign : " Profile for: ".toList.length = 14 := rfl
          rw [hkey, Row.text, List.length_cons, String.toList_append, List.length_append,
            hsign] at hlength
          omega
        · -- so is what stands behind the comment's sign
          have hrow : (Row.comment (" " ++ fieldKey name "args" ++ " = ")).text =
              '#' :: ' ' :: (fieldKey name "args" ++ " = ").toList := by
            simp [Row.text]
          have hbehind : (fieldKey name "tripwire").toList <:+:
              (fieldKey name "args" ++ " = ").toList := by
            obtain ⟨ks, hks⟩ : ∃ ks, (fieldKey name "tripwire").toList = 't' :: ks := by
              rw [toList_fieldKey]
              exact ⟨_, rfl⟩
            rw [hrow, hks, List.infix_cons_iff, List.infix_cons_iff] at hinfix
            rw [hks]
            simpa using hinfix
          have hlength := hbehind.length_le
          have hargs : (fieldKey name "args" ++ " = ").toList.length = name.toList.length + 15 := by
            rw [String.toList_append, toList_fieldKey]
            simp
          rw [hkey, hargs] at hlength
          omega
  · intro hsome
    obtain ⟨tw, rfl⟩ := Option.isSome_iff_exists.mp hsome
    have hrow : Row.setting (fieldKey name "tripwire") tw ∈ appendedRows name (some tw) := by
      simp [appendedRows]
    exact ⟨_, hrow, List.infix_append_left⟩

/-- Whether another `cmd_init` for the target would find the file as it wants it. -/
theorem Plain.hasProfileKey_cmdInit (h : Plain name tripwire) (here : Option Text) :
    hasProfileKey name (cmdInit name tripwire here) = true ↔
      here = none ∨ tripwire.isSome = true ∨ hasProfileKey name (here.getD []) = true := by
  cases here with
  | none => exact iff_of_true h.hasProfileKey_fresh (.inl rfl)
  | some existing =>
      rw [cmdInit, Option.getD_some, or_iff_right (Option.some_ne_none existing)]
      cases hkey : hasProfileKey name existing with
      | true => simp [hkey]
      | false =>
          rw [if_neg Bool.false_ne_true, hasProfileKey_iff,
            infix_append_cons_iff h.clearKey_tripwire.line, ← hasProfileKey_iff,
            ← hasProfileKey_iff, hkey, h.hasProfileKey_appended]
          exact or_comm

theorem cmdInit_eq_self_iff :
    cmdInit name tripwire (some existing) = existing ↔ hasProfileKey name existing = true := by
  rw [cmdInit]
  split
  · rename_i hkey
    exact iff_of_true rfl hkey
  · rename_i hkey
    refine iff_of_false (fun hsame => ?_) hkey
    have hlength := congrArg List.length hsame
    rw [List.length_append, List.length_cons] at hlength
    omega

/-- What `cmd_init` makes of the profiles. -/
theorem Plain.given_cmdInit (h : Plain name tripwire) (here : Option Text) :
    given (parseFlatConfig (cmdInit name tripwire here)) name =
      initialised name tripwire here (given (parseFlatConfig (here.getD [])) name) := by
  rw [h.parse_cmdInit]
  exact given_addedPairs name tripwire here

theorem Plain.frame_cmdInit (h : Plain name tripwire) (here : Option Text) :
    configFromMap (parseFlatConfig (cmdInit name tripwire here)) =
        configFromMap (parseFlatConfig (here.getD [])) ∧
      ∀ other ≠ name,
        projectConfigFromMap (parseFlatConfig (cmdInit name tripwire here)) other =
          projectConfigFromMap (parseFlatConfig (here.getD [])) other := by
  rw [h.parse_cmdInit]
  have habout := about_addedPairs name tripwire here
  exact ⟨habout.configFromMap, fun other hne => habout.projectConfigFromMap hne⟩

theorem plain_server : Plain "server" (some "aeMain") where
  separator := by decide
  line := by decide
  tripwire := by
    rintro tw ⟨⟩
    decide

end Written

end Rtmap.Cli
