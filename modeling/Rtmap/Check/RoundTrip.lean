import Rtmap.Check.Graph
import Rtmap.Engine.TopologyText
import Mathlib.Data.List.TakeWhile

/-!
# Lines written and read

What the checker reads from the lines that the engine writes. The numbers and the
addresses come back as they were, and every key is found, whatever the names contain. A
name comes back only up to its first quote, with its backslashes still doubled and its
carriage returns and tabs still escaped.
-/
namespace Rtmap.Check
open Rtmap.Str Rtmap.FlatJson Rtmap.Engine

section Names

/-- A name as the reader gets it back. -/
def reread (s : Text) : Text := unescape ((esc s).takeWhile fun c => c ≠ '"')

def rereadName (s : String) : String := String.ofList (reread s.toList)

/-- A number as the reader gets it back. -/
def reparse (n : ℕ) : ℕ := if n < 2 ^ 64 then n else 0

/-- A name without the characters that the reader does not undo. -/
def Plain (s : Text) : Prop := ∀ c ∈ s, c ∉ ['"', '\\', '\r', '\t']

instance (s : Text) : Decidable (Plain s) := List.decidableBAll _ s

theorem plain_cons {c : Char} {cs : Text} :
    Plain (c :: cs) ↔ c ∉ ['"', '\\', '\r', '\t'] ∧ Plain cs := List.forall_mem_cons

theorem esc_cons (c : Char) (cs : Text) : esc (c :: cs) = escChar c ++ esc cs := by
  rw [esc_eq_flatMap, esc_eq_flatMap, List.flatMap_cons]

theorem quote_not_mem_esc {s : Text} (h : '"' ∉ s) : '"' ∉ esc s := by
  rw [esc_eq_flatMap, List.mem_flatMap]
  rintro ⟨c, hc, hmem⟩
  unfold escChar at hmem
  split_ifs at hmem with h1 h2
  · exact absurd hmem (by decide)
  · exact h (h2 ▸ hc)
  · exact absurd hmem (by decide)
  · exact absurd hmem (by decide)
  · exact absurd hmem (by decide)
  · exact h2 (List.mem_singleton.mp hmem).symm

/-- The last step of the reader: `\n` becomes a newline. -/
def unbreak (raw : Text) : Text := replace ['\\', 'n'] ['\n'] raw

theorem unbreak_cons_of_ne {c : Char} (h : c ≠ '\\') (cs : Text) :
    unbreak (c :: cs) = c :: unbreak cs := by
  rw [unbreak, replace, replaceFrom, if_neg (by simp [Ne.symm h])]
  rfl

theorem unbreak_escape (cs : Text) : unbreak ('\\' :: 'n' :: cs) = '\n' :: unbreak cs := by
  rw [unbreak, replace, replaceFrom, if_pos (by simp)]
  rfl

theorem unbreak_backslash {c : Char} (h : c ≠ 'n') (cs : Text) :
    unbreak ('\\' :: c :: cs) = '\\' :: unbreak (c :: cs) := by
  rw [unbreak, replace, replaceFrom, if_neg (by simpa using Ne.symm h)]
  rfl

theorem head_escChar {c d : Char} {ds : Text} (h : escChar c = d :: ds) (hc : c ≠ 'n') :
    d ≠ 'n' := by
  unfold escChar at h
  split_ifs at h <;> rw [← (List.cons.inj h).1]
  all_goals first | exact hc | decide

/-- A backslash in front of an escaped name stays, unless an `n` follows it. -/
theorem unbreak_backslash_esc {c : Char} (h : c ≠ 'n') (cs : Text) :
    unbreak ('\\' :: esc (c :: cs)) = '\\' :: unbreak (esc (c :: cs)) := by
  rw [esc_cons]
  cases hc : escChar c with
  | nil =>
      unfold escChar at hc
      split_ifs at hc
  | cons d ds => exact unbreak_backslash (head_escChar hc h) _

theorem escChar_of_plain {c : Char} (h : c ∉ ['"', '\\', '\r', '\t']) (hline : c ≠ '\n') :
    escChar c = [c] := by
  simp only [List.mem_cons, List.not_mem_nil, or_false, not_or] at h
  rw [escChar, if_neg h.2.1, if_neg h.1, if_neg hline, if_neg h.2.2.1, if_neg h.2.2.2]

theorem unbreak_esc_cons_of_plain {c : Char} (h : c ∉ ['"', '\\', '\r', '\t']) (cs : Text) :
    unbreak (esc (c :: cs)) = c :: unbreak (esc cs) := by
  rw [esc_cons]
  by_cases hline : c = '\n'
  · rw [hline]
    exact unbreak_escape (esc cs)
  · rw [escChar_of_plain h hline]
    have hback : c ≠ '\\' := fun hc => h (by simp [hc])
    exact unbreak_cons_of_ne hback (esc cs)

theorem unbreak_escaped {c e : Char} (hc : escChar c = ['\\', e]) (hn : e ≠ 'n') (he : e ≠ '\\')
    (cs : Text) : unbreak (escChar c ++ cs) = '\\' :: e :: unbreak cs := by
  rw [hc, List.cons_append, List.singleton_append, unbreak_backslash hn, unbreak_cons_of_ne he]

theorem unbreak_esc_cons_backslash (cs : Text) :
    unbreak (esc ('\\' :: cs)) = '\\' :: unbreak ('\\' :: esc cs) := by
  rw [esc_cons]
  exact unbreak_backslash (by decide) (esc cs)

/-- The reader makes no name shorter. -/
theorem length_le_unbreak_esc (s : Text) :
    s.length ≤ (unbreak (esc s)).length ∧ s.length ≤ (unbreak ('\\' :: esc s)).length := by
  induction s with
  | nil => exact ⟨Nat.zero_le _, Nat.zero_le _⟩
  | cons c cs ih =>
      have hfirst : (c :: cs).length ≤ (unbreak (esc (c :: cs))).length := by
        by_cases hplain : c ∉ ['"', '\\', '\r', '\t']
        · rw [unbreak_esc_cons_of_plain hplain]
          exact Nat.succ_le_succ ih.1
        · simp only [List.mem_cons, List.not_mem_nil, or_false, not_not] at hplain
          rcases hplain with rfl | rfl | rfl | rfl
          · rw [esc_cons, unbreak_escaped (e := '"') rfl (by decide) (by decide)]
            exact Nat.le_succ_of_le (Nat.succ_le_succ ih.1)
          · rw [unbreak_esc_cons_backslash]
            exact Nat.succ_le_succ ih.2
          · rw [esc_cons, unbreak_escaped (e := 'r') rfl (by decide) (by decide)]
            exact Nat.le_succ_of_le (Nat.succ_le_succ ih.1)
          · rw [esc_cons, unbreak_escaped (e := 't') rfl (by decide) (by decide)]
            exact Nat.le_succ_of_le (Nat.succ_le_succ ih.1)
      refine ⟨hfirst, ?_⟩
      by_cases hn : c = 'n'
      · rw [hn, esc_cons, escChar_of_plain (by decide) (by decide), List.singleton_append,
          unbreak_escape]
        exact Nat.succ_le_succ ih.1
      · rw [unbreak_backslash_esc hn]
        exact Nat.le_succ_of_le hfirst

/-- A name without quotes comes back exactly if it has nothing else that stays escaped. -/
theorem unbreak_esc_eq_self_iff {s : Text} (hquote : '"' ∉ s) :
    unbreak (esc s) = s ↔ Plain s := by
  induction s with
  | nil => exact iff_of_true rfl nofun
  | cons c cs ih =>
      obtain ⟨hc, hcs⟩ := not_or.mp (List.mem_cons.not.mp hquote)
      rw [plain_cons]
      by_cases hplain : c ∉ ['"', '\\', '\r', '\t']
      · rw [unbreak_esc_cons_of_plain hplain, ← ih hcs]
        simp [hplain]
      · apply iff_of_false _ fun h => hplain h.1
        intro h
        simp only [List.mem_cons, List.not_mem_nil, or_false, not_not] at hplain
        rcases hplain with rfl | rfl | rfl | rfl
        · exact hc rfl
        · rw [unbreak_esc_cons_backslash] at h
          have htail := (List.cons.inj h).2
          cases cs with
          | nil => cases htail
          | cons d ds =>
              by_cases hn : d = 'n'
              · rw [hn, esc_cons, escChar_of_plain (by decide) (by decide),
                  List.singleton_append, unbreak_escape] at htail
                exact absurd (List.cons.inj htail).1 (by decide)
              · rw [unbreak_backslash_esc hn] at htail
                have hlength := congrArg List.length htail
                have hle := (length_le_unbreak_esc (d :: ds)).1
                rw [List.length_cons] at hlength
                omega
        · rw [esc_cons, unbreak_escaped (e := 'r') rfl (by decide) (by decide)] at h
          exact absurd (List.cons.inj h).1 (by decide)
        · rw [esc_cons, unbreak_escaped (e := 't') rfl (by decide) (by decide)] at h
          exact absurd (List.cons.inj h).1 (by decide)

theorem quote_not_mem_takeWhile (s : Text) : '"' ∉ s.takeWhile fun c => c ≠ '"' := fun h => by
  simpa using List.mem_takeWhile_imp h

theorem reread_eq (s : Text) : reread s = unbreak ((esc s).takeWhile fun c => c ≠ '"') := by
  rw [reread, unescape, replace_of_not_mem (c := '"') (by decide) (quote_not_mem_takeWhile _)]
  rfl

/-- A name comes back exactly if it is plain. -/
theorem reread_eq_self_iff (s : Text) : reread s = s ↔ Plain s := by
  rw [reread_eq]
  by_cases hquote : '"' ∈ s
  · apply iff_of_false
    · intro h
      rw [← h] at hquote
      rcases mem_of_mem_replace hquote with h | h
      · exact absurd h (by decide)
      · exact quote_not_mem_takeWhile _ h
    · exact fun h => h _ hquote (by decide)
  · have htake : ((esc s).takeWhile fun c => c ≠ '"') = esc s := by
      rw [List.takeWhile_eq_self_iff]
      intro c hc
      have hne : c ≠ '"' := by
        rintro rfl
        exact quote_not_mem_esc hquote hc
      simpa using hne
    rw [htake]
    exact unbreak_esc_eq_self_iff hquote

theorem rereadName_eq_self_iff (s : String) : rereadName s = s ↔ Plain s.toList := by
  rw [← reread_eq_self_iff, rereadName, ← String.toList_inj, String.toList_ofList]

end Names

section Records

/-- The record of a line that comes back with the names `f` makes of its names and the
numbers `g` makes of its numbers. -/
def recordOf (f : String → String) (g : ℕ → ℕ) : Line → Record
  | .alloc seq _ addr size => .alloc (g seq) addr (g size.toNat)
  | .free seq _ addr _ => .free (g seq) addr
  | .stamp seq addr typeName typeSize source fieldCount =>
      .stamp ⟨g seq, addr, f typeName, typeSize, f source, g fieldCount⟩
  | .link seq fromName fromAddr toAddr pointeeType edgeField =>
      .link ⟨g seq, f fromName, fromAddr, toAddr, f pointeeType, f edgeField⟩
  | .hazard seq kind writeAddr writeSize allocBase allocSize overflow typeName fieldName =>
      .hazard ⟨g seq, kind.text, writeAddr, writeSize, allocBase, g allocSize.toNat,
        g overflow.toNat, f typeName, f fieldName⟩
  | .summary totalEvents nodes edges stmProjections liveAllocs hazards =>
      .summary ⟨g totalEvents, g nodes, g edges, g stmProjections, g liveAllocs, g hazards⟩
  | _ => .other

/-- What was emitted. -/
def emitted : Line → Record := recordOf id id

variable {key : String} {l : Line}

theorem jsonU64_text {digits : Text} (hkey : IsKey key.toList)
    (h : digitsOf key.toList l.fields = some digits) :
    jsonU64 l.text key = (parse digits).getD 0 := by
  rw [jsonU64, Line.text, readDigits_print hkey l.wellFormed_fields, h]

theorem jsonStr_text {raw : Text} (hkey : IsKey key.toList)
    (h : rawOf key.toList l.fields = some raw) :
    jsonStr l.text key = String.ofList (unescape (raw.takeWhile fun c => c ≠ '"')) := by
  rw [jsonStr, Line.text, readRaw_print hkey l.wellFormed_fields, h]
  rfl

theorem jsonU64_number {n : ℕ} (hkey : IsKey key.toList)
    (h : digitsOf key.toList l.fields = some (Nat.toDigits 10 n)) :
    jsonU64 l.text key = reparse n := by
  rw [jsonU64_text hkey h, Str.parse, fromStrRadix_toDigits (.inl rfl), reparse]
  split <;> rfl

theorem jsonStr_name {s : String} (hkey : IsKey key.toList)
    (h : rawOf key.toList l.fields = some (esc s.toList)) :
    jsonStr l.text key = rereadName s := jsonStr_text hkey h

/-- Nothing is done to a text without quotes and backslashes. -/
theorem unescape_word {raw : Text} (hquote : '"' ∉ raw) (hback : '\\' ∉ raw) :
    unescape (raw.takeWhile fun c => c ≠ '"') = raw := by
  have htake : (raw.takeWhile fun c => c ≠ '"') = raw := by
    rw [List.takeWhile_eq_self_iff]
    intro c hc
    have hne : c ≠ '"' := by
      rintro rfl
      exact hquote hc
    simpa using hne
  rw [htake, unescape, replace_of_not_mem (c := '"') (by decide) hquote,
    replace_of_not_mem (c := '\\') (by decide) hback]

theorem jsonStr_word {s : String} (hkey : IsKey key.toList) (hquote : '"' ∉ s.toList)
    (hback : '\\' ∉ s.toList) (h : rawOf key.toList l.fields = some s.toList) :
    jsonStr l.text key = s := by
  rw [jsonStr_text hkey h, unescape_word hquote hback, String.ofList_toList]

theorem jsonHex_hex {x : UInt64} (hkey : IsKey key.toList)
    (h : rawOf key.toList l.fields = some ('0' :: 'x' :: Nat.toDigits 16 x.toNat)) :
    jsonHex l.text key = x := by
  have hquote : '"' ∉ Nat.toDigits 16 x.toNat := not_mem_toDigits (.inr rfl) (by decide) _
  have hback : '\\' ∉ Nat.toDigits 16 x.toNat := not_mem_toDigits (.inr rfl) (by decide) _
  have hstr : (jsonStr l.text key).toList = '0' :: 'x' :: Nat.toDigits 16 x.toNat := by
    rw [jsonStr_text hkey h, unescape_word (by simpa using hquote) (by simpa using hback),
      String.toList_ofList]
  have hprefix : ('0' :: 'x' :: Nat.toDigits 16 x.toNat).dropPrefix? ['0', 'x'] =
      some (Nat.toDigits 16 x.toNat) := dropPrefix?_eq_some_iff_append.mpr rfl
  rw [jsonHex, hstr, hprefix, Option.getD_some, fromStrRadix_toDigits (.inr rfl),
    if_pos x.toNat_lt, Option.getD_some, UInt64.ofNat_toNat]

theorem reparse_uint64 (x : UInt64) : UInt64.ofNat (reparse x.toNat) = x := by
  rw [reparse, if_pos x.toNat_lt, UInt64.ofNat_toNat]

theorem reparse_uint32 (x : UInt32) : UInt32.ofNat (reparse x.toNat) = x := by
  have hlt : x.toNat < 2 ^ 64 := lt_trans x.toNat_lt (by decide)
  rw [reparse, if_pos hlt, UInt32.ofNat_toNat]

/-- The reader finds every field of a line. -/
theorem readRecord_text (l : Line) : readRecord l.text = recordOf rereadName reparse l := by
  have hother {ty : String} (h : ty ∉ ["ALLOC", "FREE", "STAMP", "LINK", "HAZARD", "SUMMARY"])
      (hty : jsonStr l.text "type" = ty) : readRecord l.text = .other := by
    simp only [List.mem_cons, List.not_mem_nil, or_false, not_or] at h
    rw [readRecord, hty, if_neg h.1, if_neg h.2.1, if_neg h.2.2.1, if_neg h.2.2.2.1,
      if_neg h.2.2.2.2.1, if_neg h.2.2.2.2.2]
  cases l with
  | alloc seq tid addr size =>
      rw [readRecord, jsonStr_word (s := "ALLOC") (by decide) (by decide) (by decide) rfl,
        if_pos rfl, jsonU64_number (n := seq) (by decide) rfl,
        jsonHex_hex (x := addr) (by decide) rfl,
        jsonU64_number (n := size.toNat) (by decide) rfl]
      rfl
  | free seq tid addr size =>
      rw [readRecord, jsonStr_word (s := "FREE") (by decide) (by decide) (by decide) rfl,
        if_neg (by decide), if_pos rfl, jsonU64_number (n := seq) (by decide) rfl,
        jsonHex_hex (x := addr) (by decide) rfl]
      rfl
  | stamp seq addr typeName typeSize source fieldCount =>
      rw [readRecord, jsonStr_word (s := "STAMP") (by decide) (by decide) (by decide) rfl,
        if_neg (by decide), if_neg (by decide), if_pos rfl,
        jsonU64_number (n := seq) (by decide) rfl, jsonHex_hex (x := addr) (by decide) rfl,
        jsonStr_name (s := typeName) (by decide) rfl,
        jsonU64_number (n := typeSize.toNat) (by decide) rfl,
        jsonStr_name (s := source) (by decide) rfl,
        jsonU64_number (n := fieldCount) (by decide) rfl, reparse_uint64]
      rfl
  | link seq fromName fromAddr toAddr pointeeType edgeField =>
      rw [readRecord, jsonStr_word (s := "LINK") (by decide) (by decide) (by decide) rfl,
        if_neg (by decide), if_neg (by decide), if_neg (by decide), if_pos rfl,
        jsonU64_number (n := seq) (by decide) rfl, jsonStr_name (s := fromName) (by decide) rfl,
        jsonHex_hex (x := fromAddr) (by decide) rfl,
        jsonHex_hex (x := toAddr) (by decide) rfl,
        jsonStr_name (s := pointeeType) (by decide) rfl,
        jsonStr_name (s := edgeField) (by decide) rfl]
      rfl
  | hazard seq kind writeAddr writeSize allocBase allocSize overflow typeName fieldName =>
      have hkind : '"' ∉ kind.text.toList ∧ '\\' ∉ kind.text.toList := by cases kind <;> decide
      rw [readRecord, jsonStr_word (s := "HAZARD") (by decide) (by decide) (by decide) rfl,
        if_neg (by decide), if_neg (by decide), if_neg (by decide), if_neg (by decide), if_pos rfl,
        jsonU64_number (n := seq) (by decide) rfl,
        jsonStr_word (s := kind.text) (by decide) hkind.1 hkind.2 rfl,
        jsonHex_hex (x := writeAddr) (by decide) rfl,
        jsonU64_number (n := writeSize.toNat) (by decide) rfl,
        jsonHex_hex (x := allocBase) (by decide) rfl,
        jsonU64_number (n := allocSize.toNat) (by decide) rfl,
        jsonU64_number (n := overflow.toNat) (by decide) rfl,
        jsonStr_name (s := typeName) (by decide) rfl,
        jsonStr_name (s := fieldName) (by decide) rfl, reparse_uint32]
      rfl
  | summary totalEvents nodes edges stmProjections liveAllocs hazards =>
      rw [readRecord, jsonStr_word (s := "SUMMARY") (by decide) (by decide) (by decide) rfl,
        if_neg (by decide), if_neg (by decide), if_neg (by decide), if_neg (by decide),
        if_neg (by decide), if_pos rfl, jsonU64_number (n := totalEvents) (by decide) rfl,
        jsonU64_number (n := nodes) (by decide) rfl, jsonU64_number (n := edges) (by decide) rfl,
        jsonU64_number (n := stmProjections) (by decide) rfl,
        jsonU64_number (n := liveAllocs) (by decide) rfl,
        jsonU64_number (n := hazards) (by decide) rfl]
      rfl
  | processFork => exact hother (by decide) (jsonStr_word (by decide) (by decide) (by decide) rfl)
  | crossProcessWrite =>
      exact hother (by decide) (jsonStr_word (by decide) (by decide) (by decide) rfl)
  | seqGap => exact hother (by decide) (jsonStr_word (by decide) (by decide) (by decide) rfl)
  | typeSchism => exact hother (by decide) (jsonStr_word (by decide) (by decide) (by decide) rfl)
  | typeViolation =>
      exact hother (by decide) (jsonStr_word (by decide) (by decide) (by decide) rfl)
  | typeEpochClose =>
      exact hother (by decide) (jsonStr_word (by decide) (by decide) (by decide) rfl)

end Records

section File

variable {ls : List Line}

theorem readLine_text (g : TopoGraph) (l : Line) :
    g.readLine l.text = g.add (recordOf rereadName reparse l) := by
  have hne : l.text ≠ [] := by
    intro h
    have hhead := head?_print l.fields
    rw [← Line.text, h] at hhead
    cases hhead
  rw [TopoGraph.readLine, Line.text, trim_print, ← Line.text, if_neg hne, readRecord_text]

theorem lines_topologyFile (ls : List Line) :
    Text.lines (topologyFile ls) = ls.map fun l => Text.encode (String.ofList l.text) := by
  rw [topologyFile, Text.lines_flatMap, List.map_eq_flatMap]
  congr 1
  funext l
  exact Text.lines_encode (newline_not_mem_print l.wellFormed_fields) (getLast?_print _)

/-- The checker's graph is that of the lines, with their names as the reader gets them back. -/
theorem build_topologyFile (ls : List Line) : TopoGraph.build (topologyFile ls) =
    some (.ofRecords (ls.map (recordOf rereadName reparse))) := by
  have hfold (g : TopoGraph) : ((ls.map fun l => Text.encode (String.ofList l.text)).foldlM
      (fun g line => (Text.decode line).map fun s => g.readLine s.toList) g) =
      some ((ls.map (recordOf rereadName reparse)).foldl TopoGraph.add g) := by
    induction ls generalizing g with
    | nil => rfl
    | cons l ls ih =>
        rw [List.map_cons, List.foldlM_cons, Text.decode_encode, Option.map_some,
          String.toList_ofList, readLine_text]
        exact ih _
  rw [TopoGraph.build, lines_topologyFile]
  exact hfold {}

/-- The names of a line that the checker reads. -/
def namesRead : Line → List String
  | .stamp _ _ typeName _ source _ => [typeName, source]
  | .link _ fromName _ _ pointeeType edgeField => [fromName, pointeeType, edgeField]
  | .hazard _ _ _ _ _ _ _ typeName fieldName => [typeName, fieldName]
  | _ => []

/-- The numbers of a line that the checker reads are of 64 bits, as its emitter takes them. -/
def Fits : Line → Prop
  | .alloc seq .. | .free seq .. | .link seq .. | .hazard seq .. => seq < 2 ^ 64
  | .stamp seq _ _ _ _ fieldCount => seq < 2 ^ 64 ∧ fieldCount < 2 ^ 64
  | .summary totalEvents nodes edges stmProjections liveAllocs hazards =>
      totalEvents < 2 ^ 64 ∧ nodes < 2 ^ 64 ∧ edges < 2 ^ 64 ∧ stmProjections < 2 ^ 64 ∧
        liveAllocs < 2 ^ 64 ∧ hazards < 2 ^ 64
  | _ => True

/-- A line comes back as it was emitted exactly if its names do. -/
theorem recordOf_eq_emitted_iff {l : Line} (hl : Fits l) :
    recordOf rereadName reparse l = emitted l ↔ ∀ s ∈ namesRead l, Plain s.toList := by
  have hnumber {n : ℕ} (h : n < 2 ^ 64) : reparse n = n := if_pos h
  have hsize (x : UInt64) : reparse x.toNat = x.toNat := hnumber x.toNat_lt
  have hname (s : String) : rereadName s = s ↔ Plain s.toList := rereadName_eq_self_iff s
  cases l with
  | alloc seq tid addr size =>
      exact iff_of_true (by simp [recordOf, emitted, hnumber hl, hsize]) nofun
  | free seq tid addr size =>
      exact iff_of_true (by simp [recordOf, emitted, hnumber hl]) nofun
  | stamp seq addr typeName typeSize source fieldCount =>
      simp [recordOf, emitted, namesRead, hnumber hl.1, hnumber hl.2, hname]
  | link seq fromName fromAddr toAddr pointeeType edgeField =>
      simp [recordOf, emitted, namesRead, hnumber hl, hname]
  | hazard seq kind writeAddr writeSize allocBase allocSize overflow typeName fieldName =>
      simp [recordOf, emitted, namesRead, hnumber hl, hsize, hname]
  | summary totalEvents nodes edges stmProjections liveAllocs hazards =>
      obtain ⟨h1, h2, h3, h4, h5, h6⟩ := hl
      exact iff_of_true (by simp [recordOf, emitted, hnumber h1, hnumber h2, hnumber h3,
        hnumber h4, hnumber h5, hnumber h6]) nofun
  | processFork | crossProcessWrite | seqGap | typeSchism | typeViolation | typeEpochClose =>
      simp [recordOf, emitted, namesRead]

end File

section Books

def Record.stamp? : Record → Option StampEvent
  | .stamp s => some s
  | _ => none

def Record.link? : Record → Option LinkEvent
  | .link l => some l
  | _ => none

def Record.hazard? : Record → Option HazardEvent
  | .hazard h => some h
  | _ => none

theorem foldl_add_books (rs : List Record) (g : TopoGraph) :
    (rs.foldl TopoGraph.add g).stamps = g.stamps ++ rs.filterMap Record.stamp? ∧
      (rs.foldl TopoGraph.add g).links = g.links ++ rs.filterMap Record.link? ∧
      (rs.foldl TopoGraph.add g).hazards = g.hazards ++ rs.filterMap Record.hazard? := by
  induction rs generalizing g with
  | nil => simp
  | cons r rs ih =>
      obtain ⟨hstamps, hlinks, hhazards⟩ := ih (g.add r)
      rw [List.foldl_cons, hstamps, hlinks, hhazards]
      cases r <;> simp [TopoGraph.add, Record.stamp?, Record.link?, Record.hazard?, List.filterMap_cons]

/-- Two selections of the same lines agree only line by line. -/
theorem eq_of_filterMap_eq {α β : Type*} {p q : α → Option β} {xs : List α}
    (hsame : ∀ x ∈ xs, (p x).isSome = (q x).isSome) (h : xs.filterMap p = xs.filterMap q) :
    ∀ x ∈ xs, p x = q x := by
  induction xs with
  | nil => exact nofun
  | cons x xs ih =>
      obtain ⟨hx, hxs⟩ := List.forall_mem_cons.mp hsame
      rw [List.filterMap_cons, List.filterMap_cons] at h
      cases hp : p x <;> cases hq : q x <;> simp only [hp, hq] at h hx
      · exact List.forall_mem_cons.mpr ⟨hp.trans hq.symm, ih hxs h⟩
      · cases hx
      · cases hx
      · obtain ⟨hhead, htail⟩ := List.cons.inj h
        exact List.forall_mem_cons.mpr ⟨by rw [hp, hq, hhead], ih hxs htail⟩

/-- Where the graphs of two readings of the lines are the same, each line that carries
names reads the same. -/
theorem books_eq {f f' : String → String} {g g' : ℕ → ℕ} {ls : List Line}
    (h : TopoGraph.ofRecords (ls.map (recordOf f g)) = .ofRecords (ls.map (recordOf f' g'))) :
    ∀ l ∈ ls, (recordOf f g l).stamp? = (recordOf f' g' l).stamp? ∧
      (recordOf f g l).link? = (recordOf f' g' l).link? ∧
      (recordOf f g l).hazard? = (recordOf f' g' l).hazard? := by
  obtain ⟨hs, hl, hh⟩ := foldl_add_books (ls.map (recordOf f g)) {}
  obtain ⟨hs', hl', hh'⟩ := foldl_add_books (ls.map (recordOf f' g')) {}
  have hbooks {α : Type} (book : TopoGraph → List α) {sel : Record → Option α}
      (hb : book (.ofRecords (ls.map (recordOf f g))) =
        (ls.map (recordOf f g)).filterMap sel)
      (hb' : book (.ofRecords (ls.map (recordOf f' g'))) =
        (ls.map (recordOf f' g')).filterMap sel)
      (hkind : ∀ l, (sel (recordOf f g l)).isSome = (sel (recordOf f' g' l)).isSome) :
      ∀ l ∈ ls, sel (recordOf f g l) = sel (recordOf f' g' l) := by
    apply eq_of_filterMap_eq fun l _ => hkind l
    have heq := congrArg book h
    rwa [hb, hb', List.filterMap_map, List.filterMap_map] at heq
  have hstamp := hbooks TopoGraph.stamps hs hs' fun l => by cases l <;> rfl
  have hlink := hbooks TopoGraph.links hl hl' fun l => by cases l <;> rfl
  have hhazard := hbooks TopoGraph.hazards hh hh' fun l => by cases l <;> rfl
  exact fun l hmem => ⟨hstamp l hmem, hlink l hmem, hhazard l hmem⟩

end Books

/-- The checker recovers what was emitted exactly if the names it reads are plain. -/
theorem build_eq_emitted_iff (ls : List Line) (hls : ∀ l ∈ ls, Fits l) :
    TopoGraph.build (topologyFile ls) = some (.ofRecords (ls.map emitted)) ↔
      ∀ l ∈ ls, ∀ s ∈ namesRead l, Plain s.toList := by
  rw [build_topologyFile, Option.some_inj]
  constructor
  · intro h l hl
    obtain ⟨hstamp, hlink, hhazard⟩ := books_eq h l hl
    cases l with
    | stamp =>
        exact (recordOf_eq_emitted_iff (hls _ hl)).mp (congrArg Record.stamp (Option.some.inj hstamp))
    | link =>
        exact (recordOf_eq_emitted_iff (hls _ hl)).mp (congrArg Record.link (Option.some.inj hlink))
    | hazard =>
        exact (recordOf_eq_emitted_iff (hls _ hl)).mp
          (congrArg Record.hazard (Option.some.inj hhazard))
    | alloc | free | summary | processFork | crossProcessWrite | seqGap | typeSchism
    | typeViolation | typeEpochClose => simp [namesRead]
  · intro h
    have hrecords : ls.map (recordOf rereadName reparse) = ls.map emitted :=
      List.map_congr_left fun l hl => (recordOf_eq_emitted_iff (hls l hl)).mpr (h l hl)
    rw [hrecords]

theorem build_eq_emitted_plain :
    (∀ l ∈ [Line.alloc 3 1 0x5000 24, .stamp 7 0x5000 "node<int>" 24 "g_head" 3], Fits l) ∧
      TopoGraph.build (topologyFile
        [.alloc 3 1 0x5000 24, .stamp 7 0x5000 "node<int>" 24 "g_head" 3]) =
      some (.ofRecords ([.alloc 3 1 0x5000 24, .stamp 7 0x5000 "node<int>" 24 "g_head" 3].map
        emitted)) :=
  have hfits : ∀ l ∈ [Line.alloc 3 1 0x5000 24, .stamp 7 0x5000 "node<int>" 24 "g_head" 3],
      Fits l := by simp [Fits]
  ⟨hfits, (build_eq_emitted_iff _ hfits).mpr (by decide)⟩

/-- A name with a quote ends there for the reader. -/
theorem build_ne_emitted :
    ¬ ∀ ls : List Line, (∀ l ∈ ls, Fits l) →
      TopoGraph.build (topologyFile ls) = some (.ofRecords (ls.map emitted)) := by
  intro h
  have hbuild := h [.stamp 7 0x5000 "lit<\"km\">" 24 "g_head" 3] (by simp [Fits])
  rw [build_topologyFile] at hbuild
  obtain ⟨hstamp, -, -⟩ := books_eq (Option.some.inj hbuild) _ List.mem_cons_self
  have hname := congrArg StampEvent.typeName (Option.some.inj hstamp)
  exact absurd ((rereadName_eq_self_iff _).mp hname) (by decide)

end Rtmap.Check
