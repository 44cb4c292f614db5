import Rtmap.Engine.FieldHeatmap
import Rtmap.Engine.Freshness
import Rtmap.Lint.Divergence

/-!
# Contention that the report accounts for

The engine counts writes for the outermost field of the covering type, and the linter looks
them up under the paths of leaf fields. An entry of two threads is listed as an orphan where
its cacheline has fewer than two leaf fields; where it has more, only what was counted for
these leaf fields themselves is reported.
-/
namespace Rtmap.Lint
open Rtmap.Engine Rtmap.Str
open Rtmap.Ring (EVENT_ALLOC EVENT_WRITE)

/-- The heatmap says that the thread writes to the field. -/
def Says (rows : List HeatEntry) (structName : String) (key : String × UInt64) (t : UInt16) : Prop :=
  ∃ e ∈ rows, e.typeName = structName ∧ (e.fieldName, e.fieldOffset) = key ∧ e.threadId = t

section Threads

/-- More than one thread is left when each is counted once. -/
theorem one_lt_length_totals (writes : List (UInt16 × ℕ)) :
    1 < (totals writes).length ↔ ∃ t u, t ≠ u ∧ t ∈ writes.map Prod.fst ∧ u ∈ writes.map Prod.fst := by
  rw [totals, List.length_map, ← List.card_toFinset, Finset.one_lt_card_iff]
  simp only [List.mem_toFinset]
  constructor
  · rintro ⟨t, u, ht, hu, hne⟩
    exact ⟨t, u, hne, ht, hu⟩
  · rintro ⟨t, u, hne, ht, hu⟩
    exact ⟨t, u, ht, hu, hne⟩

theorem mem_totals_fst (writes : List (UInt16 × ℕ)) (t : UInt16) :
    t ∈ (totals writes).map Prod.fst ↔ t ∈ writes.map Prod.fst := by
  rw [totals, List.map_map]
  show t ∈ (writes.map Prod.fst).dedup.map id ↔ _
  rw [List.map_id, List.mem_dedup]

variable {rows : List HeatEntry} {structName : String} {key : String × UInt64}

/-- The threads that are observed at a field. -/
theorem mem_observed_iff (t : UInt16) :
    (∃ o, observed structName rows key = some o ∧ t ∈ o.threads.map Prod.fst) ↔
      Says rows structName key t := by
  have hrow : Says rows structName key t ↔ ∃ e ∈ rows.filter fun e =>
      e.typeName = structName ∧ (e.fieldName, e.fieldOffset) = key, e.threadId = t := by
    simp only [Says, List.mem_filter, decide_eq_true_eq, and_assoc]
  rw [hrow, observed]
  split
  · rename_i hnil
    rw [hnil]
    simp
  · rename_i es hes
    simp only [Option.some.injEq, exists_eq_left', mem_totals_fst, List.map_map]
    rw [List.mem_map]
    rfl

theorem mem_observedKeys {o : ObservedField} (ho : observed structName rows key = some o) :
    key ∈ observedKeys structName rows := by
  rw [observed] at ho
  split at ho
  · cases ho
  · rename_i hsome
    cases hfilter : rows.filter fun e =>
        e.typeName = structName ∧ (e.fieldName, e.fieldOffset) = key with
    | nil => exact absurd hfilter hsome
    | cons e es =>
        have he : e ∈ rows.filter fun e =>
            e.typeName = structName ∧ (e.fieldName, e.fieldOffset) = key :=
          hfilter ▸ List.mem_cons_self
        rw [List.mem_filter, decide_eq_true_eq] at he
        rw [observedKeys, List.mem_dedup, List.mem_map]
        exact ⟨e, List.mem_filter.mpr ⟨he.1, decide_eq_true he.2.1⟩, he.2.2⟩

theorem isMultiWriter_iff : (∃ o, observed structName rows key = some o ∧ o.isMultiWriter = true) ↔
    ∃ t u, t ≠ u ∧ Says rows structName key t ∧ Says rows structName key u := by
  constructor
  · rintro ⟨o, ho, hmulti⟩
    have htotals : ∃ ws, o.threads = totals ws := by
      rw [observed] at ho
      split at ho
      · cases ho
      · cases ho
        exact ⟨_, rfl⟩
    obtain ⟨ws, hws⟩ := htotals
    rw [ObservedField.isMultiWriter, decide_eq_true_eq, hws, gt_iff_lt,
      one_lt_length_totals] at hmulti
    obtain ⟨t, u, hne, ht, hu⟩ := hmulti
    rw [← mem_totals_fst, ← hws] at ht hu
    exact ⟨t, u, hne, (mem_observed_iff t).mp ⟨o, ho, ht⟩, (mem_observed_iff u).mp ⟨o, ho, hu⟩⟩
  · rintro ⟨t, u, hne, ht, hu⟩
    obtain ⟨o, ho, ht⟩ := (mem_observed_iff t).mpr ht
    obtain ⟨o', ho', hu⟩ := (mem_observed_iff u).mpr hu
    cases ho.symm.trans ho'
    refine ⟨o, ho, ?_⟩
    rw [ObservedField.isMultiWriter, decide_eq_true_eq, gt_iff_lt, ← List.length_map Prod.fst]
    by_contra hlen
    rcases hlist : o.threads.map Prod.fst with - | ⟨a, - | ⟨b, l⟩⟩
    · rw [hlist] at ht
      exact absurd ht List.not_mem_nil
    · rw [hlist, List.mem_singleton] at ht hu
      exact hne (ht.trans hu.symm)
    · rw [hlist] at hlen
      simp at hlen

/-- The fields on a cacheline are written to by more than one thread in all. -/
def Contended (rows : List HeatEntry) (structName : String) (fields : List FieldLayout) : Prop :=
  ∃ t u, t ≠ u ∧ (∃ f ∈ fields, Says rows structName (f.name, f.offset) t) ∧
    ∃ f ∈ fields, Says rows structName (f.name, f.offset) u

theorem writersOn_iff (fields : List FieldLayout) :
    1 < (writersOn structName rows fields).length ↔ Contended rows structName fields := by
  have hmem (t : UInt16) : t ∈ ((observedOn structName rows fields).flatMap fun o =>
      o.2.threads).map Prod.fst ↔ ∃ f ∈ fields, Says rows structName (f.name, f.offset) t := by
    simp only [← mem_observed_iff, observedOn, List.map_flatMap, List.mem_flatMap,
      List.mem_filterMap, Option.map_eq_some_iff]
    constructor
    · rintro ⟨-, ⟨f, hf, o, ho, rfl⟩, ht⟩
      exact ⟨f, hf, o, ho, ht⟩
    · rintro ⟨f, hf, o, ho, ht⟩
      exact ⟨_, ⟨f, hf, o, ho, rfl⟩, ht⟩
  rw [writersOn, one_lt_length_totals]
  simp only [hmem]
  rfl

end Threads

section Reports
variable {toLowercase : Text → Text} {structName : String} {rows : List HeatEntry} {ti : TypeInfo}
  {clSize : UInt64}

/-- The report reports the cacheline as contended, or lists the field. -/
def Accounts (r : Report) (cl : UInt64) (key : String × UInt64) : Prop :=
  (∃ l ∈ r.lines, l.cacheline = cl ∧ (l.cls = .confirmed ∨ l.cls = .silentKiller)) ∨
    ∃ o, (key, o) ∈ r.orphans

theorem reportLine_contended_iff (ls : List FieldLayout) (cl : UInt64) :
    (∃ l, reportLine toLowercase structName rows ls cl = some l ∧
      (l.cls = .confirmed ∨ l.cls = .silentKiller)) ↔
    2 ≤ (fieldsOn ls cl).length ∧ Contended rows structName (fieldsOn ls cl) := by
  rw [← writersOn_iff, reportLine]
  dsimp only
  split
  · rename_i hfew
    constructor
    · rintro ⟨l, hl, -⟩
      cases hl
    · rintro ⟨htwo, -⟩
      omega
  · rename_i hfew
    rw [and_iff_right (by omega)]
    by_cases hwriters : 1 < (writersOn structName rows (fieldsOn ls cl)).length
    · simp only [hwriters, iff_true, decide_true]
      cases (fieldsOn ls cl).any (isFlagged toLowercase) with
      | true => exact ⟨_, rfl, .inl rfl⟩
      | false => exact ⟨_, rfl, .inr rfl⟩
    · simp only [hwriters, iff_false, decide_false]
      cases (fieldsOn ls cl).any (isFlagged toLowercase) with
      | true =>
          rintro ⟨l, hl, hcls⟩
          cases hl
          rcases hcls with hcls | hcls <;> cases hcls
      | false =>
          rintro ⟨l, hl, -⟩
          cases hl

theorem reportLine_cacheline {ls : List FieldLayout} {cl : UInt64} {l : ReportLine}
    (h : reportLine toLowercase structName rows ls cl = some l) : l.cacheline = cl := by
  rw [reportLine] at h
  dsimp only at h
  split at h
  · cases h
  · obtain ⟨cls, -, rfl⟩ := Option.map_eq_some_iff.mp h
    rfl

/-- What the report accounts for, in terms of the rows that it is made from. -/
theorem accounts_iff {r : Report} (hr : divergenceReport toLowercase structName rows ti clSize = some r)
    (key : String × UInt64) : Accounts r (key.2 / clSize) key ↔
      if (fieldsOn (layouts ti clSize) (key.2 / clSize)).length < 2 then
        ∃ t u, t ≠ u ∧ Says rows structName key t ∧ Says rows structName key u
      else Contended rows structName (fieldsOn (layouts ti clSize) (key.2 / clSize)) := by
  rw [divergenceReport] at hr
  split at hr
  · cases hr
  cases hr
  have hlines : (∃ l ∈ ((((layouts ti clSize).flatMap FieldLayout.cachelines).insertionSort
      (· ≤ ·)).dedup).filterMap (reportLine toLowercase structName rows (layouts ti clSize)),
      l.cacheline = key.2 / clSize ∧ (l.cls = .confirmed ∨ l.cls = .silentKiller)) ↔
      2 ≤ (fieldsOn (layouts ti clSize) (key.2 / clSize)).length ∧
        Contended rows structName (fieldsOn (layouts ti clSize) (key.2 / clSize)) := by
    rw [← @reportLine_contended_iff toLowercase]
    constructor
    · rintro ⟨l, hl, hcl, hcls⟩
      obtain ⟨cl, -, hline⟩ := List.mem_filterMap.mp hl
      rw [reportLine_cacheline hline] at hcl
      subst hcl
      exact ⟨l, hline, hcls⟩
    · rintro ⟨l, hline, hcls⟩
      refine ⟨l, List.mem_filterMap.mpr ⟨_, ?_, hline⟩, reportLine_cacheline hline, hcls⟩
      have hfields := ((@reportLine_contended_iff toLowercase ..).mp ⟨l, hline, hcls⟩).1
      obtain ⟨f, hf⟩ := List.exists_mem_of_length_pos (Nat.lt_of_lt_of_le Nat.two_pos hfields)
      obtain ⟨hmem, hon⟩ := List.mem_filter.mp hf
      rw [List.mem_dedup, List.mem_insertionSort, List.mem_flatMap]
      exact ⟨f, hmem, mem_cachelines.mpr hon⟩
  have horphans : (∃ o, (key, o) ∈ orphans structName rows (layouts ti clSize) clSize) ↔
      (fieldsOn (layouts ti clSize) (key.2 / clSize)).length < 2 ∧
        ∃ t u, t ≠ u ∧ Says rows structName key t ∧ Says rows structName key u := by
    rw [← isMultiWriter_iff]
    constructor
    · rintro ⟨o, ho⟩
      obtain ⟨k, -, hk⟩ := List.mem_filterMap.mp ho
      obtain ⟨o', ho', hlist⟩ := Option.bind_eq_some_iff.mp hk
      split at hlist
      · rename_i hcond
        cases hlist
        rw [Bool.and_eq_true, decide_eq_true_eq] at hcond
        exact ⟨hcond.2, o, ho', hcond.1⟩
      · cases hlist
    · rintro ⟨hfew, o, ho, hmulti⟩
      refine ⟨o, List.mem_filterMap.mpr ⟨key, mem_observedKeys ho, ?_⟩⟩
      rw [ho, Option.bind_some, hmulti, if_pos (by rw [Bool.true_and]; exact decide_eq_true hfew)]
  rw [Accounts, hlines, horphans]
  split_ifs with hfew
  · simp only [hfew, true_and, or_iff_right_iff_imp]
    exact fun h => absurd h.1 (by omega)
  · simp only [hfew, false_and, or_false, and_iff_right_iff_imp]
    exact fun _ => by omega

end Reports

/-- A name that stays one column of one line. -/
def OneColumn (name : String) : Prop := '\t' ∉ name.toList ∧ '\n' ∉ name.toList

instance : DecidablePred OneColumn := fun _ => inferInstanceAs (Decidable (_ ∧ _))

section Tables
variable {order : List (FieldHeatKey × ℕ)}

theorem parse_export (order : List (FieldHeatKey × ℕ)) :
    parseHeatmap (FieldHeatmap.exportTsv order) = order.flatMap fun e =>
      (lines (FieldHeatmap.row e ++ ['\n'])).filterMap parseRow := by
  have hlines : lines (FieldHeatmap.exportTsv order) = FieldHeatmap.HEADER ::
      order.flatMap fun e => lines (FieldHeatmap.row e ++ ['\n']) := by
    rw [FieldHeatmap.exportTsv, lines, linesFrom_append, lines_flatMap]
    exact congrArg (· ++ _) (lines_row (by decide) (by decide))
  rw [parseHeatmap, hlines]
  dsimp only
  rw [if_pos (by decide), List.filterMap_flatMap]

theorem digit_not_mem {c : Char} (hc : c ∉ (List.range 16).map Nat.digitChar) (n : ℕ) :
    c ∉ Nat.toDigits 10 n := not_mem_toDigits (.inl rfl) hc n

/-- A row of names that are one column each is read as it was written. -/
theorem parse_row {e : FieldHeatKey × ℕ} (htype : OneColumn e.1.typeName)
    (hfield : OneColumn e.1.fieldName) : ∃ writes, (lines (FieldHeatmap.row e ++ ['\n'])).filterMap
      parseRow = [⟨e.1.typeName, e.1.fieldName, e.1.fieldOffset, e.1.threadId, writes⟩] := by
  have htab : '\t' ∉ (List.range 16).map Nat.digitChar := by decide
  have hnewline : '\n' ∉ (List.range 16).map Nat.digitChar := by decide
  have hreturn : '\r' ∉ (List.range 16).map Nat.digitChar := by decide
  have hsplit : (FieldHeatmap.row e).splitOn '\t' = [e.1.typeName.toList, e.1.fieldName.toList,
      Nat.toDigits 10 e.1.fieldOffset.toNat, Nat.toDigits 10 e.1.threadId.toNat,
      Nat.toDigits 10 e.2] := by
    refine List.splitOn_intercalate '\t' ?_ (List.cons_ne_nil _ _)
    simp only [List.mem_cons, List.not_mem_nil, or_false, forall_eq_or_imp, forall_eq]
    exact ⟨htype.1, hfield.1, digit_not_mem htab _, digit_not_mem htab _, digit_not_mem htab _⟩
  have hrow : FieldHeatmap.row e = e.1.typeName.toList ++ '\t' :: (e.1.fieldName.toList ++ '\t' ::
      (Nat.toDigits 10 e.1.fieldOffset.toNat ++ '\t' :: (Nat.toDigits 10 e.1.threadId.toNat ++
        '\t' :: Nat.toDigits 10 e.2))) := by
    simp [FieldHeatmap.row, List.intercalate, List.intersperse]
  have hline : '\n' ∉ FieldHeatmap.row e := by
    rw [hrow]
    simp only [List.mem_append, List.mem_cons, not_or]
    exact ⟨htype.2, by decide, hfield.2, by decide, digit_not_mem hnewline _, by decide,
      digit_not_mem hnewline _, by decide, digit_not_mem hnewline _⟩
  have hlast : (FieldHeatmap.row e).getLast? ≠ some '\r' := by
    intro hlast
    have hback (xs ys : Text) (c : Char) (h : (xs ++ '\t' :: ys).getLast? = some c) :
        c ∈ '\t' :: ys := by
      rw [List.getLast?_append_of_ne_nil _ (List.cons_ne_nil _ _)] at h
      exact List.mem_of_getLast? h
    rw [hrow, ← List.cons_append, ← List.append_assoc, ← List.cons_append, ← List.append_assoc,
      ← List.cons_append, ← List.append_assoc] at hlast
    rcases List.mem_cons.mp (hback _ _ _ hlast) with htab | hdigit
    · revert htab
      decide
    · exact digit_not_mem hreturn _ hdigit
  rw [lines_row hline hlast, List.filterMap_cons, parseRow, hsplit]
  have hoffset := e.1.fieldOffset.toNat_lt
  have hthread := e.1.threadId.toNat_lt
  refine ⟨(parse (Nat.toDigits 10 e.2)).getD 0, ?_⟩
  have hparse (n : ℕ) (hn : n < 2 ^ 64) : parse (Nat.toDigits 10 n) = some n := by
    rw [parse, fromStrRadix_toDigits (.inl rfl), if_pos hn]
  simp only [hparse _ hoffset, hparse _ (hthread.trans (by decide)), Option.getD_some,
    Option.filter_some, hthread, decide_true, if_true, UInt64.ofNat_toNat, UInt16.ofNat_toNat,
    String.ofList_toList, List.filterMap_nil]

/-- An entry with such names is read back. -/
theorem says_of_recorded {k : FieldHeatKey} {n : ℕ} (hmem : (k, n) ∈ order)
    (htype : OneColumn k.typeName) (hfield : OneColumn k.fieldName) :
    Says (parseHeatmap (FieldHeatmap.exportTsv order)) k.typeName (k.fieldName, k.fieldOffset)
      k.threadId := by
  obtain ⟨writes, hrow⟩ := @parse_row (k, n) htype hfield
  rw [parse_export]
  refine ⟨⟨k.typeName, k.fieldName, k.fieldOffset, k.threadId, writes⟩, ?_, rfl, rfl, rfl⟩
  rw [List.mem_flatMap]
  exact ⟨(k, n), hmem, by rw [hrow]; exact List.mem_singleton_self _⟩

/-- What is read has such names. -/
theorem oneColumn_of_says {structName : String} {key : String × UInt64} {t : UInt16}
    (h : Says (parseHeatmap (FieldHeatmap.exportTsv order)) structName key t) :
    OneColumn structName ∧ OneColumn key.1 := by
  obtain ⟨e, he, rfl, rfl, -⟩ := h
  rw [parse_export, List.mem_flatMap] at he
  obtain ⟨d, -, he⟩ := he
  obtain ⟨l, hl, hparse⟩ := List.mem_filterMap.mp he
  have hcolumn {c : Text} (hc : c ∈ l.splitOn '\t') : OneColumn (String.ofList c) := by
    rw [OneColumn, String.toList_ofList]
    exact ⟨not_mem_of_mem_splitOn hc,
      fun hnewline => not_mem_of_mem_lines hl (mem_of_mem_splitOn hc hnewline)⟩
  rw [parseRow] at hparse
  split at hparse
  · rename_i a b _ _ _ _ hsplit
    cases hparse
    exact ⟨hcolumn (hsplit ▸ by simp), hcolumn (hsplit ▸ by simp)⟩
  · cases hparse

end Tables

/-- The report of the struct accounts for the field's entries. -/
def Accounted (toLowercase : Text → Text) (order : List (FieldHeatKey × ℕ)) (ti : TypeInfo)
    (clSize : UInt64) (typeName fieldName : String) (offset : UInt64) : Prop :=
  ∃ r, divergenceReport toLowercase typeName (parseHeatmap (FieldHeatmap.exportTsv order)) ti
      clSize = some r ∧ Accounts r (offset / clSize) (fieldName, offset)

/-- What two threads of a run write to is accounted for if and only if its names are one
column each where fewer than two leaf fields are on its cacheline, and the leaf fields of
the cacheline have more than one writer under their own names where there are more. -/
theorem accounted_iff (start : State) (events : List HostEvent) {order : List (FieldHeatKey × ℕ)}
    (horder : order.Perm (heatmapOf start events).counts) {typeName fieldName : String}
    {offset : UInt64} {t u : UInt16} (hne : t ≠ u)
    (ht : (heatmapOf start events).Records ⟨t, typeName, fieldName, offset⟩)
    (hu : (heatmapOf start events).Records ⟨u, typeName, fieldName, offset⟩)
    (toLowercase : Text → Text) (ti : TypeInfo) (clSize : UInt64) :
    Accounted toLowercase order ti clSize typeName fieldName offset ↔
      clSize ≠ 0 ∧ if (fieldsOn (layouts ti clSize) (offset / clSize)).length < 2 then
        OneColumn typeName ∧ OneColumn fieldName
      else Contended (parseHeatmap (FieldHeatmap.exportTsv order)) typeName
        (fieldsOn (layouts ti clSize) (offset / clSize)) := by
  have hread (v : UInt16) (hv : (heatmapOf start events).Records ⟨v, typeName, fieldName, offset⟩)
      (hnames : OneColumn typeName ∧ OneColumn fieldName) :
      Says (parseHeatmap (FieldHeatmap.exportTsv order)) typeName (fieldName, offset) v := by
    obtain ⟨⟨k, n⟩, hmem, rfl⟩ := hv
    exact says_of_recorded (horder.mem_iff.mpr hmem) hnames.1 hnames.2
  have hnames : (∃ v w, v ≠ w ∧
      Says (parseHeatmap (FieldHeatmap.exportTsv order)) typeName (fieldName, offset) v ∧
      Says (parseHeatmap (FieldHeatmap.exportTsv order)) typeName (fieldName, offset) w) ↔
        OneColumn typeName ∧ OneColumn fieldName := by
    constructor
    · rintro ⟨v, w, -, hv, -⟩
      exact oneColumn_of_says hv
    · intro h
      exact ⟨t, u, hne, hread t ht h, hread u hu h⟩
  unfold Accounted
  cases hr : divergenceReport toLowercase typeName
      (parseHeatmap (FieldHeatmap.exportTsv order)) ti clSize with
  | none =>
      have hzero : clSize = 0 := by
        by_contra hzero
        rw [divergenceReport, if_neg hzero] at hr
        cases hr
      simp [hzero]
  | some r =>
      have hzero : clSize ≠ 0 := by
        rintro rfl
        rw [divergenceReport, if_pos rfl] at hr
        cases hr
      simp only [Option.some.injEq, exists_eq_left', ne_eq, hzero, not_false_eq_true, true_and]
      rw [accounts_iff hr (fieldName, offset), hnames]

section Shared

/-- A struct of two counters within a struct of its own. -/
def pairInside : TypeInfo :=
  let counter : TypeInfo := { name := "long", byteSize := 8 }
  { name := "outer"
    byteSize := 16
    fields := [⟨"inner", 0, 16, {
      name := "pair"
      byteSize := 16
      fields := [⟨"a", 0, 8, counter, 0⟩, ⟨"b", 8, 8, counter, 0⟩] }, 0⟩] }

/-- A struct of one counter. -/
def counterOnly : TypeInfo where
  name := "outer"
  byteSize := 16
  fields := [⟨"count", 0, 8, { name := "long", byteSize := 8 }, 0⟩]

/-- A program with a pointer variable to such a struct. -/
def pointerTo (ti : TypeInfo) : State where
  dwarfInfo := some { typeRegistry := fun n => if n = "outer" then some ti else none }
  addrIndex := ({} : AddressIndex).insertGlobal 0x4000 8 "head"
    { name := "*outer", byteSize := 8, isPointer := true } 0

/-- The variable gets a block, and threads 1 and 2 write to its first bytes. -/
def sharedWrites : List HostEvent :=
  [(.plain, plainEvent EVENT_ALLOC 0x10000 0x40),
    (.plain, plainEvent EVENT_WRITE 0x4000 0x10000),
    (.plain, numbered 1 1 (plainEvent EVENT_WRITE 0x10000 5)),
    (.plain, numbered 2 0 (plainEvent EVENT_WRITE 0x10000 6))]

theorem count_accounted : Accounted id (heatmapOf (pointerTo counterOnly) sharedWrites).counts
    counterOnly 64 "outer" "count" 0 := by
  refine (accounted_iff (pointerTo counterOnly) sharedWrites (.refl _) (show (1 : UInt16) ≠ 2 by decide)
    (by decide +kernel) (by decide +kernel) id counterOnly 64).mpr ⟨by decide, ?_⟩
  rw [if_pos (by decide +kernel)]
  decide

/-- The two leaf fields share a cacheline, and the report is empty. -/
theorem inner_not_accounted : ¬ ∀ start events order typeName fieldName offset t u,
    order.Perm (heatmapOf start events).counts → t ≠ u →
    (heatmapOf start events).Records ⟨t, typeName, fieldName, offset⟩ →
    (heatmapOf start events).Records ⟨u, typeName, fieldName, offset⟩ →
    ∀ toLowercase ti clSize, Accounted toLowercase order ti clSize typeName fieldName offset := by
  intro hall
  obtain ⟨r, hr, haccounts⟩ := hall (pointerTo pairInside) sharedWrites _ "outer" "inner" 0 1 2
    (.refl _) (by decide) (by decide +kernel) (by decide +kernel) id pairInside 64
  have hempty : divergenceReport id "outer" (parseHeatmap (FieldHeatmap.exportTsv
      (heatmapOf (pointerTo pairInside) sharedWrites).counts)) pairInside 64 = some ⟨[], []⟩ := by
    decide +kernel
  cases hempty.symm.trans hr
  rcases haccounts with ⟨l, hl, -⟩ | ⟨o, ho⟩
  · exact absurd hl List.not_mem_nil
  · exact absurd ho List.not_mem_nil

end Shared

end Rtmap.Lint
