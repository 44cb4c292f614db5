import Rtmap.Lint.Sharing

/-!
# The diff of two versions of a struct

`diff_structs` matches the members of two versions by their names, through a map that keeps the
last member of a name, and compares the cachelines of their first bytes.
-/
namespace Rtmap.Lint
open Rtmap.Engine Rtmap.Str

/-- The map collected from members under their names. -/
def byName (fields : List FieldInfo) (name : String) : Option FieldInfo :=
  fields.findRev? fun f => f.name = name

/-- The names of members, each once, in an order that is the map's own. -/
def names (fields : List FieldInfo) : List String := (fields.map FieldOf.name).dedup

section Diff
variable (structName : String) (clSize : UInt64)

def moved (o n : FieldInfo) : Diagnostic where
  severity := .warning
  cacheline := n.byteOffset / clSize
  message := structName ++ "." ++ n.name ++ " moved CL" ++ dec (o.byteOffset / clSize) ++ " (" ++
    hex o.byteOffset ++ ") -> CL" ++ dec (n.byteOffset / clSize) ++ " (" ++ hex n.byteOffset ++ ")"
  fields := [n.name]

def added (n : FieldInfo) : Diagnostic where
  severity := .info
  cacheline := n.byteOffset / clSize
  message := structName ++ "." ++ n.name ++ " added at " ++ hex n.byteOffset ++ " (CL" ++
    dec (n.byteOffset / clSize) ++ ")"
  fields := [n.name]

def removed (name : String) : Diagnostic where
  severity := .info
  cacheline := 0
  message := structName ++ "." ++ name ++ " removed"
  fields := [name]

def resized (oldSize newSize : UInt64) : Diagnostic :=
  let oldCls := divCeil oldSize clSize
  let newCls := divCeil newSize clSize
  { severity := if newCls > oldCls then .warning else .info
    cacheline := 0
    message := structName ++ " size: " ++ dec oldSize ++ " -> " ++ dec newSize ++ " bytes (" ++
      dec oldCls ++ " -> " ++ dec newCls ++ " CLs)"
    fields := [] }

def movedMembers (old new : TypeInfo) : List Diagnostic :=
  (names new.fields).filterMap fun name =>
    match byName new.fields name, byName old.fields name with
    | some n, some o =>
        if o.byteOffset / clSize ≠ n.byteOffset / clSize then some (moved structName clSize o n)
        else none
    | _, _ => none

def addedMembers (old new : TypeInfo) : List Diagnostic :=
  (names new.fields).filterMap fun name =>
    if (byName old.fields name).isNone then (byName new.fields name).map (added structName clSize)
    else none

def removedMembers (old new : TypeInfo) : List Diagnostic :=
  ((names old.fields).filter fun name => (byName new.fields name).isNone).map (removed structName)

def sizeChange (old new : TypeInfo) : List Diagnostic :=
  if old.byteSize ≠ new.byteSize then [resized structName clSize old.byteSize new.byteSize] else []

/-- `diff_structs`; a cacheline size of 0 is divided by where there is a member or a change of
size to divide. -/
def diffStructs (old new : TypeInfo) : Option (List Diagnostic) :=
  if clSize = 0 ∧ (new.fields ≠ [] ∨ old.byteSize ≠ new.byteSize) then none
  else some (movedMembers structName clSize old new ++ addedMembers structName clSize old new ++
    removedMembers structName old new ++ sizeChange structName clSize old new)

end Diff

/-- The member of a name that is the `i`-th one. -/
def occurrence (fields : List FieldInfo) (name : String) (i : ℕ) : Option FieldInfo :=
  (fields.filter fun f => f.name = name)[i]?

/-- The cachelines that a member has bytes on, a nested struct being one with all its bytes. -/
def memberLines (clSize : UInt64) (f : FieldInfo) : Set ℕ :=
  Blocks.spanned clSize.toNat f.byteOffset.toNat f.byteSize.toNat

/-- A member of both versions, matched by name and order of occurrence, on other cachelines in the
new one. -/
structure Migrated (old new : TypeInfo) (clSize : UInt64) (o n : FieldInfo) : Prop where
  both : ∃ name i, occurrence old.fields name i = some o ∧ occurrence new.fields name i = some n
  lines : memberLines clSize o ≠ memberLines clSize n

/-- Each migrated member is reported with its places, and equal versions with nothing. -/
structure DiffComplete (structName : String) (clSize : UInt64) (old new : TypeInfo)
    (ds : List Diagnostic) : Prop where
  reported : ∀ o n, Migrated old new clSize o n → moved structName clSize o n ∈ ds
  quiet : old = new → ds = []

/-- Each migrated member has its first byte on another cacheline, and starts where the last
member of its name does. -/
def FirstBytesTell (clSize : UInt64) (old new : TypeInfo) : Prop :=
  ∀ o n, Migrated old new clSize o n → o.byteOffset / clSize ≠ n.byteOffset / clSize ∧
    (byName old.fields o.name).map FieldOf.byteOffset = some o.byteOffset ∧
    (byName new.fields n.name).map FieldOf.byteOffset = some n.byteOffset

section Names
variable {fields : List FieldInfo} {name : String} {f : FieldInfo}

theorem byName_eq_find? : byName fields name = fields.reverse.find? fun f => f.name = name :=
  List.findRev?_eq_find?_reverse

theorem byName_eq_none_iff : byName fields name = none ↔ ∀ f ∈ fields, f.name ≠ name := by
  rw [byName_eq_find?, List.find?_eq_none]
  simp

theorem name_of_byName (h : byName fields name = some f) : f.name = name := by
  rw [byName_eq_find?] at h
  have hname := List.find?_some h
  exact of_decide_eq_true hname

theorem exists_byName (hf : f ∈ fields) : ∃ g, byName fields f.name = some g := by
  cases hname : byName fields f.name with
  | none => exact absurd rfl (byName_eq_none_iff.mp hname f hf)
  | some g => exact ⟨g, rfl⟩

theorem mem_names : name ∈ names fields ↔ ∃ g, byName fields name = some g := by
  rw [names, List.mem_dedup, List.mem_map]
  constructor
  · rintro ⟨f, hf, rfl⟩
    exact exists_byName hf
  · rintro ⟨g, hg⟩
    by_contra hno
    have hnone : byName fields name = none :=
      byName_eq_none_iff.mpr fun f hf heq => hno ⟨f, hf, heq⟩
    rw [hg] at hnone
    cases hnone

theorem occurrence_spec {i : ℕ} (h : occurrence fields name i = some f) :
    f ∈ fields ∧ f.name = name := by
  have hmem := List.mem_of_getElem? h
  rw [List.mem_filter, decide_eq_true_eq] at hmem
  exact hmem

end Names

section Moves
variable {structName : String} {clSize : UInt64} {o n o' n' : FieldInfo}

/-- What is said of a member that moved tells its places. -/
theorem moved_inj (h : moved structName clSize o n = moved structName clSize o' n') :
    n.name = n'.name ∧ o.byteOffset = o'.byteOffset ∧ n.byteOffset = n'.byteOffset := by
  simp only [moved, Diagnostic.mk.injEq, List.cons.injEq, and_true, true_and] at h
  obtain ⟨-, hmessage, hname⟩ := h
  rw [← hname] at hmessage
  have htext := congrArg String.toList hmessage
  have hopen : " (".toList = [' ', '('] := rfl
  have hradix : "0x".toList = ['0', 'x'] := rfl
  have harrow : ") -> CL".toList = [')', ' ', '-', '>', ' ', 'C', 'L'] := rfl
  have hclose : ")".toList = [')'] := rfl
  simp only [dec, hex, String.toList_append, String.toList_ofList, List.append_assoc,
    List.append_cancel_left_eq, hopen, hradix, harrow, hclose, List.cons_append,
    List.nil_append] at htext
  -- the four numbers one after the other, each up to the character behind it
  have hafterOldLine := (toDigits_append_cons_inj (.inl rfl) (by decide) htext).2
  simp only [List.cons.injEq, true_and] at hafterOldLine
  obtain ⟨ho, hafterOld⟩ := toDigits_append_cons_inj (.inr rfl) (by decide) hafterOldLine
  simp only [List.cons.injEq, true_and] at hafterOld
  have hafterNewLine := (toDigits_append_cons_inj (.inl rfl) (by decide) hafterOld).2
  simp only [List.cons.injEq, true_and] at hafterNewLine
  obtain ⟨hn, -⟩ := toDigits_append_cons_inj (.inr rfl) (by decide) hafterNewLine
  exact ⟨hname, UInt64.toNat_inj.mp ho, UInt64.toNat_inj.mp hn⟩

variable {old new : TypeInfo}

theorem mem_movedMembers {d : Diagnostic} : d ∈ movedMembers structName clSize old new ↔
    ∃ name o n, byName old.fields name = some o ∧ byName new.fields name = some n ∧
      o.byteOffset / clSize ≠ n.byteOffset / clSize ∧ moved structName clSize o n = d := by
  rw [movedMembers, List.mem_filterMap]
  refine exists_congr fun name => ?_
  rw [mem_names]
  constructor
  · rintro ⟨⟨n, hn⟩, hd⟩
    cases ho : byName old.fields name with
    | none =>
        rw [hn, ho] at hd
        cases hd
    | some o =>
        rw [hn, ho] at hd
        dsimp only at hd
        split_ifs at hd with hmoved
        exact ⟨o, n, rfl, hn, hmoved, Option.some.inj hd⟩
  · rintro ⟨o, n, ho, hn, hmoved, hd⟩
    refine ⟨⟨n, hn⟩, ?_⟩
    rw [hn, ho]
    dsimp only
    rw [if_pos hmoved, hd]

theorem severity_added {d : Diagnostic} (hd : d ∈ addedMembers structName clSize old new) :
    d.severity = .info := by
  rw [addedMembers, List.mem_filterMap] at hd
  obtain ⟨name, -, hd⟩ := hd
  split_ifs at hd
  obtain ⟨n, -, rfl⟩ := Option.map_eq_some_iff.mp hd
  rfl

theorem severity_removed {d : Diagnostic} (hd : d ∈ removedMembers structName old new) :
    d.severity = .info := by
  rw [removedMembers, List.mem_map] at hd
  obtain ⟨name, -, rfl⟩ := hd
  rfl

theorem fields_sizeChange {d : Diagnostic} (hd : d ∈ sizeChange structName clSize old new) :
    d.fields = [] := by
  rw [sizeChange] at hd
  split_ifs at hd with hsize
  · rw [List.mem_singleton.mp hd]
    rfl
  · cases hd

theorem diffStructs_eq (hcl : clSize ≠ 0) : diffStructs structName clSize old new =
    some (movedMembers structName clSize old new ++ addedMembers structName clSize old new ++
      removedMembers structName old new ++ sizeChange structName clSize old new) :=
  if_neg fun h => hcl h.1

/-- A member is reported as moved by what the last members of its name say. -/
theorem moved_mem_iff {ds : List Diagnostic} (hcl : clSize ≠ 0)
    (hds : diffStructs structName clSize old new = some ds) :
    moved structName clSize o n ∈ ds ↔
      ∃ o' n', byName old.fields n.name = some o' ∧ byName new.fields n.name = some n' ∧
        o'.byteOffset / clSize ≠ n'.byteOffset / clSize ∧ o'.byteOffset = o.byteOffset ∧
        n'.byteOffset = n.byteOffset := by
  obtain rfl := Option.some.inj ((diffStructs_eq hcl).symm.trans hds)
  simp only [List.mem_append, or_assoc]
  constructor
  · rintro (hmoved | hadded | hremoved | hsize)
    · obtain ⟨name, o', n', ho, hn, hlines, heq⟩ := mem_movedMembers.mp hmoved
      obtain ⟨hname, hplaces⟩ := moved_inj heq
      obtain rfl := (name_of_byName hn).symm.trans hname
      exact ⟨o', n', ho, hn, hlines, hplaces⟩
    · cases severity_added hadded
    · cases severity_removed hremoved
    · cases fields_sizeChange hsize
  · rintro ⟨o', n', ho, hn, hlines, hoffset, hoffset'⟩
    refine .inl (mem_movedMembers.mpr ⟨n.name, o', n', ho, hn, hlines, ?_⟩)
    rw [moved, moved, hoffset, hoffset', name_of_byName hn]

/-- Nothing is said of two equal versions. -/
theorem diffStructs_self (hcl : clSize ≠ 0) (s : TypeInfo) :
    diffStructs structName clSize s s = some [] := by
  have hmoved : movedMembers structName clSize s s = [] := by
    rw [List.eq_nil_iff_forall_not_mem]
    intro d hd
    obtain ⟨name, o, n, ho, hn, hlines, -⟩ := mem_movedMembers.mp hd
    obtain rfl := Option.some.inj (ho.symm.trans hn)
    exact hlines rfl
  have hadded : addedMembers structName clSize s s = [] := by
    rw [addedMembers, List.filterMap_eq_nil_iff]
    intro name hname
    obtain ⟨g, hg⟩ := mem_names.mp hname
    rw [hg]
    rfl
  have hremoved : removedMembers structName s s = [] := by
    rw [removedMembers, List.map_eq_nil_iff, List.filter_eq_nil_iff]
    intro name hname
    obtain ⟨g, hg⟩ := mem_names.mp hname
    rw [hg]
    exact Bool.false_ne_true
  rw [diffStructs_eq hcl, hmoved, hadded, hremoved, sizeChange, if_neg (not_not_intro rfl)]
  rfl

theorem Migrated.names_eq (h : Migrated old new clSize o n) :
    o.name = n.name ∧ o ∈ old.fields ∧ n ∈ new.fields := by
  obtain ⟨name, i, ho, hn⟩ := h.both
  exact ⟨(occurrence_spec ho).2.trans (occurrence_spec hn).2.symm, (occurrence_spec ho).1,
    (occurrence_spec hn).1⟩

/-- The diff is complete exactly when the first bytes of the last members tell the migrations. -/
theorem diffComplete_iff (hcl : clSize ≠ 0) :
    (∃ ds, diffStructs structName clSize old new = some ds ∧
      DiffComplete structName clSize old new ds) ↔ FirstBytesTell clSize old new := by
  obtain ⟨ds, hds⟩ : ∃ ds, diffStructs structName clSize old new = some ds :=
    ⟨_, diffStructs_eq hcl⟩
  have hquiet (heq : old = new) : ds = [] := by
    rw [heq, diffStructs_self hcl] at hds
    exact (Option.some.inj hds).symm
  have hreported {o n : FieldInfo} (h : Migrated old new clSize o n) :
      moved structName clSize o n ∈ ds ↔ o.byteOffset / clSize ≠ n.byteOffset / clSize ∧
        (byName old.fields o.name).map FieldOf.byteOffset = some o.byteOffset ∧
        (byName new.fields n.name).map FieldOf.byteOffset = some n.byteOffset := by
    rw [moved_mem_iff hcl hds, h.names_eq.1, Option.map_eq_some_iff, Option.map_eq_some_iff]
    constructor
    · rintro ⟨o', n', ho, hn, hlines, hoffset, hoffset'⟩
      exact ⟨by rwa [← hoffset, ← hoffset'], ⟨o', ho, hoffset⟩, n', hn, hoffset'⟩
    · rintro ⟨hlines, ⟨o', ho, hoffset⟩, n', hn, hoffset'⟩
      exact ⟨o', n', ho, hn, by rwa [hoffset, hoffset'], hoffset, hoffset'⟩
  constructor
  · rintro ⟨ds', hds', hcomplete⟩ o n h
    obtain rfl := Option.some.inj (hds.symm.trans hds')
    exact (hreported h).mp (hcomplete.reported o n h)
  · exact fun htell => ⟨ds, hds, fun o n h => (hreported h).mpr (htell o n h), hquiet⟩

end Moves

/-- A struct of two cachelines with a member of four bytes at each of two places. -/
def twoMembers (name : String) (first second : UInt64) : TypeInfo where
  name := "s"
  byteSize := 128
  fields := [⟨name, first, 4, { name := "int", byteSize := 4 }, 0⟩,
    ⟨"<anon>", second, 4, { name := "int", byteSize := 4 }, 0⟩]

/-- A member that is the only one of its name is reported. -/
theorem single_reported : ∃ ds, diffStructs "s" 64 (twoMembers "a" 0 4) (twoMembers "a" 0 64) =
    some ds ∧ DiffComplete "s" 64 (twoMembers "a" 0 4) (twoMembers "a" 0 64) ds := by
  refine (diffComplete_iff (by decide)).mpr fun o n h => ?_
  obtain ⟨hname, ho, hn⟩ := h.names_eq
  simp only [twoMembers, List.mem_cons, List.not_mem_nil, or_false] at ho hn
  rcases ho with rfl | rfl <;> rcases hn with rfl | rfl
  · exact absurd rfl h.lines
  · exact absurd hname (by decide)
  · exact absurd hname (by decide)
  · exact ⟨by decide, rfl, rfl⟩

/-- The first of two anonymous members moves to another cacheline and nothing is said. -/
theorem anonymous_unreported : ¬ ∀ (structName : String) (clSize : UInt64) (old new : TypeInfo),
    clSize ≠ 0 → ∃ ds, diffStructs structName clSize old new = some ds ∧
      DiffComplete structName clSize old new ds := by
  intro hall
  obtain ⟨ds, hds, hcomplete⟩ := hall "s" 64 (twoMembers "<anon>" 0 64) (twoMembers "<anon>" 64 68)
    (by decide)
  have hnone : diffStructs "s" 64 (twoMembers "<anon>" 0 64) (twoMembers "<anon>" 64 68) =
      some [] := by decide
  obtain rfl := Option.some.inj (hds.symm.trans hnone)
  let member (offset : UInt64) : FieldInfo :=
    ⟨"<anon>", offset, 4, { name := "int", byteSize := 4 }, 0⟩
  have hlines : memberLines 64 (member 0) ≠ memberLines 64 (member 64) := by
    intro heq
    have hzero : 0 ∈ memberLines 64 (member 0) := Blocks.mem_spanned.mpr (by decide)
    rw [heq] at hzero
    exact absurd (Blocks.mem_spanned.mp hzero) (by decide)
  cases hcomplete.reported (member 0) (member 64) ⟨⟨"<anon>", 0, rfl, rfl⟩, hlines⟩

end Rtmap.Lint
