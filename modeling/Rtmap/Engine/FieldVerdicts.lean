import Rtmap.Engine.World

/-!
# Verdicts on writes

`check_write` looks at the first field over the write's offset. Which writes to a
declared field it reports, and which writes that end inside another field it lets
pass.
-/
namespace Rtmap.Engine

/-- The end of a field, as the program adds it up. -/
def FieldOf.fieldEnd (f : FieldInfo) : UInt64 := f.byteOffset + f.byteSize

namespace TypeInfo
variable (ti : TypeInfo) (offset : UInt64) (size : UInt32)

/-- The write is of a declared field. -/
def Aligned : Prop := ∃ f ∈ ti.fields, f.byteOffset = offset ∧ f.byteSize = size.toUInt64

/-- The write starts in a declared field, crosses its end and stops inside another one: not
past the end of the type, nor where a field starts or ends. -/
structure Crosses : Prop where
  starts : ∃ f ∈ ti.fields, f.covers offset = true ∧ f.fieldEnd < offset + size.toUInt64
  stops : ∃ f ∈ ti.fields, f.byteOffset < offset + size.toUInt64 ∧
    offset + size.toUInt64 < f.fieldEnd
  within : offset + size.toUInt64 ≤ ti.byteSize
  interior : ∀ f ∈ ti.fields, f.byteOffset ≠ offset + size.toUInt64 ∧
    f.fieldEnd ≠ offset + size.toUInt64

/-- The first field over the offset: the one that the verdict is about. -/
def fieldAt : Option FieldInfo := ti.fields.find? fun f => f.covers offset

/-- A field that starts where the given one ends or later ends with the write or later. -/
def Reached (f : FieldInfo) (writeEnd : UInt64) : Prop :=
  ∃ g ∈ ti.fields, f.fieldEnd ≤ g.byteOffset ∧ writeEnd ≤ g.fieldEnd

/-- The write runs past the type's end, no further than its width allows. -/
def Spills : Prop :=
  ti.byteSize < offset + size.toUInt64 ∧ offset + size.toUInt64 ≤ ti.byteSize + maxTail size

/-- The layout around a write of a declared field: the first field over its offset holds it, a
later field reaches its end or it spills over the tail; a write of no byte where no field is ends
within the type. -/
def Holds : Prop :=
  match ti.fieldAt offset with
  | some f => offset + size.toUInt64 ≤ f.fieldEnd ∨ ti.Reached f (offset + size.toUInt64) ∨
      ti.Spills offset size
  | none => offset + size.toUInt64 ≤ ti.byteSize

/-- The layout around a write that crosses fields: the first field over its offset ends before it,
and no field that starts after that one reaches its end. -/
def Separates : Prop :=
  ∀ f, ti.fieldAt offset = some f →
    f.fieldEnd < offset + size.toUInt64 ∧ ¬ ti.Reached f (offset + size.toUInt64)

end TypeInfo

open TypeInfo

/-- Writes of declared fields are not reported, writes that cross fields are. -/
structure Judged (p : TypeProjection) (addr : UInt64) (size : UInt32) : Prop where
  aligned : p.typeInfo.Aligned (addr - p.baseAddr) size → ∀ pc, checkWrite addr size p pc = none
  crossing : p.typeInfo.Crosses (addr - p.baseAddr) size →
    ∀ pc, (checkWrite addr size p pc).isSome

section Verdict
variable {p : TypeProjection} {addr : UInt64} {size : UInt32}

theorem reached_iff (ti : TypeInfo) (f : FieldInfo) (writeEnd : UInt64) :
    (ti.fields.any fun nf =>
      nf.byteOffset ≥ f.byteOffset + f.byteSize && nf.byteOffset + nf.byteSize ≥ writeEnd) = true ↔
        ti.Reached f writeEnd := by
  simp [Reached, FieldOf.fieldEnd]

/-- What `check_write` lets pass. -/
theorem checkWrite_eq_none (hfields : p.typeInfo.fields ≠ []) (pc : UInt64) :
    checkWrite addr size p pc = none ↔ p.typeInfo.Holds (addr - p.baseAddr) size := by
  have hempty : p.typeInfo.fields.isEmpty = false := by simpa using hfields
  rw [checkWrite, Holds, fieldAt]
  dsimp only
  rw [hempty]
  simp only [Bool.false_eq_true, if_false]
  cases p.typeInfo.fields.find? fun f => f.covers (addr - p.baseAddr) with
  | none =>
      dsimp only
      split
      · rename_i hwithin
        exact iff_of_true rfl hwithin
      · rename_i hout
        exact iff_of_false nofun hout
  | some f =>
      dsimp only
      rw [← reached_iff]
      generalize (p.typeInfo.fields.any fun nf => nf.byteOffset ≥ f.byteOffset + f.byteSize &&
        nf.byteOffset + nf.byteSize ≥ addr - p.baseAddr + size.toUInt64) = coalesced
      rw [Spills, FieldOf.fieldEnd]
      cases coalesced with
      | true => simp
      | false =>
          simp only [Bool.false_eq_true, not_false_eq_true, true_and, false_or, Bool.not_false,
            Bool.true_and, Bool.and_eq_true, decide_eq_true_eq, gt_iff_lt]
          split
          · rename_i hcond
            exact iff_of_false nofun (not_or.mpr ⟨not_le.mpr hcond.1, fun h => hcond.2 h.symm⟩)
          · rename_i hcond
            refine iff_of_true rfl (or_iff_not_imp_left.mpr fun hle => ?_)
            exact (not_not.mp fun h => hcond ⟨not_le.mp hle, h⟩).symm

theorem TypeInfo.Crosses.fieldAt {ti : TypeInfo} {offset : UInt64} (h : ti.Crosses offset size) :
    ∃ f ∈ ti.fields, f.covers offset = true ∧ ti.fieldAt offset = some f := by
  obtain ⟨f, hf, hcovers, -⟩ := h.starts
  have hsome : (ti.fieldAt offset).isSome := List.find?_isSome.mpr ⟨f, hf, hcovers⟩
  obtain ⟨g, hg⟩ := Option.isSome_iff_exists.mp hsome
  have hover := List.find?_some hg
  exact ⟨g, List.mem_of_find?_eq_some hg, hover, hg⟩

theorem TypeInfo.Crosses.holds_iff {ti : TypeInfo} {offset : UInt64} (h : ti.Crosses offset size) :
    ti.Holds offset size ↔ ¬ ti.Separates offset size := by
  obtain ⟨f, -, -, hfirst⟩ := h.fieldAt
  have hspills : ¬ ti.Spills offset size := fun hs => absurd hs.1 (not_lt.mpr h.within)
  rw [Holds, Separates, hfirst]
  simp only [Option.some.injEq, forall_eq', hspills, or_false, not_and_or, not_lt, not_not]

/-- Both hold of a write exactly if the layout holds it where it is of a declared field, and
separates the fields that it crosses. -/
theorem judged_iff (p : TypeProjection) (addr : UInt64) (size : UInt32) :
    Judged p addr size ↔
      (p.typeInfo.Aligned (addr - p.baseAddr) size →
        p.typeInfo.Holds (addr - p.baseAddr) size) ∧
      (p.typeInfo.Crosses (addr - p.baseAddr) size →
        p.typeInfo.Separates (addr - p.baseAddr) size) := by
  have haligned (h : p.typeInfo.Aligned (addr - p.baseAddr) size) : p.typeInfo.fields ≠ [] := by
    obtain ⟨f, hf, -⟩ := h
    exact List.ne_nil_of_mem hf
  have hcrosses (h : p.typeInfo.Crosses (addr - p.baseAddr) size) : p.typeInfo.fields ≠ [] := by
    obtain ⟨f, hf, -⟩ := h.fieldAt
    exact List.ne_nil_of_mem hf
  constructor
  · intro h
    refine ⟨fun hfield => ?_, fun hcross => ?_⟩
    · exact (checkWrite_eq_none (haligned hfield) 0).mp (h.aligned hfield 0)
    · by_contra hnot
      have hpass := (checkWrite_eq_none (hcrosses hcross) 0).mpr (hcross.holds_iff.mpr hnot)
      have hreported := h.crossing hcross 0
      rw [hpass] at hreported
      cases hreported
  · rintro ⟨hholds, hseparates⟩
    refine ⟨fun hfield pc => ?_, fun hcross pc => ?_⟩
    · exact (checkWrite_eq_none (haligned hfield) pc).mpr (hholds hfield)
    · refine Option.isSome_iff_ne_none.mpr fun hnone => ?_
      have hpass := (checkWrite_eq_none (hcrosses hcross) pc).mp hnone
      exact hcross.holds_iff.mp hpass (hseparates hcross)

/-- Among fields that share no byte no write that crosses fields is reported: the field that it
stops in starts where the first one ends or later. -/
theorem crossing_passes
    (hapart : ∀ f ∈ p.typeInfo.fields, ∀ g ∈ p.typeInfo.fields,
      f.fieldEnd ≤ g.byteOffset ∨ g.fieldEnd ≤ f.byteOffset ∨ f.fieldEnd = g.fieldEnd)
    (hcross : p.typeInfo.Crosses (addr - p.baseAddr) size) (pc : UInt64) :
    checkWrite addr size p pc = none := by
  obtain ⟨f, hf, hover, hfirst⟩ := hcross.fieldAt
  rw [checkWrite_eq_none (List.ne_nil_of_mem hf), hcross.holds_iff]
  intro hseparates
  obtain ⟨hends, hreached⟩ := hseparates f hfirst
  obtain ⟨g, hg, hstart, hstop⟩ := hcross.stops
  rw [FieldOf.covers, Bool.and_eq_true, decide_eq_true_eq, decide_eq_true_eq] at hover
  rcases hapart f hf g hg with hle | hle | heq
  · exact hreached ⟨g, hg, hle, hstop.le⟩
  · exact absurd (hstop.trans_le (hle.trans hover.1)) (not_lt.mpr (hover.2.trans hends).le)
  · exact absurd (hends.trans (heq ▸ hstop)) (lt_irrefl _)

end Verdict

/-- A union of a member of four bytes and one of eight. -/
def unionOf : TypeInfo where
  name := "value"
  byteSize := 8
  fields := [⟨"i", 0, 4, { name := "int", byteSize := 4 }, 4⟩,
    ⟨"p", 0, 8, { name := "*node", byteSize := 8, isPointer := true }, 8⟩]

/-- Two members of eight bytes. -/
def pairOf : TypeInfo where
  name := "pair"
  byteSize := 16
  fields := [⟨"a", 0, 8, { name := "long", byteSize := 8 }, 8⟩,
    ⟨"b", 8, 8, { name := "long", byteSize := 8 }, 8⟩]

/-- A store to the union's second member is reported. -/
theorem member_reported : unionOf.Aligned 0 8 ∧
    (checkWrite 0x1000 8 ⟨0x1000, unionOf, "u", 1⟩ 0).isSome :=
  ⟨⟨⟨"p", 0, 8, { name := "*node", byteSize := 8, isPointer := true }, 8⟩, by simp [unionOf],
    by decide⟩, by decide⟩

/-- A store from the middle of the first member to the middle of the second is not. -/
theorem crossing_not_reported : pairOf.Crosses 4 8 ∧
    (checkWrite 0x1004 8 ⟨0x1000, pairOf, "p", 1⟩ 0).isNone := by
  refine ⟨⟨⟨_, List.mem_cons_self, by decide, by decide⟩,
    ⟨_, List.mem_cons_of_mem _ List.mem_cons_self, by decide, by decide⟩, by decide, ?_⟩, by decide⟩
  intro f hf
  rcases List.mem_cons.mp hf with rfl | hf
  · decide
  · rw [List.mem_singleton.mp hf]
    decide

/-- Neither half holds of every write. -/
theorem not_always_judged :
    (¬ ∀ (p : TypeProjection) (addr : UInt64) (size : UInt32),
      p.typeInfo.Aligned (addr - p.baseAddr) size → ∀ pc, checkWrite addr size p pc = none) ∧
    ¬ ∀ (p : TypeProjection) (addr : UInt64) (size : UInt32),
      p.typeInfo.Crosses (addr - p.baseAddr) size → ∀ pc, (checkWrite addr size p pc).isSome := by
  constructor
  · intro h
    obtain ⟨hfield, hsome⟩ := member_reported
    rw [h ⟨0x1000, unionOf, "u", 1⟩ 0x1000 8 hfield 0] at hsome
    cases hsome
  · intro h
    obtain ⟨hcross, hnone⟩ := crossing_not_reported
    have hsome := h ⟨0x1000, pairOf, "p", 1⟩ 0x1004 8 hcross 0
    rw [Option.isNone_iff_eq_none.mp hnone] at hsome
    cases hsome

end Rtmap.Engine
