import Rtmap.Lint.Sharing

/-!
# What the lint covers

The leaf fields of a struct with their places in it and the qualifiers of the members around
them, and the lines on which one that is written concurrently meets one that is not.
-/
namespace Rtmap.Lint
open Rtmap.Engine Rtmap.Str

/-- A leaf field at its place in the struct. -/
structure Leaf where
  path : String
  offset : ℕ
  field : FieldInfo
  /-- It or a member around it is volatile or atomic. -/
  hot : Bool

def leaves : ℕ → List FieldInfo → ℕ → String → Bool → List Leaf
  | 0, _, _, _, _ => []
  | depth + 1, fields, base, pre, hot =>
      fields.flatMap fun f =>
        let offset := base + f.byteOffset.toNat
        let path := if pre = "" then f.name else pre ++ "." ++ f.name
        let hot := hot || f.typeInfo.isVolatile || f.typeInfo.isAtomic
        if f.typeInfo.fields.isEmpty || f.typeInfo.isPointer then [⟨path, offset, f, hot⟩]
        else leaves depth f.typeInfo.fields offset path hot

/-- The leaf fields of a struct. -/
def leavesOf (ti : TypeInfo) : List Leaf := leaves DEPTHS ti.fields 0 "" false

namespace Leaf
variable (clSize : UInt64) (l : Leaf)

def size : ℕ := l.field.byteSize.toNat

/-- The cachelines of its bytes. -/
def lines : Set ℕ := Blocks.spanned clSize.toNat l.offset l.size

instance decidableMemLines (k : ℕ) : Decidable (k ∈ l.lines clSize) := Blocks.decidableMemSpanned

def layout : FieldLayout := leafLayout clSize (UInt64.ofNat l.offset) l.path l.field

/-- It has bytes, and they are in the address space. -/
def Within : Prop := 0 < l.size ∧ l.offset + l.size ≤ 2 ^ 64

end Leaf

section Flatten
variable {clSize : UInt64}

theorem flattenFields_eq_map (clSize : UInt64) (depth : ℕ) (fields : List FieldInfo) (base : ℕ)
    (pre : String) (hot : Bool) : flattenFields clSize depth fields (UInt64.ofNat base) pre =
      (leaves depth fields base pre hot).map (Leaf.layout clSize) := by
  induction depth generalizing fields base pre hot with
  | zero => rfl
  | succ depth ih =>
      rw [flattenFields, leaves, List.map_flatMap]
      refine congrArg (fields.flatMap ·) (funext fun f => ?_)
      have hoffset : UInt64.ofNat base + f.byteOffset =
          UInt64.ofNat (base + f.byteOffset.toNat) := by
        rw [UInt64.ofNat_add, UInt64.ofNat_toNat]
      dsimp only
      rw [hoffset]
      split
      · rfl
      · exact ih _ _ _ _

/-- The layouts are those of the leaf fields. -/
theorem mem_layouts {ti : TypeInfo} {f : FieldLayout} :
    f ∈ layouts ti clSize ↔ ∃ l ∈ leavesOf ti, l.layout clSize = f := by
  have hflatten := flattenFields_eq_map clSize DEPTHS ti.fields 0 "" false
  rw [layouts, List.mem_insertionSort]
  change f ∈ flattenFields clSize DEPTHS ti.fields (UInt64.ofNat 0) "" ↔ _
  rw [hflatten, List.mem_map]
  rfl

end Flatten

section Placement
variable {clSize : UInt64} {l : Leaf} {cl : UInt64}

theorem toNat_clStart : (l.layout clSize).clStart.toNat = l.offset % 2 ^ 64 / clSize.toNat := by
  rw [Leaf.layout, leafLayout, UInt64.toNat_div, UInt64.toNat_ofNat']

/-- A field without bytes is put where its first byte would be. -/
theorem toNat_clEnd : (l.layout clSize).clEnd.toNat =
    (l.offset % 2 ^ 64 + (max l.size 1 - 1)) % 2 ^ 64 / clSize.toNat := by
  have hmax : (max l.field.byteSize 1).toNat = max l.size 1 := by
    rcases Nat.le_total l.size 1 with hle | hle
    · have hword : l.field.byteSize ≤ 1 := UInt64.le_iff_toNat_le.mpr hle
      rw [max_eq_right hword, max_eq_right hle]
      rfl
    · have hword : 1 ≤ l.field.byteSize := UInt64.le_iff_toNat_le.mpr hle
      rw [max_eq_left hword, max_eq_left hle]
      rfl
  have hone : (1 : UInt64).toNat = 1 := rfl
  rw [Leaf.layout, leafLayout, UInt64.toNat_div, UInt64.toNat_sub, UInt64.toNat_add,
    UInt64.toNat_ofNat', hmax, hone]
  congr 1
  omega

/-- The addresses of a word wrap around, so that bytes behind the last of them are not seen. -/
theorem wrapped_iff {w o s : ℕ} (hw : 0 < w) (hword : w < 2 ^ 64) :
    (∀ k, (o % 2 ^ 64 / w ≤ k ∧ k ≤ (o % 2 ^ 64 + (max s 1 - 1)) % 2 ^ 64 / w) ↔
      (0 < s ∧ o / w ≤ k ∧ k ≤ (o + s - 1) / w)) ↔ 0 < s ∧ o + s ≤ 2 ^ 64 := by
  -- what is behind by a whole address space is in a later block
  have hlater {a b : ℕ} (hab : a + 2 ^ 64 ≤ b) : a / w < b / w := by
    have hstep : a / w + 1 = (a + w) / w := (Nat.add_div_right a hw).symm
    have hle : (a + w) / w ≤ b / w := Nat.div_le_div_right (by omega)
    omega
  constructor
  · intro h
    have hs : 0 < s := by
      by_contra hzero
      obtain rfl : s = 0 := by omega
      have hfirst := (h (o % 2 ^ 64 / w)).mp ⟨le_rfl, Nat.div_le_div_right (by omega)⟩
      exact Nat.lt_irrefl 0 hfirst.1
    obtain ⟨hlow, hhigh⟩ := (h (o / w)).mpr ⟨hs, le_rfl, Nat.div_le_div_right (by omega)⟩
    have hfirst := ((h (o % 2 ^ 64 / w)).mp ⟨le_rfl, hlow.trans hhigh⟩).2.1
    have hoffset : o < 2 ^ 64 := by
      by_contra hover
      have hlt := hlater (a := o % 2 ^ 64) (b := o) (by omega)
      omega
    obtain ⟨-, hlast⟩ := (h ((o + s - 1) / w)).mpr ⟨hs, Nat.div_le_div_right (by omega), le_rfl⟩
    refine ⟨hs, ?_⟩
    by_contra hover
    have hlt := hlater (a := o + s - 1 - 2 ^ 64) (b := o + s - 1) (by omega)
    have hend : (o % 2 ^ 64 + (max s 1 - 1)) % 2 ^ 64 / w ≤ (o + s - 1 - 2 ^ 64) / w :=
      Nat.div_le_div_right (by omega)
    omega
  · rintro ⟨hs, hle⟩ k
    have hstart : o % 2 ^ 64 = o := Nat.mod_eq_of_lt (by omega)
    have hend : (o % 2 ^ 64 + (max s 1 - 1)) % 2 ^ 64 = o + s - 1 := by
      rw [hstart, Nat.max_eq_left hs, Nat.mod_eq_of_lt (by omega)]
      omega
    rw [hend, hstart, and_iff_right hs]

/-- The cachelines of a leaf field's layout are those of its bytes exactly when it has bytes and
they are in the address space. -/
theorem placed_iff (hcl : clSize ≠ 0) :
    (∀ k : ℕ, (∃ cl, cl.toNat = k ∧ (l.layout clSize).on cl = true) ↔ k ∈ l.lines clSize) ↔
      l.Within := by
  have hpos : 0 < clSize.toNat := Nat.pos_of_ne_zero fun h => hcl (UInt64.toNat_inj.mp h)
  rw [Leaf.Within, ← wrapped_iff hpos clSize.toNat_lt]
  refine forall_congr' fun k => ?_
  rw [Leaf.lines, Blocks.mem_spanned, ← toNat_clStart, ← toNat_clEnd]
  refine iff_congr ?_ Iff.rfl
  simp only [FieldLayout.on, Bool.and_eq_true, decide_eq_true_eq, UInt64.le_iff_toNat_le]
  constructor
  · rintro ⟨cl, rfl, h⟩
    exact h
  · intro h
    have hend := (l.layout clSize).clEnd.toNat_lt
    have hk : (UInt64.ofNat k).toNat = k := by
      rw [UInt64.toNat_ofNat', Nat.mod_eq_of_lt (by omega)]
    exact ⟨UInt64.ofNat k, hk, by rwa [hk]⟩

end Placement

section Warnings
variable {toLowercase : Text → Text} {clSize cl : UInt64} {fields ls : List FieldLayout}
  {annotations : Annotations} {ti : TypeInfo}

theorem mixed_iff {p : FieldLayout → Bool} :
    mixed p fields = true ↔ ∃ f ∈ fields, ∃ g ∈ fields, p f = true ∧ p g = false := by
  simp [mixed]
  grind

theorem two_le_of_mixed {p : FieldLayout → Bool} (h : mixed p fields = true) :
    2 ≤ fields.length := by
  obtain ⟨f, hf, g, hg, hpf, hpg⟩ := mixed_iff.mp h
  cases fields with
  | nil => cases hf
  | cons x xs =>
      cases xs with
      | nil =>
          rw [List.mem_singleton.mp hf] at hpf
          rw [List.mem_singleton.mp hg, hpf] at hpg
          cases hpg
      | cons y ys => simp

theorem mixed_mono {p : FieldLayout → Bool} {fields' : List FieldLayout}
    (h : mixed p fields = true) (hsub : fields ⊆ fields') : mixed p fields' = true := by
  obtain ⟨f, hf, g, hg, hp⟩ := mixed_iff.mp h
  exact mixed_iff.mpr ⟨f, hsub hf, g, hsub hg, hp⟩

/-- One of the three tiers warns. -/
def Told (toLowercase : Text → Text) (fields : List FieldLayout) : Prop :=
  mixed FieldLayout.isWriteHot fields ∨ mixed FieldLayout.hasAlignment fields ∨
    mixed (isLockName toLowercase) fields

theorem tiers_cacheline {d : Diagnostic} (h : tiers toLowercase clSize cl fields = some d) :
    d.cacheline = cl := by
  rw [tiers] at h
  split_ifs at h <;> cases h <;> rfl

theorem tiers_warning_iff (clSize cl : UInt64) (fields : List FieldLayout) :
    (∃ d, tiers toLowercase clSize cl fields = some d ∧ d.severity = .warning) ↔
      Told toLowercase fields := by
  rw [tiers, Told]
  split_ifs with hhot haligned hlock hpointer
  · exact iff_of_true ⟨_, rfl, rfl⟩ (.inl hhot)
  · exact iff_of_true ⟨_, rfl, rfl⟩ (.inr (.inl haligned))
  · exact iff_of_true ⟨_, rfl, rfl⟩ (.inr (.inr hlock))
  · simp [sharing, *]
  · simp [*]

theorem mem_clFields {f : FieldLayout} :
    (∃ g ∈ clFields ls, g.1 = cl ∧ f ∈ g.2) ↔ f ∈ ls ∧ f.on cl = true := by
  simp only [clFields, List.mem_map, List.mem_dedup, List.mem_insertionSort, List.mem_flatMap]
  constructor
  · rintro ⟨-, ⟨c, -, rfl⟩, rfl, hf⟩
    exact List.mem_filter.mp hf
  · rintro ⟨hf, hon⟩
    exact ⟨_, ⟨cl, ⟨f, hf, mem_cachelines.mpr hon⟩, rfl⟩, rfl, List.mem_filter.mpr ⟨hf, hon⟩⟩

theorem Told.mono {fields' : List FieldLayout} (h : Told toLowercase fields)
    (hsub : fields ⊆ fields') : Told toLowercase fields' :=
  h.imp (mixed_mono · hsub) (Or.imp (mixed_mono · hsub) (mixed_mono · hsub))

theorem Told.two_le (h : Told toLowercase fields) : 2 ≤ fields.length := by
  rcases h with h | h | h <;> exact two_le_of_mixed h

theorem lineDiagnostic_of_two_le (hnone : annotations.hasAnnotations = false)
    (htwo : 2 ≤ fields.length) : lineDiagnostic toLowercase clSize cl annotations fields =
      tiers toLowercase clSize cl fields := by
  rw [lineDiagnostic, if_neg (by omega), hnone]
  rfl

theorem line_warning_iff (clSize : UInt64) (hnone : annotations.hasAnnotations = false) :
    (∃ d ∈ (clFields ls).filterMap fun l => lineDiagnostic toLowercase clSize l.1 annotations l.2,
      d.severity = .warning ∧ d.cacheline = cl) ↔ Told toLowercase (fieldsOn ls cl) := by
  simp only [List.mem_filterMap]
  constructor
  · rintro ⟨d, ⟨g, hg, hd⟩, hwarning, hcl⟩
    have htwo : 2 ≤ g.2.length := by
      by_contra hfew
      rw [lineDiagnostic, if_pos (by omega)] at hd
      cases hd
    rw [lineDiagnostic_of_two_le hnone htwo] at hd
    rw [clFields, List.mem_map] at hg
    obtain ⟨c, -, rfl⟩ := hg
    obtain rfl : c = cl := (tiers_cacheline hd).symm.trans hcl
    exact (tiers_warning_iff _ _ _).mp ⟨d, hd, hwarning⟩
  · intro htold
    obtain ⟨d, hd, hwarning⟩ := (tiers_warning_iff clSize cl _).mpr htold
    obtain ⟨f, hf⟩ := List.exists_mem_of_length_pos (Nat.lt_of_lt_of_le Nat.two_pos htold.two_le)
    obtain ⟨g, hg, hgcl, -⟩ := mem_clFields.mpr (List.mem_filter.mp hf)
    have hfields : g.2 = fieldsOn ls cl := by
      rw [clFields, List.mem_map] at hg
      obtain ⟨c, -, rfl⟩ := hg
      rw [← hgcl]
    refine ⟨d, ⟨g, hg, ?_⟩, hwarning, tiers_cacheline hd⟩
    rw [hfields, hgcl, lineDiagnostic_of_two_le hnone htold.two_le]
    exact hd

/-- A union is warned of where fields at one place differ in their qualifiers. -/
theorem union_warning_iff :
    (∃ d ∈ checkUnionOverlaps ls clSize, d.severity = .warning ∧ d.cacheline = cl) ↔
      ∃ offset, offset / clSize = cl ∧
        mixed FieldLayout.isWriteHot (ls.filter fun f => f.offset = offset) = true := by
  simp only [checkUnionOverlaps, List.mem_filterMap, List.mem_dedup, List.mem_insertionSort,
    List.mem_map]
  constructor
  · rintro ⟨d, ⟨offset, -, hd⟩, -, hcl⟩
    split_ifs at hd with hfew hmixed
    cases hd
    exact ⟨offset, hcl, hmixed⟩
  · rintro ⟨offset, hcl, hmixed⟩
    obtain ⟨f, hf, -⟩ := mixed_iff.mp hmixed
    rw [List.mem_filter, decide_eq_true_eq] at hf
    refine ⟨overlap clSize offset (ls.filter fun f => f.offset = offset),
      ⟨offset, ⟨f, hf⟩, ?_⟩, rfl, hcl⟩
    rw [if_neg (Nat.not_lt.mpr (two_le_of_mixed hmixed)), if_pos hmixed]

/-- Without annotations a cacheline is warned of if one of the tiers tells, or fields at one place
that is on it differ in their qualifiers. -/
theorem warning_iff (hnone : annotations.hasAnnotations = false)
    {ds : List Diagnostic} (hds : analyzeStruct toLowercase ti clSize annotations = some ds) :
    (∃ d ∈ ds, d.severity = .warning ∧ d.cacheline = cl) ↔
      Told toLowercase (fieldsOn (layouts ti clSize) cl) ∨
        ∃ offset, offset / clSize = cl ∧ mixed FieldLayout.isWriteHot
          ((layouts ti clSize).filter fun f => f.offset = offset) = true := by
  rw [analyzeStruct] at hds
  split_ifs at hds
  cases hds
  rw [← line_warning_iff clSize hnone, ← union_warning_iff]
  simp only [List.mem_append, List.mem_singleton, or_and_right, exists_or, exists_eq_left]
  simp

end Warnings

section Coverage
variable (toLowercase : Text → Text) (ti : TypeInfo) (clSize : UInt64) (annotations : Annotations)

/-- Each leaf field is put on the cachelines of its bytes, and without annotations there is a
warning for each one on which a field that is written concurrently meets one that is not. -/
structure Covers (ds : List Diagnostic) : Prop where
  placed : ∀ l ∈ leavesOf ti, ∀ k : ℕ, (∃ g ∈ clFields (layouts ti clSize),
    g.1.toNat = k ∧ l.layout clSize ∈ g.2) ↔ k ∈ l.lines clSize
  warned : annotations.hasAnnotations = false → ∀ hot ∈ leavesOf ti, ∀ cold ∈ leavesOf ti,
    hot.hot = true → cold.hot = false → ∀ k ∈ hot.lines clSize ∩ cold.lines clSize,
      ∃ d ∈ ds, d.severity = .warning ∧ d.cacheline.toNat = k

/-- The layouts of the leaf fields with bytes on a cacheline. -/
def sharers (k : ℕ) : List FieldLayout :=
  ((leavesOf ti).filter fun l => k ∈ l.lines clSize).map (Leaf.layout clSize)

/-- The meetings are of fields that are hot by their own types, or told apart by what else the
linter looks at. -/
def MeetingsTold : Prop := ∀ hot ∈ leavesOf ti, ∀ cold ∈ leavesOf ti, hot.hot = true →
  cold.hot = false → ∀ k ∈ hot.lines clSize ∩ cold.lines clSize,
    Told toLowercase (sharers ti clSize k)

variable {toLowercase ti clSize annotations}

/-- The leaf fields are put on the cachelines of their bytes exactly when they have bytes and all
are in the address space. -/
theorem all_placed_iff (hcl : clSize ≠ 0) :
    (∀ l ∈ leavesOf ti, ∀ k : ℕ, (∃ g ∈ clFields (layouts ti clSize),
      g.1.toNat = k ∧ l.layout clSize ∈ g.2) ↔ k ∈ l.lines clSize) ↔
        ∀ l ∈ leavesOf ti, l.Within := by
  refine forall₂_congr fun l hl => ?_
  rw [← placed_iff hcl]
  refine forall_congr' fun k => iff_congr ?_ Iff.rfl
  have hlayout : l.layout clSize ∈ layouts ti clSize := mem_layouts.mpr ⟨l, hl, rfl⟩
  constructor
  · rintro ⟨g, hg, hk, hmem⟩
    exact ⟨g.1, hk, (mem_clFields.mp ⟨g, hg, rfl, hmem⟩).2⟩
  · rintro ⟨cl, hk, hon⟩
    obtain ⟨g, hg, rfl, hmem⟩ := mem_clFields.mpr ⟨hlayout, hon⟩
    exact ⟨g, hg, hk, hmem⟩

/-- The fields on a cacheline are those with bytes on it. -/
theorem mem_fieldsOn (hcl : clSize ≠ 0) (hwithin : ∀ l ∈ leavesOf ti, l.Within) {cl : UInt64}
    {f : FieldLayout} : f ∈ fieldsOn (layouts ti clSize) cl ↔ f ∈ sharers ti clSize cl.toNat := by
  rw [fieldsOn, List.mem_filter, mem_layouts, sharers, List.mem_map]
  constructor
  · rintro ⟨⟨l, hl, rfl⟩, hon⟩
    have hline := ((placed_iff hcl).mpr (hwithin l hl) _).mp ⟨cl, rfl, hon⟩
    exact ⟨l, List.mem_filter.mpr ⟨hl, decide_eq_true hline⟩, rfl⟩
  · rintro ⟨l, hl, rfl⟩
    rw [List.mem_filter, decide_eq_true_eq] at hl
    obtain ⟨cl', hcl', hon⟩ := ((placed_iff hcl).mpr (hwithin l hl.1) _).mpr hl.2
    obtain rfl := UInt64.toNat_inj.mp hcl'
    exact ⟨⟨l, hl.1, rfl⟩, hon⟩

/-- Fields at one place are on the cacheline of the place. -/
theorem subset_fieldsOn (hcl : clSize ≠ 0) (hwithin : ∀ l ∈ leavesOf ti, l.Within)
    (offset : UInt64) : (layouts ti clSize).filter (fun f => f.offset = offset) ⊆
      fieldsOn (layouts ti clSize) (offset / clSize) := by
  intro f hf
  rw [List.mem_filter, decide_eq_true_eq] at hf
  obtain ⟨hf, rfl⟩ := hf
  refine List.mem_filter.mpr ⟨hf, ?_⟩
  obtain ⟨l, hl, rfl⟩ := mem_layouts.mp hf
  obtain ⟨cl, -, hon⟩ := ((placed_iff hcl).mpr (hwithin l hl) _).mpr
    (Blocks.first_mem_spanned (hwithin l hl).1)
  rw [FieldLayout.on, Bool.and_eq_true, decide_eq_true_eq, decide_eq_true_eq] at hon ⊢
  exact ⟨UInt64.le_refl _, UInt64.le_trans hon.1 hon.2⟩

/-- The leaf fields are covered exactly when they all have bytes, in the address space, and the
meetings are told by what the linter looks at. -/
theorem covers_iff (hcl : clSize ≠ 0) :
    (∃ ds, analyzeStruct toLowercase ti clSize annotations = some ds ∧
      Covers ti clSize annotations ds) ↔
      (∀ l ∈ leavesOf ti, l.Within) ∧
        (annotations.hasAnnotations = false → MeetingsTold toLowercase ti clSize) := by
  obtain ⟨ds, hds⟩ : ∃ ds, analyzeStruct toLowercase ti clSize annotations = some ds :=
    ⟨_, if_neg hcl⟩
  have hwarned (hwithin : ∀ l ∈ leavesOf ti, l.Within) (hnone : annotations.hasAnnotations = false)
      (cl : UInt64) : (∃ d ∈ ds, d.severity = .warning ∧ d.cacheline = cl) ↔
        Told toLowercase (sharers ti clSize cl.toNat) := by
    rw [warning_iff hnone hds]
    constructor
    · rintro (htold | ⟨offset, rfl, hmixed⟩)
      · exact htold.mono fun f hf => (mem_fieldsOn hcl hwithin).mp hf
      · exact .inl (mixed_mono hmixed fun f hf =>
          (mem_fieldsOn hcl hwithin).mp (subset_fieldsOn hcl hwithin offset hf))
    · exact fun htold => .inl (htold.mono fun f hf => (mem_fieldsOn hcl hwithin).mpr hf)
  have hline (hwithin : ∀ l ∈ leavesOf ti, l.Within) {l : Leaf} (hl : l ∈ leavesOf ti) {k : ℕ}
      (hk : k ∈ l.lines clSize) : ∃ cl : UInt64, cl.toNat = k := by
    obtain ⟨cl, hcl, -⟩ := ((placed_iff hcl).mpr (hwithin l hl) k).mpr hk
    exact ⟨cl, hcl⟩
  constructor
  · rintro ⟨ds', hds', hplaced, hcovers⟩
    obtain rfl := Option.some.inj (hds.symm.trans hds')
    have hwithin := (all_placed_iff hcl).mp hplaced
    refine ⟨hwithin, fun hnone hot hhot cold hcold hishot hiscold k hk => ?_⟩
    obtain ⟨cl, rfl⟩ := hline hwithin hhot hk.1
    obtain ⟨d, hd, hwarning, hdcl⟩ := hcovers hnone hot hhot cold hcold hishot hiscold _ hk
    exact (hwarned hwithin hnone cl).mp ⟨d, hd, hwarning, UInt64.toNat_inj.mp hdcl⟩
  · rintro ⟨hwithin, htold⟩
    refine ⟨ds, hds, (all_placed_iff hcl).mpr hwithin, fun hnone hot hhot cold hcold hishot hiscold
      k hk => ?_⟩
    obtain ⟨cl, rfl⟩ := hline hwithin hhot hk.1
    obtain ⟨d, hd, hwarning, rfl⟩ := (hwarned hwithin hnone cl).mpr
      (htold hnone hot hhot cold hcold hishot hiscold _ hk)
    exact ⟨d, hd, hwarning, rfl⟩

/-- A counter next to a state, each of four bytes. -/
def counted (state : TypeInfo) : TypeInfo where
  name := "shared"
  byteSize := 8
  fields := [⟨"state", 0, 4, state, 0⟩, ⟨"count", 4, 4, { name := "int", byteSize := 4 }, 0⟩]

/-- A volatile state is told from the counter on its line. -/
theorem volatile_covered : ∃ ds, analyzeStruct (List.map Char.toLower)
    (counted { name := "int", byteSize := 4, isVolatile := true }) 64 Annotations.empty = some ds ∧
      Covers (counted { name := "int", byteSize := 4, isVolatile := true }) 64
        Annotations.empty ds := by
  have hwithin : ∀ l ∈ leavesOf (counted { name := "int", byteSize := 4, isVolatile := true }),
      (0 < l.size ∧ l.offset + l.size ≤ 2 ^ 64) ∧ (l.offset + l.size - 1) / 64 = 0 := by decide
  refine (covers_iff (by decide)).mpr ⟨fun l hl => (hwithin l hl).1, ?_⟩
  intro hnone hot hhot cold hcold hishot hiscold k hk
  have hlast := (Blocks.mem_spanned.mp hk.1).2.2
  have hzero := (hwithin hot hhot).2
  obtain rfl : k = 0 := Nat.le_zero.mp (hlast.trans_eq hzero)
  exact .inl (by decide)

/-- The qualifier of a struct that is a member is not that of its fields. -/
theorem member_qualifier_lost : ¬ ∀ (toLowercase : Text → Text) (ti : TypeInfo) (clSize : UInt64)
    (annotations : Annotations), clSize ≠ 0 →
      ∃ ds, analyzeStruct toLowercase ti clSize annotations = some ds ∧
        Covers ti clSize annotations ds := by
  intro hall
  let state : TypeInfo := { name := "state", byteSize := 4, isVolatile := true, fields :=
    [⟨"phase", 0, 4, { name := "int", byteSize := 4 }, 0⟩] }
  obtain ⟨ds, hds, hcovers⟩ :=
    hall (List.map Char.toLower) (counted state) 64 Annotations.empty (by decide)
  have hquiet : (analyzeStruct (List.map Char.toLower) (counted state) 64 Annotations.empty).map
      (fun ds => ds.any fun d => decide (d.severity = .warning)) = some false := by decide
  rw [hds, Option.map_some, Option.some.injEq, List.any_eq_false] at hquiet
  let phase : Leaf := ⟨"state.phase", 0, ⟨"phase", 0, 4, { name := "int", byteSize := 4 }, 0⟩, true⟩
  let count : Leaf := ⟨"count", 4, ⟨"count", 4, 4, { name := "int", byteSize := 4 }, 0⟩, false⟩
  have hleaves : leavesOf (counted state) = [phase, count] := rfl
  obtain ⟨d, hd, hwarning, -⟩ := hcovers.warned rfl phase (by rw [hleaves]; simp) count
    (by rw [hleaves]; simp) rfl rfl 0 (by decide)
  exact hquiet d hd (decide_eq_true hwarning)

end Coverage

end Rtmap.Lint
