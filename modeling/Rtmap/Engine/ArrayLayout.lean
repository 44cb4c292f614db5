import Mathlib.Algebra.BigOperators.Group.List.Basic
import Mathlib.Algebra.BigOperators.Group.List.Lemmas
import Mathlib.Algebra.BigOperators.Ring.List
import Mathlib.Algebra.Order.BigOperators.GroupWithZero.List
import Mathlib.Algebra.Ring.Nat
import Mathlib.Algebra.Order.Ring.Nat
import Mathlib.Data.Nat.Basic
import Mathlib.Tactic.NormNum
import Rtmap.Engine.TypeResolution

/-!
# The layout of arrays

An array without a size of its own has one subrange for each dimension. The loop over them
sets the size anew for each instead of multiplying: `laidOut_iff` says which arrays get
the size of all their elements.
-/
namespace Rtmap.Engine

/-- The number of elements of one dimension. -/
def Die.dimension (d : Die) : ℕ :=
  match d.udata .count with
  | some n => n.toNat
  | none => ((d.udata .upperBound).map fun u => u.toNat + 1).getD 0

/-- The dimensions of an array by its children. -/
def dimensions (children : List Die) : List ℕ :=
  (children.filter fun d => d.tag = .subrangeType).map Die.dimension

/-- A type of as many elements: their fields, of which the first 64 are kept, lie one behind
the other from the start, each of the element's size and inside the type. -/
structure LaidOut (element : TypeInfo) (count : ℕ) (ti : TypeInfo) : Prop where
  size : ti.byteSize.toNat = count * element.byteSize.toNat
  length : ti.fields.length = if element.fields = [] then 0 else min count 64
  contiguous (i : ℕ) (f : FieldInfo) (hf : ti.fields[i]? = some f) :
    f.byteOffset.toNat = i * element.byteSize.toNat
  element_size (f : FieldInfo) (hf : f ∈ ti.fields) : f.byteSize = element.byteSize
  inside (f : FieldInfo) (hf : f ∈ ti.fields) :
    f.byteOffset.toNat + f.byteSize.toNat ≤ ti.byteSize.toNat

/-- The last dimension that has elements. -/
def lastFilled (dims : List ℕ) : ℕ := ((dims.filter fun n => n % 2 ^ 64 ≠ 0).getLast?).getD 0

/-- Only the last dimension has more than one element, and the elements fit; or some dimension
has none, and neither does the last that counts. -/
def Flat (dims : List ℕ) (size : ℕ) : Prop :=
  (∃ ds n, dims = ds ++ [n] ∧ (∀ m ∈ ds, m = 1) ∧ 0 < n ∧ n * size < 2 ^ 64) ∨
    (0 ∈ dims ∧ 2 ^ 64 ∣ lastFilled dims * size)

theorem elements_toNat (d : Die) : d.elements.toNat = d.dimension % 2 ^ 64 := by
  unfold Die.elements Die.dimension
  cases d.udata .count with
  | some n => exact (Nat.mod_eq_of_lt n.toNat_lt).symm
  | none =>
      cases d.udata .upperBound with
      | some u => exact UInt64.toNat_add u 1
      | none => rfl

theorem lastFilled_append (dims : List ℕ) (n : ℕ) :
    lastFilled (dims ++ [n]) = if n % 2 ^ 64 = 0 then lastFilled dims else n := by
  unfold lastFilled
  rw [List.filter_append]
  by_cases hn : n % 2 ^ 64 = 0
  · have hnone : ([n].filter fun n => decide (n % 2 ^ 64 ≠ 0)) = [] :=
      List.filter_cons_of_neg (by simpa using hn)
    rw [if_pos hn, hnone, List.append_nil]
  · have hone : ([n].filter fun n => decide (n % 2 ^ 64 ≠ 0)) = [n] :=
      List.filter_cons_of_pos (decide_eq_true hn)
    rw [if_neg hn, hone, List.getLast?_concat]
    rfl

/-- The loop keeps the size by the last dimension that has elements. -/
theorem subrangeSize_toNat (elemSize : UInt64) (children : List Die) :
    (subrangeSize elemSize children).toNat =
      lastFilled (dimensions children) * elemSize.toNat % 2 ^ 64 := by
  unfold subrangeSize
  induction children using List.reverseRecOn with
  | nil => rw [dimensions, List.filter_nil, List.map_nil]; exact (Nat.zero_mul _).symm ▸ rfl
  | append_singleton ds d ih =>
      rw [List.foldl_append, List.foldl_cons, List.foldl_nil]
      by_cases htag : d.tag = .subrangeType
      · have hdims : dimensions (ds ++ [d]) = dimensions ds ++ [d.dimension] := by
          simp [dimensions, htag]
        rw [hdims, lastFilled_append]
        by_cases hn : d.dimension % 2 ^ 64 = 0
        · have hzero : ¬d.elements > 0 := by
            rw [gt_iff_lt, UInt64.lt_iff_toNat_lt, elements_toNat, hn]
            exact lt_irrefl _
          rw [if_neg fun h => hzero h.2, if_pos hn, ih]
        · have hpos : d.elements > 0 := by
            rw [gt_iff_lt, UInt64.lt_iff_toNat_lt, elements_toNat]
            exact Nat.pos_of_ne_zero hn
          rw [if_pos ⟨htag, hpos⟩, if_neg hn, UInt64.toNat_mul, elements_toNat, Nat.mod_mul_mod]
      · have hdims : dimensions (ds ++ [d]) = dimensions ds := by
          simp [dimensions, htag]
        rw [if_neg fun h => htag h.1, hdims, ih]

/-- The size by the last dimension is the one by all of them. -/
theorem size_iff_flat (dims : List ℕ) {size : ℕ} (hsize : 0 < size) :
    lastFilled dims * size % 2 ^ 64 = dims.prod * size ↔ Flat dims size := by
  constructor
  · intro h
    by_cases hzero : 0 ∈ dims
    · refine .inr ⟨hzero, Nat.dvd_of_mod_eq_zero ?_⟩
      rw [h, List.prod_eq_zero_iff.mpr hzero, Nat.zero_mul]
    · have hpos : ∀ n ∈ dims, 0 < n := fun n hn =>
        Nat.pos_of_ne_zero fun h0 => hzero (h0 ▸ hn)
      have hlt : dims.prod * size < 2 ^ 64 := h ▸ Nat.mod_lt _ (by norm_num)
      left
      rcases List.eq_nil_or_concat dims with rfl | ⟨ds, n, rfl⟩
      · rw [List.prod_nil, Nat.one_mul] at h
        exact absurd (h.symm.trans (by rw [lastFilled]; simp)) hsize.ne'
      · have hn : 0 < n := hpos n (by simp)
        have hds : 0 < ds.prod := List.prod_pos fun m hm => hpos m (by simp [hm])
        rw [List.concat_eq_append] at *
        rw [List.prod_append, List.prod_singleton] at h hlt
        have hle : n ≤ ds.prod * n := Nat.le_mul_of_pos_left n hds
        have hnsize : n * size < 2 ^ 64 := (Nat.mul_le_mul_right size hle).trans_lt hlt
        have hnlt : n < 2 ^ 64 := (Nat.le_mul_of_pos_right n hsize).trans_lt hnsize
        rw [lastFilled_append, Nat.mod_eq_of_lt hnlt, if_neg hn.ne', Nat.mod_eq_of_lt hnsize] at h
        have hprod : ds.prod * n = 1 * n := by
          rw [Nat.one_mul]
          exact (Nat.eq_of_mul_eq_mul_right hsize h).symm
        have hone : ds.prod = 1 := Nat.eq_of_mul_eq_mul_right hn hprod
        refine ⟨ds, n, rfl, fun m hm => ?_, hn, hnsize⟩
        exact Nat.dvd_one.mp (hone ▸ List.dvd_prod hm)
  · intro h
    rcases h with ⟨ds, n, rfl, hone, hn, hlt⟩ | ⟨hzero, hdvd⟩
    · have hnlt : n < 2 ^ 64 := (Nat.le_mul_of_pos_right n hsize).trans_lt hlt
      rw [lastFilled_append, Nat.mod_eq_of_lt hnlt, if_neg hn.ne', Nat.mod_eq_of_lt hlt,
        List.prod_append, List.prod_singleton, List.prod_eq_one hone, Nat.one_mul]
    · rw [Nat.mod_eq_zero_of_dvd hdvd, List.prod_eq_zero_iff.mpr hzero, Nat.zero_mul]

/-- The fields that are made of the elements fill what the size has room for. -/
theorem laidOut_of_size {d : Die} {children : List Die} {element : TypeInfo} {count : ℕ}
    (hsize : element.byteSize ≠ 0)
    (h : (arraySize d children element.byteSize).toNat = count * element.byteSize.toNat) :
    LaidOut element count (arrayType d children (some element)) := by
  have hpos : element.byteSize > 0 := UInt64.pos_iff_ne_zero.mpr hsize
  have hnat : 0 < element.byteSize.toNat := UInt64.lt_iff_toNat_lt.mp hpos
  set size := arraySize d children element.byteSize with hdef
  have hfields : (arrayType d children (some element)).fields = elementFields element size := rfl
  have hbyteSize : (arrayType d children (some element)).byteSize = size := rfl
  have hcount : (size / element.byteSize).toNat = count := by
    rw [UInt64.toNat_div, h, Nat.mul_div_cancel _ hnat]
  have hlength : (elementFields element size).length =
      if element.fields = [] then 0 else min count 64 := by
    unfold elementFields
    by_cases hempty : element.fields = []
    · rw [if_pos hempty, if_neg fun hc => hc.2.2 hempty]
      rfl
    · rw [if_neg hempty]
      by_cases hzero : size > 0
      · rw [if_pos ⟨hpos, hzero, hempty⟩, List.length_map, List.length_range, hcount]
      · have hnone : size.toNat = 0 := by
          rw [gt_iff_lt, UInt64.pos_iff_ne_zero, not_not] at hzero
          rw [hzero]
          rfl
        have hcount0 : count = 0 := by
          rw [h] at hnone
          exact (Nat.mul_eq_zero.mp hnone).resolve_right hnat.ne'
        rw [if_neg fun hc => hzero hc.2.1, hcount0]
        rfl
  have hfield (i : ℕ) (f : FieldInfo) (hf : (elementFields element size)[i]? = some f) :
      f.byteOffset.toNat = i * element.byteSize.toNat ∧ f.byteSize = element.byteSize ∧
        i < count := by
    unfold elementFields at hf
    split at hf
    · rw [List.getElem?_map, Option.map_eq_some_iff] at hf
      obtain ⟨j, hj, hf⟩ := hf
      obtain ⟨hlt, hij⟩ := List.getElem?_eq_some_iff.mp hj
      rw [List.getElem_range] at hij
      rw [List.length_range, hcount] at hlt
      subst hij
      have hi : i < count := hlt.trans_le (min_le_left _ _)
      have hin : i * element.byteSize.toNat < 2 ^ 64 := by
        have hle : i * element.byteSize.toNat ≤ count * element.byteSize.toNat :=
          Nat.mul_le_mul_right _ hi.le
        exact (h ▸ hle).trans_lt size.toNat_lt
      have hi64 : i < 2 ^ 64 := (Nat.le_mul_of_pos_right i hnat).trans_lt hin
      rw [← hf]
      refine ⟨?_, rfl, hi⟩
      rw [UInt64.toNat_mul, UInt64.toNat_ofNat_of_lt' hi64, Nat.mod_eq_of_lt hin]
    · cases hf
  refine ⟨hbyteSize ▸ h, hfields ▸ hlength, fun i f hf => (hfield i f (hfields ▸ hf)).1,
    fun f hf => ?_, fun f hf => ?_⟩
  · obtain ⟨i, hi⟩ := List.getElem?_of_mem (hfields ▸ hf)
    exact (hfield i f hi).2.1
  · obtain ⟨i, hi⟩ := List.getElem?_of_mem (hfields ▸ hf)
    obtain ⟨hoffset, hsame, hlt⟩ := hfield i f hi
    rw [hbyteSize, h, hoffset, hsame, ← Nat.succ_mul]
    exact Nat.mul_le_mul_right _ hlt

/-- An array type without a size of its own has the size of all its elements, laid out one
behind the other, exactly if its dimensions are flat. An array is never among the visited. -/
theorem laidOut_iff (unit : DieUnit) (levels : ℕ) (off : UnitOffset) (visited : Finset UnitOffset)
    (d : Die) (element : TypeInfo) (hvisited : off ∉ visited) (hentry : unit.entry off = some d)
    (htag : d.tag = .arrayType) (hown : d.attrValue .byteSize = none)
    (helement : (resolveRef (resolveTypeAt unit levels) d visited).1 = some element)
    (hsize : element.byteSize ≠ 0) :
    (∃ ti, (resolveTypeAt unit (levels + 1) off visited).1 = some ti ∧
      LaidOut element (dimensions (unit.children off)).prod ti) ↔
      Flat (dimensions (unit.children off)) element.byteSize.toNat := by
  have hpos : element.byteSize > 0 := UInt64.pos_iff_ne_zero.mpr hsize
  have hti : (resolveTypeAt unit (levels + 1) off visited).1 =
      some (arrayType d (unit.children off) (some element)) := by
    rw [resolveTypeAt, if_neg hvisited, hentry]
    dsimp only
    rw [htag]
    dsimp only
    rw [helement]
  have hbytes : (arraySize d (unit.children off) element.byteSize).toNat =
      lastFilled (dimensions (unit.children off)) * element.byteSize.toNat % 2 ^ 64 := by
    have hnone : (d.udata .byteSize).getD 0 = 0 := by
      rw [Die.udata, hown]
      rfl
    unfold arraySize
    dsimp only
    rw [hnone, if_pos ⟨rfl, hpos⟩, subrangeSize_toNat]
  rw [← size_iff_flat _ (UInt64.lt_iff_toNat_lt.mp hpos), ← hbytes]
  constructor
  · rintro ⟨ti, heq, hlaid⟩
    obtain rfl := Option.some.inj (hti.symm.trans heq)
    exact hlaid.size
  · intro h
    exact ⟨_, hti, laidOut_of_size hsize h⟩

namespace IntArray

def int : TypeInfo := { name := "int", byteSize := 4 }

def array : Die := .ofList .arrayType [(.type, .unitRef 1)]

/-- An array of integers with a subrange for each of the counts. -/
def unit (counts : List UInt64) : DieUnit where
  entry off :=
    if off = 1 then some (.ofList .baseType [(.name, .string "int"), (.byteSize, .udata 4)])
    else if off = 2 then some array
    else none
  children off :=
    if off = 2 then counts.map fun n => .ofList .subrangeType [(.count, .udata n)] else []

/-- One row of three integers has twelve bytes. -/
theorem laidOut_row : ∃ ti, (resolveTypeAt (unit [1, 3]) 17 2 ∅).1 = some ti ∧ LaidOut int 3 ti :=
  (laidOut_iff (unit [1, 3]) 16 2 ∅ array int (Finset.notMem_empty _) rfl rfl rfl rfl
    (by decide)).mpr (.inl ⟨[1], 3, rfl, by simp, by decide, by decide⟩)

/-- Two by three integers have twelve bytes as well. -/
theorem not_laidOut : ¬∀ (unit : DieUnit) (levels : ℕ) (off : UnitOffset)
    (visited : Finset UnitOffset) (d : Die) (element : TypeInfo), off ∉ visited →
    unit.entry off = some d → d.tag = .arrayType → d.attrValue .byteSize = none →
    (resolveRef (resolveTypeAt unit levels) d visited).1 = some element → element.byteSize ≠ 0 →
    ∃ ti, (resolveTypeAt unit (levels + 1) off visited).1 = some ti ∧
      LaidOut element (dimensions (unit.children off)).prod ti := by
  intro h
  obtain ⟨ti, hti, hlaid⟩ := h (unit [2, 3]) 16 2 ∅ array int (Finset.notMem_empty _) rfl rfl rfl
    rfl (by decide)
  have hsize : ((resolveTypeAt (unit [2, 3]) 17 2 ∅).1.map TypeInfo.byteSize) = some 12 := rfl
  rw [hti] at hsize
  have htwelve : ti.byteSize = 12 := Option.some.inj hsize
  have hmul := hlaid.size
  rw [htwelve] at hmul
  exact absurd hmul (by decide)

end IntArray

end Rtmap.Engine
