import Mathlib.Order.Defs.LinearOrder
import Mathlib.Order.Basic
import Mathlib.Order.Lattice
import Mathlib.Tactic.Common

/-!
# Maps sorted by key

A finite map as the list of its entries in increasing key order. The order of
the keys is part of the structure, so that lookups, range scans and the search
for the greatest key below a bound need no side condition.
-/
namespace Rtmap

/-- A finite map with its entries in strictly increasing key order. -/
structure SortedMap (K V : Type*) [LinearOrder K] where
  entries : List (K × V)
  sorted : entries.Pairwise fun a b => a.1 < b.1

namespace SortedMap
variable {K V : Type*} [LinearOrder K]

def empty : SortedMap K V := ⟨[], .nil⟩

def get? (m : SortedMap K V) (k : K) : Option V :=
  (m.entries.find? fun e => e.1 = k).map Prod.snd

/-- Put an entry in its place, over an entry of the same key. -/
def insertEntry (k : K) (v : V) : List (K × V) → List (K × V)
  | [] => [(k, v)]
  | e :: rest =>
      if k < e.1 then (k, v) :: e :: rest
      else if k = e.1 then (k, v) :: rest
      else e :: insertEntry k v rest

theorem mem_insertEntry {k : K} {v : V} {a : K × V} {l : List (K × V)}
    (h : a ∈ insertEntry k v l) : a = (k, v) ∨ a ∈ l := by
  induction l with
  | nil => simpa [insertEntry] using h
  | cons e rest ih =>
      rw [insertEntry] at h
      split at h
      · simpa using h
      · split at h
        · rcases List.mem_cons.mp h with h | h
          · exact .inl h
          · exact .inr (List.mem_cons_of_mem _ h)
        · rcases List.mem_cons.mp h with h | h
          · exact .inr (h ▸ List.mem_cons_self)
          · exact (ih h).imp_right (List.mem_cons_of_mem _)

theorem sorted_insertEntry (k : K) (v : V) {l : List (K × V)}
    (h : l.Pairwise fun a b => a.1 < b.1) :
    (insertEntry k v l).Pairwise fun a b => a.1 < b.1 := by
  induction l with
  | nil => simp [insertEntry]
  | cons e rest ih =>
      obtain ⟨hhead, htail⟩ := List.pairwise_cons.mp h
      rw [insertEntry]
      split
      · rename_i hk
        refine List.pairwise_cons.mpr ⟨fun a ha => ?_, h⟩
        rcases List.mem_cons.mp ha with rfl | ha
        · exact hk
        · exact hk.trans (hhead a ha)
      · rename_i hk
        split
        · rename_i heq
          subst heq
          exact List.pairwise_cons.mpr ⟨hhead, htail⟩
        · rename_i hne
          refine List.pairwise_cons.mpr ⟨fun a ha => ?_, ih htail⟩
          rcases mem_insertEntry ha with rfl | ha
          · exact lt_of_le_of_ne (not_lt.mp hk) (Ne.symm hne)
          · exact hhead a ha

def insert (m : SortedMap K V) (k : K) (v : V) : SortedMap K V :=
  ⟨insertEntry k v m.entries, sorted_insertEntry k v m.sorted⟩

/-- Keep the entries the test accepts. -/
def retain (m : SortedMap K V) (p : K → V → Bool) : SortedMap K V :=
  ⟨m.entries.filter fun e => p e.1 e.2, m.sorted.filter _⟩

def erase (m : SortedMap K V) (k : K) : SortedMap K V := m.retain fun k' _ => k' ≠ k

/-- The entries with keys up to `k`, the greatest key first. -/
def upTo (m : SortedMap K V) (k : K) : List (K × V) :=
  (m.entries.filter fun e => e.1 ≤ k).reverse

/-- The entry with the greatest key up to `k`. -/
def floor (m : SortedMap K V) (k : K) : Option (K × V) := (m.upTo k).head?

/-- The entries with keys in `[lo, hi)`, in order. -/
def range (m : SortedMap K V) (lo hi : K) : List (K × V) :=
  m.entries.filter fun e => lo ≤ e.1 ∧ e.1 < hi

def keys (m : SortedMap K V) : List K := m.entries.map Prod.fst

def contains (m : SortedMap K V) (k : K) : Bool := (m.get? k).isSome

theorem get?_eq_some {m : SortedMap K V} {k : K} {v : V} :
    m.get? k = some v ↔ (k, v) ∈ m.entries := by
  obtain ⟨l, hl⟩ := m
  simp only [get?]
  induction l with
  | nil => simp
  | cons e rest ih =>
      obtain ⟨hhead, htail⟩ := List.pairwise_cons.mp hl
      obtain ⟨k', v'⟩ := e
      by_cases hk : k' = k
      · subst hk
        simp only [List.find?_cons, decide_true, Option.map_some, Option.some.injEq, List.mem_cons,
          Prod.mk.injEq, true_and]
        refine ⟨fun h => .inl h.symm, fun h => ?_⟩
        rcases h with h | h
        · exact h.symm
        · exact absurd (hhead _ h) (lt_irrefl _)
      · simp only [List.find?_cons, hk, decide_false, List.mem_cons, Prod.mk.injEq, ih htail]
        constructor
        · exact .inr
        · rintro (⟨rfl, _⟩ | h)
          · exact absurd rfl hk
          · exact h

/-- A key has one entry or none. -/
theorem filter_entries (m : SortedMap K V) (k : K) :
    (m.entries.filter fun e => e.1 = k) = (m.get? k).toList.map fun v => (k, v) := by
  obtain ⟨l, hl⟩ := m
  simp only [get?]
  induction l with
  | nil => rfl
  | cons e rest ih =>
      obtain ⟨hhead, htail⟩ := List.pairwise_cons.mp hl
      obtain ⟨k', v⟩ := e
      by_cases hk : k' = k
      · subst hk
        have hrest : (rest.filter fun e => e.1 = k') = [] :=
          List.filter_eq_nil_iff.mpr fun e he => by simpa using (hhead e he).ne'
        simp [hrest]
      · simpa [hk] using ih htail

theorem get?_eq_none {m : SortedMap K V} {k : K} :
    m.get? k = none ↔ ∀ v, (k, v) ∉ m.entries := by
  cases h : m.get? k with
  | none =>
      refine ⟨fun _ v hv => ?_, fun _ => rfl⟩
      rw [get?_eq_some.mpr hv] at h
      cases h
  | some v =>
      constructor
      · intro hn
        cases hn
      · intro hn
        exact absurd (get?_eq_some.mp h) (hn v)

/-- Maps with the same lookups have the same entries. -/
theorem ext_get? {m n : SortedMap K V} (h : ∀ k, m.get? k = n.get? k) : m = n := by
  have hmem : ∀ e, e ∈ m.entries ↔ e ∈ n.entries := by
    rintro ⟨k, v⟩
    rw [← get?_eq_some, ← get?_eq_some, h]
  have hnodup : ∀ l : SortedMap K V, l.entries.Nodup := fun l =>
    l.sorted.imp fun hab heq => absurd (heq ▸ hab) (lt_irrefl _)
  have hperm : m.entries.Perm n.entries :=
    (List.perm_ext_iff_of_nodup (hnodup m) (hnodup n)).mpr hmem
  obtain ⟨l, hl⟩ := m
  obtain ⟨l', hl'⟩ := n
  have heq : l = l' :=
    List.Perm.eq_of_pairwise (fun a b _ _ hab hba => absurd (hab.trans hba) (lt_irrefl _))
      hl hl' hperm
  subst heq
  rfl

theorem mem_keys {m : SortedMap K V} {k : K} : k ∈ m.keys ↔ ∃ v, m.get? k = some v := by
  rw [keys, List.mem_map]
  constructor
  · rintro ⟨e, he, rfl⟩
    exact ⟨e.2, get?_eq_some.mpr he⟩
  · rintro ⟨v, hv⟩
    exact ⟨(k, v), get?_eq_some.mp hv, rfl⟩

theorem not_mem_keys {m : SortedMap K V} {k : K} : k ∉ m.keys ↔ m.get? k = none := by
  rw [mem_keys, ← Option.isSome_iff_exists, Option.not_isSome_iff_eq_none]

theorem sorted_keys (m : SortedMap K V) : m.keys.Pairwise (· < ·) := by
  rw [keys, List.pairwise_map]
  exact m.sorted

/-- The common keys of two maps come in one order. -/
theorem common_keys_comm {W : Type*} (m : SortedMap K V) (n : SortedMap K W) :
    (m.keys.filter fun k => k ∈ n.keys) = n.keys.filter fun k => k ∈ m.keys := by
  have hantisymm (a b : K) (hab : a < b) (hba : b < a) : a = b :=
    absurd (hab.trans hba) (lt_irrefl _)
  refine List.Perm.eq_of_pairwise (fun a b _ _ => hantisymm a b)
    (m.sorted_keys.filter _) (n.sorted_keys.filter _) ?_
  have hnodup {l : List K} (h : l.Pairwise (· < ·)) : l.Nodup :=
    h.imp fun hab heq => absurd (heq ▸ hab) (lt_irrefl _)
  refine (List.perm_ext_iff_of_nodup ((hnodup m.sorted_keys).filter _)
    ((hnodup n.sorted_keys).filter _)).mpr fun k => ?_
  rw [List.mem_filter, List.mem_filter, decide_eq_true_eq, decide_eq_true_eq, and_comm]

/-- Maps with the same keys, one way and the other. -/
theorem keys_eq_iff {m n : SortedMap K V} :
    m.keys = n.keys ↔ (∀ k ∈ n.keys, k ∈ m.keys) ∧ ∀ k ∈ m.keys, k ∈ n.keys := by
  constructor
  · intro h
    rw [h]
    exact ⟨fun _ => id, fun _ => id⟩
  · rintro ⟨hback, hforth⟩
    have hcommon := common_keys_comm m n
    rwa [List.filter_eq_self.mpr fun k hk => decide_eq_true (hforth k hk),
      List.filter_eq_self.mpr fun k hk => decide_eq_true (hback k hk)] at hcommon

@[simp] theorem get?_empty (k : K) : (empty : SortedMap K V).get? k = none := rfl

theorem mem_entries_insert {m : SortedMap K V} {k : K} {v : V} {e : K × V} :
    e ∈ (m.insert k v).entries ↔ e = (k, v) ∨ (e ∈ m.entries ∧ e.1 ≠ k) := by
  obtain ⟨l, hl⟩ := m
  simp only [insert]
  induction l with
  | nil => simp [insertEntry]
  | cons x rest ih =>
      obtain ⟨hhead, htail⟩ := List.pairwise_cons.mp hl
      have habove : k ≤ x.1 → ∀ a ∈ rest, a.1 ≠ k := fun hk a ha =>
        (lt_of_le_of_lt hk (hhead a ha)).ne'
      rw [insertEntry]
      split
      · rename_i hk
        have hx : x.1 ≠ k := hk.ne'
        constructor
        · intro h
          rcases List.mem_cons.mp h with h | h
          · exact .inl h
          · refine .inr ⟨h, ?_⟩
            rcases List.mem_cons.mp h with rfl | h
            · exact hx
            · exact habove hk.le e h
        · rintro (rfl | ⟨h, _⟩)
          · exact List.mem_cons_self
          · exact List.mem_cons_of_mem _ h
      · split
        · rename_i heq
          constructor
          · intro h
            rcases List.mem_cons.mp h with h | h
            · exact .inl h
            · exact .inr ⟨List.mem_cons_of_mem _ h, habove heq.le e h⟩
          · rintro (rfl | ⟨h, hne⟩)
            · exact List.mem_cons_self
            · rcases List.mem_cons.mp h with rfl | h
              · exact absurd heq.symm hne
              · exact List.mem_cons_of_mem _ h
        · rename_i hne
          rw [List.mem_cons, ih htail, List.mem_cons]
          constructor
          · rintro (rfl | h | ⟨h, hek⟩)
            · exact .inr ⟨.inl rfl, Ne.symm hne⟩
            · exact .inl h
            · exact .inr ⟨.inr h, hek⟩
          · rintro (h | ⟨h | h, hek⟩)
            · exact .inr (.inl h)
            · exact .inl h
            · exact .inr (.inr ⟨h, hek⟩)

theorem get?_insert (m : SortedMap K V) (k : K) (v : V) (k' : K) :
    (m.insert k v).get? k' = if k' = k then some v else m.get? k' := by
  apply Option.ext
  intro w
  rw [get?_eq_some, mem_entries_insert]
  split
  · rename_i hk
    subst hk
    simp [eq_comm]
  · rename_i hk
    simp [hk, get?_eq_some]

@[simp] theorem get?_insert_self (m : SortedMap K V) (k : K) (v : V) :
    (m.insert k v).get? k = some v := by
  simp [get?_insert]

theorem get?_retain_eq_some {m : SortedMap K V} {p : K → V → Bool} {k : K} {v : V} :
    (m.retain p).get? k = some v ↔ m.get? k = some v ∧ p k v = true := by
  simp only [get?_eq_some, retain, List.mem_filter]

theorem get?_erase (m : SortedMap K V) (k k' : K) :
    (m.erase k).get? k' = if k' = k then none else m.get? k' := by
  apply Option.ext
  intro w
  rw [erase, get?_retain_eq_some]
  split <;> simp_all

/-- An insertion makes the map longer unless it has the key already. -/
theorem length_insert (m : SortedMap K V) (k : K) (v : V) :
    (m.insert k v).entries.length = m.entries.length + if (m.get? k).isSome then 0 else 1 := by
  obtain ⟨l, hl⟩ := m
  simp only [insert, get?, Option.isSome_map]
  induction l with
  | nil => rfl
  | cons e rest ih =>
      obtain ⟨hhead, htail⟩ := List.pairwise_cons.mp hl
      rw [insertEntry]
      split
      · rename_i hk
        have hnone : ((e :: rest).find? fun e => e.1 = k) = none := by
          rw [List.find?_eq_none]
          intro a ha
          rcases List.mem_cons.mp ha with rfl | ha
          · simpa using hk.ne'
          · simpa using (hk.trans (hhead a ha)).ne'
        rw [hnone]
        rfl
      · split
        · rename_i heq
          simp [heq]
        · rename_i hne
          have hskip : ((e :: rest).find? fun e => e.1 = k) = rest.find? fun e => e.1 = k := by
            simp [Ne.symm hne]
          rw [hskip, List.length_cons, List.length_cons, ih htail]
          omega

/-- A removal makes the map shorter if it has the key. -/
theorem length_erase (m : SortedMap K V) (k : K) :
    (m.erase k).entries.length + (if (m.get? k).isSome then 1 else 0) = m.entries.length := by
  obtain ⟨l, hl⟩ := m
  simp only [erase, retain, get?, Option.isSome_map]
  induction l with
  | nil => rfl
  | cons e rest ih =>
      obtain ⟨hhead, htail⟩ := List.pairwise_cons.mp hl
      by_cases hk : e.1 = k
      · have hrest : (rest.filter fun e => decide (e.1 ≠ k)) = rest := by
          rw [List.filter_eq_self]
          intro a ha
          have hlt := hhead a ha
          rw [hk] at hlt
          simpa using hlt.ne'
        simp only [List.filter_cons, List.find?_cons, hk, ne_eq, not_true, decide_false, decide_true,
          Bool.false_eq_true, if_false, Option.isSome_some, if_true, List.length_cons]
        exact congrArg (fun l => l.length + 1) hrest
      · have hrest := ih htail
        simp only [List.filter_cons, List.find?_cons, hk, ne_eq, not_false_eq_true, decide_true,
          decide_false, if_true, List.length_cons] at hrest ⊢
        omega

theorem mem_upTo {m : SortedMap K V} {k : K} {e : K × V} :
    e ∈ m.upTo k ↔ e ∈ m.entries ∧ e.1 ≤ k := by
  simp [upTo]

theorem mem_range {m : SortedMap K V} {lo hi : K} {e : K × V} :
    e ∈ m.range lo hi ↔ e ∈ m.entries ∧ lo ≤ e.1 ∧ e.1 < hi := by
  simp [range]

theorem sorted_upTo (m : SortedMap K V) (k : K) :
    (m.upTo k).Pairwise fun a b => b.1 < a.1 := by
  rw [upTo, List.pairwise_reverse]
  exact m.sorted.filter _

/-- The floor is the greatest entry below the bound. -/
theorem floor_eq_some {m : SortedMap K V} {k : K} {e : K × V} :
    m.floor k = some e ↔
      e ∈ m.entries ∧ e.1 ≤ k ∧ ∀ a ∈ m.entries, a.1 ≤ k → a.1 ≤ e.1 := by
  constructor
  · intro h
    obtain ⟨tail, htail⟩ := List.head?_eq_some_iff.mp h
    have hmem : e ∈ m.upTo k := by simp [htail]
    have hsorted := m.sorted_upTo k
    rw [htail, List.pairwise_cons] at hsorted
    refine ⟨(mem_upTo.mp hmem).1, (mem_upTo.mp hmem).2, fun a ha hak => ?_⟩
    have hin : a ∈ m.upTo k := mem_upTo.mpr ⟨ha, hak⟩
    rw [htail] at hin
    rcases List.mem_cons.mp hin with rfl | hin
    · exact le_refl _
    · exact (hsorted.1 a hin).le
  · rintro ⟨hmem, hle, hmax⟩
    have hin : e ∈ m.upTo k := mem_upTo.mpr ⟨hmem, hle⟩
    have hsorted := m.sorted_upTo k
    rw [floor]
    cases hup : m.upTo k with
    | nil =>
        rw [hup] at hin
        cases hin
    | cons a tail =>
        rw [hup] at hin hsorted
        have ha : a ∈ m.upTo k := by simp [hup]
        rcases List.mem_cons.mp hin with rfl | hin
        · rfl
        · have hlt := (List.pairwise_cons.mp hsorted).1 e hin
          exact absurd hlt (not_lt.mpr (hmax a (mem_upTo.mp ha).1 (mem_upTo.mp ha).2))

section Map
variable {W : Type*}

/-- Apply a function to every value. -/
def mapValues (f : V → W) (m : SortedMap K V) : SortedMap K W :=
  ⟨m.entries.map fun e => (e.1, f e.2), List.pairwise_map.mpr m.sorted⟩

@[simp] theorem get?_mapValues (f : V → W) (m : SortedMap K V) (k : K) :
    (m.mapValues f).get? k = (m.get? k).map f := by
  simp only [get?, mapValues, List.find?_map, Option.map_map]
  rfl

@[simp] theorem keys_mapValues (f : V → W) (m : SortedMap K V) : (m.mapValues f).keys = m.keys := by
  simp only [keys, mapValues, List.map_map]
  rfl

@[simp] theorem contains_mapValues (f : V → W) (m : SortedMap K V) (k : K) :
    (m.mapValues f).contains k = m.contains k := by
  rw [contains, get?_mapValues, Option.isSome_map, contains]

@[simp] theorem mapValues_empty (f : V → W) : (empty : SortedMap K V).mapValues f = empty := rfl

theorem mapValues_insert (f : V → W) (m : SortedMap K V) (k : K) (v : V) :
    (m.insert k v).mapValues f = (m.mapValues f).insert k (f v) := by
  apply ext_get?
  intro k'
  rw [get?_mapValues, get?_insert, get?_insert, get?_mapValues]
  split <;> rfl

theorem mapValues_erase (f : V → W) (m : SortedMap K V) (k : K) :
    (m.erase k).mapValues f = (m.mapValues f).erase k := by
  apply ext_get?
  intro k'
  rw [get?_mapValues, get?_erase, get?_erase, get?_mapValues]
  split <;> rfl

theorem range_mapValues (f : V → W) (m : SortedMap K V) (lo hi : K) :
    (m.mapValues f).range lo hi = (m.range lo hi).map fun e => (e.1, f e.2) := by
  simp only [range, mapValues, List.filter_map]
  rfl

theorem floor_mapValues (f : V → W) (m : SortedMap K V) (k : K) :
    (m.mapValues f).floor k = (m.floor k).map fun e => (e.1, f e.2) := by
  simp only [floor, upTo, mapValues, List.filter_map, ← List.map_reverse, List.head?_map]
  rfl

end Map

end SortedMap

end Rtmap
