import Mathlib.Tactic.Common

/-!
# Cells that keep their value

A cell takes the first value put into it and changes it only for one of another
key. `refill_iff` says when filling a cell from two lists in turn is the same as
filling an empty one from the second list alone.
-/
namespace Rtmap

structure KeyedCell (α : Type*) where
  value : Option α := none
  changes : ℕ := 0

namespace KeyedCell

variable {α κ : Type*} [DecidableEq κ] (key : α → κ)

def put (c : KeyedCell α) (a : α) : KeyedCell α :=
  match c.value with
  | none => { c with value := some a }
  | some e => if key e = key a then c else ⟨some a, c.changes + 1⟩

def fill (c : KeyedCell α) (l : List α) : KeyedCell α := l.foldl (put key) c

variable {key} {e h : α} {n k : ℕ} {l l₀ : List α}

@[simp] theorem fill_nil (c : KeyedCell α) : c.fill key [] = c := rfl

theorem fill_cons (c : KeyedCell α) (a : α) (l : List α) :
    c.fill key (a :: l) = (c.put key a).fill key l := rfl

theorem fill_empty_cons (a : α) (l : List α) :
    (⟨none, n⟩ : KeyedCell α).fill key (a :: l) = (⟨some a, n⟩ : KeyedCell α).fill key l := rfl

theorem put_same (ha : key e = key h) :
    (⟨some e, n⟩ : KeyedCell α).put key h = ⟨some e, n⟩ := by
  rw [put]
  exact if_pos ha

theorem put_other (ha : key e ≠ key h) :
    (⟨some e, n⟩ : KeyedCell α).put key h = ⟨some h, n + 1⟩ := by
  rw [put]
  exact if_neg ha

/-- How often a cell changes depends on the key it starts with. -/
theorem changes_fill (hkey : key e = key h) :
    ((⟨some e, n⟩ : KeyedCell α).fill key l).changes + k =
      ((⟨some h, k⟩ : KeyedCell α).fill key l).changes + n := by
  induction l generalizing e h n k with
  | nil => exact Nat.add_comm n k
  | cons a l ih =>
      rw [fill_cons, fill_cons]
      by_cases ha : key e = key a
      · rw [put_same ha, put_same (hkey ▸ ha)]
        exact ih hkey
      · rw [put_other ha, put_other (hkey ▸ ha)]
        have hnext := @ih a a (n + 1) (k + 1) rfl
        omega

/-- A cell that never changed holds its first value, and only its key was put. -/
theorem changes_fill_eq_zero :
    ((⟨some e, 0⟩ : KeyedCell α).fill key l).changes = 0 ↔ ∀ a ∈ l, key a = key e := by
  induction l with
  | nil => simp
  | cons a l ih =>
      rw [fill_cons, List.forall_mem_cons]
      by_cases ha : key e = key a
      · rw [put_same ha, ih]
        exact ⟨fun hall => ⟨ha.symm, hall⟩, fun hall => hall.2⟩
      · rw [put_other ha]
        have hnext : ((⟨some a, 0 + 1⟩ : KeyedCell α).fill key l).changes + 0 =
            ((⟨some a, 0⟩ : KeyedCell α).fill key l).changes + (0 + 1) := changes_fill rfl
        constructor
        · intro hzero
          omega
        · exact fun hall => absurd hall.1.symm ha

theorem fill_of_key (hall : ∀ a ∈ l, key a = key e) :
    (⟨some e, n⟩ : KeyedCell α).fill key l = ⟨some e, n⟩ := by
  induction l with
  | nil => rfl
  | cons a l ih =>
      obtain ⟨ha, hall⟩ := List.forall_mem_cons.mp hall
      rw [fill_cons, put_same ha.symm, ih hall]

theorem isSome_fill : ((⟨some e, n⟩ : KeyedCell α).fill key l).value.isSome := by
  induction l generalizing e n with
  | nil => rfl
  | cons a l ih =>
      rw [fill_cons]
      by_cases ha : key e = key a
      · rw [put_same ha]
        exact ih
      · rw [put_other ha]
        exact ih

/-- Two values of one key differ until another key comes. -/
theorem fill_eq_fill_iff (hkey : key e = key h) :
    (⟨some e, n⟩ : KeyedCell α).fill key l = (⟨some h, n⟩ : KeyedCell α).fill key l ↔
      h = e ∨ ∃ a ∈ l, key a ≠ key h := by
  induction l generalizing n with
  | nil => simp [eq_comm]
  | cons a l ih =>
      rw [fill_cons, fill_cons]
      by_cases ha : key e = key a
      · rw [put_same ha, put_same (hkey ▸ ha), ih]
        have hno : ¬ key a ≠ key h := not_not.mpr (ha.symm.trans hkey)
        simp only [List.mem_cons, exists_eq_or_imp, hno, false_or]
      · rw [put_other ha, put_other (hkey ▸ ha)]
        exact ⟨fun _ => .inr ⟨a, List.mem_cons_self, fun hah => ha (hkey.trans hah.symm)⟩,
          fun _ => rfl⟩

/-- The first list leaves no trace. -/
def Absorbed (key : α → κ) (l₀ l : List α) : Prop :=
  ∀ e rest, l₀ = e :: rest → (∀ a ∈ rest, key a = key e) ∧
    ∃ h rest', l = h :: rest' ∧ key h = key e ∧ (h = e ∨ ∃ a ∈ rest', key a ≠ key h)

/-- Filling a cell from two lists is filling it from the second one exactly when the
second list absorbs the first. -/
theorem refill_iff :
    (({} : KeyedCell α).fill key l₀).fill key l = ({} : KeyedCell α).fill key l ↔
      Absorbed key l₀ l := by
  cases l₀ with
  | nil => exact ⟨fun _ _ _ hnil => (by cases hnil), fun _ => rfl⟩
  | cons e rest =>
      have hcons : Absorbed key (e :: rest) l ↔ (∀ a ∈ rest, key a = key e) ∧
          ∃ h rest', l = h :: rest' ∧ key h = key e ∧ (h = e ∨ ∃ a ∈ rest', key a ≠ key h) := by
        constructor
        · exact fun habsorbed => habsorbed e rest rfl
        · rintro hall e' rest' heq
          obtain ⟨rfl, rfl⟩ := List.cons.inj heq
          exact hall
      rw [hcons, fill_empty_cons]
      cases l with
      | nil =>
          have hsome := @isSome_fill _ _ _ key e 0 rest
          constructor
          · intro heq
            rw [fill_nil, fill_nil] at heq
            rw [heq] at hsome
            cases hsome
          · rintro ⟨-, h, rest', hnil, -⟩
            cases hnil
      | cons h rest' =>
          rw [fill_empty_cons]
          constructor
          · intro heq
            obtain ⟨e', he'⟩ := Option.isSome_iff_exists.mp (@isSome_fill _ _ _ key e 0 rest)
            have hfilled : (⟨some e, 0⟩ : KeyedCell α).fill key rest =
                ⟨some e', ((⟨some e, 0⟩ : KeyedCell α).fill key rest).changes⟩ := by
              rw [← he']
            have hkept : key e' = key h ∧
                ((⟨some e, 0⟩ : KeyedCell α).fill key rest).changes = 0 := by
              rw [hfilled, fill_cons] at heq
              by_cases hkey : key e' = key h
              · rw [put_same hkey] at heq
                have hcount := changes_fill
                  (n := ((⟨some e, 0⟩ : KeyedCell α).fill key rest).changes)
                  (k := 0) (l := rest') hkey
                rw [heq] at hcount
                exact ⟨hkey, by omega⟩
              · rw [put_other hkey] at heq
                have hcount := @changes_fill _ _ _ key h h
                  (((⟨some e, 0⟩ : KeyedCell α).fill key rest).changes + 1) 0 rest' rfl
                rw [heq] at hcount
                omega
            have hall := changes_fill_eq_zero.mp hkept.2
            rw [fill_of_key hall] at he' heq
            obtain rfl := Option.some.inj he'
            rw [fill_cons, put_same hkept.1] at heq
            exact ⟨hall, h, rest', rfl, hkept.1.symm, (fill_eq_fill_iff hkept.1).mp heq⟩
          · rintro ⟨hall, h', rest'', heq, hkey, hsame⟩
            obtain ⟨rfl, rfl⟩ := List.cons.inj heq
            rw [fill_of_key hall, fill_cons, put_same hkey.symm]
            exact (fill_eq_fill_iff hkey.symm).mpr hsame

/-- A list that is absorbed causes no change on the way either. -/
theorem Absorbed.changes (habsorbed : Absorbed key l₀ l) {front : List α} (hfront : front <+: l) :
    ((({} : KeyedCell α).fill key l₀).fill key front).changes =
      (({} : KeyedCell α).fill key front).changes := by
  cases l₀ with
  | nil => rfl
  | cons e rest =>
      obtain ⟨hall, h, rest', rfl, hkey, -⟩ := habsorbed e rest rfl
      rw [fill_empty_cons, fill_of_key hall]
      cases front with
      | nil => rfl
      | cons a front =>
          obtain rfl := (List.cons_prefix_cons.mp hfront).1
          rw [fill_cons, fill_empty_cons, put_same hkey.symm]
          exact changes_fill (n := 0) (k := 0) hkey.symm

end KeyedCell

end Rtmap
