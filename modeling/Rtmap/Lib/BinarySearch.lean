import Mathlib.Data.List.Basic
import Mathlib.Tactic.Common

/-!
# Binary search by a comparator

The slice is halved until one place is left. The comparator says where an element
lies from what is sought; where elements before it come first, the place left is
one that compares equal whenever there is any.
-/
namespace Rtmap.BinarySearch
variable {α : Type*}

/-- The place left of the `size` places from `base`, with fuel for the halvings. -/
def narrow (cmp : α → Ordering) (xs : List α) : ℕ → ℕ → ℕ → ℕ
  | 0, _, base => base
  | fuel + 1, size, base =>
      if size ≤ 1 then base
      else
        narrow cmp xs fuel (size - size / 2)
          (if xs[base + size / 2]?.map cmp = some .gt then base else base + size / 2)

/-- The search finds an equal element. -/
def found (cmp : α → Ordering) (xs : List α) : Bool :=
  xs[narrow cmp xs xs.length xs.length 0]?.map cmp == some .eq

/-- What lies behind an element that is beyond is beyond, and what lies before one
that is short is short. -/
def Partitioned (cmp : α → Ordering) (xs : List α) : Prop :=
  xs.Pairwise fun x y => (cmp x = .gt → cmp y = .gt) ∧ (cmp y = .lt → cmp x = .lt)

variable {cmp : α → Ordering} {xs : List α}

/-- All places from the end of the slice on are beyond, its first is not. -/
structure Bracket (cmp : α → Ordering) (xs : List α) (size base : ℕ) : Prop where
  pos : 0 < size
  le : base + size ≤ xs.length
  beyond : ∀ i x, base + size ≤ i → xs[i]? = some x → cmp x = .gt
  reached : base = 0 ∨ ∃ x, xs[base]? = some x ∧ cmp x ≠ .gt

theorem Bracket.narrow (hxs : Partitioned cmp xs) {fuel size base : ℕ} (h : Bracket cmp xs size base)
    (hfuel : size ≤ fuel) : Bracket cmp xs 1 (narrow cmp xs fuel size base) := by
  induction fuel generalizing size base with
  | zero =>
      have hpos := h.pos
      omega
  | succ fuel ih =>
      have hpos := h.pos
      have hle := h.le
      rw [BinarySearch.narrow]
      split
      · obtain rfl : size = 1 := by omega
        exact h
      · have hmid : base + size / 2 < xs.length := by omega
        have hget := List.getElem?_eq_getElem hmid
        split
        · rename_i hgt
          rw [hget, Option.map_some, Option.some.injEq] at hgt
          refine ih ⟨by omega, by omega, fun i x hi hx => ?_, h.reached⟩ (by omega)
          -- the middle is beyond, and so is what lies behind it
          rcases Nat.lt_or_ge i (base + size) with hlt | hge
          · rcases Nat.eq_or_lt_of_le (show base + size / 2 ≤ i by omega) with rfl | hlt'
            · rw [hget] at hx
              exact Option.some.inj hx ▸ hgt
            · obtain ⟨hi', rfl⟩ := List.getElem?_eq_some_iff.mp hx
              exact (List.pairwise_iff_getElem.mp hxs _ _ hmid hi' hlt').1 hgt
          · exact h.beyond i x hge hx
        · rename_i hgt
          rw [hget, Option.map_some, Option.some.injEq] at hgt
          exact ih ⟨by omega, by omega, fun i x hi hx => h.beyond i x (by omega) hx,
            .inr ⟨_, hget, hgt⟩⟩ (by omega)

/-- A partitioned list has an equal element exactly when the search finds one. -/
theorem found_iff (hxs : Partitioned cmp xs) : found cmp xs = true ↔ ∃ x ∈ xs, cmp x = .eq := by
  rw [found, beq_iff_eq, Option.map_eq_some_iff]
  constructor
  · rintro ⟨x, hx, hcmp⟩
    exact ⟨x, List.mem_of_getElem? hx, hcmp⟩
  · rintro ⟨x, hx, hcmp⟩
    have hstart : Bracket cmp xs xs.length 0 := by
      refine ⟨List.length_pos_of_mem hx, by omega, fun i y hi hy => ?_, .inl rfl⟩
      rw [List.getElem?_eq_none (by omega)] at hy
      cases hy
    have hend := hstart.narrow hxs (Nat.le_refl _)
    generalize narrow cmp xs xs.length xs.length 0 = base at hend ⊢
    obtain ⟨i, hi⟩ := List.mem_iff_getElem?.mp hx
    have hle : i ≤ base := by
      by_contra hlt
      rw [hend.beyond i x (by omega) hi] at hcmp
      cases hcmp
    rcases Nat.eq_or_lt_of_le hle with rfl | hlt
    · exact ⟨x, hi, hcmp⟩
    · -- an equal element before the place left makes that place equal
      rcases hend.reached with rfl | ⟨y, hy, hgt⟩
      · omega
      · refine ⟨y, hy, ?_⟩
        obtain ⟨hi', rfl⟩ := List.getElem?_eq_some_iff.mp hi
        obtain ⟨hbase, rfl⟩ := List.getElem?_eq_some_iff.mp hy
        have hpair := List.pairwise_iff_getElem.mp hxs _ _ hi' hbase hlt
        cases hcmp' : cmp xs[base] with
        | eq => rfl
        | gt => exact absurd hcmp' hgt
        | lt =>
            rw [hpair.2 hcmp'] at hcmp
            cases hcmp

section Split

/-- The place where a half-open range splits: `below` says of a place whether it is before the
split, `none` that it cannot be read. -/
def split (below : ℕ → Option Bool) : ℕ → ℕ → ℕ → Option ℕ
  | 0, lo, _ => some lo
  | fuel + 1, lo, hi =>
      if lo < hi then
        (below (lo + (hi - lo) / 2)).bind fun before =>
          if before then split below fuel (lo + (hi - lo) / 2 + 1) hi
          else split below fuel lo (lo + (hi - lo) / 2)
      else some lo

variable {below : ℕ → Option Bool} {p : ℕ → Bool} {n : ℕ}

/-- Where every place of the range can be read and those before the split come first, it is
found. -/
theorem exists_split (hread : ∀ i < n, below i = some (p i))
    (hfirst : ∀ i j, i ≤ j → j < n → p j = true → p i = true) {fuel lo hi : ℕ} (hlo : lo ≤ hi)
    (hhi : hi ≤ n) (hbefore : ∀ i < lo, p i = true) (hbehind : ∀ i, hi ≤ i → i < n → p i = false)
    (hfuel : hi - lo ≤ fuel) :
    ∃ k ≤ n, split below fuel lo hi = some k ∧ ∀ i < n, p i = true ↔ i < k := by
  induction fuel generalizing lo hi with
  | zero =>
      obtain rfl : lo = hi := by omega
      refine ⟨lo, hhi, rfl, fun i hi => ⟨fun hp => ?_, hbefore i⟩⟩
      by_contra hle
      rw [hbehind i (by omega) hi] at hp
      cases hp
  | succ fuel ih =>
      rw [split]
      by_cases hlt : lo < hi
      · have hmid : lo + (hi - lo) / 2 < n := by omega
        rw [if_pos hlt, hread _ hmid, Option.bind_some]
        cases hp : p (lo + (hi - lo) / 2) with
        | true =>
            refine ih (by omega) hhi (fun i hi => ?_) hbehind (by omega)
            exact hfirst i _ (by omega) hmid hp
        | false =>
            refine ih (by omega) (by omega) hbefore (fun i hi hn => ?_) (by omega)
            by_contra hne
            rw [hfirst _ i hi hn (by simpa using hne)] at hp
            cases hp
      · obtain rfl : lo = hi := by omega
        rw [if_neg hlt]
        refine ⟨lo, hhi, rfl, fun i hi => ⟨fun hp => ?_, hbefore i⟩⟩
        by_contra hle
        rw [hbehind i (by omega) hi] at hp
        cases hp

end Split

end Rtmap.BinarySearch
