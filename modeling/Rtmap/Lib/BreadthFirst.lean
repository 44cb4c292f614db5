import Mathlib.Data.List.Basic
import Mathlib.Data.Nat.Notation
import Mathlib.Tactic.Common

/-!
# Breadth-first search by keys

A search takes items off the front of a queue and expands an item unless it is cut
off or its key was seen, so that the first item of a key decides what is found
behind the key. `Met` bounds the items that are queued from above, and `Certain`
is what is found whichever of them come first. A search that empties its queue
finds every certain key, `Inv.found`. Numbers count the expansions that lead to an item.
-/
namespace Rtmap.BreadthFirst

/-- The items of a search, with the expansions that an item may have. -/
structure Space (N K : Type*) where
  key : N → K
  cut : N → Prop
  next : N → List N → Prop

variable {N K : Type*} (S : Space N K) (seen : K → Prop) (start : List N)

/-- The item may be queued after that many expansions. -/
inductive Met : ℕ → N → Prop
  | start {n : N} : n ∈ start → Met 0 n
  | next {g : ℕ} {n c : N} {ns : List N} :
      Met g n → ¬ S.cut n → ¬ seen (S.key n) → S.next n ns → c ∈ ns → Met (g + 1) c

/-- Every expansion of the item leads to the key. -/
def Space.Yields (n : N) (k : K) : Prop := ∀ ns, S.next n ns → ∃ c ∈ ns, S.key c = k ∧ ¬ S.cut c

/-- The key is found after at most that many expansions, whichever item of each key is
expanded. -/
inductive Certain : ℕ → K → Prop
  | start {n : N} : n ∈ start → ¬ S.cut n → ¬ seen (S.key n) → Certain 0 (S.key n)
  | next {g : ℕ} {k k' : K} : Certain g k → ¬ seen k' →
      (∀ g' ≤ g, ∀ n, Met S seen start g' n → S.key n = k → ¬ S.cut n → S.Yields n k') →
      Certain (g + 1) k'

/-- The queue and the expanded items, the last one first, with their numbers. -/
structure Search (N : Type*) where
  queue : List (ℕ × N)
  done : List (ℕ × N)

/-- A key that the search has to find by that number. -/
inductive Owed (done : List (ℕ × N)) : ℕ → K → Prop
  | start {n : N} : n ∈ start → ¬ S.cut n → Owed done 0 (S.key n)
  | next {x : ℕ × N} {k : K} : x ∈ done → S.Yields x.2 k → Owed done (x.1 + 1) k

/-- The key was found by that number or is queued. -/
def Paid (s : Search N) (g : ℕ) (k : K) : Prop :=
  (∃ x ∈ s.done, S.key x.2 = k ∧ x.1 ≤ g) ∨
    ∃ x ∈ s.queue, S.key x.2 = k ∧ ¬ S.cut x.2 ∧ x.1 ≤ g

structure Inv (s : Search N) : Prop where
  met : ∀ x, x ∈ s.queue ∨ x ∈ s.done → Met S seen start x.1 x.2
  uncut : ∀ x ∈ s.done, ¬ S.cut x.2
  sorted : s.queue.Pairwise fun x y => x.1 ≤ y.1
  behind : ∀ x ∈ s.done, ∀ y ∈ s.queue, x.1 ≤ y.1
  narrow : ∀ x ∈ s.queue, ∀ y ∈ s.queue, y.1 ≤ x.1 + 1
  paid : ∀ g k, Owed S start s.done g k → ¬ seen k → Paid S s g k

variable {S seen start}

/-- A search may leave out the items whose keys were seen. -/
theorem inv_start {queue : List N} (hsub : ∀ n ∈ queue, n ∈ start)
    (hall : ∀ n ∈ start, n ∈ queue ∨ seen (S.key n)) :
    Inv S seen start ⟨queue.map fun n => (0, n), []⟩ where
  met x hx := by
    rcases hx with hx | hx
    · obtain ⟨n, hn, rfl⟩ := List.mem_map.mp hx
      exact .start (hsub n hn)
    · cases hx
  uncut x hx := by cases hx
  sorted := List.pairwise_map.mpr (List.pairwise_of_forall fun _ _ => Nat.le_refl 0)
  behind x hx := by cases hx
  narrow x hx y hy := by
    obtain ⟨n, -, rfl⟩ := List.mem_map.mp hx
    obtain ⟨m, -, rfl⟩ := List.mem_map.mp hy
    exact Nat.zero_le _
  paid g k howed hk := by
    cases howed with
    | @start n hn hcut =>
        rcases hall n hn with hqueued | hseen
        · exact .inr ⟨(0, n), List.mem_map.mpr ⟨n, hqueued, rfl⟩, rfl, hcut, Nat.zero_le _⟩
        · exact absurd hseen hk
    | next hx => cases hx

section Step
variable {x : ℕ × N} {queue done : List (ℕ × N)}

/-- An item that is cut off, or whose key was seen, is dropped. -/
theorem Inv.skip (h : Inv S seen start ⟨x :: queue, done⟩)
    (hskip : S.cut x.2 ∨ seen (S.key x.2) ∨ ∃ y ∈ done, S.key y.2 = S.key x.2) :
    Inv S seen start ⟨queue, done⟩ where
  met y hy := h.met y (hy.imp_left (List.mem_cons_of_mem x))
  uncut := h.uncut
  sorted := (List.pairwise_cons.mp h.sorted).2
  behind y hy z hz := h.behind y hy z (List.mem_cons_of_mem x hz)
  narrow y hy z hz := h.narrow y (List.mem_cons_of_mem x hy) z (List.mem_cons_of_mem x hz)
  paid g k howed hk := by
    rcases h.paid g k howed hk with hdone | ⟨y, hy, hkey, hcut, hle⟩
    · exact .inl hdone
    · rcases List.mem_cons.mp hy with rfl | hy
      · rcases hskip with hskip | hskip | ⟨z, hz, hsame⟩
        · exact absurd hskip hcut
        · rw [hkey] at hskip
          exact absurd hskip hk
        · have hbehind : z.1 ≤ y.1 := h.behind z hz y List.mem_cons_self
          exact .inl ⟨z, hz, hsame.trans hkey, Nat.le_trans hbehind hle⟩
      · exact .inr ⟨y, hy, hkey, hcut, hle⟩

/-- An expansion queues what it found, but for keys that were seen. -/
theorem Inv.visit (h : Inv S seen start ⟨x :: queue, done⟩) (hcut : ¬ S.cut x.2)
    (hnew : ¬ seen (S.key x.2)) {ns children : List N} (hnext : S.next x.2 ns)
    (hsub : ∀ c ∈ children, c ∈ ns)
    (hall : ∀ c ∈ ns, c ∈ children ∨ seen (S.key c) ∨ ∃ y ∈ x :: done, S.key y.2 = S.key c) :
    Inv S seen start ⟨queue ++ children.map fun c => (x.1 + 1, c), x :: done⟩ := by
  have hx : Met S seen start x.1 x.2 := h.met x (.inl List.mem_cons_self)
  have hchildren : ∀ y ∈ children.map fun c => (x.1 + 1, c),
      y.1 = x.1 + 1 ∧ Met S seen start (x.1 + 1) y.2 := by
    intro y hy
    obtain ⟨c, hc, rfl⟩ := List.mem_map.mp hy
    exact ⟨rfl, .next hx hcut hnew hnext (hsub c hc)⟩
  have hqueue : ∀ y ∈ queue, x.1 ≤ y.1 ∧ y.1 ≤ x.1 + 1 := fun y hy =>
    ⟨(List.pairwise_cons.mp h.sorted).1 y hy,
      h.narrow x List.mem_cons_self y (List.mem_cons_of_mem x hy)⟩
  have hrange : ∀ y ∈ queue ++ children.map (fun c => (x.1 + 1, c)),
      x.1 ≤ y.1 ∧ y.1 ≤ x.1 + 1 := by
    intro y hy
    rcases List.mem_append.mp hy with hy | hy
    · exact hqueue y hy
    · have hnum := (hchildren y hy).1
      omega
  have hdone : ∀ y ∈ x :: done, y.1 ≤ x.1 := by
    intro y hy
    rcases List.mem_cons.mp hy with rfl | hy
    · exact Nat.le_refl _
    · exact h.behind y hy x List.mem_cons_self
  refine ⟨fun y hy => ?_, fun y hy => ?_, ?_, fun y hy z hz => ?_, fun y hy z hz => ?_,
    fun g k howed hk => ?_⟩
  · rcases hy with hy | hy
    · rcases List.mem_append.mp hy with hy | hy
      · exact h.met y (.inl (List.mem_cons_of_mem x hy))
      · obtain ⟨hnum, hmet⟩ := hchildren y hy
        rw [hnum]
        exact hmet
    · rcases List.mem_cons.mp hy with rfl | hy
      · exact hx
      · exact h.met y (.inr hy)
  · rcases List.mem_cons.mp hy with rfl | hy
    · exact hcut
    · exact h.uncut y hy
  · refine List.pairwise_append.mpr ⟨(List.pairwise_cons.mp h.sorted).2, ?_, fun y hy z hz => ?_⟩
    · exact List.pairwise_map.mpr (List.pairwise_of_forall fun _ _ => Nat.le_refl _)
    · have hlow := (hqueue y hy).2
      have hnum := (hchildren z hz).1
      omega
  · have hlow := hdone y hy
    have hhigh := (hrange z hz).1
    omega
  · have hlow := (hrange y hy).1
    have hhigh := (hrange z hz).2
    omega
  · -- what the expansion owes is among its children, the rest was paid before
    have hold : Paid S ⟨x :: queue, done⟩ g k →
        Paid S ⟨queue ++ children.map (fun c => (x.1 + 1, c)), x :: done⟩ g k := by
      rintro (⟨y, hy, hkey, hle⟩ | ⟨y, hy, hkey, huncut, hle⟩)
      · exact .inl ⟨y, List.mem_cons_of_mem x hy, hkey, hle⟩
      · rcases List.mem_cons.mp hy with rfl | hy
        · exact .inl ⟨y, List.mem_cons_self, hkey, hle⟩
        · exact .inr ⟨y, List.mem_append_left _ hy, hkey, huncut, hle⟩
    cases howed with
    | start hn hstart => exact hold (h.paid 0 _ (.start hn hstart) hk)
    | @next y _ hy hyields =>
        rcases List.mem_cons.mp hy with rfl | hy
        · obtain ⟨c, hc, hkey, huncut⟩ := hyields ns hnext
          rcases hall c hc with hqueued | hseen | ⟨z, hz, hsame⟩
          · exact .inr ⟨(y.1 + 1, c), List.mem_append_right _ (List.mem_map.mpr ⟨c, hqueued, rfl⟩),
              hkey, huncut, Nat.le_refl _⟩
          · rw [hkey] at hseen
            exact absurd hseen hk
          · exact .inl ⟨z, hz, hsame.trans hkey, Nat.le_trans (hdone z hz) (Nat.le_succ _)⟩
        · exact hold (h.paid _ k (.next hy hyields) hk)

end Step

/-- A search that has emptied its queue has expanded an item of every certain key. -/
theorem Inv.found {done : List (ℕ × N)} (h : Inv S seen start ⟨[], done⟩) {g : ℕ} {k : K}
    (hcertain : Certain S seen start g k) : ∃ x ∈ done, S.key x.2 = k ∧ x.1 ≤ g := by
  have hpaid : ∀ g k, Owed S start done g k → ¬ seen k → ∃ x ∈ done, S.key x.2 = k ∧ x.1 ≤ g := by
    intro g k howed hk
    rcases h.paid g k howed hk with hdone | ⟨x, hx, -⟩
    · exact hdone
    · cases hx
  induction hcertain with
  | start hn hcut hseen => exact hpaid 0 _ (.start hn hcut) hseen
  | @next g k k' _ hseen hyields ih =>
      obtain ⟨x, hx, hkey, hle⟩ := ih
      have hmust := hyields x.1 hle x.2 (h.met x (.inr hx)) hkey (h.uncut x hx)
      obtain ⟨y, hy, hkey', hle'⟩ := hpaid _ _ (.next hx hmust) hseen
      exact ⟨y, hy, hkey', Nat.le_trans hle' (Nat.succ_le_succ hle)⟩

end Rtmap.BreadthFirst
