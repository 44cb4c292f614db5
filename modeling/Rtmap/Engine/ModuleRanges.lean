import Mathlib.Data.List.Induction
import Mathlib.Order.MinMax
import Rtmap.Engine.HeapGraph
import Rtmap.Lib.BinarySearch

/-!
# Module ranges

A module that starts within or behind the highest range extends or follows it. One
that starts below only extends it upwards: what lies of it below the highest range
is not recorded.
-/
namespace Rtmap.Engine.HeapOracle

/-- The comparator of the search: where a range lies from the address. -/
def compareRange (addr : UInt64) (r : UInt64 × UInt64) : Ordering :=
  if addr < r.1 then .gt else if addr ≥ r.2 then .lt else .eq

/-- `is_heap`, with the search in the module ranges as it is made. -/
def isHeapBySearch (o : HeapOracle) (addr : UInt64) : Bool :=
  !BinarySearch.found (compareRange addr) o.moduleRanges &&
    !(o.stackBounds.any fun b => addr ≥ b.2.1 && addr < b.2.2) && inUserRange addr

/-- The ranges are in address order and apart from each other. -/
structure Sorted (o : HeapOracle) : Prop where
  apart : o.moduleRanges.Pairwise fun r s => r.2 < s.1
  le : ∀ r ∈ o.moduleRanges, r.1 ≤ r.2

/-- A range holds the address. -/
def Covers (o : HeapOracle) (addr : UInt64) : Prop :=
  ∃ r ∈ o.moduleRanges, r.1 ≤ addr ∧ addr < r.2

section Search
variable {o : HeapOracle}

theorem compareRange_eq {addr : UInt64} {r : UInt64 × UInt64} :
    compareRange addr r = .eq ↔ r.1 ≤ addr ∧ addr < r.2 := by
  rw [compareRange]
  split
  · rename_i h
    exact ⟨nofun, fun hr => absurd h (not_lt_of_ge hr.1)⟩
  · rename_i h
    split
    · rename_i h'
      exact ⟨nofun, fun hr => absurd hr.2 (not_lt_of_ge h')⟩
    · rename_i h'
      exact ⟨fun _ => ⟨not_lt.mp h, not_le.mp h'⟩, fun _ => rfl⟩

theorem Sorted.partitioned (h : Sorted o) (addr : UInt64) :
    BinarySearch.Partitioned (compareRange addr) o.moduleRanges := by
  refine List.Pairwise.imp_of_mem (fun {r s} hr hs hlt => ?_) h.apart
  have hr' := h.le r hr
  have hs' := h.le s hs
  simp only [compareRange]
  constructor
  · intro hgt
    have hbelow : addr < r.1 := by
      by_contra hnot
      rw [if_neg hnot] at hgt
      split at hgt <;> cases hgt
    rw [if_pos (hbelow.trans_le (hr'.trans hlt.le))]
  · intro hshort
    have habove : ¬ addr < s.1 ∧ addr ≥ s.2 := by
      split at hshort
      · cases hshort
      · rename_i hnot
        split at hshort
        · exact ⟨hnot, by assumption⟩
        · cases hshort
    have hbehind : addr ≥ r.2 := hlt.le.trans (not_lt.mp habove.1)
    rw [if_neg (not_lt_of_ge (hr'.trans hbehind)), if_pos hbehind]

/-- On sorted ranges the search finds what there is. -/
theorem Sorted.isHeapBySearch (h : Sorted o) (addr : UInt64) :
    o.isHeapBySearch addr = o.isHeap addr := by
  have hfound : BinarySearch.found (compareRange addr) o.moduleRanges =
      o.moduleRanges.any fun r => addr ≥ r.1 && addr < r.2 := by
    rw [Bool.eq_iff_iff, BinarySearch.found_iff (h.partitioned addr), List.any_eq_true]
    refine exists_congr fun r => and_congr_right fun _ => ?_
    rw [compareRange_eq, Bool.and_eq_true, decide_eq_true_eq, decide_eq_true_eq]
  rw [HeapOracle.isHeapBySearch, hfound, isHeap]

theorem isHeap_eq_true {addr : UInt64} : o.isHeap addr = true ↔ ¬ o.Covers addr ∧
    (o.stackBounds.any fun b => addr ≥ b.2.1 && addr < b.2.2) = false ∧
      inUserRange addr = true := by
  have hcovers : o.Covers addr ↔ (o.moduleRanges.any fun r => addr ≥ r.1 && addr < r.2) = true := by
    rw [Covers, List.any_eq_true]
    refine exists_congr fun r => and_congr_right fun _ => ?_
    rw [Bool.and_eq_true, decide_eq_true_eq, decide_eq_true_eq]
  rw [isHeap, hcovers, Bool.and_eq_true, Bool.and_eq_true, Bool.not_eq_true', Bool.not_eq_true',
    Bool.not_eq_true, and_assoc]

end Search

section Add
variable {o : HeapOracle} {base size : UInt64}

theorem stackBounds_addModule : (o.addModule base size).stackBounds = o.stackBounds := by
  rw [addModule]
  split
  · rfl
  · split
    · split <;> rfl
    · rfl

theorem sorted_addModule (h : Sorted o) : Sorted (o.addModule base size) := by
  have hhi : base ≤ saturatingAdd base size := by
    rw [UInt64.le_iff_toNat_le, toNat_saturatingAdd]
    have hlt := UInt64.toNat_lt base
    omega
  rw [addModule]
  split
  · exact h
  · split
    · rename_i last hlast
      obtain ⟨front, hfront⟩ : ∃ front, o.moduleRanges = front ++ [last] :=
        ⟨_, (List.dropLast_append_getLast? last hlast).symm⟩
      have hap := hfront ▸ h.apart
      obtain ⟨hpair, -, hlt⟩ := List.pairwise_append.mp hap
      split
      · constructor
        · dsimp only
          rw [hfront, List.dropLast_concat, List.pairwise_append]
          refine ⟨hpair, List.pairwise_singleton _ _, fun r hr s hs => ?_⟩
          rw [List.mem_singleton.mp hs]
          exact hlt r hr last (List.mem_singleton_self _)
        · dsimp only
          rw [hfront, List.dropLast_concat]
          intro r hr
          rcases List.mem_append.mp hr with hr | hr
          · exact h.le r (hfront ▸ List.mem_append_left _ hr)
          · rw [List.mem_singleton.mp hr]
            exact (h.le last (List.mem_of_getLast? hlast)).trans (le_max_left _ _)
      · rename_i hgt
        constructor
        · dsimp only
          rw [List.pairwise_append]
          refine ⟨h.apart, List.pairwise_singleton _ _, fun r hr s hs => ?_⟩
          rw [List.mem_singleton.mp hs]
          rw [hfront] at hr
          rcases List.mem_append.mp hr with hr | hr
          · have hr' := hlt r hr last (List.mem_singleton_self _)
            exact hr'.trans_le ((h.le last (List.mem_of_getLast? hlast)).trans
              (not_le.mp hgt).le)
          · rw [List.mem_singleton.mp hr]
            exact not_le.mp hgt
        · intro r hr
          rcases List.mem_append.mp hr with hr | hr
          · exact h.le r hr
          · rw [List.mem_singleton.mp hr]
            exact hhi
    · exact ⟨List.pairwise_singleton _ _, fun r hr => List.mem_singleton.mp hr ▸ hhi⟩

/-- The start of the highest range only rises. -/
theorem getLast?_addModule {addr : UInt64} (h : Sorted o)
    (hlast : ∃ last ∈ o.moduleRanges.getLast?, addr < last.1) :
    ∃ last ∈ (o.addModule base size).moduleRanges.getLast?, addr < last.1 := by
  obtain ⟨last, hlast, haddr⟩ := hlast
  have hget : o.moduleRanges.getLast? = some last := hlast
  rw [addModule, hget]
  split
  · exact ⟨last, hlast, haddr⟩
  · dsimp only
    split
    · exact ⟨_, List.getLast?_concat .., haddr⟩
    · rename_i hgt
      refine ⟨_, List.getLast?_concat .., haddr.trans ?_⟩
      exact (h.le last (List.mem_of_getLast? hget)).trans_lt (not_le.mp hgt)

/-- A module adds of its addresses those from the start of the highest range on. -/
theorem covers_addModule {addr : UInt64} (h : Sorted o) (hfits : base.toNat + size.toNat < 2 ^ 64) :
    (o.addModule base size).Covers addr ↔ o.Covers addr ∨
      InBlock base size addr ∧ ∀ last ∈ o.moduleRanges.getLast?, last.1 ≤ addr := by
  have hend : addr < saturatingAdd base size ↔ addr.toNat < base.toNat + size.toNat := by
    rw [UInt64.lt_iff_toNat_lt, toNat_saturatingAdd]
    omega
  have hinside : InBlock base size addr ↔ base ≤ addr ∧ addr < saturatingAdd base size :=
    and_congr_right fun _ => hend.symm
  rw [addModule]
  split
  · rename_i hzero
    refine ⟨.inl, fun hor => hor.elim id fun hin => ?_⟩
    have hlt := hin.1.2
    rw [hzero] at hlt
    exact absurd (UInt64.le_iff_toNat_le.mp hin.1.1) (by simpa using hlt)
  · rw [hinside]
    cases hlast : o.moduleRanges.getLast? with
    | none =>
        have hnil := List.getLast?_eq_none_iff.mp hlast
        simp only [Covers, hnil, List.mem_singleton, List.not_mem_nil, false_and, exists_false,
          exists_eq_left, false_or, Option.mem_def, reduceCtorEq, false_implies, implies_true,
          and_true]
    | some last =>
        obtain ⟨front, hfront⟩ : ∃ front, o.moduleRanges = front ++ [last] :=
          ⟨_, (List.dropLast_append_getLast? last hlast).symm⟩
        have hle := h.le last (List.mem_of_getLast? hlast)
        dsimp only
        split
        · rename_i hbase
          have hsplit (x : UInt64 × UInt64) : HeapOracle.Covers
              { o with moduleRanges := front ++ [x] } addr ↔
                (∃ r ∈ front, r.1 ≤ addr ∧ addr < r.2) ∨ x.1 ≤ addr ∧ addr < x.2 := by
            simp only [Covers, List.mem_append, List.mem_singleton, or_and_right, exists_or,
              exists_eq_left]
          have hbefore : o.Covers addr ↔
              (∃ r ∈ front, r.1 ≤ addr ∧ addr < r.2) ∨ last.1 ≤ addr ∧ addr < last.2 := by
            rw [← hsplit last, ← hfront]
          rw [hfront, List.dropLast_concat, hsplit, hbefore, or_assoc]
          refine or_congr_right ?_
          simp only [Option.mem_def, Option.some.injEq, forall_eq', lt_max_iff]
          constructor
          · rintro ⟨hlo, hlt | hlt⟩
            · exact .inl ⟨hlo, hlt⟩
            · by_cases hin : addr < last.2
              · exact .inl ⟨hlo, hin⟩
              · exact .inr ⟨⟨hbase.trans (not_lt.mp hin), hlt⟩, hlo⟩
          · rintro (⟨hlo, hlt⟩ | ⟨⟨-, hlt⟩, hlo⟩)
            · exact ⟨hlo, .inl hlt⟩
            · exact ⟨hlo, .inr hlt⟩
        · rename_i hbase
          have habove : base ≤ addr → last.1 ≤ addr := fun hlo =>
            hle.trans ((not_le.mp hbase).le.trans hlo)
          simp only [Covers, List.mem_append, List.mem_singleton, or_and_right, exists_or,
            exists_eq_left, Option.mem_def, Option.some.injEq, forall_eq']
          exact or_congr_right ⟨fun hin => ⟨hin, habove hin.1⟩, And.left⟩

end Add

/-- The modules in the order of their loading. -/
def addModules (o : HeapOracle) (modules : List (UInt64 × UInt64)) : HeapOracle :=
  modules.foldl (fun o m => o.addModule m.1 m.2) o

/-- No heap address lies in a module, and modules take no other address from the heap. -/
def Excludes (o : HeapOracle) (modules : List (UInt64 × UInt64)) : Prop :=
  (∀ m ∈ modules, ∀ addr, InBlock m.1 m.2 addr →
    (o.addModules modules).isHeapBySearch addr = false) ∧
  ∀ addr, (∀ m ∈ modules, ¬ InBlock m.1 m.2 addr) →
    (o.addModules modules).isHeapBySearch addr = o.isHeapBySearch addr

/-- The part of the module below the start of the highest range is no heap already. -/
def Recorded (o : HeapOracle) (m : UInt64 × UInt64) : Prop :=
  ∀ last ∈ o.moduleRanges.getLast?, ∀ addr, InBlock m.1 m.2 addr → addr < last.1 →
    o.isHeapBySearch addr = false

section Modules
variable {o : HeapOracle} {modules : List (UInt64 × UInt64)}

theorem addModules_snoc (m : UInt64 × UInt64) :
    o.addModules (modules ++ [m]) = (o.addModules modules).addModule m.1 m.2 := by
  rw [addModules, List.foldl_append]
  rfl

theorem sorted_addModules (h : Sorted o) (modules : List (UInt64 × UInt64)) :
    Sorted (o.addModules modules) := by
  induction modules using List.reverseRecOn with
  | nil => exact h
  | append_singleton modules m ih =>
      rw [addModules_snoc]
      exact sorted_addModule ih

theorem stackBounds_addModules (modules : List (UInt64 × UInt64)) :
    (o.addModules modules).stackBounds = o.stackBounds := by
  induction modules using List.reverseRecOn with
  | nil => rfl
  | append_singleton modules m ih => rw [addModules_snoc, stackBounds_addModule, ih]

/-- What is covered stays covered, and what is not lies in none of the modules or
below the highest range at some time. -/
theorem covers_addModules (h : Sorted o)
    (hfits : ∀ m ∈ modules, m.1.toNat + m.2.toNat < 2 ^ 64) (addr : UInt64) :
    (o.addModules modules).Covers addr ↔ o.Covers addr ∨
      ∃ front m, front ++ [m] <+: modules ∧ InBlock m.1 m.2 addr ∧
        ∀ last ∈ (o.addModules front).moduleRanges.getLast?, last.1 ≤ addr := by
  induction modules using List.reverseRecOn with
  | nil =>
      refine ⟨.inl, fun hor => hor.elim id ?_⟩
      rintro ⟨front, m, hfront, -⟩
      simp at hfront
  | append_singleton modules m ih =>
      rw [addModules_snoc, covers_addModule (sorted_addModules h modules)
        (hfits m (by simp)), ih fun x hx => hfits x (List.mem_append_left _ hx), or_assoc]
      refine or_congr_right ?_
      constructor
      · rintro (⟨front, x, hfront, hx⟩ | hm)
        · exact ⟨front, x, hfront.trans (List.prefix_append _ _), hx⟩
        · exact ⟨modules, m, List.prefix_refl _, hm⟩
      · rintro ⟨front, x, hfront, hx⟩
        rcases List.prefix_concat_iff.mp hfront with heq | hfront
        · obtain ⟨rfl, hxm⟩ := List.append_inj' heq rfl
          obtain rfl := List.singleton_inj.mp hxm
          exact .inr hx
        · exact .inl ⟨front, x, hfront, hx⟩

/-- Below the start of the highest range nothing is covered later on. -/
theorem isHeap_addModules_of_below {addr : UInt64} (h : Sorted o)
    (hfits : ∀ m ∈ modules, m.1.toNat + m.2.toNat < 2 ^ 64)
    (hlast : ∃ last ∈ o.moduleRanges.getLast?, addr < last.1) (hheap : o.isHeap addr = true) :
    (o.addModules modules).isHeap addr = true := by
  induction modules generalizing o with
  | nil => exact hheap
  | cons m modules ih =>
      refine ih (sorted_addModule h) (fun x hx => hfits x (List.mem_cons_of_mem _ hx))
        (getLast?_addModule h hlast) ?_
      obtain ⟨hnot, hstack, huser⟩ := isHeap_eq_true.mp hheap
      refine isHeap_eq_true.mpr ⟨?_, by rw [stackBounds_addModule]; exact hstack, huser⟩
      rw [covers_addModule h (hfits m List.mem_cons_self)]
      rintro (hcovers | ⟨-, hall⟩)
      · exact hnot hcovers
      · obtain ⟨last, hlast, hlt⟩ := hlast
        exact absurd (hall last hlast) (not_le_of_gt hlt)

/-- Modules keep apart from the heap exactly when each is recorded in full. -/
theorem excludes_iff (hnone : o.moduleRanges = [])
    (hfits : ∀ m ∈ modules, m.2 ≠ 0 ∧ m.1.toNat + m.2.toNat < 2 ^ 64) :
    o.Excludes modules ↔
      ∀ front m, front ++ [m] <+: modules → (o.addModules front).Recorded m := by
  have hsorted : Sorted o := ⟨hnone ▸ List.Pairwise.nil, by simp [hnone]⟩
  have hsearch (ms : List (UInt64 × UInt64)) (addr : UInt64) :
      (o.addModules ms).isHeapBySearch addr = (o.addModules ms).isHeap addr :=
    (sorted_addModules hsorted ms).isHeapBySearch addr
  have hfits' : ∀ m ∈ modules, m.1.toNat + m.2.toNat < 2 ^ 64 := fun m hm => (hfits m hm).2
  have huncovered (addr : UInt64) : ¬ o.Covers addr := by
    rintro ⟨r, hr, -⟩
    rw [hnone] at hr
    cases hr
  constructor
  · rintro ⟨hexcludes, -⟩ front m hfront last hlast addr hin hbelow
    by_contra hheap
    rw [hsearch, Bool.not_eq_false] at hheap
    obtain ⟨rest, rfl⟩ := hfront
    have hm : m ∈ front ++ [m] ++ rest := by simp
    have hfinal := hexcludes m hm addr hin
    rw [hsearch] at hfinal
    have hrest : (front ++ [m] ++ rest) = front ++ ([m] ++ rest) := List.append_assoc ..
    have hadd : o.addModules (front ++ [m] ++ rest) =
        (o.addModules front).addModules ([m] ++ rest) := by
      rw [hrest, addModules, List.foldl_append]
      rfl
    have hlater : ((o.addModules front).addModules ([m] ++ rest)).isHeap addr = true :=
      isHeap_addModules_of_below (sorted_addModules hsorted front) (fun x hx => hfits' x (by
        rw [hrest]
        exact List.mem_append_right _ hx)) ⟨last, hlast, hbelow⟩ hheap
    rw [← hadd, hfinal] at hlater
    cases hlater
  · intro hrecorded
    constructor
    · intro m hm addr hin
      obtain ⟨front, rest, hsplit⟩ := List.append_of_mem hm
      have hfront : front ++ [m] <+: modules := ⟨rest, by rw [hsplit]; simp⟩
      rw [hsearch, ← Bool.not_eq_true, isHeap_eq_true]
      rintro ⟨hnot, hstack, huser⟩
      rw [covers_addModules hsorted hfits'] at hnot
      push Not at hnot
      obtain ⟨hnot, hall⟩ := hnot
      -- it lies below the highest range of its time, where it is no heap already
      obtain ⟨last, hlast, hbelow⟩ := hall front m hfront hin
      have hno := hrecorded front m hfront last hlast addr hin hbelow
      rw [hsearch, ← Bool.not_eq_true, isHeap_eq_true] at hno
      refine hno ⟨fun hcovers => ?_, by
        rw [stackBounds_addModules] at hstack ⊢
        exact hstack, huser⟩
      rw [covers_addModules hsorted fun x hx => hfits' x (hsplit ▸ List.mem_append_left _ hx)]
        at hcovers
      rcases hcovers with hcovers | ⟨front', x, hfront', hx, hle⟩
      · exact hnot hcovers
      · obtain ⟨last', hlast', hlt⟩ := hall front' x (hfront'.trans ⟨m :: rest, hsplit.symm⟩) hx
        exact absurd (hle last' hlast') (not_le_of_gt hlt)
    · intro addr hout
      have hself : o.isHeapBySearch addr = o.isHeap addr := hsearch [] addr
      rw [hsearch, hself, Bool.eq_iff_iff, isHeap_eq_true, isHeap_eq_true,
        stackBounds_addModules, covers_addModules hsorted hfits']
      refine and_congr_left fun _ => not_congr ⟨fun hor => hor.elim id ?_, .inl⟩
      rintro ⟨front, m, hfront, hin, -⟩
      exact absurd hin (hout m (hfront.subset (by simp)))

/-- A module behind another is recorded with it. -/
theorem ascending_modules_are_excluded :
    ({} : HeapOracle).Excludes [(0x400000, 0x1000), (0x7f0000000000, 0x2000)] := by
  refine (excludes_iff rfl ?_).mpr ?_
  · simp only [List.mem_cons, List.not_mem_nil, or_false, forall_eq_or_imp, forall_eq]
    decide
  · intro front m hfront last hlast addr hin hbelow
    have hcases : front = [] ∨ front = [(0x400000, 0x1000)] ∧ m = (0x7f0000000000, 0x2000) := by
      rcases front with _ | ⟨x, _ | ⟨y, front⟩⟩
      · exact .inl rfl
      · simp only [List.cons_append, List.nil_append, List.cons_prefix_cons] at hfront
        exact .inr ⟨by rw [hfront.1], hfront.2.1⟩
      · have hlen := hfront.length_le
        simp at hlen
    rcases hcases with rfl | ⟨rfl, rfl⟩
    · cases hlast
    · have hlast' : last = (0x400000, 0x401000) := by
        have hget : ((({} : HeapOracle).addModules [(0x400000, 0x1000)]).moduleRanges.getLast?) =
            some (0x400000, 0x401000) := by decide +kernel
        exact (Option.some.inj (hget.symm.trans hlast)).symm
      have hlo := UInt64.le_iff_toNat_le.mp hin.1
      have hhi := UInt64.lt_iff_toNat_lt.mp hbelow
      rw [hlast'] at hhi
      have hfar : (0x400000 : UInt64).toNat < (0x7f0000000000 : UInt64).toNat := by decide
      dsimp only at hlo hhi
      omega

/-- A library loaded below the program is no module for the oracle. -/
theorem lower_module_is_heap :
    ¬ ∀ (o : HeapOracle) (modules : List (UInt64 × UInt64)), o.moduleRanges = [] →
      (∀ m ∈ modules, m.2 ≠ 0 ∧ m.1.toNat + m.2.toNat < 2 ^ 64) → o.Excludes modules := by
  intro hall
  have hexcludes := hall {} [(0x7f0000000000, 0x2000), (0x400000, 0x1000)] rfl (by
    simp only [List.mem_cons, List.not_mem_nil, or_false, forall_eq_or_imp, forall_eq]
    decide)
  have hheap : ((({} : HeapOracle).addModules [(0x7f0000000000, 0x2000),
      (0x400000, 0x1000)]).isHeapBySearch 0x400800) = true := by decide +kernel
  rw [hexcludes.1 (0x400000, 0x1000) (by simp) 0x400800 ⟨by decide, by decide⟩] at hheap
  cases hheap

end Modules

end Rtmap.Engine.HeapOracle
