import Mathlib.Data.Fintype.Card
import Mathlib.Data.List.Forall2
import Mathlib.Data.Set.Finite.Basic
import Mathlib.Logic.Relation
import Mathlib.Tactic.Common

/-!
# Recursions without a bound

A recursion that calls itself for each member of a list ends if and only if its argument is
accessible; and where it can meet finitely many things only, that is so if and only if none of
them leads back to itself.
-/
namespace Rtmap.Unfolding

section Results
variable {A B : Type*} {f : A → Option B} {l : List A} {bs : List B}

theorem mapM_eq_some_iff : l.mapM f = some bs ↔ List.Forall₂ (fun a b => f a = some b) l bs := by
  induction l generalizing bs with
  | nil =>
      rw [List.mapM_nil, List.forall₂_nil_left_iff, Option.pure_def, Option.some.injEq, eq_comm]
  | cons a l ih =>
      rw [List.mapM_cons, List.forall₂_cons_left_iff, Option.bind_eq_bind, Option.bind_eq_some_iff]
      constructor
      · rintro ⟨b, hb, h⟩
        obtain ⟨bs, hbs, h⟩ := Option.bind_eq_some_iff.mp h
        exact ⟨b, bs, hb, ih.mp hbs, (Option.some.inj h).symm⟩
      · rintro ⟨b, bs, hb, hbs, rfl⟩
        exact ⟨b, hb, Option.bind_eq_some_iff.mpr ⟨bs, ih.mpr hbs, rfl⟩⟩

theorem isSome_mapM_iff : (l.mapM f).isSome ↔ ∀ a ∈ l, (f a).isSome := by
  induction l with
  | nil => exact iff_of_true rfl fun a ha => absurd ha List.not_mem_nil
  | cons a l ih =>
      rw [List.mapM_cons, List.forall_mem_cons, ← ih]
      cases f a with
      | none => exact iff_of_false Bool.false_ne_true fun h => Bool.false_ne_true h.1
      | some b =>
          cases l.mapM f with
          | none => exact iff_of_false Bool.false_ne_true fun h => Bool.false_ne_true h.2
          | some bs => exact iff_of_true rfl ⟨rfl, rfl⟩

end Results

section Depth
variable {T : Type*} (calls : T → List T)

/-- No more than `depth` calls of the recursion are open at a time. -/
def EndsWithin : ℕ → T → Prop
  | 0, _ => False
  | depth + 1, t => ∀ u ∈ calls t, EndsWithin depth u

variable {calls} {depth : ℕ} {t : T}

theorem EndsWithin.mono {depth' : ℕ} (h : EndsWithin calls depth t) (hle : depth ≤ depth') :
    EndsWithin calls depth' t := by
  induction depth generalizing t depth' with
  | zero => exact h.elim
  | succ depth ih =>
      obtain ⟨k, rfl⟩ := Nat.exists_eq_add_of_le hle
      rw [Nat.add_right_comm]
      exact fun u hu => ih (h u hu) (Nat.le_add_right depth k)

/-- The members of a list that all end do so at one depth. -/
theorem exists_endsWithin_forall {l : List T} (h : ∀ u ∈ l, ∃ depth, EndsWithin calls depth u) :
    ∃ depth, ∀ u ∈ l, EndsWithin calls depth u := by
  induction l with
  | nil => exact ⟨0, fun u hu => absurd hu List.not_mem_nil⟩
  | cons u us ih =>
      obtain ⟨⟨m, hm⟩, hus⟩ := List.forall_mem_cons.mp h
      obtain ⟨n, hn⟩ := ih hus
      refine ⟨max m n, List.forall_mem_cons.mpr ⟨hm.mono (Nat.le_max_left m n), fun v hv => ?_⟩⟩
      exact (hn v hv).mono (Nat.le_max_right m n)

theorem exists_endsWithin_iff :
    (∃ depth, EndsWithin calls depth t) ↔ Acc (fun u t => u ∈ calls t) t := by
  constructor
  · rintro ⟨depth, h⟩
    induction depth generalizing t with
    | zero => exact h.elim
    | succ depth ih => exact Acc.intro t fun u hu => ih (h u hu)
  · intro h
    induction h with
    | intro t _ ih =>
        obtain ⟨depth, hdepth⟩ := exists_endsWithin_forall ih
        exact ⟨depth + 1, hdepth⟩

end Depth

section Cycles
variable {A : Type*} {next : A → A → Prop} {a b : A}

theorem acc_of_reach (h : Acc (fun y x => next x y) a) (hab : Relation.ReflTransGen next a b) :
    Acc (fun y x => next x y) b := by
  induction hab with
  | refl => exact h
  | tail _ hbc ih => exact ih.inv hbc

theorem not_cycle_of_acc (h : Acc (fun y x => next x y) a) : ¬ Relation.TransGen next a a := by
  intro hcycle
  induction h with
  | intro x _ ih =>
      -- the first step of the cycle is on one of its own
      obtain ⟨y, hxy, hyx⟩ := Relation.TransGen.head'_iff.mp hcycle
      exact ih y hxy (Relation.TransGen.tail' hyx hxy)

/-- Where finitely many can be reached, it is accessible if none of them leads back to itself. -/
theorem acc_iff_acyclic (hfinite : {b | Relation.ReflTransGen next a b}.Finite) :
    Acc (fun y x => next x y) a ↔
      ∀ b, Relation.ReflTransGen next a b → ¬ Relation.TransGen next b b := by
  constructor
  · exact fun h b hab => not_cycle_of_acc (acc_of_reach h hab)
  · intro hacyclic
    have hreached : Finite {b // Relation.ReflTransGen next a b} := hfinite
    let below (y x : {b // Relation.ReflTransGen next a b}) : Prop := Relation.TransGen next x.1 y.1
    have htrans : IsTrans _ below := ⟨fun _ _ _ hzy hyx => hyx.trans hzy⟩
    have hirrefl : Std.Irrefl below := ⟨fun x => hacyclic x.1 x.2⟩
    have hwf : WellFounded below := Finite.wellFounded_of_trans_of_irrefl below
    have hacc (x : {b // Relation.ReflTransGen next a b}) : Acc (fun y x => next x y) x.1 := by
      induction x using hwf.induction with
      | _ x ih =>
          exact Acc.intro x.1 fun y hxy => ih ⟨y, x.2.tail hxy⟩ (Relation.TransGen.single hxy)
    exact hacc ⟨a, Relation.ReflTransGen.refl⟩

end Cycles

end Rtmap.Unfolding
