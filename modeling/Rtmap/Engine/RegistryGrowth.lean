import Rtmap.Engine.Types

/-!
# The growth of the type registry

Types are materialized on demand: names that are absent from the registry, or shallow in it,
take what the resolver finds for the name. Once a name has been asked for it is complete:
neither its entry nor a second demand changes anything, however the registry grows.
-/
namespace Rtmap.Engine

variable {D : String → Option TypeInfo}

/-- Names that are absent or shallow have taken what the resolver finds for them. -/
def Registry.Grows (D : String → Option TypeInfo) (r r' : Registry) : Prop :=
  ∀ n, r' n = r n ∨ ((r n).all TypeInfo.shallow = true ∧ (D n).isSome ∧ r' n = D n)

/-- Nothing is left to do for the name. -/
structure Registry.Complete (D : String → Option TypeInfo) (r : Registry) (n : String) : Prop where
  entry : (r n).all TypeInfo.shallow = true → D n = none ∨ D n = r n
  targets : ∀ ti, r n = some ti → ti.shallow = false ∨ D n = some ti →
    ∀ t ∈ DwarfInfo.pointerTargets r ti, D t = none

namespace Registry
variable {r r' r'' : Registry} {n : String}

@[refl] theorem Grows.refl (r : Registry) : Grows D r r := fun _ => Or.inl rfl

theorem Grows.trans (h : Grows D r r') (h' : Grows D r' r'') : Grows D r r'' := by
  intro n
  rcases h' n with hsame' | ⟨hshallow', hfound', hentry'⟩
  · rw [hsame']
    exact h n
  · rcases h n with hsame | ⟨hshallow, -, -⟩
    · rw [hsame] at hshallow'
      exact Or.inr ⟨hshallow', hfound', hentry'⟩
    · exact Or.inr ⟨hshallow, hfound', hentry'⟩

/-- What grows back to where it was has not grown. -/
theorem Grows.antisymm (h : Grows D r r') (hback : Grows D r' r) : r' = r := by
  funext n
  rcases h n with hsame | ⟨-, -, hentry⟩
  · exact hsame
  · rcases hback n with hsame | ⟨-, -, hentry'⟩
    · exact hsame.symm
    · exact hentry.trans hentry'.symm

theorem Grows.isSome (h : Grows D r r') (hn : (r n).isSome) : (r' n).isSome := by
  rcases h n with hsame | ⟨-, hfound, hentry⟩
  · rwa [hsame]
  · rwa [hentry]

theorem grows_update {ti : TypeInfo} (hshallow : (r n).all TypeInfo.shallow = true)
    (hfound : D n = some ti) : Grows D r (Function.update r n (some ti)) := by
  intro k
  by_cases hk : k = n
  · subst hk
    rw [Function.update_self]
    exact Or.inr ⟨hshallow, by rw [hfound]; rfl, hfound.symm⟩
  · rw [Function.update_of_ne hk]
    exact Or.inl rfl

theorem Grows.pointerTargets (h : Grows D r r') {ti : TypeInfo} {t : String}
    (ht : t ∈ DwarfInfo.pointerTargets r' ti) : t ∈ DwarfInfo.pointerTargets r ti ∧ r' t = none := by
  unfold DwarfInfo.pointerTargets at ht ⊢
  rw [List.mem_filterMap] at ht ⊢
  obtain ⟨f, hf, hname⟩ := ht
  dsimp only at hname
  split at hname
  · cases hname
  · rename_i hout
    cases hname
    simp only [Bool.or_eq_true, not_or, Bool.not_eq_true, Option.isSome_eq_false_iff,
      Option.isNone_iff_eq_none] at hout
    refine ⟨⟨f, hf, ?_⟩, hout.2⟩
    have hnone : (r (stripPointers f.typeInfo.name)).isSome = false := by
      by_contra hsome
      rw [Bool.not_eq_false] at hsome
      have hstill := h.isSome hsome
      rw [hout.2] at hstill
      cases hstill
    dsimp only
    rw [hnone, hout.1.1, hout.1.2]
    rfl

/-- The entry of a complete name stays, and the name stays complete. -/
theorem Complete.entry_eq (h : Complete D r n) (hgrows : Grows D r r') : r' n = r n := by
  rcases hgrows n with hsame | ⟨hshallow, hfound, hentry⟩
  · exact hsame
  · rcases h.entry hshallow with hnone | hsame
    · rw [hnone] at hfound
      cases hfound
    · exact hentry.trans hsame

theorem Complete.grows (h : Complete D r n) (hgrows : Grows D r r') : Complete D r' n := by
  have hsame := h.entry_eq hgrows
  constructor
  · rw [hsame]
    exact h.entry
  · rw [hsame]
    intro ti hti hdone t ht
    exact h.targets ti hti hdone t (hgrows.pointerTargets ht).1

end Registry

namespace DwarfInfo
open Registry

/-- The resolver as what `ensure_type` asks. -/
abbrev fixedDeep (D : String → Option TypeInfo) : Registry → String → Option TypeInfo := fun _ n => D n

/-- The pointer targets of a type, one after the other. -/
def chase (D : String → Option TypeInfo) (fuel : ℕ) (r : Registry) (targets : List String) :
    Registry :=
  targets.foldl (fun r t => (ensureTypeInner (fixedDeep D) fuel r t).1) r

theorem ensureTypeInner_succ (fuel : ℕ) (r : Registry) (n : String) :
    (ensureTypeInner (fixedDeep D) (fuel + 1) r n).1 =
      if (r n).all TypeInfo.shallow then
        match D n with
        | none => r
        | some ti => chase D fuel (Function.update r n (some ti))
            (pointerTargets (Function.update r n (some ti)) ti)
      else
        match r n with
        | none => r
        | some ti => chase D fuel r (pointerTargets r ti) := by
  rw [ensureTypeInner]
  cases hn : r n with
  | none =>
      simp only [Option.all_none, if_true, fixedDeep]
      cases D n <;> rfl
  | some ti =>
      by_cases hshallow : ti.shallow = true
      · simp only [Option.all_some, hshallow, if_true, fixedDeep]
        cases D n <;> rfl
      · rw [Bool.not_eq_true] at hshallow
        simp only [Option.all_some, hshallow, Bool.false_eq_true, if_false]
        rfl

theorem grows_chase {fuel : ℕ} (h : ∀ r n, Grows D r (ensureTypeInner (fixedDeep D) fuel r n).1)
    (targets : List String) (r : Registry) : Grows D r (chase D fuel r targets) := by
  induction targets generalizing r with
  | nil => exact Grows.refl r
  | cons t targets ih =>
      rw [chase, List.foldl_cons]
      exact (h r t).trans (ih _)

theorem grows_ensureTypeInner (fuel : ℕ) : ∀ (r : Registry) (n : String),
    Grows D r (ensureTypeInner (fixedDeep D) fuel r n).1 := by
  induction fuel with
  | zero => exact fun r _ => Grows.refl r
  | succ fuel ih =>
      intro r n
      rw [ensureTypeInner_succ]
      by_cases hshallow : (r n).all TypeInfo.shallow = true
      · rw [if_pos hshallow]
        cases hfound : D n with
        | none => exact Grows.refl r
        | some ti => exact (grows_update hshallow hfound).trans (grows_chase ih _ _)
      · rw [if_neg hshallow]
        cases r n with
        | none => exact Grows.refl r
        | some ti => exact grows_chase ih _ _

/-- A demand of a complete name changes nothing. -/
theorem ensureTypeInner_of_complete {r : Registry} {n : String} (h : Complete D r n) (fuel : ℕ) :
    (ensureTypeInner (fixedDeep D) fuel r n).1 = r := by
  have hunknown (fuel : ℕ) (t : String) (hr : r t = none) (ht : D t = none) :
      (ensureTypeInner (fixedDeep D) fuel r t).1 = r := by
    cases fuel with
    | zero => rfl
    | succ fuel =>
        rw [ensureTypeInner_succ, hr, ht]
        rfl
  have hchase (fuel : ℕ) (targets : List String) (hall : ∀ t ∈ targets, r t = none ∧ D t = none) :
      chase D fuel r targets = r := by
    induction targets with
    | nil => rfl
    | cons t targets ih =>
        have ht := hall t List.mem_cons_self
        rw [chase, List.foldl_cons, hunknown fuel t ht.1 ht.2]
        exact ih fun u hu => hall u (List.mem_cons_of_mem _ hu)
  have htargets (ti : TypeInfo) (hti : r n = some ti) (hdone : ti.shallow = false ∨ D n = some ti) :
      ∀ t ∈ pointerTargets r ti, r t = none ∧ D t = none := by
    intro t ht
    exact ⟨((Grows.refl (D := D) r).pointerTargets ht).2, h.targets ti hti hdone t ht⟩
  cases fuel with
  | zero => rfl
  | succ fuel =>
      rw [ensureTypeInner_succ]
      by_cases hshallow : (r n).all TypeInfo.shallow = true
      · rw [if_pos hshallow]
        rcases h.entry hshallow with hnone | hsame
        · rw [hnone]
        · cases hfound : D n with
          | none => rfl
          | some ti =>
              have hti : r n = some ti := hsame.symm.trans hfound
              have hupdate : Function.update r n (some ti) = r := by
                rw [← hti, Function.update_eq_self]
              dsimp only
              rw [hupdate]
              exact hchase _ _ (htargets ti hti (Or.inr hfound))
      · rw [if_neg hshallow]
        cases hti : r n with
        | none => rfl
        | some ti =>
            rw [hti, Option.all_some, Bool.not_eq_true] at hshallow
            exact hchase _ _ (htargets ti hti (Or.inl hshallow))

/-- After a demand of a name that is absent, it is there or the resolver does not find it. -/
theorem isSome_ensureTypeInner (fuel : ℕ) (r : Registry) (t : String) :
    ((ensureTypeInner (fixedDeep D) (fuel + 1) r t).1 t).isSome ∨ D t = none := by
  cases hfound : D t with
  | none => exact Or.inr rfl
  | some ti =>
      left
      cases ht : r t with
      | some tu => exact (grows_ensureTypeInner (fuel + 1) r t).isSome (by rw [ht]; rfl)
      | none =>
          rw [ensureTypeInner_succ, ht, Option.all_none, if_pos rfl, hfound]
          apply (grows_chase (D := D) (grows_ensureTypeInner fuel) _ _).isSome
          rw [Function.update_self]
          rfl

theorem isSome_chase (fuel : ℕ) (targets : List String) : ∀ (r : Registry), ∀ t ∈ targets,
    (chase D (fuel + 1) r targets t).isSome ∨ D t = none := by
  induction targets with
  | nil => exact fun _ _ h => absurd h List.not_mem_nil
  | cons u targets ih =>
      intro r t ht
      rw [chase, List.foldl_cons]
      rcases List.mem_cons.mp ht with rfl | ht
      · rcases isSome_ensureTypeInner (D := D) fuel r t with hsome | hnone
        · exact Or.inl ((grows_chase (grows_ensureTypeInner (fuel + 1)) _ _).isSome hsome)
        · exact Or.inr hnone
      · exact ih _ t ht

/-- A demand completes the name. -/
theorem complete_ensureTypeInner (fuel : ℕ) (r : Registry) (n : String) :
    Complete D (ensureTypeInner (fixedDeep D) (fuel + 2) r n).1 n := by
  have hchase (q : Registry) (ti : TypeInfo) :
      ∀ t ∈ pointerTargets (chase D (fuel + 1) q (pointerTargets q ti)) ti, D t = none := by
    intro t ht
    obtain ⟨hmem, hnone⟩ :=
      (grows_chase (D := D) (grows_ensureTypeInner (fuel + 1)) (pointerTargets q ti) q).pointerTargets ht
    rcases isSome_chase (D := D) fuel (pointerTargets q ti) q t hmem with hsome | hunknown
    · rw [hnone] at hsome
      cases hsome
    · exact hunknown
  rw [ensureTypeInner_succ]
  by_cases hshallow : (r n).all TypeInfo.shallow = true
  · rw [if_pos hshallow]
    cases hfound : D n with
    | none =>
        dsimp only
        refine ⟨fun _ => Or.inl hfound, ?_⟩
        intro ti hti hdone
        rw [hti, Option.all_some] at hshallow
        rw [hshallow, hfound] at hdone
        rcases hdone with hdone | hdone <;> cases hdone
    | some ti =>
        have hentry : chase D (fuel + 1) (Function.update r n (some ti))
            (pointerTargets (Function.update r n (some ti)) ti) n = some ti := by
          rcases grows_chase (D := D) (grows_ensureTypeInner (fuel + 1)) (pointerTargets
            (Function.update r n (some ti)) ti) (Function.update r n (some ti)) n with hsame | h
          · rw [hsame, Function.update_self]
          · exact h.2.2.trans hfound
        dsimp only
        refine ⟨fun _ => Or.inr (hfound.trans hentry.symm), ?_⟩
        intro tu htu _
        rw [hentry] at htu
        obtain rfl := Option.some.inj htu
        exact hchase _ _
  · rw [if_neg hshallow]
    cases hti : r n with
    | none =>
        rw [hti] at hshallow
        exact absurd rfl hshallow
    | some ti =>
        dsimp only
        have hentry : chase D (fuel + 1) r (pointerTargets r ti) n = some ti := by
          rcases grows_chase (D := D) (grows_ensureTypeInner (fuel + 1)) (pointerTargets r ti) r n with
            hsame | h
          · rw [hsame, hti]
          · exact absurd h.1 hshallow
        constructor
        · rw [hentry, ← hti]
          exact fun h => absurd h hshallow
        · intro tu htu _
          rw [hentry] at htu
          obtain rfl := Option.some.inj htu
          exact hchase _ _

variable {deep : Registry → String → Option TypeInfo}

/-- The registry grows under a demand, and completes the name. -/
theorem grows_ensureType (hdeep : ∀ r n, deep r n = D n) (info : DwarfInfo) (n : String) :
    Grows D info.typeRegistry (info.ensureType deep n).typeRegistry := by
  obtain rfl : deep = fixedDeep D := funext fun r => funext fun n => hdeep r n
  exact grows_ensureTypeInner 7 _ _

theorem complete_ensureType (hdeep : ∀ r n, deep r n = D n) (info : DwarfInfo) (n : String) :
    Complete D (info.ensureType deep n).typeRegistry n := by
  obtain rfl : deep = fixedDeep D := funext fun r => funext fun n => hdeep r n
  exact complete_ensureTypeInner 5 _ _

theorem ensureType_of_complete (hdeep : ∀ r n, deep r n = D n) {info : DwarfInfo} {n : String}
    (h : Complete D info.typeRegistry n) : info.ensureType deep n = info := by
  obtain rfl : deep = fixedDeep D := funext fun r => funext fun n => hdeep r n
  unfold ensureType
  rw [ensureTypeInner_of_complete h]

end DwarfInfo

end Rtmap.Engine
