import Mathlib.Data.List.Basic

/-!
# Command lines scanned for one flag at a time

A program that takes its flags out of the argument vector one by one, wherever in the
vector each stands first. What such a program does to the part of a vector that stands
before a separator, and to the part behind it.
-/
namespace Rtmap.FlagScan

universe v

section Takes
variable {T : Type*} [DecidableEq T]

/-- Take out the first occurrence of a flag, if there is one. -/
def takeFlag (f : T) (args : List T) : Bool × List T :=
  if f ∈ args then (true, args.erase f) else (false, args)

/-- Take out the first occurrence of a flag and the token behind it; `none` where there is
no token behind it. -/
def takeFlagValue (f : T) : List T → Option (Option T × List T)
  | [] => some (none, [])
  | [a] => if a = f then none else some (none, [a])
  | a :: v :: l =>
      if a = f then some (some v, l)
      else (takeFlagValue f (v :: l)).map fun r => (r.1, a :: r.2)

/-- Take out every occurrence of a flag, each with the token behind it. -/
def takeFlagValues (f : T) : List T → Option (List T × List T)
  | [] => some ([], [])
  | [a] => if a = f then none else some ([], [a])
  | a :: v :: l =>
      if a = f then (takeFlagValues f l).map fun r => (v :: r.1, r.2)
      else (takeFlagValues f (v :: l)).map fun r => (r.1, a :: r.2)

theorem takeFlagValue_cons_of_ne {f a : T} (h : a ≠ f) (l : List T) :
    takeFlagValue f (a :: l) = (takeFlagValue f l).map fun r => (r.1, a :: r.2) := by
  cases l with
  | nil => simp [takeFlagValue, h]
  | cons v l => rw [takeFlagValue, if_neg h]

theorem takeFlagValues_cons_of_ne {f a : T} (h : a ≠ f) (l : List T) :
    takeFlagValues f (a :: l) = (takeFlagValues f l).map fun r => (r.1, a :: r.2) := by
  cases l with
  | nil => simp [takeFlagValues, h]
  | cons v l => rw [takeFlagValues, if_neg h]

section Lead
variable {f : T} {lead : List T}

/-- Tokens that are not the flag stay where they are. -/
theorem takeFlag_append (h : f ∉ lead) (back : List T) :
    takeFlag f (lead ++ back) = ((takeFlag f back).1, lead ++ (takeFlag f back).2) := by
  unfold takeFlag
  by_cases hback : f ∈ back
  · rw [if_pos hback, if_pos (List.mem_append_right _ hback), List.erase_append_right _ h]
  · rw [if_neg hback, if_neg fun hf => (List.mem_append.mp hf).elim h hback]

theorem takeFlagValue_append (h : f ∉ lead) (back : List T) :
    takeFlagValue f (lead ++ back) =
      (takeFlagValue f back).map fun r => (r.1, lead ++ r.2) := by
  induction lead with
  | nil => simp
  | cons a lead ih =>
      rw [List.mem_cons, not_or] at h
      rw [List.cons_append, takeFlagValue_cons_of_ne (Ne.symm h.1), ih h.2, Option.map_map]
      rfl

theorem takeFlagValues_append (h : f ∉ lead) (back : List T) :
    takeFlagValues f (lead ++ back) =
      (takeFlagValues f back).map fun r => (r.1, lead ++ r.2) := by
  induction lead with
  | nil => simp
  | cons a lead ih =>
      rw [List.mem_cons, not_or] at h
      rw [List.cons_append, takeFlagValues_cons_of_ne (Ne.symm h.1), ih h.2, Option.map_map]
      rfl

end Lead

section Lengths
variable {f : T}

theorem takeFlag_length (back : List T) : (takeFlag f back).2.length ≤ back.length ∧
    (f ∈ back → (takeFlag f back).2.length < back.length) := by
  unfold takeFlag
  by_cases h : f ∈ back
  · have hpos := List.length_pos_of_mem h
    simp only [h, if_true, List.length_erase_of_mem]
    omega
  · simp [h]

theorem takeFlagValue_length {back : List T} {r : Option T × List T}
    (hr : takeFlagValue f back = some r) : r.2.length ≤ back.length ∧
      (f ∈ back → r.2.length < back.length) := by
  induction back generalizing r with
  | nil =>
      cases hr
      exact ⟨Nat.le_refl _, fun h => absurd h List.not_mem_nil⟩
  | cons a l ih =>
      by_cases h : a = f
      · cases l with
        | nil => simp [takeFlagValue, h] at hr
        | cons v l =>
            rw [takeFlagValue, if_pos h] at hr
            cases hr
            simp only [List.length_cons]
            omega
      · rw [takeFlagValue_cons_of_ne h] at hr
        obtain ⟨q, hq, rfl⟩ := Option.map_eq_some_iff.mp hr
        have hlen := ih hq
        simp only [List.length_cons, List.mem_cons, Ne.symm h, false_or]
        exact ⟨by omega, fun hf => Nat.succ_lt_succ (hlen.2 hf)⟩

theorem takeFlagValues_length {back : List T} {r : List T × List T}
    (hr : takeFlagValues f back = some r) : r.2.length ≤ back.length ∧
      (f ∈ back → r.2.length < back.length) := by
  induction back using takeFlagValues.induct (f := f) generalizing r with
  | case1 =>
      cases hr
      exact ⟨Nat.le_refl _, fun h => absurd h List.not_mem_nil⟩
  | case2 => simp [takeFlagValues] at hr
  | case3 a h =>
      rw [takeFlagValues, if_neg h] at hr
      cases hr
      exact ⟨Nat.le_refl _, fun hf => absurd (List.mem_singleton.mp hf).symm h⟩
  | case4 v l ih =>
      rw [takeFlagValues, if_pos rfl] at hr
      obtain ⟨q, hq, rfl⟩ := Option.map_eq_some_iff.mp hr
      have hlen := (ih hq).1
      simp only [List.length_cons]
      omega
  | case5 a v l h ih =>
      rw [takeFlagValues, if_neg h] at hr
      obtain ⟨q, hq, rfl⟩ := Option.map_eq_some_iff.mp hr
      have hlen := ih hq
      rw [List.mem_cons, List.length_cons, List.length_cons]
      exact ⟨Nat.succ_le_succ hlen.1, fun hf =>
        Nat.succ_lt_succ (hlen.2 (hf.resolve_left (Ne.symm h)))⟩

end Lengths
end Takes

/-- A program over an argument vector. -/
inductive Scan (T : Type*) (ε : Type*) (α : Type*)
  | done (a : α)
  | stop (e : ε)
  | flag (f : T) (next : Bool → Scan T ε α)
  | value (f : T) (next : Option T → Scan T ε α)
  | values (f : T) (next : List T → Scan T ε α)

namespace Scan
variable {T : Type*} {ε α β : Type*}

def bind : Scan T ε α → (α → Scan T ε β) → Scan T ε β
  | .done a, k => k a
  | .stop e, _ => .stop e
  | .flag f next, k => .flag f fun b => (next b).bind k
  | .value f next, k => .value f fun v => (next v).bind k
  | .values f next, k => .values f fun vs => (next vs).bind k

instance : Monad (Scan T ε) where
  pure := .done
  bind := bind

/-- What the program makes of a vector and what it leaves of it; a flag without the token
it needs stops the program. -/
def run [DecidableEq T] (missing : T → ε) : Scan T ε α → List T → Except ε (α × List T)
  | .done a, args => .ok (a, args)
  | .stop e, _ => .error e
  | .flag f next, args => (next (takeFlag f args).1).run missing (takeFlag f args).2
  | .value f next, args =>
      match takeFlagValue f args with
      | none => .error (missing f)
      | some r => (next r.1).run missing r.2
  | .values f next, args =>
      match takeFlagValues f args with
      | none => .error (missing f)
      | some r => (next r.1).run missing r.2

end Scan

/-- An option as it is meant. -/
inductive Opt (T : Type*)
  | flag (f : T)
  | valued (f v : T)
deriving DecidableEq

/-- The flags of a grammar: those that stand alone and those that a token belongs to. -/
structure Grammar (T : Type*) where
  flags : List T
  valued : List T
  disjoint : ∀ f ∈ flags, f ∉ valued

section Lines
variable {T : Type*} {ε α : Type*} (g : Grammar T)

namespace Opt

def name : Opt T → T
  | flag f => f
  | valued f _ => f

def tokens : Opt T → List T
  | flag f => [f]
  | valued f v => [f, v]

/-- The option is one of the grammar, and its value is no flag itself. -/
def Fits : Opt T → Prop
  | flag f => f ∈ g.flags
  | valued f v => f ∈ g.valued ∧ v ∉ g.flags ∧ v ∉ g.valued

end Opt

/-- The tokens of options and what comes behind them. -/
def line (opts : List (Opt T)) (back : List T) : List T := opts.flatMap Opt.tokens ++ back

theorem line_cons (o : Opt T) (opts : List (Opt T)) (back : List T) :
    line (o :: opts) back = o.tokens ++ line opts back := by
  rw [line, List.flatMap_cons, List.append_assoc]
  rfl

/-- The program looks for flags of the grammar only. -/
def Scan.Within : Scan T ε α → Prop
  | .done _ => True
  | .stop _ => True
  | .flag f next => f ∈ g.flags ∧ ∀ b, (next b).Within
  | .value f next => f ∈ g.valued ∧ ∀ v, (next v).Within
  | .values f next => f ∈ g.valued ∧ ∀ vs, (next vs).Within

theorem Scan.within_bind {α β : Type v} {g : Grammar T} {p : Scan T ε α} {k : α → Scan T ε β}
    (hp : p.Within g) (hk : ∀ a, (k a).Within g) : (p >>= k).Within g := by
  induction p with
  | done a => exact hk a
  | stop e => exact hp
  | flag f next ih => exact ⟨hp.1, fun b => ih b (hp.2 b)⟩
  | value f next ih => exact ⟨hp.1, fun v => ih v (hp.2 v)⟩
  | values f next ih => exact ⟨hp.1, fun vs => ih vs (hp.2 vs)⟩

/-- Whatever the program returns meets the condition. -/
def Scan.Returns (P : α → Prop) : Scan T ε α → Prop
  | .done a => P a
  | .stop _ => True
  | .flag _ next => ∀ b, (next b).Returns P
  | .value _ next => ∀ v, (next v).Returns P
  | .values _ next => ∀ vs, (next vs).Returns P

theorem Scan.returns_bind {α β : Type v} {P : α → Prop} {Q : β → Prop} {p : Scan T ε α}
    {k : α → Scan T ε β} (hp : p.Returns P) (hk : ∀ a, P a → (k a).Returns Q) :
    (p >>= k).Returns Q := by
  induction p with
  | done a => exact hk a hp
  | stop e => exact trivial
  | flag f next ih => exact fun b => ih b (hp b)
  | value f next ih => exact fun v => ih v (hp v)
  | values f next ih => exact fun vs => ih vs (hp vs)

theorem Scan.returns_true (p : Scan T ε α) : p.Returns fun _ => True := by
  induction p with
  | done a => exact trivial
  | stop e => exact trivial
  | flag f next ih => exact ih
  | value f next ih => exact ih
  | values f next ih => exact ih

/-- What a part of a program returns can be left open. -/
theorem Scan.returns_bind_any {α β : Type v} {Q : β → Prop} {p : Scan T ε α}
    {k : α → Scan T ε β} (hk : ∀ a, (k a).Returns Q) : (p >>= k).Returns Q :=
  Scan.returns_bind p.returns_true fun a _ => hk a

theorem Scan.returns_run [DecidableEq T] {P : α → Prop} {p : Scan T ε α} (hp : p.Returns P)
    {missing : T → ε} {args : List T} {r : α × List T} (hr : p.run missing args = .ok r) : P r.1 := by
  induction p generalizing args with
  | done a =>
      cases hr
      exact hp
  | stop e => cases hr
  | flag f next ih => exact ih _ (hp _) hr
  | value f next ih =>
      rw [Scan.run] at hr
      split at hr
      · cases hr
      · exact ih _ (hp _) hr
  | values f next ih =>
      rw [Scan.run] at hr
      split at hr
      · cases hr
      · exact ih _ (hp _) hr

/-- A flag is in the tokens of an option of another name at most as a value, and no value
is a flag. -/
theorem Opt.not_mem_tokens {g : Grammar T} {o : Opt T} {f : T} (ho : o.Fits g)
    (hf : f ∈ g.flags ∨ f ∈ g.valued) (hname : o.name ≠ f) : f ∉ o.tokens := by
  cases o with
  | flag n => exact fun h => hname (List.mem_singleton.mp h).symm
  | valued n v =>
      intro h
      rcases List.mem_cons.mp h with hn | hv
      · exact hname hn.symm
      · rw [List.mem_singleton.mp hv] at hf
        exact hf.elim ho.2.1 ho.2.2

theorem Opt.eq_flag {g : Grammar T} {o : Opt T} {f : T} (ho : o.Fits g) (hf : f ∈ g.flags)
    (hname : o.name = f) : o = .flag f := by
  cases o with
  | flag n => exact congrArg Opt.flag hname
  | valued n v =>
      have hn : n = f := hname
      exact absurd ho.1 (hn ▸ g.disjoint f hf)

theorem Opt.eq_valued {g : Grammar T} {o : Opt T} {f : T} (ho : o.Fits g) (hf : f ∈ g.valued)
    (hname : o.name = f) : ∃ v, o = .valued f v := by
  cases o with
  | flag n =>
      have hn : n = f := hname
      exact absurd (hn ▸ hf) (g.disjoint n ho)
  | valued n v => exact ⟨v, congrArg (Opt.valued · v) hname⟩

/-- A flag in the vector is the name of an option, or stands behind the options. -/
theorem mem_line {g : Grammar T} {opts : List (Opt T)} {f : T} (hopts : ∀ o ∈ opts, o.Fits g)
    (hf : f ∈ g.flags ∨ f ∈ g.valued) (back : List T) :
    f ∈ line opts back ↔ (∃ o ∈ opts, o.name = f) ∨ f ∈ back := by
  induction opts with
  | nil => exact ⟨.inr, fun h => h.resolve_left fun ⟨o, ho, _⟩ => absurd ho List.not_mem_nil⟩
  | cons o opts ih =>
      rw [line_cons, List.mem_append, ih fun p hp => hopts p (List.mem_cons_of_mem _ hp),
        List.exists_mem_cons_iff, or_assoc]
      refine or_congr_left ⟨fun h => ?_, fun h => ?_⟩
      · by_contra hname
        exact Opt.not_mem_tokens (hopts o List.mem_cons_self) hf hname h
      · cases o <;> exact h ▸ List.mem_cons_self

variable [DecidableEq T]

/-- The value of the first option of a name. -/
def valueOf (f : T) : List (Opt T) → Option T
  | [] => none
  | .valued n v :: opts => if n = f then some v else valueOf f opts
  | .flag _ :: opts => valueOf f opts

/-- The values of all options of a name. -/
def valuesOf (f : T) : List (Opt T) → List T
  | [] => []
  | .valued n v :: opts => if n = f then v :: valuesOf f opts else valuesOf f opts
  | .flag _ :: opts => valuesOf f opts

/-- The options without the first of a name. -/
def dropFirst (f : T) (opts : List (Opt T)) : List (Opt T) := opts.eraseP fun o => o.name = f

/-- The options without those of a name. -/
def dropAll (f : T) (opts : List (Opt T)) : List (Opt T) := opts.filter fun o => o.name ≠ f

/-- What the program makes of options alone. -/
def Scan.runOpts : Scan T ε α → List (Opt T) → Except ε (α × List (Opt T))
  | .done a, opts => .ok (a, opts)
  | .stop e, _ => .error e
  | .flag f next, opts => (next (opts.any fun o => o.name = f)).runOpts (dropFirst f opts)
  | .value f next, opts => (next (valueOf f opts)).runOpts (dropFirst f opts)
  | .values f next, opts => (next (valuesOf f opts)).runOpts (dropAll f opts)

/-- The flags that the program looks for in vain among options. -/
def Scan.misses : Scan T ε α → List (Opt T) → List T
  | .done _, _ => []
  | .stop _, _ => []
  | .flag f next, opts =>
      (if opts.any fun o => o.name = f then [] else [f]) ++
        (next (opts.any fun o => o.name = f)).misses (dropFirst f opts)
  | .value f next, opts =>
      (if (valueOf f opts).isSome then [] else [f]) ++
        (next (valueOf f opts)).misses (dropFirst f opts)
  | .values f next, opts => f :: (next (valuesOf f opts)).misses (dropAll f opts)

theorem valueOf_cons_of_ne {f : T} {o : Opt T} (h : o.name ≠ f) (opts : List (Opt T)) :
    valueOf f (o :: opts) = valueOf f opts := by
  cases o with
  | flag n => rfl
  | valued n v => exact if_neg h

theorem valuesOf_cons_of_ne {f : T} {o : Opt T} (h : o.name ≠ f) (opts : List (Opt T)) :
    valuesOf f (o :: opts) = valuesOf f opts := by
  cases o with
  | flag n => rfl
  | valued n v => exact if_neg h

theorem dropFirst_cons_of_ne {f : T} {o : Opt T} (h : o.name ≠ f) (opts : List (Opt T)) :
    dropFirst f (o :: opts) = o :: dropFirst f opts :=
  List.eraseP_cons_of_neg (by simpa using h)

theorem dropAll_cons_of_ne {f : T} {o : Opt T} (h : o.name ≠ f) (opts : List (Opt T)) :
    dropAll f (o :: opts) = o :: dropAll f opts :=
  List.filter_cons_of_pos (by simpa using h)

section Options
variable {g} {f : T} {opts : List (Opt T)} (hopts : ∀ o ∈ opts, o.Fits g)
include hopts

theorem takeFlag_line (hf : f ∈ g.flags) (back : List T) : takeFlag f (line opts back) =
    if opts.any fun o => o.name = f then (true, line (dropFirst f opts) back)
    else ((takeFlag f back).1, line opts (takeFlag f back).2) := by
  induction opts with
  | nil => rfl
  | cons o opts ih =>
      have ho := hopts o List.mem_cons_self
      by_cases hname : o.name = f
      · rw [Opt.eq_flag ho hf hname]
        simp [line_cons, Opt.tokens, takeFlag, Opt.name, dropFirst]
      · rw [line_cons, takeFlag_append (Opt.not_mem_tokens ho (.inl hf) hname),
          ih fun p hp => hopts p (List.mem_cons_of_mem _ hp), dropFirst_cons_of_ne hname,
          List.any_cons, decide_eq_false hname, Bool.false_or]
        split <;> simp only [line_cons]

theorem takeFlagValue_line (hf : f ∈ g.valued) (back : List T) :
    takeFlagValue f (line opts back) =
      match valueOf f opts with
      | some v => some (some v, line (dropFirst f opts) back)
      | none => (takeFlagValue f back).map fun r => (r.1, line opts r.2) := by
  induction opts with
  | nil =>
      show takeFlagValue f back = (takeFlagValue f back).map id
      rw [Option.map_id, id]
  | cons o opts ih =>
      have ho := hopts o List.mem_cons_self
      by_cases hname : o.name = f
      · obtain ⟨v, rfl⟩ := Opt.eq_valued ho hf hname
        simp [line_cons, Opt.tokens, takeFlagValue, valueOf, Opt.name, dropFirst]
      · rw [line_cons, takeFlagValue_append (Opt.not_mem_tokens ho (.inr hf) hname),
          ih fun p hp => hopts p (List.mem_cons_of_mem _ hp), dropFirst_cons_of_ne hname,
          valueOf_cons_of_ne hname]
        cases valueOf f opts with
        | some v => simp only [Option.map_some, line_cons]
        | none => simp only [Option.map_map, line_cons]; rfl

theorem takeFlagValues_line (hf : f ∈ g.valued) (back : List T) :
    takeFlagValues f (line opts back) =
      (takeFlagValues f back).map fun r => (valuesOf f opts ++ r.1, line (dropAll f opts) r.2) := by
  induction opts with
  | nil =>
      show takeFlagValues f back = (takeFlagValues f back).map id
      rw [Option.map_id, id]
  | cons o opts ih =>
      have ho := hopts o List.mem_cons_self
      have ih := ih fun p hp => hopts p (List.mem_cons_of_mem _ hp)
      by_cases hname : o.name = f
      · obtain ⟨v, rfl⟩ := Opt.eq_valued ho hf hname
        simp only [line_cons, Opt.tokens, List.cons_append, List.nil_append, takeFlagValues, if_true,
          ih, Option.map_map]
        simp [valuesOf, dropAll, Opt.name, Function.comp_def]
      · rw [line_cons, takeFlagValues_append (Opt.not_mem_tokens ho (.inr hf) hname), ih,
          dropAll_cons_of_ne hname, valuesOf_cons_of_ne hname, Option.map_map]
        simp only [line_cons, Function.comp_def]

end Options

theorem dropFirst_sublist (f : T) (opts : List (Opt T)) : (dropFirst f opts).Sublist opts :=
  List.eraseP_sublist

theorem dropAll_sublist (f : T) (opts : List (Opt T)) : (dropAll f opts).Sublist opts :=
  List.filter_sublist

theorem Scan.runOpts_sublist {p : Scan T ε α} {opts : List (Opt T)} {r : α × List (Opt T)}
    (hr : p.runOpts opts = .ok r) : r.2.Sublist opts := by
  induction p generalizing opts with
  | done a =>
      cases hr
      exact .refl _
  | stop e => cases hr
  | flag f next ih => exact (ih _ hr).trans (dropFirst_sublist f opts)
  | value f next ih => exact (ih _ hr).trans (dropFirst_sublist f opts)
  | values f next ih => exact (ih _ hr).trans (dropAll_sublist f opts)

section Missing
variable {f : T}

theorem takeFlag_of_not_mem {back : List T} (h : f ∉ back) : takeFlag f back = (false, back) :=
  if_neg h

theorem takeFlagValue_of_not_mem {back : List T} (h : f ∉ back) :
    takeFlagValue f back = some (none, back) := by
  have htake := takeFlagValue_append h []
  simpa [takeFlagValue] using htake

theorem takeFlagValues_of_not_mem {back : List T} (h : f ∉ back) :
    takeFlagValues f back = some ([], back) := by
  have htake := takeFlagValues_append h []
  simpa [takeFlagValues] using htake

theorem dropFirst_of_any {opts : List (Opt T)} (h : (opts.any fun o => o.name = f) = false) :
    dropFirst f opts = opts := by
  rw [List.any_eq_false] at h
  exact List.eraseP_of_forall_not h

theorem dropFirst_of_valueOf {opts : List (Opt T)} {g : Grammar T} (hopts : ∀ o ∈ opts, o.Fits g)
    (hf : f ∈ g.valued) (h : valueOf f opts = none) : dropFirst f opts = opts := by
  induction opts with
  | nil => rfl
  | cons o opts ih =>
      by_cases hname : o.name = f
      · obtain ⟨v, rfl⟩ := Opt.eq_valued (hopts o List.mem_cons_self) hf hname
        simp [valueOf] at h
      · rw [valueOf_cons_of_ne hname] at h
        rw [dropFirst_cons_of_ne hname, ih (fun p hp => hopts p (List.mem_cons_of_mem _ hp)) h]

end Missing

section Runs
variable {g} {missing : T → ε}

theorem Scan.mem_misses {p : Scan T ε α} (hp : p.Within g) {opts : List (Opt T)} {f : T}
    (hf : f ∈ p.misses opts) : f ∈ g.flags ∨ f ∈ g.valued := by
  induction p generalizing opts with
  | done a => exact absurd hf List.not_mem_nil
  | stop e => exact absurd hf List.not_mem_nil
  | flag n next ih =>
      rw [Scan.misses, List.mem_append] at hf
      rcases hf with hf | hf
      · split at hf
        · exact absurd hf List.not_mem_nil
        · exact .inl (List.mem_singleton.mp hf ▸ hp.1)
      · exact ih _ (hp.2 _) hf
  | value n next ih =>
      rw [Scan.misses, List.mem_append] at hf
      rcases hf with hf | hf
      · split at hf
        · exact absurd hf List.not_mem_nil
        · exact .inr (List.mem_singleton.mp hf ▸ hp.1)
      · exact ih _ (hp.2 _) hf
  | values n next ih =>
      rcases List.mem_cons.mp hf with rfl | hf
      · exact .inr hp.1
      · exact ih _ (hp.2 _) hf

/-- Where what the options miss is not behind them either, the program makes of the vector
what it makes of the options, and leaves the rest of it alone. -/
theorem run_line (p : Scan T ε α) (hp : p.Within g) {opts : List (Opt T)} {back : List T}
    (hopts : ∀ o ∈ opts, o.Fits g) (hback : ∀ f ∈ p.misses opts, f ∉ back) :
    p.run missing (line opts back) =
      (p.runOpts opts).map fun r => (r.1, line r.2 back) := by
  induction p generalizing opts with
  | done a => rfl
  | stop e => rfl
  | flag f next ih =>
      rw [Scan.misses] at hback
      rw [Scan.run, Scan.runOpts, takeFlag_line hopts hp.1]
      cases hany : opts.any fun o => o.name = f with
      | true =>
          rw [hany] at hback
          exact ih true (hp.2 true) (fun o ho => hopts o ((dropFirst_sublist f opts).subset ho)) hback
      | false =>
          rw [hany, dropFirst_of_any hany] at hback
          rw [dropFirst_of_any hany, takeFlag_of_not_mem (hback f List.mem_cons_self)]
          exact ih false (hp.2 false) hopts fun x hx => hback x (List.mem_cons_of_mem _ hx)
  | value f next ih =>
      rw [Scan.misses] at hback
      rw [Scan.run, Scan.runOpts, takeFlagValue_line hopts hp.1]
      cases hvalue : valueOf f opts with
      | some v =>
          rw [hvalue] at hback
          exact ih (some v) (hp.2 _) (fun o ho => hopts o ((dropFirst_sublist f opts).subset ho)) hback
      | none =>
          have hdrop := dropFirst_of_valueOf hopts hp.1 hvalue
          rw [hvalue, hdrop] at hback
          rw [hdrop, takeFlagValue_of_not_mem (hback f List.mem_cons_self)]
          exact ih none (hp.2 none) hopts fun x hx => hback x (List.mem_cons_of_mem _ hx)
  | values f next ih =>
      rw [Scan.misses] at hback
      rw [Scan.run, Scan.runOpts, takeFlagValues_line hopts hp.1,
        takeFlagValues_of_not_mem (hback f List.mem_cons_self)]
      simp only [Option.map_some, List.append_nil]
      exact ih _ (hp.2 _) (fun o ho => hopts o ((dropAll_sublist f opts).subset ho))
        fun x hx => hback x (List.mem_cons_of_mem _ hx)

/-- Behind tokens that are no flags, the vector only gets shorter, and does so where a flag
is that the options miss. -/
theorem run_line_ok (p : Scan T ε α) (hp : p.Within g) {opts : List (Opt T)} {lead back : List T}
    (hopts : ∀ o ∈ opts, o.Fits g) (hlead : ∀ t ∈ lead, t ∉ g.flags ∧ t ∉ g.valued)
    {a : α} {rest : List T} (hrun : p.run missing (line opts (lead ++ back)) = .ok (a, rest)) :
    ∃ opts' back', opts'.Sublist opts ∧ rest = line opts' (lead ++ back') ∧
      back'.length ≤ back.length ∧
      ((∃ f ∈ p.misses opts, f ∈ back) → back'.length < back.length) := by
  have hflag {f : T} (hf : f ∈ g.flags) : f ∉ lead := fun h => (hlead f h).1 hf
  have hvalued {f : T} (hf : f ∈ g.valued) : f ∉ lead := fun h => (hlead f h).2 hf
  induction p generalizing opts back with
  | done a =>
      cases hrun
      exact ⟨opts, back, .refl _, rfl, Nat.le_refl _,
        fun ⟨f, hf, _⟩ => absurd hf List.not_mem_nil⟩
  | stop e => cases hrun
  | flag f next ih =>
      rw [Scan.run, takeFlag_line hopts hp.1] at hrun
      rw [Scan.misses]
      cases hany : opts.any fun o => o.name = f with
      | true =>
          rw [hany] at hrun
          obtain ⟨opts', back', hsub, hrest⟩ := ih true (hp.2 true)
            (fun o ho => hopts o ((dropFirst_sublist f opts).subset ho)) hrun
          exact ⟨opts', back', hsub.trans (dropFirst_sublist f opts), hrest⟩
      | false =>
          rw [hany, takeFlag_append (hflag hp.1)] at hrun
          have hlen := takeFlag_length (f := f) back
          by_cases hf : f ∈ back
          · obtain ⟨opts', back', hsub, hrest, hle, -⟩ := ih _ (hp.2 _) hopts hrun
            exact ⟨opts', back', hsub, hrest, Nat.le_trans hle hlen.1,
              fun _ => Nat.lt_of_le_of_lt hle (hlen.2 hf)⟩
          · rw [takeFlag_of_not_mem hf] at hrun
            obtain ⟨opts', back', hsub, hrest, hle, hless⟩ := ih false (hp.2 _) hopts hrun
            refine ⟨opts', back', hsub, hrest, hle, fun ⟨x, hx, hxb⟩ => hless ⟨x, ?_, hxb⟩⟩
            rw [dropFirst_of_any hany] at hx
            exact (List.mem_cons.mp hx).resolve_left fun h => hf (h ▸ hxb)
  | value f next ih =>
      rw [Scan.run, takeFlagValue_line hopts hp.1] at hrun
      rw [Scan.misses]
      cases hvalue : valueOf f opts with
      | some v =>
          rw [hvalue] at hrun
          obtain ⟨opts', back', hsub, hrest⟩ := ih (some v) (hp.2 _)
            (fun o ho => hopts o ((dropFirst_sublist f opts).subset ho)) hrun
          exact ⟨opts', back', hsub.trans (dropFirst_sublist f opts), hrest⟩
      | none =>
          rw [hvalue, takeFlagValue_append (hvalued hp.1)] at hrun
          cases htake : takeFlagValue f back with
          | none =>
              rw [htake] at hrun
              cases hrun
          | some r =>
              rw [htake] at hrun
              have hlen := takeFlagValue_length htake
              by_cases hf : f ∈ back
              · obtain ⟨opts', back', hsub, hrest, hle, -⟩ := ih _ (hp.2 _) hopts hrun
                exact ⟨opts', back', hsub, hrest, Nat.le_trans hle hlen.1,
                  fun _ => Nat.lt_of_le_of_lt hle (hlen.2 hf)⟩
              · rw [takeFlagValue_of_not_mem hf] at htake
                cases htake
                obtain ⟨opts', back', hsub, hrest, hle, hless⟩ := ih none (hp.2 _) hopts hrun
                refine ⟨opts', back', hsub, hrest, hle, fun ⟨x, hx, hxb⟩ => hless ⟨x, ?_, hxb⟩⟩
                rw [dropFirst_of_valueOf hopts hp.1 hvalue] at hx
                exact (List.mem_cons.mp hx).resolve_left fun h => hf (h ▸ hxb)
  | values f next ih =>
      rw [Scan.run, takeFlagValues_line hopts hp.1, takeFlagValues_append (hvalued hp.1)] at hrun
      rw [Scan.misses]
      have hfits : ∀ o ∈ dropAll f opts, o.Fits g :=
        fun o ho => hopts o ((dropAll_sublist f opts).subset ho)
      cases htake : takeFlagValues f back with
      | none =>
          rw [htake] at hrun
          cases hrun
      | some r =>
          rw [htake] at hrun
          have hlen := takeFlagValues_length htake
          by_cases hf : f ∈ back
          · obtain ⟨opts', back', hsub, hrest, hle, -⟩ := ih _ (hp.2 _) hfits hrun
            exact ⟨opts', back', hsub.trans (dropAll_sublist f opts), hrest,
              Nat.le_trans hle hlen.1, fun _ => Nat.lt_of_le_of_lt hle (hlen.2 hf)⟩
          · rw [takeFlagValues_of_not_mem hf] at htake
            cases htake
            simp only [Option.map_some, List.append_nil] at hrun
            obtain ⟨opts', back', hsub, hrest, hle, hless⟩ := ih _ (hp.2 _) hfits hrun
            refine ⟨opts', back', hsub.trans (dropAll_sublist f opts), hrest, hle,
              fun ⟨x, hx, hxb⟩ => hless ⟨x, ?_, hxb⟩⟩
            exact (List.mem_cons.mp hx).resolve_left fun h => hf (h ▸ hxb)

end Runs
end Lines

end Rtmap.FlagScan
