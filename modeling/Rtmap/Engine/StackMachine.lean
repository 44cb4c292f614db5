import Rtmap.Engine.Expressions
import Rtmap.Lib.Transition

/-!
# The stack machine and DWARF

`eval_stack_machine` beside the operations of the standard. They part where the smallest
word is divided by minus one, which panics, and in shifts by 64 and more, whose amount the
machine takes modulo 64.
-/
namespace Rtmap.Engine
open StackWords Transition

/-- The stack operation that a step stands for. -/
def ExprStep.op : ExprStep → Option Op
  | .plus => some .plus
  | .minus => some .minus
  | .mul => some .mul
  | .div => some .div
  | .mod => some .mod
  | .neg => some .neg
  | .abs => some .abs
  | .and => some .and
  | .or => some .or
  | .xor => some .xor
  | .shl => some .shl
  | .shr => some .shr
  | .shra => some .shra
  | .not => some .not
  | .drop => some .drop
  | .pick idx => some (.pick idx.toNat)
  | .swap => some .swap
  | .rot => some .rot
  | .plusConst c => some (.plusConst c)
  | _ => none

/-- The stack, if the operation has a result. -/
def ofResult (st : Option (List UInt64)) : Except Halt (List UInt64) :=
  match st with
  | some st => .ok st
  | none => .error .fail

/-- What DWARF says of a step, with the memory of the target. -/
def dwarfStep (mem : UInt64 → UInt8 → Option UInt64) (regs : RegIdx → UInt64) (frameBase : UInt64)
    (cfa : Bool) (st : List UInt64) : ExprStep → Except Halt (List UInt64)
  | .lit v => .ok (v :: st)
  | .signedLit v => .ok (v.toUInt64 :: st)
  | .reg r => push ((dwarfRegToIdx r).map regs) st
  | .breg r off => push ((dwarfRegToIdx r).map fun i => regs i + off.toUInt64) st
  | .frameBase off => .ok (((if cfa then computeCfa regs else frameBase) + off.toUInt64) :: st)
  | .addr a => .ok (a :: st)
  | .cfa => .ok (computeCfa regs :: st)
  | .deref size =>
      match st with
      | a :: rest => push (mem a size) rest
      | [] => .error .fail
  | .stackValue | .piece _ => .ok st
  | s => ofResult (s.op.bind fun op => op.apply st)

/-- The address that DWARF gives the object, or its first piece. -/
def dwarfAddress (mem : UInt64 → UInt8 → Option UInt64) (regs : RegIdx → UInt64)
    (frameBase : UInt64) (cfa : Bool) (steps : List ExprStep) : Evaluated :=
  (Machine.run (dwarfStep mem regs frameBase cfa) steps).result

/-- The evaluation does not panic, and a value that it returns is the one of DWARF. -/
def Faithful (checks : Bool) (regs : RegIdx → UInt64) (frameBase : UInt64) (cfa : Bool)
    (steps : List ExprStep) : Prop :=
  evalStackMachine checks regs frameBase cfa steps ≠ .panic ∧
    ∀ v, evalStackMachine checks regs frameBase cfa steps = .value (some v) →
      ∀ mem, dwarfAddress mem regs frameBase cfa steps = .value (some v)

/-- The operands suit the step: the smallest word is not divided by minus one, and a shift by
64 or more leaves what a shift by the remainder modulo 64 leaves, unless the result is a value. -/
def Suits (checks isStackValue : Bool) : ExprStep → List UInt64 → Prop
  | .div, b :: a :: _ => ¬ (a.toInt64 = Int64.minValue ∧ b.toInt64 = -1)
  | .shl, b :: a :: _ => isStackValue = true ∨ b.toNat < 64 ∨ a <<< (b % 64) = 0
  | .shr, b :: a :: _ => isStackValue = true ∨ b.toNat < 64 ∨ a >>> (b % 64) = 0
  | .shra, b :: a :: _ => ¬ (checks = true ∧ 64 ≤ b.toUInt32.toNat) ∧
      (isStackValue = true ∨ b.toNat < 64 ∨
        sar a (b.toNat % 64) = if a.toInt64.toInt < 0 then -1 else 0)
  | _, _ => True

/-- The step is taken with operands that suit it. -/
def StepSuits (checks : Bool) : Machine → ExprStep → Prop
  | .running st isStackValue, s => Suits checks isStackValue s st
  | _, _ => True

section Shifts
variable (a b : UInt64)

theorem toNat_low : b.toUInt32.toUInt64.toNat = b.toNat % 2 ^ 32 := by
  rw [UInt32.toNat_toUInt64, UInt64.toNat_toUInt32]

theorem shiftLeft_low : a <<< b.toUInt32.toUInt64 = a <<< (b % 64) := by
  apply UInt64.toNat_inj.mp
  rw [UInt64.toNat_shiftLeft, UInt64.toNat_shiftLeft, toNat_low, UInt64.toNat_mod]
  congr 2
  change b.toNat % 2 ^ 32 % 64 = b.toNat % 64 % 64
  omega

theorem shiftRight_low : a >>> b.toUInt32.toUInt64 = a >>> (b % 64) := by
  apply UInt64.toNat_inj.mp
  rw [UInt64.toNat_shiftRight, UInt64.toNat_shiftRight, toNat_low, UInt64.toNat_mod]
  congr 1
  change b.toNat % 2 ^ 32 % 64 = b.toNat % 64 % 64
  omega

theorem mod_of_lt (h : b.toNat < 64) : b % 64 = b := by
  apply UInt64.toNat_inj.mp
  rw [UInt64.toNat_mod]
  exact Nat.mod_eq_of_lt h

/-- The machine's shifts are those of DWARF exactly for the amounts that suit them. -/
theorem shl_eq_iff : a <<< b.toUInt32.toUInt64 = shl a b ↔ b.toNat < 64 ∨ a <<< (b % 64) = 0 := by
  rw [shiftLeft_low, shl]
  split
  · rename_i h
    rw [mod_of_lt b h]
    exact iff_of_true rfl (.inl h)
  · rename_i h
    exact (or_iff_right h).symm

theorem shr_eq_iff : a >>> b.toUInt32.toUInt64 = shr a b ↔ b.toNat < 64 ∨ a >>> (b % 64) = 0 := by
  rw [shiftRight_low, shr]
  split
  · rename_i h
    rw [mod_of_lt b h]
    exact iff_of_true rfl (.inl h)
  · rename_i h
    exact (or_iff_right h).symm

theorem shra_eq_iff : sar a (b.toUInt32.toNat % 64) = shra a b ↔
    b.toNat < 64 ∨ sar a (b.toNat % 64) = if a.toInt64.toInt < 0 then -1 else 0 := by
  have hlow : b.toUInt32.toNat % 64 = b.toNat % 64 := by
    rw [UInt64.toNat_toUInt32]
    omega
  rw [hlow, shra]
  by_cases h : b.toNat < 64
  · rw [Nat.mod_eq_of_lt h]
    exact iff_of_true rfl (.inl h)
  · rw [sar_of_le (Nat.le_of_not_lt h)]
    exact (or_iff_right h).symm

end Shifts

section Steps
variable {checks : Bool} {regs : RegIdx → UInt64} {frameBase : UInt64} {cfa isStackValue : Bool}
  {st : List UInt64} {s : ExprStep}

theorem unsignedAbs_eq (v : UInt64) : unsignedAbs v = StackWords.abs v := by
  rw [unsignedAbs, StackWords.abs]
  exact if_congr Int64.lt_iff_toInt_lt rfl rfl

/-- A step whose operands suit it does what DWARF says; memory is not read. -/
theorem evalStep_eq (hsuits : Suits checks false s st) (hderef : ∀ size, s ≠ .deref size)
    (mem : UInt64 → UInt8 → Option UInt64) :
    evalStep checks regs frameBase cfa st s = dwarfStep mem regs frameBase cfa st s := by
  cases s with
  | deref size => exact absurd rfl (hderef size)
  | lit | signedLit | reg | breg | frameBase | addr | cfa | stackValue | piece => rfl
  | plus | minus | mul | and | or | xor | swap =>
      rcases st with _ | ⟨b, _ | ⟨a, rest⟩⟩ <;> rfl
  | neg | not | drop | plusConst => rcases st with _ | ⟨a, rest⟩ <;> rfl
  | rot => rcases st with _ | ⟨c, _ | ⟨b, _ | ⟨a, rest⟩⟩⟩ <;> rfl
  | abs =>
      rcases st with _ | ⟨a, rest⟩
      · rfl
      · exact congrArg (fun w => Except.ok (w :: rest)) (unsignedAbs_eq a)
  | pick idx =>
      change push st[idx.toNat]? st = ofResult (st[idx.toNat]?.map (· :: st))
      cases st[idx.toNat]? <;> rfl
  | mod =>
      rcases st with _ | ⟨b, _ | ⟨a, rest⟩⟩
      · rfl
      · rfl
      · simp only [evalStep, dwarfStep, ExprStep.op, Option.bind_some, Op.apply, pop2]
        split <;> rfl
  | div =>
      rcases st with _ | ⟨b, _ | ⟨a, rest⟩⟩
      · rfl
      · rfl
      · simp only [evalStep, dwarfStep, ExprStep.op, Option.bind_some, Op.apply, pop2]
        by_cases hzero : b = 0
        · rw [if_pos hzero, if_pos hzero]
          rfl
        · rw [if_neg hzero, if_neg hzero, if_neg hsuits, div_eq]
          rfl
  | shl =>
      rcases st with _ | ⟨b, _ | ⟨a, rest⟩⟩
      · rfl
      · rfl
      · have hshift := (shl_eq_iff a b).mpr (hsuits.resolve_left Bool.false_ne_true)
        exact congrArg (fun w => Except.ok (w :: rest)) hshift
  | shr =>
      rcases st with _ | ⟨b, _ | ⟨a, rest⟩⟩
      · rfl
      · rfl
      · have hshift := (shr_eq_iff a b).mpr (hsuits.resolve_left Bool.false_ne_true)
        exact congrArg (fun w => Except.ok (w :: rest)) hshift
  | shra =>
      rcases st with _ | ⟨b, _ | ⟨a, rest⟩⟩
      · rfl
      · rfl
      · have hshift := (shra_eq_iff a b).mpr (hsuits.2.resolve_left Bool.false_ne_true)
        simp only [evalStep, pop2]
        rw [if_neg hsuits.1, hshift]
        rfl

/-- A step whose operands suit it does not panic. -/
theorem evalStep_ne_panic (hsuits : Suits checks isStackValue s st) :
    evalStep checks regs frameBase cfa st s ≠ .error .panic := by
  intro h
  cases s with
  | lit | signedLit | frameBase | addr | cfa | deref | stackValue | piece => cases h
  | reg r =>
      rw [evalStep] at h
      cases hr : dwarfRegToIdx r <;> rw [hr] at h <;> cases h
  | breg r off =>
      rw [evalStep] at h
      cases hr : dwarfRegToIdx r <;> rw [hr] at h <;> cases h
  | pick idx =>
      rw [evalStep] at h
      cases hx : st[idx.toNat]? <;> rw [hx] at h <;> cases h
  | plus | minus | mul | and | or | xor | swap | shl | shr =>
      rcases st with _ | ⟨b, _ | ⟨a, rest⟩⟩ <;> cases h
  | neg | abs | not | drop | plusConst => rcases st with _ | ⟨a, rest⟩ <;> cases h
  | rot => rcases st with _ | ⟨c, _ | ⟨b, _ | ⟨a, rest⟩⟩⟩ <;> cases h
  | mod =>
      rcases st with _ | ⟨b, _ | ⟨a, rest⟩⟩
      · cases h
      · cases h
      · simp only [evalStep, pop2] at h
        split at h <;> cases h
  | div =>
      rcases st with _ | ⟨b, _ | ⟨a, rest⟩⟩
      · cases h
      · cases h
      · simp only [evalStep, pop2] at h
        rw [if_neg hsuits] at h
        split at h <;> cases h
  | shra =>
      rcases st with _ | ⟨b, _ | ⟨a, rest⟩⟩
      · cases h
      · cases h
      · simp only [evalStep, pop2] at h
        rw [if_neg hsuits.1] at h
        cases h

/-- A step whose operands do not suit it panics or leaves another word on the stack. -/
theorem evalStep_of_not_suits (hsuits : ¬ Suits checks isStackValue s st) :
    evalStep checks regs frameBase cfa st s = .error .panic ∨
      isStackValue = false ∧ ∃ x y rest, x ≠ y ∧
        evalStep checks regs frameBase cfa st s = .ok (x :: rest) ∧
        ∀ mem, dwarfStep mem regs frameBase cfa st s = .ok (y :: rest) := by
  unfold Suits at hsuits
  split at hsuits
  · rename_i b a rest
    have hmin := not_not.mp hsuits
    have hzero : b ≠ 0 := by
      intro hb
      rw [hb] at hmin
      exact absurd hmin.2 (by decide)
    left
    simp only [evalStep, pop2]
    rw [if_neg hzero, if_pos hmin]
    rfl
  · rename_i b a rest
    obtain ⟨hvalue, hshift⟩ := not_or.mp hsuits
    exact .inr ⟨Bool.eq_false_of_not_eq_true hvalue, _, _, rest,
      fun h => hshift ((shl_eq_iff a b).mp h), rfl, fun _ => rfl⟩
  · rename_i b a rest
    obtain ⟨hvalue, hshift⟩ := not_or.mp hsuits
    exact .inr ⟨Bool.eq_false_of_not_eq_true hvalue, _, _, rest,
      fun h => hshift ((shr_eq_iff a b).mp h), rfl, fun _ => rfl⟩
  · rename_i b a rest
    by_cases hchecks : checks = true ∧ 64 ≤ b.toUInt32.toNat
    · left
      simp only [evalStep, pop2]
      rw [if_pos hchecks]
      rfl
    · obtain ⟨hvalue, hshift⟩ := not_or.mp fun h => hsuits ⟨hchecks, h⟩
      refine .inr ⟨Bool.eq_false_of_not_eq_true hvalue, _, _, rest,
        fun h => hshift ((shra_eq_iff a b).mp h), ?_, fun _ => rfl⟩
      simp only [evalStep, pop2]
      rw [if_neg hchecks]
      rfl
  · exact absurd trivial hsuits

end Steps

/-- The machine has not panicked, and the one of DWARF stands where it stands if it can still
return a value. -/
def Machine.Tracks : Machine → Machine → Prop
  | .halted .panic, _ => False
  | .running st false, ref => ref = .running st false
  | .broken st false, ref => ref = .broken st false
  | _, _ => True

section Runs
variable {checks : Bool} {regs : RegIdx → UInt64} {frameBase : UInt64} {cfa : Bool}

theorem Machine.run_concat (step : List UInt64 → ExprStep → Except Halt (List UInt64))
    (steps : List ExprStep) (s : ExprStep) :
    Machine.run step (steps ++ [s]) = (Machine.run step steps).next step s :=
  List.foldl_concat ..

/-- Other steps than the two that the loop itself looks at are taken by the operation. -/
theorem Machine.next_running {step : List UInt64 → ExprStep → Except Halt (List UInt64)}
    {s : ExprStep} (hvalue : s ≠ .stackValue) (hpiece : ∀ size, s ≠ .piece size)
    (st : List UInt64) (isStackValue : Bool) :
    (Machine.running st isStackValue).next step s =
      match step st s with
      | .ok st' => .running st' isStackValue
      | .error h => .halted h := by
  cases s with
  | stackValue => exact absurd rfl hvalue
  | piece size => exact absurd rfl (hpiece size)
  | _ => rfl

/-- One step whose operands suit it. -/
theorem Machine.Tracks.next {m ref : Machine} {s : ExprStep} (h : m.Tracks ref)
    (hsuits : StepSuits checks m s) (mem : UInt64 → UInt8 → Option UInt64) :
    (m.next (evalStep checks regs frameBase cfa) s).Tracks
      (ref.next (dwarfStep mem regs frameBase cfa) s) := by
  cases m with
  | halted halt =>
      cases halt with
      | fail => trivial
      | panic => exact h
  | broken st isStackValue =>
      cases isStackValue with
      | true => trivial
      | false =>
          obtain rfl : ref = .broken st false := h
          rfl
  | running st isStackValue =>
      by_cases hvalue : s = .stackValue
      · subst hvalue
        trivial
      by_cases hpiece : ∃ size, s = .piece size
      · obtain ⟨size, rfl⟩ := hpiece
        cases isStackValue with
        | true => trivial
        | false =>
            obtain rfl : ref = .running st false := h
            rfl
      have hloop := fun size hs => hpiece ⟨size, hs⟩
      have hpanic : evalStep checks regs frameBase cfa st s ≠ .error .panic :=
        evalStep_ne_panic hsuits
      rw [next_running hvalue hloop]
      by_cases hderef : ∃ size, s = .deref size
      · obtain ⟨size, rfl⟩ := hderef
        trivial
      cases isStackValue with
      | true =>
          cases hstep : evalStep checks regs frameBase cfa st s with
          | ok st' => trivial
          | error halt =>
              cases halt with
              | fail => trivial
              | panic => exact hpanic hstep
      | false =>
          obtain rfl : ref = .running st false := h
          rw [next_running hvalue hloop,
            ← evalStep_eq hsuits (fun size hs => hderef ⟨size, hs⟩) mem]
          cases hstep : evalStep checks regs frameBase cfa st s with
          | ok st' => rfl
          | error halt =>
              cases halt with
              | fail => trivial
              | panic => exact hpanic hstep

theorem Machine.Tracks.result_ne_panic {m ref : Machine} (h : m.Tracks ref) :
    m.result ≠ .panic := by
  intro hpanic
  cases m with
  | halted halt =>
      cases halt with
      | fail => cases hpanic
      | panic => exact h
  | running | broken => cases hpanic

theorem Machine.Tracks.result_eq {m ref : Machine} (h : m.Tracks ref) {v : UInt64}
    (hv : m.result = .value (some v)) : ref.result = .value (some v) := by
  cases m with
  | halted halt => cases halt <;> cases hv
  | running st isStackValue =>
      cases isStackValue with
      | true => cases hv
      | false =>
          obtain rfl : ref = .running st false := h
          exact hv
  | broken st isStackValue =>
      cases isStackValue with
      | true => cases hv
      | false =>
          obtain rfl : ref = .broken st false := h
          exact hv

/-- A step whose operands do not suit it shows at once. -/
theorem suits_of_faithful {front : List ExprStep} {s : ExprStep}
    (htracks : ∀ mem, (Machine.run (evalStep checks regs frameBase cfa) front).Tracks
      (Machine.run (dwarfStep mem regs frameBase cfa) front))
    (h : Faithful checks regs frameBase cfa (front ++ [s])) :
    StepSuits checks (Machine.run (evalStep checks regs frameBase cfa) front) s := by
  obtain ⟨hpanic, hsame⟩ := h
  simp only [evalStackMachine, dwarfAddress, Machine.run_concat] at hpanic hsame
  cases hm : Machine.run (evalStep checks regs frameBase cfa) front with
  | broken => trivial
  | halted => trivial
  | running st isStackValue =>
      simp only [hm] at htracks hpanic hsame
      by_contra hsuits
      have hvalue : s ≠ .stackValue := by
        intro hs
        subst hs
        exact hsuits trivial
      have hpiece : ∀ size, s ≠ .piece size := by
        intro size hs
        subst hs
        exact hsuits trivial
      rw [Machine.next_running hvalue hpiece] at hpanic hsame
      have hcases : evalStep checks regs frameBase cfa st s = .error .panic ∨ _ :=
        evalStep_of_not_suits hsuits
      rcases hcases with hstep | ⟨rfl, x, y, rest, hne, hstep, hdwarf⟩
      · rw [hstep] at hpanic
        exact hpanic rfl
      · rw [hstep] at hsame
        have hx := hsame x rfl fun _ _ => none
        have hrun : Machine.run (dwarfStep (fun _ _ => none) regs frameBase cfa) front =
            .running st false := htracks _
        rw [hrun, Machine.next_running hvalue hpiece, hdwarf] at hx
        have hyx : y = x := Option.some.inj (Evaluated.value.inj hx)
        exact hne hyx.symm

/-- Every beginning of a step list is evaluated as DWARF says, exactly if each step of it is
taken with operands that suit it. -/
theorem evalStackMachine_faithful_iff (checks : Bool) (regs : RegIdx → UInt64) (frameBase : UInt64)
    (cfa : Bool) (steps : List ExprStep) :
    (∀ front, front <+: steps → Faithful checks regs frameBase cfa front) ↔
      ∀ front s, front ++ [s] <+: steps →
        StepSuits checks (Machine.run (evalStep checks regs frameBase cfa) front) s := by
  refine forall_prefix_iff_of_invariant
    (I := fun front => ∀ mem, (Machine.run (evalStep checks regs frameBase cfa) front).Tracks
      (Machine.run (dwarfStep mem regs frameBase cfa) front)) ?_ ?_ ?_ ?_ steps
  · exact fun _ => rfl
  · intro front h
    exact ⟨(h fun _ _ => none).result_ne_panic, fun v hv mem => (h mem).result_eq hv⟩
  · intro front s h hsuits mem
    rw [Machine.run_concat, Machine.run_concat]
    exact (h mem).next hsuits mem
  · exact fun front s => suits_of_faithful

/-- One shifted by 64 is one for the machine and zero for DWARF. -/
theorem shift_by_64_keeps_word :
    ¬ ∀ (checks : Bool) (regs : RegIdx → UInt64) (frameBase : UInt64) (cfa : Bool)
      (steps : List ExprStep), Faithful checks regs frameBase cfa steps := by
  intro h
  have hone : evalStackMachine false (fun _ => 0) 0 false [.lit 1, .lit 64, .shl] =
      .value (some 1) := by decide
  have hdwarf := (h false (fun _ => 0) 0 false _).2 1 hone fun _ _ => none
  exact absurd hdwarf (by decide)

end Runs

end Rtmap.Engine
