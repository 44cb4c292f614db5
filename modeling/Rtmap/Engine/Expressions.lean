import Rtmap.Engine.Steps
import Rtmap.Lib.StackWords

/-!
# DWARF expressions

The evaluator of location expressions, and the special forms that stand for some step
lists. A special form of two patterns drops what the last steps of the pattern say: the
dereference, and that the result is a value.
-/
namespace Rtmap.Engine
open StackWords (sar)

/-- How evaluation ends early. -/
inductive Halt where
  | fail | panic
deriving DecidableEq, Repr

/-- What an evaluation comes to. -/
inductive Evaluated where
  | value (v : Option UInt64)
  | panic
deriving DecidableEq, Repr

section Steps

/-- An operation on the two top words, the top being the second operand. -/
def pop2 (f : UInt64 → UInt64 → Except Halt UInt64) : List UInt64 → Except Halt (List UInt64)
  | b :: a :: st => (f a b).map (· :: st)
  | _ => .error .fail

/-- An operation on the top word. -/
def onLast (f : UInt64 → UInt64) : List UInt64 → Except Halt (List UInt64)
  | a :: st => .ok (f a :: st)
  | [] => .error .fail

/-- Push the word, if there is one. -/
def push (v : Option UInt64) (st : List UInt64) : Except Halt (List UInt64) :=
  match v with
  | some v => .ok (v :: st)
  | none => .error .fail

/-- `unsigned_abs` -/
def unsignedAbs (v : UInt64) : UInt64 := if v.toInt64 < 0 then 0 - v else v

variable (checks : Bool) (regs : RegIdx → UInt64) (frameBase : UInt64) (cfa : Bool)

/-- One step of `eval_stack_machine` on the stack, its top first. `checks` says whether the
build has overflow checks: without them a shift takes its amount modulo 64. -/
def evalStep (st : List UInt64) : ExprStep → Except Halt (List UInt64)
  | .lit v => .ok (v :: st)
  | .signedLit v => .ok (v.toUInt64 :: st)
  | .reg r => push ((dwarfRegToIdx r).map regs) st
  | .breg r off => push ((dwarfRegToIdx r).map fun i => regs i + off.toUInt64) st
  | .frameBase off => .ok (((if cfa then computeCfa regs else frameBase) + off.toUInt64) :: st)
  | .addr a => .ok (a :: st)
  | .cfa => .ok (computeCfa regs :: st)
  | .deref _ => .error .fail
  | .plus => pop2 (fun a b => .ok (a + b)) st
  | .minus => pop2 (fun a b => .ok (a - b)) st
  | .mul => pop2 (fun a b => .ok (a * b)) st
  | .div => pop2 (fun a b =>
      if b = 0 then .error .fail
      else if a.toInt64 = Int64.minValue ∧ b.toInt64 = -1 then .error .panic
      else .ok (a.toInt64 / b.toInt64).toUInt64) st
  | .mod => pop2 (fun a b => if b = 0 then .error .fail else .ok (a % b)) st
  | .neg => onLast (fun v => 0 - v) st
  | .abs => onLast unsignedAbs st
  | .and => pop2 (fun a b => .ok (a &&& b)) st
  | .or => pop2 (fun a b => .ok (a ||| b)) st
  | .xor => pop2 (fun a b => .ok (a ^^^ b)) st
  | .shl => pop2 (fun a b => .ok (a <<< b.toUInt32.toUInt64)) st
  | .shr => pop2 (fun a b => .ok (a >>> b.toUInt32.toUInt64)) st
  | .shra => pop2 (fun a b =>
      if checks ∧ 64 ≤ b.toUInt32.toNat then .error .panic
      else .ok (sar a (b.toUInt32.toNat % 64))) st
  | .not => onLast (fun v => ~~~v) st
  | .drop =>
      match st with
      | _ :: rest => .ok rest
      | [] => .error .fail
  | .pick idx => push st[idx.toNat]? st
  | .swap =>
      match st with
      | b :: a :: rest => .ok (a :: b :: rest)
      | _ => .error .fail
  | .rot =>
      match st with
      | c :: b :: a :: rest => .ok (b :: a :: c :: rest)
      | _ => .error .fail
  | .plusConst c => onLast (fun v => v + c) st
  | .stackValue | .piece _ => .ok st

end Steps

/-- The loop over the steps: it goes on, has met a piece, or has ended early. -/
inductive Machine where
  | running (stack : List UInt64) (isStackValue : Bool)
  | broken (stack : List UInt64) (isStackValue : Bool)
  | halted (h : Halt)
deriving DecidableEq

namespace Machine

/-- The loop's body, with the meaning of the steps. -/
def next (step : List UInt64 → ExprStep → Except Halt (List UInt64)) : Machine → ExprStep → Machine
  | .running st _, .stackValue => .running st true
  | .running st isStackValue, .piece _ => .broken st isStackValue
  | .running st isStackValue, s =>
      match step st s with
      | .ok st' => .running st' isStackValue
      | .error h => .halted h
  | m, _ => m

def result : Machine → Evaluated
  | .running st isStackValue | .broken st isStackValue =>
      .value (if isStackValue then none else st.head?)
  | .halted .fail => .value none
  | .halted .panic => .panic

def run (step : List UInt64 → ExprStep → Except Halt (List UInt64)) (steps : List ExprStep) :
    Machine :=
  steps.foldl (next step) (.running [] false)

end Machine

section Resolve
variable (checks : Bool) (regs : RegIdx → UInt64) (frameBase : UInt64) (cfa : Bool)

/-- `eval_stack_machine`. -/
def evalStackMachine (steps : List ExprStep) : Evaluated :=
  (Machine.run (evalStep checks regs frameBase cfa) steps).result

/-- `resolve_expr`. -/
def resolveExpr : DwarfExprOp → Evaluated
  | .derefRegOffset reg offset _ =>
      .value ((dwarfRegToIdx reg).map fun i => regs i + offset.toUInt64)
  | .regPlusReg r1 off1 r2 off2 => .value do
      let v1 ← (dwarfRegToIdx r1).map fun i => regs i + off1.toUInt64
      let v2 ← (dwarfRegToIdx r2).map fun i => regs i + off2.toUInt64
      return v1 + v2
  | .stackMachine steps => evalStackMachine checks regs frameBase cfa steps

end Resolve

/-- The engine's surroundings with the expressions evaluated as above. -/
def Host.evaluating (checks : Bool) (host : Host) : Host :=
  { host with
    resolveExpr := fun op regs frameBase cfa =>
      match Rtmap.Engine.resolveExpr checks regs frameBase cfa op with
      | .value v => v
      | .panic => none }

/-- `decode_expression`, of the steps that the operations come to. -/
def decodeSteps : List ExprStep → Option LocationPiece
  | [] => none
  | [.addr a] => some (.address a)
  | [.frameBase off] => some (.frameBaseOffset off)
  | [.reg r] => some (.register r)
  | [.breg r off] => some (.registerOffset r off)
  | [.cfa] => some .cfa
  | [.lit v, .stackValue] => some (.implicitValue v)
  | [.signedLit v, .stackValue] => some (.implicitValue v.toUInt64)
  | [.breg r off, .deref size] => some (.expr (.derefRegOffset r off size))
  | [.breg r1 o1, .breg r2 o2, .plus, .stackValue] => some (.expr (.regPlusReg r1 o1 r2 o2))
  | [.addr a, .stackValue] => some (.implicitValue a)
  | steps => some (.expr (.stackMachine steps))

/-- The piece is not the step list itself. -/
def LocationPiece.special : LocationPiece → Bool
  | .expr (.stackMachine _) => false
  | _ => true

/-- The steps take a value from memory, or say that their result is a value, behind operands
that the registers supply. -/
def LosesStep : List ExprStep → Prop
  | [.breg r _, .deref _] => (dwarfRegToIdx r).isSome
  | [.breg r1 _, .breg r2 _, .plus, .stackValue] =>
      (dwarfRegToIdx r1).isSome ∧ (dwarfRegToIdx r2).isSome
  | _ => False

section FastPath
variable (host : Host) (checks : Bool) (regs : RegIdx → UInt64) (frameBase : UInt64) (cfa : Bool)

/-- The form of a dereference has the address before it. -/
theorem deref_agrees_iff (r : UInt16) (off : Int64) (size : UInt8) :
    Evaluated.value (resolveLocation (host.evaluating checks) (.expr (.derefRegOffset r off size))
        regs frameBase cfa) = evalStackMachine checks regs frameBase cfa [.breg r off, .deref size] ↔
      ¬ (dwarfRegToIdx r).isSome := by
  cases h : dwarfRegToIdx r <;>
    simp [evalStackMachine, Machine.run, Machine.next, Machine.result, evalStep, push,
      resolveLocation, Host.evaluating, resolveExpr, h]

/-- The form of a sum has it as an address. -/
theorem sum_agrees_iff (r1 r2 : UInt16) (o1 o2 : Int64) :
    Evaluated.value (resolveLocation (host.evaluating checks) (.expr (.regPlusReg r1 o1 r2 o2))
        regs frameBase cfa) = evalStackMachine checks regs frameBase cfa
          [.breg r1 o1, .breg r2 o2, .plus, .stackValue] ↔
      ¬ ((dwarfRegToIdx r1).isSome ∧ (dwarfRegToIdx r2).isSome) := by
  cases h1 : dwarfRegToIdx r1 with
  | none =>
      simp [evalStackMachine, Machine.run, Machine.next, Machine.result, evalStep, push,
        resolveLocation, Host.evaluating, resolveExpr, h1]
  | some i =>
      cases h2 : dwarfRegToIdx r2 <;>
        simp [evalStackMachine, Machine.run, Machine.next, Machine.result, evalStep, push, pop2,
          Except.map, resolveLocation, Host.evaluating, resolveExpr, h1, h2]

/-- A special form resolves to what the stack machine makes of its steps, exactly if it loses
none of them. -/
theorem special_agrees_iff (steps : List ExprStep) :
    (∀ p, decodeSteps steps = some p → p.special = true →
      .value (resolveLocation (host.evaluating checks) p regs frameBase cfa) =
        evalStackMachine checks regs frameBase cfa steps) ↔ ¬ LosesStep steps := by
  -- of the pieces that are decoded one is enough
  have hone {p : LocationPiece} (hp : decodeSteps steps = some p) (hspecial : p.special = true) :
      (∀ p, decodeSteps steps = some p → p.special = true →
        .value (resolveLocation (host.evaluating checks) p regs frameBase cfa) =
          evalStackMachine checks regs frameBase cfa steps) ↔
      Evaluated.value (resolveLocation (host.evaluating checks) p regs frameBase cfa) =
        evalStackMachine checks regs frameBase cfa steps := by
    constructor
    · exact fun h => h p hp hspecial
    · rintro h q hq -
      rwa [← Option.some.inj (hp.symm.trans hq)]
  fun_cases decodeSteps steps with
  | case1 => exact iff_of_true (fun p hp => by cases hp) id
  | case2 a => exact (hone rfl rfl).trans (iff_of_true rfl id)
  | case3 off => exact (hone rfl rfl).trans (iff_of_true rfl id)
  | case4 r =>
      refine (hone rfl rfl).trans (iff_of_true ?_ id)
      cases h : dwarfRegToIdx r <;>
        simp [evalStackMachine, Machine.run, Machine.next, Machine.result, evalStep, push,
          resolveLocation, h]
  | case5 r off =>
      refine (hone rfl rfl).trans (iff_of_true ?_ id)
      cases h : dwarfRegToIdx r <;>
        simp [evalStackMachine, Machine.run, Machine.next, Machine.result, evalStep, push,
          resolveLocation, h]
  | case6 => exact (hone rfl rfl).trans (iff_of_true rfl id)
  | case7 v => exact (hone rfl rfl).trans (iff_of_true rfl id)
  | case8 v => exact (hone rfl rfl).trans (iff_of_true rfl id)
  | case9 r off size => exact (hone rfl rfl).trans (deref_agrees_iff ..)
  | case10 r1 o1 r2 o2 => exact (hone rfl rfl).trans (sum_agrees_iff ..)
  | case11 a => exact (hone rfl rfl).trans (iff_of_true rfl id)
  | case12 steps hnil haddr hbase hreg hbreg hcfa hlit hsigned hderef hsum hvalue =>
      refine iff_of_true (fun p hp hspecial => ?_) fun hloses => ?_
      · obtain rfl := Option.some.inj hp
        cases hspecial
      · unfold LosesStep at hloses
        split at hloses
        · exact hderef _ _ _ rfl
        · exact hsum _ _ _ _ rfl
        · exact hloses

end FastPath

/-- A variable that is the sum of rbx and r12 and stands nowhere has the sum for its address. -/
theorem sum_value_has_address :
    ¬ ∀ (host : Host) (checks : Bool) (regs : RegIdx → UInt64) (frameBase : UInt64) (cfa : Bool)
      (steps : List ExprStep) (p : LocationPiece), decodeSteps steps = some p →
        p.special = true →
          .value (resolveLocation (host.evaluating checks) p regs frameBase cfa) =
            evalStackMachine checks regs frameBase cfa steps := by
  intro h
  have hsum := h .plain false (fun _ => 21) 0 false [.breg 3 0, .breg 12 0, .plus, .stackValue]
    _ rfl rfl
  exact (sum_agrees_iff ..).mp hsum ⟨rfl, rfl⟩

end Rtmap.Engine
