import Rtmap.Engine.Pieces

/-!
# Reading pieces from an expression

`op_to_steps` writes the operations of a location down as steps, and `parse_pieces` reads the
fragments of a composite location back from them. The step that says that a result is a value
puts a zero in the place of the constant before it.
-/
namespace Rtmap.Engine
open Records (ofLe)

/-- The operations of a DWARF expression, as far as they are told apart. -/
inductive Operation where
  | address (address : UInt64)
  | unsignedConstant (value : UInt64)
  | signedConstant (value : Int64)
  | register (register : UInt16)
  | registerOffset (register : UInt16) (offset : Int64)
  | frameOffset (offset : Int64)
  | callFrameCfa
  | deref (size : UInt8) (space : Bool)
  | plus | minus | mul | div | mod | neg | abs | and | or | xor | shl | shr | shra | not
  | plusConstant (value : UInt64)
  | stackValue
  | piece (sizeInBits : UInt64)
  | implicitValue (data : List UInt8)
  | nop | drop
  | pick (index : UInt8)
  | swap | rot
  | other

/-- `op_to_steps`: the steps that are pushed, unless the operation is not supported. -/
def opToSteps : Operation → Option (List ExprStep)
  | .address a => some [.addr a]
  | .unsignedConstant v => some [.lit v]
  | .signedConstant v => some [.signedLit v]
  | .register r => some [.reg r]
  | .registerOffset r offset => some [.breg r offset]
  | .frameOffset offset => some [.frameBase offset]
  | .callFrameCfa => some [.cfa]
  | .deref size space => if space then none else some [.deref size]
  | .plus => some [.plus]
  | .minus => some [.minus]
  | .mul => some [.mul]
  | .div => some [.div]
  | .mod => some [.mod]
  | .neg => some [.neg]
  | .abs => some [.abs]
  | .and => some [.and]
  | .or => some [.or]
  | .xor => some [.xor]
  | .shl => some [.shl]
  | .shr => some [.shr]
  | .shra => some [.shra]
  | .not => some [.not]
  | .plusConstant v => some [.plusConst v]
  | .stackValue => some [.stackValue]
  | .piece sizeInBits => some [.piece (sizeInBits / 8)]
  | .implicitValue data =>
      if data.length ∈ [1, 2, 4, 8] then some [.lit (UInt64.ofNat (ofLe data)), .stackValue]
      else none
  | .nop => some []
  | .drop => some [.drop]
  | .pick index => some [.pick index]
  | .swap => some [.swap]
  | .rot => some [.rot]
  | .other => none

/-- The steps of the operations of an expression. -/
def toSteps : List Operation → Option (List ExprStep)
  | [] => some []
  | op :: ops => do
      let steps ← opToSteps op
      let rest ← toSteps ops
      return steps ++ rest

/-- What `parse_pieces` keeps between the steps. -/
structure PieceParser where
  fragments : List PieceFragment := []
  varOffset : UInt64 := 0
  pendingSource : Option PieceSource := none

/-- The loop's body; `none` is a panic. `checks` says whether the build has overflow checks. -/
def PieceParser.step (checks : Bool) (p : PieceParser) : ExprStep → Option PieceParser
  | .piece byteSize =>
      if checks ∧ 2 ^ 64 ≤ p.varOffset.toNat + byteSize.toNat then none
      else some {
        fragments := p.fragments ++ [⟨p.varOffset, byteSize, p.pendingSource.getD .unknown⟩]
        varOffset := p.varOffset + byteSize }
  | .reg dwarfReg => some { p with pendingSource := some (.register dwarfReg) }
  | .breg dwarfReg offset => some { p with pendingSource := some (.registerOffset dwarfReg offset) }
  | .addr a => some { p with pendingSource := some (.memory a) }
  | .frameBase off => some { p with pendingSource := some (.frameBaseOffset off) }
  | .stackValue => some { p with pendingSource := some (.implicit 0) }
  | .lit v => some { p with pendingSource := some (.implicit v) }
  | .signedLit v => some { p with pendingSource := some (.implicit v.toUInt64) }
  | _ => some { p with pendingSource := some (p.pendingSource.getD .unknown) }

/-- Without a piece the source is one fragment, whose size the caller fills in. -/
def PieceParser.finish (p : PieceParser) : List PieceFragment :=
  if p.fragments = [] then (p.pendingSource.map fun source => ⟨0, 0, source⟩).toList
  else p.fragments

/-- `parse_pieces`. -/
def parsePieces (checks : Bool) (steps : List ExprStep) : Option (List PieceFragment) :=
  (steps.foldlM (PieceParser.step checks) {}).map PieceParser.finish

/-- Where a piece of a composite location is. -/
inductive PieceLocation where
  | register (register : UInt16)
  | registerOffset (register : UInt16) (offset : Int64)
  | address (address : UInt64)
  | frameBase (offset : Int64)
  | constant (value : UInt64)
  | signedConstant (value : Int64)
  | implicitValue (data : List UInt8)
  | nowhere
deriving DecidableEq, Repr

namespace PieceLocation

def operations : PieceLocation → List Operation
  | .register r => [.register r]
  | .registerOffset r offset => [.registerOffset r offset]
  | .address a => [.address a]
  | .frameBase offset => [.frameOffset offset]
  | .constant v => [.unsignedConstant v, .stackValue]
  | .signedConstant v => [.signedConstant v, .stackValue]
  | .implicitValue data => [.implicitValue data]
  | .nowhere => []

/-- The constant that the piece is. -/
def constant? : PieceLocation → Option UInt64
  | .constant v => some v
  | .signedConstant v => some v.toUInt64
  | .implicitValue data => some (UInt64.ofNat (ofLe data))
  | _ => none

/-- The location as a source. -/
def source : PieceLocation → PieceSource
  | .register r => .register r
  | .registerOffset r offset => .registerOffset r offset
  | .address a => .memory a
  | .frameBase offset => .frameBaseOffset offset
  | .constant v => .implicit v
  | .signedConstant v => .implicit v.toUInt64
  | .implicitValue data => .implicit (UInt64.ofNat (ofLe data))
  | .nowhere => .unknown

/-- The source that is read for the location. -/
def parsed (l : PieceLocation) : PieceSource :=
  match l.constant? with
  | some _ => .implicit 0
  | none => l.source

end PieceLocation

/-- A piece: its place and its size in bits. -/
structure CompositePiece where
  location : PieceLocation
  sizeInBits : UInt64

namespace CompositePiece

def size (p : CompositePiece) : UInt64 := p.sizeInBits / 8

def operations (p : CompositePiece) : List Operation := p.location.operations ++ [.piece p.sizeInBits]

end CompositePiece

/-- The pieces of a value one behind the other: offset, size and source of each. -/
def laidOutFrom : ℕ → List CompositePiece → List (ℕ × UInt64 × PieceSource)
  | _, [] => []
  | off, p :: ps => (off, p.size, p.location.source) :: laidOutFrom (off + p.size.toNat) ps

def PieceFragment.view (f : PieceFragment) : ℕ × UInt64 × PieceSource :=
  (f.varOffset.toNat, f.byteSize, f.source)

/-- The fragments are the pieces, each behind the ones before it and from its own location. -/
def ParsesTo (checks : Bool) (steps : List ExprStep) (pieces : List CompositePiece) : Prop :=
  ∃ fragments, parsePieces checks steps = some fragments ∧
    fragments.map PieceFragment.view = laidOutFrom 0 pieces

/-- The bytes of the pieces. -/
def totalSize (pieces : List CompositePiece) : ℕ := (pieces.map fun p => p.size.toNat).sum

/-- Every constant is zero, and the offsets fit a word: with overflow checks also that behind
the last piece. -/
structure Parsable (checks : Bool) (pieces : List CompositePiece) : Prop where
  zeros : ∀ p ∈ pieces, ∀ v ∈ p.location.constant?, v = 0
  fits : totalSize (if checks then pieces else pieces.dropLast) < 2 ^ 64

section Parsing
variable {checks : Bool} {p : CompositePiece} {pieces : List CompositePiece} {q : PieceParser}
  {steps : List ExprStep}

theorem toSteps_append (xs ys : List Operation) : toSteps (xs ++ ys) = do
    let front ← toSteps xs
    let back ← toSteps ys
    return front ++ back := by
  induction xs with
  | nil => simp [toSteps]
  | cons x xs ih =>
      rw [List.cons_append, toSteps, toSteps, ih]
      cases opToSteps x with
      | none => rfl
      | some s =>
          cases toSteps xs with
          | none => rfl
          | some front =>
              cases toSteps ys with
              | none => rfl
              | some back => simp

/-- The steps of a location leave its source pending, where nothing was. -/
theorem foldlM_location (checks : Bool) {l : PieceLocation} {ls : List ExprStep}
    (hls : toSteps l.operations = some ls) (hq : q.pendingSource = none) :
    ∃ pending, pending.getD .unknown = l.parsed ∧
      ls.foldlM (PieceParser.step checks) q = some { q with pendingSource := pending } := by
  cases l with
  | nowhere =>
      obtain rfl := Option.some.inj hls
      exact ⟨none, rfl, by rw [← hq]; rfl⟩
  | implicitValue data =>
      simp only [PieceLocation.operations, toSteps, opToSteps] at hls
      split at hls
      · obtain rfl := Option.some.inj hls
        exact ⟨_, rfl, rfl⟩
      · cases hls
  | register | registerOffset | address | frameBase | constant | signedConstant =>
      obtain rfl := Option.some.inj hls
      exact ⟨_, rfl, rfl⟩

/-- A piece becomes a fragment at the offset reached. -/
def CompositePiece.fragmentAt (p : CompositePiece) (varOffset : UInt64) : PieceFragment :=
  ⟨varOffset, p.size, p.location.parsed⟩

theorem foldlM_piece {ls : List ExprStep} (hls : toSteps p.operations = some ls)
    (hq : q.pendingSource = none) : ls.foldlM (PieceParser.step checks) q =
      if checks ∧ 2 ^ 64 ≤ q.varOffset.toNat + p.size.toNat then none
      else some ⟨q.fragments ++ [p.fragmentAt q.varOffset], q.varOffset + p.size, none⟩ := by
  rw [CompositePiece.operations, toSteps_append] at hls
  obtain ⟨front, hfront, hrest⟩ := Option.bind_eq_some_iff.mp hls
  obtain rfl := Option.some.inj hrest
  obtain ⟨pending, hpending, hfold⟩ := foldlM_location checks hfront hq
  rw [List.foldlM_append, hfold, CompositePiece.fragmentAt, ← hpending]
  show ((PieceParser.step checks _ _).bind fun q' => some q') = _
  rw [Option.bind_fun_some]
  rfl

/-- The fragments of pieces from an offset on, as the machine adds. -/
def fragmentsFrom : UInt64 → List CompositePiece → List PieceFragment
  | _, [] => []
  | off, p :: ps => p.fragmentAt off :: fragmentsFrom (off + p.size) ps

/-- The run over the steps of the pieces: with overflow checks it ends early where the sizes do
not fit a word. -/
theorem foldlM_pieces (hsteps : toSteps (pieces.flatMap CompositePiece.operations) = some steps)
    (hq : q.pendingSource = none) : steps.foldlM (PieceParser.step checks) q =
      if checks ∧ pieces ≠ [] ∧ 2 ^ 64 ≤ q.varOffset.toNat + totalSize pieces then none
      else some ⟨q.fragments ++ fragmentsFrom q.varOffset pieces,
        pieces.foldl (fun off p => off + p.size) q.varOffset, none⟩ := by
  induction pieces generalizing q steps with
  | nil =>
      obtain rfl := Option.some.inj hsteps
      rw [if_neg (by simp), fragmentsFrom, List.append_nil, ← hq]
      rfl
  | cons p ps ih =>
      rw [List.flatMap_cons, toSteps_append] at hsteps
      obtain ⟨front, hfront, hrest⟩ := Option.bind_eq_some_iff.mp hsteps
      obtain ⟨back, hback, hsteps⟩ := Option.bind_eq_some_iff.mp hrest
      obtain rfl := Option.some.inj hsteps
      have htotal : totalSize (p :: ps) = p.size.toNat + totalSize ps := rfl
      rw [List.foldlM_append, foldlM_piece hfront hq]
      by_cases hover : checks = true ∧ 2 ^ 64 ≤ q.varOffset.toNat + p.size.toNat
      · rw [if_pos hover, if_pos ⟨hover.1, List.cons_ne_nil _ _, by omega⟩]
        rfl
      · rw [if_neg hover, Option.bind_eq_bind, Option.bind_some, ih hback rfl]
        have hoffset (hchecks : checks = true) :
            (q.varOffset + p.size).toNat = q.varOffset.toNat + p.size.toNat := by
          have hlt : q.varOffset.toNat + p.size.toNat < 2 ^ 64 := by
            by_contra hle
            exact hover ⟨hchecks, by omega⟩
          rw [UInt64.toNat_add, Nat.mod_eq_of_lt hlt]
        have hcond : (checks = true ∧ ps ≠ [] ∧
            2 ^ 64 ≤ (q.varOffset + p.size).toNat + totalSize ps) ↔
            (checks = true ∧ p :: ps ≠ [] ∧ 2 ^ 64 ≤ q.varOffset.toNat + totalSize (p :: ps)) := by
          refine and_congr_right fun hchecks => ?_
          rw [hoffset hchecks, htotal]
          have hlt : q.varOffset.toNat + p.size.toNat < 2 ^ 64 := by
            by_contra hle
            exact hover ⟨hchecks, by omega⟩
          constructor
          · rintro ⟨-, hle⟩
            exact ⟨List.cons_ne_nil _ _, by omega⟩
          · rintro ⟨-, hle⟩
            refine ⟨?_, by omega⟩
            rintro rfl
            simp [totalSize] at hle
            omega
        rw [if_congr hcond rfl rfl, fragmentsFrom, List.append_assoc, List.singleton_append,
          List.foldl_cons]

/-- The fragments show the pieces if every constant is zero and each offset fits a word. -/
theorem view_fragmentsFrom_iff (pieces : List CompositePiece) (off : ℕ) :
    (fragmentsFrom (UInt64.ofNat off) pieces).map PieceFragment.view = laidOutFrom off pieces ↔
      (∀ p ∈ pieces, p.location.parsed = p.location.source) ∧
        (pieces = [] ∨ off + totalSize pieces.dropLast < 2 ^ 64) := by
  induction pieces generalizing off with
  | nil => simp [fragmentsFrom, laidOutFrom]
  | cons p ps ih =>
      have hnext : UInt64.ofNat off + p.size = UInt64.ofNat (off + p.size.toNat) := by
        rw [UInt64.ofNat_add, UInt64.ofNat_toNat]
      have hoff : (UInt64.ofNat off).toNat = off ↔ off < 2 ^ 64 := by
        rw [UInt64.toNat_ofNat']
        constructor
        · intro h
          rw [← h]
          exact Nat.mod_lt _ (by decide)
        · exact Nat.mod_eq_of_lt
      rw [fragmentsFrom, laidOutFrom, List.map_cons, List.cons.injEq, hnext, ih,
        List.forall_mem_cons, CompositePiece.fragmentAt, PieceFragment.view]
      simp only [Prod.mk.injEq, true_and, hoff, List.cons_ne_nil, false_or]
      cases ps with
      | nil => simp [totalSize, and_comm]
      | cons p' ps =>
          have hdrop : totalSize ((p :: p' :: ps).dropLast) =
              p.size.toNat + totalSize ((p' :: ps).dropLast) := rfl
          rw [hdrop]
          constructor
          · rintro ⟨⟨-, hp⟩, hps, hlast⟩
            refine ⟨⟨hp, hps⟩, ?_⟩
            rcases hlast with hnil | hlast
            · cases hnil
            · omega
          · rintro ⟨⟨hp, hps⟩, hlast⟩
            exact ⟨⟨by omega, hp⟩, hps, .inr (by omega)⟩

theorem parsed_eq_source_iff (l : PieceLocation) :
    l.parsed = l.source ↔ ∀ v ∈ l.constant?, v = 0 := by
  cases l <;> simp [PieceLocation.parsed, PieceLocation.source, PieceLocation.constant?, eq_comm]

theorem totalSize_dropLast_le (pieces : List CompositePiece) :
    totalSize pieces.dropLast ≤ totalSize pieces := by
  cases pieces using List.reverseRecOn with
  | nil => exact Nat.le_refl _
  | append_singleton ps p =>
      rw [List.dropLast_concat, totalSize, totalSize, List.map_append, List.sum_append]
      exact Nat.le_add_right _ _

/-- Without overflow every piece is a fragment. -/
theorem parsePieces_eq (hsteps : toSteps (pieces.flatMap CompositePiece.operations) = some steps) :
    parsePieces checks steps =
      if checks = true ∧ 2 ^ 64 ≤ totalSize pieces then none else some (fragmentsFrom 0 pieces) := by
  have hnil : pieces = [] → totalSize pieces = 0 := by
    rintro rfl
    rfl
  have hzero : (0 : UInt64).toNat = 0 := rfl
  have hcond : (checks = true ∧ pieces ≠ [] ∧
      2 ^ 64 ≤ (0 : UInt64).toNat + totalSize pieces) ↔
      (checks = true ∧ 2 ^ 64 ≤ totalSize pieces) := by
    rw [hzero, Nat.zero_add]
    refine and_congr_right fun _ => and_iff_right_of_imp fun hle hempty => ?_
    rw [hnil hempty] at hle
    omega
  rw [parsePieces, foldlM_pieces hsteps rfl, if_congr hcond rfl rfl]
  split
  · rfl
  · rw [Option.map_some, PieceParser.finish, List.nil_append]
    cases pieces with
    | nil => rfl
    | cons p ps => rw [if_neg (by rw [fragmentsFrom]; exact List.cons_ne_nil _ _)]

/-- The fragments of a composite location are its pieces if and only if every constant is zero
and the offsets fit a word. -/
theorem parsesTo_iff (checks : Bool) (pieces : List CompositePiece) (steps : List ExprStep)
    (hsteps : toSteps (pieces.flatMap CompositePiece.operations) = some steps) :
    ParsesTo checks steps pieces ↔ Parsable checks pieces := by
  have hview := view_fragmentsFrom_iff pieces 0
  have hdrop := totalSize_dropLast_le pieces
  simp only [parsed_eq_source_iff, Nat.zero_add] at hview
  rw [ParsesTo, parsePieces_eq hsteps]
  constructor
  · rintro ⟨fragments, hparse, hlaid⟩
    split at hparse
    · cases hparse
    · rename_i hover
      obtain rfl := Option.some.inj hparse
      obtain ⟨hzeros, hfits⟩ := hview.mp hlaid
      refine ⟨hzeros, ?_⟩
      cases checks with
      | true => exact Nat.lt_of_not_le fun hle => hover ⟨rfl, hle⟩
      | false =>
          rcases hfits with rfl | hfits
          · decide
          · exact hfits
  · rintro ⟨hzeros, hfits⟩
    have hsmall : totalSize pieces.dropLast < 2 ^ 64 := by
      cases checks with
      | true => exact Nat.lt_of_le_of_lt hdrop hfits
      | false => exact hfits
    rw [if_neg ?_]
    · exact ⟨_, rfl, hview.mpr ⟨hzeros, .inr hsmall⟩⟩
    · rintro ⟨rfl, hle⟩
      exact absurd hfits (Nat.not_lt.mpr hle)

/-- Half of a value in a register and half of it in the frame. -/
def registerAndFrame : List CompositePiece := [⟨.register 3, 32⟩, ⟨.frameBase (-8), 32⟩]

theorem registerAndFrame_parses :
    ParsesTo true [.reg 3, .piece 4, .frameBase (-8), .piece 4] registerAndFrame := by
  have hsize : totalSize registerAndFrame = 8 := rfl
  refine (parsesTo_iff true registerAndFrame _ rfl).mpr ⟨fun p hp v hv => ?_, ?_⟩
  · rw [registerAndFrame, List.mem_cons, List.mem_singleton] at hp
    rcases hp with rfl | rfl <;> cases hv
  · rw [if_pos rfl, hsize]
    omega

/-- A byte that is a constant, and four more in a register. -/
def constantAndRegister : List CompositePiece := [⟨.constant 0xff, 8⟩, ⟨.register 3, 32⟩]

/-- The constant is read as zero. -/
theorem constant_piece_lost : ¬ ∀ (checks : Bool) (pieces : List CompositePiece)
    (steps : List ExprStep), toSteps (pieces.flatMap CompositePiece.operations) = some steps →
      ParsesTo checks steps pieces := by
  intro hall
  obtain ⟨fragments, hparse, hview⟩ := hall false constantAndRegister
    [.lit 0xff, .stackValue, .piece 1, .reg 3, .piece 4] rfl
  obtain rfl := Option.some.inj hparse
  exact absurd hview (by decide)

end Parsing

end Rtmap.Engine
