import Mathlib.Data.List.Induction
import Rtmap.Engine.ShadowRegs
import Rtmap.Lib.LeBytes

/-!
# Values in pieces

`resolve_pieces` puts a value together from fragments in registers, memory and constants.
It keeps a confidence for each byte and, beside them, the least one of the fragments: a
byte that no fragment supplies is Unknown without a fragment that says so.
-/
namespace Rtmap.Engine
open LeBytes
open Records (toLe)

inductive PieceSource where
  | register (dwarfReg : UInt16)
  | registerOffset (dwarfReg : UInt16) (offset : Int64)
  | memory (addr : UInt64)
  | frameBaseOffset (offset : Int64)
  | implicit (val : UInt64)
  | unknown
deriving DecidableEq, Repr

structure PieceFragment where
  varOffset : UInt64
  byteSize : UInt64
  source : PieceSource
deriving DecidableEq, Repr

structure AssembledValue where
  bytes : List UInt8
  confidence : List Confidence
  minConfidence : Confidence := .observed
  resolvedCount : ℕ := 0
  totalCount : ℕ := 0
deriving DecidableEq, Repr

/-- The value before its fragments. -/
def AssembledValue.blank (total totalCount : ℕ) : AssembledValue where
  bytes := List.replicate total 0
  confidence := List.replicate total .unknown
  totalCount := totalCount

/-- `copy_from_slice` into the places from `off` on. -/
def copyInto {α : Type*} (off : ℕ) (new xs : List α) : List α :=
  xs.take off ++ (new ++ xs.drop (off + new.length))

section CopyInto
variable {α : Type*} {off : ℕ} {new xs : List α} (h : off + new.length ≤ xs.length)
include h

theorem length_copyInto : (copyInto off new xs).length = xs.length := by
  rw [copyInto, List.length_append, List.length_append, List.length_take, List.length_drop]
  omega

theorem getElem?_copyInto (k : ℕ) : (copyInto off new xs)[k]? =
    if off ≤ k ∧ k < off + new.length then new[k - off]? else xs[k]? := by
  have hfront : (xs.take off).length = off := by
    rw [List.length_take]
    omega
  rw [copyInto, List.getElem?_append, hfront, List.getElem?_append, List.getElem?_drop]
  by_cases hlo : k < off
  · rw [if_pos hlo, if_neg (by omega), List.getElem?_take_of_lt hlo]
  · rw [if_neg hlo]
    by_cases hhi : k < off + new.length
    · rw [if_pos (by omega), if_pos (by omega)]
    · rw [if_neg (by omega), if_neg (by omega)]
      congr 1
      omega

end CopyInto

/-- Copies of one value: a place has the value or what it had. -/
theorem getElem?_copyInto_replicate {α : Type*} {off n k : ℕ} {x y : α} {xs : List α}
    (h : off + n ≤ xs.length) (hy : (copyInto off (List.replicate n x) xs)[k]? = some y) :
    (off ≤ k ∧ k < off + n) ∧ y = x ∨ ¬ (off ≤ k ∧ k < off + n) ∧ xs[k]? = some y := by
  have hlen : (List.replicate n x).length = n := List.length_replicate
  rw [getElem?_copyInto (by rwa [hlen]), hlen] at hy
  split at hy
  · rename_i hk
    rw [List.getElem?_replicate, if_pos (by omega)] at hy
    exact .inl ⟨hk, (Option.some.inj hy).symm⟩
  · rename_i hk
    exact .inr ⟨hk, hy⟩

section Resolve
variable (srf : ShadowRegisterFile) (frameBase : UInt64)
  (readMem : UInt64 → UInt64 → Option (List UInt8))

/-- What the source has for a piece of `sz` bytes, if it resolves. -/
def PieceSource.read (sz : UInt64) : PieceSource → Option (List UInt8 × Confidence)
  | .register dwarfReg => (dwarfRegToIdx dwarfReg).map fun idx =>
      ((toLe 8 (srf.regs idx).value.toNat).take (min sz.toNat 8), (srf.regs idx).confidence)
  | .registerOffset dwarfReg offset => do
      let idx ← dwarfRegToIdx dwarfReg
      let memBytes ← readMem ((srf.regs idx).value + offset.toUInt64) sz
      return (memBytes, (srf.regs idx).confidence)
  | .memory addr => (readMem addr sz).map fun memBytes => (memBytes, .observed)
  | .frameBaseOffset offset =>
      (readMem (frameBase + offset.toUInt64) sz).map fun memBytes => (memBytes, .observed)
  | .implicit val => some ((toLe 8 val.toNat).take (min sz.toNat 8), .observed)
  | .unknown => none

/-- The bytes that are copied for the fragment, with their confidence. The zeros that stand
for a source that does not resolve are more than a vector holds from 2^63 on. -/
def PieceFragment.copied (f : PieceFragment) : Option (List UInt8 × Confidence) :=
  match f.source.read srf frameBase readMem f.byteSize with
  | some (fragBytes, conf) => some (fragBytes.take f.byteSize.toNat, conf)
  | none =>
      if f.byteSize.toNat < 2 ^ 63 then some (List.replicate f.byteSize.toNat 0, .unknown) else none

/-- `off + sz` is not above the total, as the machine adds. -/
def PieceFragment.Fits (total : UInt64) (f : PieceFragment) : Prop :=
  f.varOffset + f.byteSize ≤ total

instance decidableFits (total : UInt64) (f : PieceFragment) : Decidable (f.Fits total) :=
  inferInstanceAs (Decidable (_ ≤ _))

/-- The sum of offset and size is more than a word holds. -/
def PieceFragment.Wraps (f : PieceFragment) : Prop :=
  2 ^ 64 ≤ f.varOffset.toNat + f.byteSize.toNat

instance decidableWraps (f : PieceFragment) : Decidable f.Wraps :=
  inferInstanceAs (Decidable (_ ≤ _))

variable (checks : Bool) (total : UInt64)

/-- The loop's body; `none` is a panic. `checks` says whether the build has overflow checks. -/
def AssembledValue.place (a : AssembledValue) (f : PieceFragment) : Option AssembledValue :=
  if checks ∧ f.Wraps then none
  else if f.Fits total then
    match f.copied srf frameBase readMem with
    | none => none
    | some (bs, conf) =>
        if f.varOffset.toNat + bs.length ≤ total.toNat then
          some { a with
            bytes := copyInto f.varOffset.toNat bs a.bytes
            confidence := copyInto f.varOffset.toNat (List.replicate bs.length conf) a.confidence
            resolvedCount :=
              a.resolvedCount + if Confidence.unknown.rank < conf.rank then 1 else 0
            minConfidence := if conf.rank < a.minConfidence.rank then conf else a.minConfidence }
        else none
  else some a

/-- `resolve_pieces`; a vector holds fewer than 2^63 bytes. -/
def resolvePieces (fragments : List PieceFragment) : Option AssembledValue :=
  if total.toNat < 2 ^ 63 then
    fragments.foldlM (AssembledValue.place srf frameBase readMem checks total)
      (.blank total.toNat fragments.length)
  else none

/-- The byte at a place of the register, the memory or the constant. -/
def PieceSource.byteAt (sz : UInt64) (source : PieceSource) (j : ℕ) : Option UInt8 :=
  match source with
  | .register dwarfReg => (dwarfRegToIdx dwarfReg).bind fun idx =>
      if j < 8 then some (byte (srf.regs idx).value.toNat j) else none
  | .registerOffset dwarfReg offset => do
      let idx ← dwarfRegToIdx dwarfReg
      let memBytes ← readMem ((srf.regs idx).value + offset.toUInt64) sz
      memBytes[j]?
  | .memory addr => (readMem addr sz).bind fun memBytes => memBytes[j]?
  | .frameBaseOffset offset =>
      (readMem (frameBase + offset.toUInt64) sz).bind fun memBytes => memBytes[j]?
  | .implicit val => if j < 8 then some (byte val.toNat j) else none
  | .unknown => none

namespace PieceFragment

/-- The byte that the fragment's source supplies for a place of the value. -/
def supplies (f : PieceFragment) (k : ℕ) : Option UInt8 :=
  if f.varOffset.toNat ≤ k ∧ k < f.varOffset.toNat + f.byteSize.toNat then
    f.source.byteAt srf frameBase readMem f.byteSize (k - f.varOffset.toNat)
  else none

/-- The confidence of the fragment: Unknown if its source does not resolve. -/
def confidence (f : PieceFragment) : Confidence :=
  (f.source.read srf frameBase readMem f.byteSize).elim .unknown Prod.snd

/-- A sum of offset and size that wraps is not checked, and the value has room for what the
source has. -/
def Safe (f : PieceFragment) : Prop :=
  f.Wraps → checks = false ∧ (f.Fits total → ∃ fragBytes conf,
    f.source.read srf frameBase readMem f.byteSize = some (fragBytes, conf) ∧
      f.varOffset.toNat + min f.byteSize.toNat fragBytes.length ≤ total.toNat)

end PieceFragment

/-- The byte is that of the last fragment that supplies the place. -/
def LastSupplied (fragments : List PieceFragment) (k : ℕ) (b : UInt8) : Prop :=
  ∃ front f rest, fragments = front ++ f :: rest ∧ f.Fits total ∧
    f.supplies srf frameBase readMem k = some b ∧
      ∀ g ∈ rest, g.Fits total → g.supplies srf frameBase readMem k = none

/-- Some fragment supplies the place. -/
def Supplied (fragments : List PieceFragment) (k : ℕ) : Prop :=
  ∃ f ∈ fragments, f.Fits total ∧ (f.supplies srf frameBase readMem k).isSome

end Resolve

section Sources
variable {srf : ShadowRegisterFile} {frameBase : UInt64}
  {readMem : UInt64 → UInt64 → Option (List UInt8)} {sz : UInt64} {source : PieceSource}

theorem PieceSource.byteAt_of_unresolved (h : source.read srf frameBase readMem sz = none)
    (j : ℕ) : source.byteAt srf frameBase readMem sz j = none := by
  cases source with
  | register dwarfReg =>
      rw [byteAt, Option.map_eq_none_iff.mp h]
      rfl
  | registerOffset dwarfReg offset =>
      rw [read] at h
      rw [byteAt]
      cases hreg : dwarfRegToIdx dwarfReg with
      | none => rfl
      | some idx =>
          cases hmem : readMem ((srf.regs idx).value + offset.toUInt64) sz with
          | none => simp [hmem]
          | some memBytes => simp [hreg, hmem] at h
  | memory addr =>
      rw [byteAt, Option.map_eq_none_iff.mp h]
      rfl
  | frameBaseOffset offset =>
      rw [byteAt, Option.map_eq_none_iff.mp h]
      rfl
  | implicit val => cases h
  | unknown => rfl

theorem getElem?_word (v : ℕ) {j : ℕ} (hj : j < sz.toNat) :
    (((toLe 8 v).take (min sz.toNat 8)).take sz.toNat)[j]? =
      if j < 8 then some (byte v j) else none := by
  rw [List.getElem?_take_of_lt hj, List.getElem?_take, getElem?_toLe]
  by_cases h : j < 8
  · rw [if_pos (by omega)]
  · rw [if_neg (by omega), if_neg h]

/-- What is read has at each place the byte of the source. -/
theorem PieceSource.byteAt_of_read {fragBytes : List UInt8} {conf : Confidence}
    (h : source.read srf frameBase readMem sz = some (fragBytes, conf)) {j : ℕ}
    (hj : j < sz.toNat) :
    source.byteAt srf frameBase readMem sz j = (fragBytes.take sz.toNat)[j]? := by
  cases source with
  | register dwarfReg =>
      obtain ⟨idx, hreg, heq⟩ := Option.map_eq_some_iff.mp h
      obtain ⟨rfl, -⟩ := Prod.mk.inj heq
      rw [byteAt, hreg, getElem?_word _ hj]
      rfl
  | registerOffset dwarfReg offset =>
      obtain ⟨idx, hreg, hrest⟩ := Option.bind_eq_some_iff.mp h
      obtain ⟨memBytes, hmem, heq⟩ := Option.bind_eq_some_iff.mp hrest
      obtain ⟨rfl, -⟩ := Prod.mk.inj (Option.some.inj heq)
      rw [byteAt, List.getElem?_take_of_lt hj]
      simp [hreg, hmem]
  | memory addr =>
      obtain ⟨memBytes, hmem, heq⟩ := Option.map_eq_some_iff.mp h
      obtain ⟨rfl, -⟩ := Prod.mk.inj heq
      rw [byteAt, List.getElem?_take_of_lt hj, hmem]
      rfl
  | frameBaseOffset offset =>
      obtain ⟨memBytes, hmem, heq⟩ := Option.map_eq_some_iff.mp h
      obtain ⟨rfl, -⟩ := Prod.mk.inj heq
      rw [byteAt, List.getElem?_take_of_lt hj, hmem]
      rfl
  | implicit val =>
      obtain ⟨rfl, -⟩ := Prod.mk.inj (Option.some.inj h)
      rw [byteAt, getElem?_word _ hj]
  | unknown => cases h

end Sources

section Place
variable {srf : ShadowRegisterFile} {frameBase : UInt64}
  {readMem : UInt64 → UInt64 → Option (List UInt8)} {checks : Bool} {total : UInt64}
  {f : PieceFragment} {bs : List UInt8} {conf : Confidence} {a a' : AssembledValue}

namespace PieceFragment

/-- What is copied is the bytes of the source, or zeros for one that does not resolve. -/
theorem copied_cases (h : f.copied srf frameBase readMem = some (bs, conf)) :
    (∃ fragBytes, f.source.read srf frameBase readMem f.byteSize = some (fragBytes, conf) ∧
      bs = fragBytes.take f.byteSize.toNat) ∨
    (f.source.read srf frameBase readMem f.byteSize = none ∧ conf = .unknown ∧
      bs.length = f.byteSize.toNat) := by
  rw [copied] at h
  split at h
  · rename_i fragBytes conf' hread
    obtain ⟨rfl, rfl⟩ := Prod.mk.inj (Option.some.inj h)
    exact .inl ⟨fragBytes, hread, rfl⟩
  · rename_i hread
    split at h
    · obtain ⟨rfl, rfl⟩ := Prod.mk.inj (Option.some.inj h)
      exact .inr ⟨hread, rfl, List.length_replicate⟩
    · cases h

theorem length_copied_le (h : f.copied srf frameBase readMem = some (bs, conf)) :
    bs.length ≤ f.byteSize.toNat := by
  rcases copied_cases h with ⟨fragBytes, -, rfl⟩ | ⟨-, -, hlen⟩
  · exact List.length_take_le ..
  · exact Nat.le_of_eq hlen

theorem confidence_of_copied (h : f.copied srf frameBase readMem = some (bs, conf)) :
    f.confidence srf frameBase readMem = conf := by
  rw [confidence]
  rcases copied_cases h with ⟨fragBytes, hread, -⟩ | ⟨hread, rfl, -⟩
  · rw [hread]
    rfl
  · rw [hread]
    rfl

/-- A byte that is supplied is copied, and no other unless the confidence is Unknown. -/
theorem supplies_of_copied (h : f.copied srf frameBase readMem = some (bs, conf)) (k : ℕ) :
    f.supplies srf frameBase readMem k =
      (if f.varOffset.toNat ≤ k ∧ k < f.varOffset.toNat + bs.length then
        bs[k - f.varOffset.toNat]? else none) ∨
    conf = .unknown ∧ f.supplies srf frameBase readMem k = none := by
  have hlen := length_copied_le h
  rcases copied_cases h with ⟨fragBytes, hread, rfl⟩ | ⟨hread, rfl, -⟩
  · left
    rw [supplies]
    by_cases hk : f.varOffset.toNat ≤ k ∧ k < f.varOffset.toNat + f.byteSize.toNat
    · rw [if_pos hk, PieceSource.byteAt_of_read hread (by omega)]
      split
      · rfl
      · exact List.getElem?_eq_none (by omega)
    · rw [if_neg hk, if_neg (by omega)]
  · refine .inr ⟨rfl, ?_⟩
    rw [supplies]
    split
    · exact PieceSource.byteAt_of_unresolved hread _
    · rfl

theorem supplies_of_outside (h : f.copied srf frameBase readMem = some (bs, conf)) {k : ℕ}
    (hk : ¬ (f.varOffset.toNat ≤ k ∧ k < f.varOffset.toNat + bs.length)) :
    f.supplies srf frameBase readMem k = none := by
  rcases supplies_of_copied h k with hsup | ⟨-, hsup⟩
  · rw [hsup, if_neg hk]
  · exact hsup

end PieceFragment

/-- What a fragment does to the value. -/
theorem AssembledValue.place_cases (h : a.place srf frameBase readMem checks total f = some a') :
    (¬ f.Fits total ∧ a' = a) ∨
    (f.Fits total ∧ ∃ bs conf, f.copied srf frameBase readMem = some (bs, conf) ∧
      f.varOffset.toNat + bs.length ≤ total.toNat ∧
      a'.bytes = copyInto f.varOffset.toNat bs a.bytes ∧
      a'.confidence = copyInto f.varOffset.toNat (List.replicate bs.length conf) a.confidence ∧
      a'.minConfidence = if conf.rank < a.minConfidence.rank then conf else a.minConfidence) := by
  rw [place] at h
  split at h
  · cases h
  · split at h
    · rename_i hfits
      split at h
      · cases h
      · rename_i bs conf hcopied
        split at h
        · rename_i hroom
          obtain rfl := Option.some.inj h
          exact .inr ⟨hfits, bs, conf, hcopied, hroom, rfl, rfl, rfl⟩
        · cases h
    · rename_i hfits
      exact .inl ⟨hfits, (Option.some.inj h).symm⟩

namespace PieceFragment

/-- The value has room for what is copied. -/
def HasRoom (srf : ShadowRegisterFile) (frameBase : UInt64)
    (readMem : UInt64 → UInt64 → Option (List UInt8)) (total : UInt64) (f : PieceFragment) : Prop :=
  ∃ bs conf, f.copied srf frameBase readMem = some (bs, conf) ∧
    f.varOffset.toNat + bs.length ≤ total.toNat

/-- A fragment that fits without wrapping has room. -/
theorem hasRoom_of_not_wraps (htotal : total.toNat < 2 ^ 63) (hwraps : ¬ f.Wraps)
    (hfits : f.Fits total) : f.HasRoom srf frameBase readMem total := by
  have hsum : f.varOffset.toNat + f.byteSize.toNat ≤ total.toNat := by
    have hle : (f.varOffset + f.byteSize).toNat ≤ total.toNat := UInt64.le_iff_toNat_le.mp hfits
    rwa [UInt64.toNat_add, Nat.mod_eq_of_lt (Nat.lt_of_not_le hwraps)] at hle
  have hcopied : (f.copied srf frameBase readMem).isSome := by
    rw [copied]
    split
    · rfl
    · rw [if_pos (by omega)]
      rfl
  obtain ⟨⟨bs, conf⟩, hsome⟩ := Option.isSome_iff_exists.mp hcopied
  have hlen := length_copied_le hsome
  exact ⟨bs, conf, hsome, by omega⟩

/-- One that wraps has room only for bytes of its source: the zeros are too many. -/
theorem hasRoom_iff_of_wraps (hwraps : f.Wraps) : f.HasRoom srf frameBase readMem total ↔
    ∃ fragBytes conf, f.source.read srf frameBase readMem f.byteSize = some (fragBytes, conf) ∧
      f.varOffset.toNat + min f.byteSize.toNat fragBytes.length ≤ total.toNat := by
  constructor
  · intro h
    obtain ⟨bs, conf, hcopied, hroom⟩ := h
    rcases copied_cases hcopied with ⟨fragBytes, hread, rfl⟩ | ⟨-, -, hlen⟩
    · rw [List.length_take] at hroom
      exact ⟨fragBytes, conf, hread, hroom⟩
    · have hsum : 2 ^ 64 ≤ f.varOffset.toNat + f.byteSize.toNat := hwraps
      have htotal := total.toNat_lt
      omega
  · intro h
    obtain ⟨fragBytes, conf, hread, hroom⟩ := h
    refine ⟨fragBytes.take f.byteSize.toNat, conf, ?_, ?_⟩
    · rw [copied, hread]
    · rwa [List.length_take]

end PieceFragment

theorem AssembledValue.isSome_place_iff : (a.place srf frameBase readMem checks total f).isSome ↔
    ¬ (checks = true ∧ f.Wraps) ∧
      (f.Fits total → f.HasRoom srf frameBase readMem total) := by
  rw [place]
  split
  · rename_i hpanics
    exact iff_of_false Bool.false_ne_true fun h => h.1 hpanics
  · rename_i hpanics
    refine Iff.trans ?_ (and_iff_right hpanics).symm
    split
    · rename_i hfits
      rw [PieceFragment.HasRoom]
      refine Iff.trans ?_ (forall_prop_of_true hfits).symm
      cases hcopied : f.copied srf frameBase readMem with
      | none =>
          refine iff_of_false Bool.false_ne_true fun h => ?_
          obtain ⟨bs, conf, heq, -⟩ := h
          cases heq
      | some x =>
          obtain ⟨bs, conf⟩ := x
          dsimp only
          split
          · rename_i hroom
            exact iff_of_true rfl ⟨bs, conf, rfl, hroom⟩
          · rename_i hroom
            refine iff_of_false Bool.false_ne_true fun h => ?_
            obtain ⟨bs', conf', heq, hroom'⟩ := h
            obtain ⟨rfl, -⟩ := Prod.mk.inj (Option.some.inj heq)
            exact hroom hroom'
    · rename_i hfits
      exact iff_of_true rfl fun h => absurd h hfits

/-- A fragment panics exactly if it is not safe. -/
theorem AssembledValue.isSome_place_iff_safe (htotal : total.toNat < 2 ^ 63) :
    (a.place srf frameBase readMem checks total f).isSome ↔
      f.Safe srf frameBase readMem checks total := by
  rw [isSome_place_iff, PieceFragment.Safe]
  by_cases hwraps : f.Wraps
  · rw [PieceFragment.hasRoom_iff_of_wraps hwraps, forall_prop_of_true hwraps]
    exact and_congr_left' (by simp [hwraps])
  · refine iff_of_true ⟨fun h => hwraps h.2, ?_⟩ fun h => absurd h hwraps
    exact PieceFragment.hasRoom_of_not_wraps htotal hwraps

end Place

/-- The value after some of the fragments, of which none panicked. -/
structure Assembled (srf : ShadowRegisterFile) (frameBase : UInt64)
    (readMem : UInt64 → UInt64 → Option (List UInt8)) (total : UInt64)
    (fragments : List PieceFragment) (a : AssembledValue) : Prop where
  bytes_length : a.bytes.length = total.toNat
  confidence_length : a.confidence.length = total.toNat
  unknown_iff : a.minConfidence = .unknown ↔
    ∃ f ∈ fragments, f.Fits total ∧ f.confidence srf frameBase readMem = .unknown
  supplied {k : ℕ} {c : Confidence} : a.confidence[k]? = some c →
    Supplied srf frameBase readMem total fragments k → a.minConfidence.rank ≤ c.rank
  bare {k : ℕ} {c : Confidence} : a.confidence[k]? = some c →
    ¬ Supplied srf frameBase readMem total fragments k → c = .unknown
  held {k : ℕ} {c : Confidence} : a.confidence[k]? = some c → c ≠ .unknown →
    ∃ b, a.bytes[k]? = some b ∧ LastSupplied srf frameBase readMem total fragments k b

section Runs
variable {srf : ShadowRegisterFile} {frameBase : UInt64}
  {readMem : UInt64 → UInt64 → Option (List UInt8)} {checks : Bool} {total : UInt64}
  {fragments : List PieceFragment} {f : PieceFragment} {a a' : AssembledValue}

theorem Confidence.rank_eq_zero_iff {c : Confidence} : c.rank = 0 ↔ c = .unknown := by
  cases c <;> decide

theorem supplied_concat_iff {k : ℕ} : Supplied srf frameBase readMem total (fragments ++ [f]) k ↔
    Supplied srf frameBase readMem total fragments k ∨
      f.Fits total ∧ (f.supplies srf frameBase readMem k).isSome := by
  simp only [Supplied, List.mem_append, List.mem_singleton, or_and_right, exists_or,
    exists_eq_left]

theorem LastSupplied.concat {k : ℕ} {b : UInt8}
    (h : LastSupplied srf frameBase readMem total fragments k b)
    (hf : f.Fits total → f.supplies srf frameBase readMem k = none) :
    LastSupplied srf frameBase readMem total (fragments ++ [f]) k b := by
  obtain ⟨front, g, rest, rfl, hfits, hb, hrest⟩ := h
  refine ⟨front, g, rest ++ [f], by simp, hfits, hb, fun x hx => ?_⟩
  rcases List.mem_append.mp hx with hx | hx
  · exact hrest x hx
  · obtain rfl := List.mem_singleton.mp hx
    exact hf

/-- A fragment too large for the value is passed over. -/
theorem Assembled.skip (h : Assembled srf frameBase readMem total fragments a)
    (hfits : ¬ f.Fits total) : Assembled srf frameBase readMem total (fragments ++ [f]) a where
  bytes_length := h.bytes_length
  confidence_length := h.confidence_length
  unknown_iff := by
    rw [h.unknown_iff]
    simp [or_and_right, exists_or, hfits]
  supplied hc hk := by
    refine h.supplied hc ((supplied_concat_iff.mp hk).resolve_right ?_)
    exact fun hf => hfits hf.1
  bare hc hk := h.bare hc fun hsup => hk (supplied_concat_iff.mpr (.inl hsup))
  held hc hne := by
    obtain ⟨b, hb, hlast⟩ := h.held hc hne
    exact ⟨b, hb, hlast.concat fun hf => absurd hf hfits⟩

/-- A fragment that fits is copied over what was there. -/
theorem Assembled.copy (h : Assembled srf frameBase readMem total fragments a)
    (hfits : f.Fits total) {bs : List UInt8} {conf : Confidence}
    (hcopied : f.copied srf frameBase readMem = some (bs, conf))
    (hroom : f.varOffset.toNat + bs.length ≤ total.toNat)
    (hbytes : a'.bytes = copyInto f.varOffset.toNat bs a.bytes)
    (hconf : a'.confidence =
      copyInto f.varOffset.toNat (List.replicate bs.length conf) a.confidence)
    (hmin : a'.minConfidence = if conf.rank < a.minConfidence.rank then conf else a.minConfidence) :
    Assembled srf frameBase readMem total (fragments ++ [f]) a' := by
  have hlen : (List.replicate bs.length conf).length = bs.length := List.length_replicate
  have hin : f.varOffset.toNat + bs.length ≤ a.bytes.length := by rwa [h.bytes_length]
  have hin' : f.varOffset.toNat + (List.replicate bs.length conf).length ≤ a.confidence.length := by
    rwa [hlen, h.confidence_length]
  have hrank : a'.minConfidence.rank = min conf.rank a.minConfidence.rank := by
    rw [hmin]
    split <;> omega
  -- a place under the copied bytes has their confidence, another what it had
  have hplace {k : ℕ} {c : Confidence} (hc : a'.confidence[k]? = some c) :
      (f.varOffset.toNat ≤ k ∧ k < f.varOffset.toNat + bs.length) ∧ c = conf ∨
        ¬ (f.varOffset.toNat ≤ k ∧ k < f.varOffset.toNat + bs.length) ∧
          a.confidence[k]? = some c := by
    rw [hconf] at hc
    exact getElem?_copyInto_replicate (by rwa [h.confidence_length]) hc
  refine ⟨?_, ?_, ?_, ?_, ?_, ?_⟩
  · rw [hbytes, length_copyInto hin, h.bytes_length]
  · rw [hconf, length_copyInto hin', h.confidence_length]
  · have hmem : (∃ g ∈ fragments ++ [f], g.Fits total ∧
        g.confidence srf frameBase readMem = .unknown) ↔
        a.minConfidence = .unknown ∨ conf = .unknown := by
      rw [h.unknown_iff, ← f.confidence_of_copied hcopied]
      simp [or_and_right, exists_or, hfits]
    rw [hmem, ← Confidence.rank_eq_zero_iff, ← Confidence.rank_eq_zero_iff,
      ← Confidence.rank_eq_zero_iff, hrank]
    omega
  · intro k c hc hk
    rcases hplace hc with ⟨-, rfl⟩ | ⟨hk', hold⟩
    · rw [hrank]
      exact Nat.min_le_left ..
    · have hearlier := (supplied_concat_iff.mp hk).resolve_right fun hf => by
        rw [f.supplies_of_outside hcopied hk'] at hf
        cases hf.2
      have hle := h.supplied hold hearlier
      rw [hrank]
      omega
  · intro k c hc hk
    rcases hplace hc with ⟨hk', rfl⟩ | ⟨-, hold⟩
    · rcases f.supplies_of_copied hcopied k with hsup | ⟨hunknown, -⟩
      · refine absurd (supplied_concat_iff.mpr (.inr ⟨hfits, ?_⟩)) hk
        rw [hsup, if_pos hk', List.getElem?_eq_getElem (by omega)]
        rfl
      · exact hunknown
    · exact h.bare hold fun hsup => hk (supplied_concat_iff.mpr (.inl hsup))
  · intro k c hc hne
    rcases hplace hc with ⟨hk', rfl⟩ | ⟨hk', hold⟩
    · have hsup := (f.supplies_of_copied hcopied k).resolve_right fun hunknown => hne hunknown.1
      rw [if_pos hk', List.getElem?_eq_getElem (by omega)] at hsup
      refine ⟨bs[k - f.varOffset.toNat], ?_, fragments, f, [], rfl, hfits, hsup,
        List.forall_mem_nil _⟩
      rw [hbytes, getElem?_copyInto hin, if_pos hk', List.getElem?_eq_getElem (by omega)]
    · obtain ⟨b, hb, hlast⟩ := h.held hold hne
      refine ⟨b, ?_, hlast.concat fun _ => f.supplies_of_outside hcopied hk'⟩
      rw [hbytes, getElem?_copyInto hin, if_neg hk']
      exact hb

/-- The run over the fragments. -/
theorem assembled_of_foldlM {init : AssembledValue}
    (h0 : Assembled srf frameBase readMem total [] init)
    (h : fragments.foldlM (AssembledValue.place srf frameBase readMem checks total) init = some a) :
    Assembled srf frameBase readMem total fragments a := by
  induction fragments using List.reverseRecOn generalizing a with
  | nil =>
      obtain rfl := Option.some.inj h
      exact h0
  | append_singleton fragments f ih =>
      rw [List.foldlM_append] at h
      obtain ⟨mid, hmid, hplace⟩ := Option.bind_eq_some_iff.mp h
      have hlast : mid.place srf frameBase readMem checks total f = some a := by
        simpa using hplace
      rcases AssembledValue.place_cases hlast with
        ⟨hfits, rfl⟩ | ⟨hfits, bs, conf, hcopied, hroom, hbytes, hconf, hmin⟩
      · exact (ih hmid).skip hfits
      · exact (ih hmid).copy hfits hcopied hroom hbytes hconf hmin

theorem assembled_blank (totalCount : ℕ) :
    Assembled srf frameBase readMem total [] (.blank total.toNat totalCount) := by
  have hbare {k : ℕ} {c : Confidence}
      (hc : (List.replicate total.toNat Confidence.unknown)[k]? = some c) : c = .unknown :=
    List.eq_of_mem_replicate (List.mem_of_getElem? hc)
  refine ⟨List.length_replicate, List.length_replicate, ?_, ?_, ?_, ?_⟩
  · simp [AssembledValue.blank]
  · intro k c _ hk
    obtain ⟨f, hf, -⟩ := hk
    cases hf
  · exact fun hc _ => hbare hc
  · exact fun hc hne => absurd (hbare hc) hne

theorem isSome_foldlM_iff (htotal : total.toNat < 2 ^ 63) (init : AssembledValue) :
    (fragments.foldlM (AssembledValue.place srf frameBase readMem checks total) init).isSome ↔
      ∀ f ∈ fragments, f.Safe srf frameBase readMem checks total := by
  induction fragments generalizing init with
  | nil => exact iff_of_true rfl fun f hf => by cases hf
  | cons f fragments ih =>
      rw [List.foldlM_cons, List.forall_mem_cons]
      have hsafe : (init.place srf frameBase readMem checks total f).isSome ↔
          f.Safe srf frameBase readMem checks total := AssembledValue.isSome_place_iff_safe htotal
      rw [← hsafe]
      cases AssembledValue.place srf frameBase readMem checks total init f with
      | none => exact iff_of_false Bool.false_ne_true fun h => Bool.false_ne_true h.1
      | some mid => exact (ih mid).trans (and_iff_right rfl).symm

end Runs

section Sound
variable (srf : ShadowRegisterFile) (frameBase : UInt64)
  (readMem : UInt64 → UInt64 → Option (List UInt8)) (checks : Bool) (total : UInt64)
  (fragments : List PieceFragment)

/-- The value has all its bytes, its confidence is that of none of them or less, and each byte
above Unknown is the one that is supplied for it. -/
def AssembledValue.Sound (a : AssembledValue) : Prop :=
  a.bytes.length = total.toNat ∧ a.confidence.length = total.toNat ∧
    (∀ (k : ℕ) (c : Confidence), a.confidence[k]? = some c → a.minConfidence.rank ≤ c.rank) ∧
    ∀ (k : ℕ) (c : Confidence), a.confidence[k]? = some c → c ≠ .unknown →
      ∃ b, a.bytes[k]? = some b ∧ LastSupplied srf frameBase readMem total fragments k b

/-- A value that is put together is sound exactly if one of the fragments placed in it is
Unknown or they supply all of its bytes. -/
theorem Assembled.sound_iff {a : AssembledValue}
    (h : Assembled srf frameBase readMem total fragments a) :
    a.Sound srf frameBase readMem total fragments ↔
      (∃ f ∈ fragments, f.Fits total ∧ f.confidence srf frameBase readMem = .unknown) ∨
        ∀ k < total.toNat, Supplied srf frameBase readMem total fragments k := by
  rw [← h.unknown_iff]
  constructor
  · intro hsound
    obtain ⟨-, -, hmin, -⟩ := hsound
    refine or_iff_not_imp_left.mpr fun hknown k hk => ?_
    by_contra hsup
    have hplace : k < a.confidence.length := by rwa [h.confidence_length]
    have hle := hmin k _ (List.getElem?_eq_getElem hplace)
    rw [h.bare (List.getElem?_eq_getElem hplace) hsup] at hle
    exact hknown (Confidence.rank_eq_zero_iff.mp (Nat.le_zero.mp hle))
  · intro hall
    refine ⟨h.bytes_length, h.confidence_length, fun k c hc => ?_, fun k c hc hne => h.held hc hne⟩
    rcases hall with hunknown | hall
    · rw [Confidence.rank_eq_zero_iff.mpr hunknown]
      exact Nat.zero_le _
    · refine h.supplied hc (hall k ?_)
      rw [← h.confidence_length]
      exact (List.getElem?_eq_some_iff.mp hc).choose

/-- No panic and a sound value, exactly if the total and the sums stay in their words and the
fragments placed have one that is Unknown or supply all bytes. -/
theorem resolvePieces_sound_iff :
    (∃ a, resolvePieces srf frameBase readMem checks total fragments = some a ∧
      a.Sound srf frameBase readMem total fragments) ↔
    total.toNat < 2 ^ 63 ∧ (∀ f ∈ fragments, f.Safe srf frameBase readMem checks total) ∧
      ((∃ f ∈ fragments, f.Fits total ∧ f.confidence srf frameBase readMem = .unknown) ∨
        ∀ k < total.toNat, Supplied srf frameBase readMem total fragments k) := by
  rw [resolvePieces]
  split
  · rename_i htotal
    refine Iff.trans ?_ (and_iff_right htotal).symm
    rw [← isSome_foldlM_iff htotal (.blank total.toNat fragments.length)]
    cases hrun : fragments.foldlM (AssembledValue.place srf frameBase readMem checks total)
        (.blank total.toNat fragments.length) with
    | none =>
        refine iff_of_false ?_ fun h => Bool.false_ne_true h.1
        intro h
        obtain ⟨a, ha, -⟩ := h
        cases ha
    | some a =>
        have h := assembled_of_foldlM (assembled_blank fragments.length) hrun
        rw [← h.sound_iff]
        constructor
        · intro hsound
          obtain ⟨a', heq, hsound⟩ := hsound
          obtain rfl := Option.some.inj heq
          exact ⟨rfl, hsound⟩
        · exact fun hsound => ⟨a, rfl, hsound.2⟩
  · rename_i htotal
    refine iff_of_false ?_ fun h => htotal h.1
    intro h
    obtain ⟨a, ha, -⟩ := h
    cases ha

end Sound

/-- Of a structure of two words only the first has a piece, and the whole is Observed. -/
theorem missing_piece_observed :
    ¬ ∀ (srf : ShadowRegisterFile) (frameBase : UInt64)
      (readMem : UInt64 → UInt64 → Option (List UInt8)) (checks : Bool) (total : UInt64)
      (fragments : List PieceFragment),
      ∃ a, resolvePieces srf frameBase readMem checks total fragments = some a ∧
        a.Sound srf frameBase readMem total fragments := by
  intro h
  have hsound := h {} 0 (fun _ _ => none) false 16 [⟨0, 8, .implicit 7⟩]
  have hbytes := ((resolvePieces_sound_iff ..).mp hsound).2.2
  rcases hbytes with hunknown | hall
  · obtain ⟨f, hf, -, hconf⟩ := hunknown
    obtain rfl := List.mem_singleton.mp hf
    exact absurd hconf (by decide)
  · obtain ⟨f, hf, -, hsup⟩ := hall 8 (by decide)
    obtain rfl := List.mem_singleton.mp hf
    exact absurd hsup (by decide)

end Rtmap.Engine
