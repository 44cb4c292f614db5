import Rtmap.Engine.IndexCalls
import Rtmap.Engine.Steps

/-!
# The static intervals that globals are populated with

`populate_globals` files a global, then its fields one inside the other. The search among
them stops where the start changes, and so finds nothing in the padding behind a field.
-/
namespace Rtmap.Engine
open Stabbing (StartsLast)

namespace AddressIndex

section Populated
variable {idx idx' : AddressIndex}

/-- One index is made of the other by calls. -/
def Follows (idx' idx : AddressIndex) : Prop :=
  ∃ calls : List IndexCall, idx' = calls.foldl call idx

theorem Follows.refl (idx : AddressIndex) : Follows idx idx := ⟨[], rfl⟩

theorem Follows.call (h : Follows idx' idx) (c : IndexCall) : Follows (idx'.call c) idx := by
  obtain ⟨calls, rfl⟩ := h
  exact ⟨calls ++ [c], by rw [List.foldl_append]; rfl⟩

theorem Follows.trans {idx'' : AddressIndex} (h' : Follows idx'' idx') (h : Follows idx' idx) :
    Follows idx'' idx := by
  obtain ⟨calls, rfl⟩ := h
  obtain ⟨calls', rfl⟩ := h'
  exact ⟨calls ++ calls', by rw [List.foldl_append]⟩

theorem Follows.sound (h : Follows idx' idx) (hidx : Sound idx) : Sound idx' := by
  obtain ⟨calls, rfl⟩ := h
  induction calls generalizing idx with
  | nil => exact hidx
  | cons c calls ih => exact ih (hidx.call c)

/-- A fold whose every step is made by calls. -/
theorem Follows.foldl {α β : Type} (f : β → α → β) (index : β → AddressIndex)
    (hstep : ∀ b a, Follows (index (f b a)) (index b)) (as : List α) :
    ∀ b, Follows (index (as.foldl f b)) (index b) := by
  induction as with
  | nil => exact fun b => .refl _
  | cons a as ih => exact fun b => (ih (f b a)).trans (hstep b a)

theorem follows_registerFields (gi : UInt32) : ∀ (levels : ℕ) (name : String) (base : UInt64)
    (fields : List FieldInfo) (acc : Populating),
      Follows (registerFields gi levels name base fields acc).addrIndex acc.addrIndex := by
  intro levels
  induction levels with
  | zero => exact fun _ _ _ acc => .refl acc.addrIndex
  | succ levels ih =>
      intro name base fields acc
      rw [registerFields]
      refine Follows.foldl _ Populating.addrIndex (fun acc f => ?_) fields acc
      split
      · exact .refl _
      · have hfield : Follows (acc.addrIndex.insertField (base + f.byteOffset) f.byteSize
            (name ++ "." ++ f.name) f.typeInfo gi acc.nextField) acc.addrIndex :=
          (Follows.refl acc.addrIndex).call (.insertField (base + f.byteOffset) f.byteSize
            (name ++ "." ++ f.name) f.typeInfo gi acc.nextField)
        dsimp only
        split
        · exact (ih _ _ _ _).trans hfield
        · exact hfield

theorem follows_populateGlobal (replace : Bool) (g : GlobalVar) (delta : UInt64) (gi : UInt32)
    (idx : AddressIndex) (w : World) :
    Follows (populateGlobal replace g delta gi idx w).1 idx := by
  have hglobal : Follows (idx.insertGlobal (g.addr + delta) g.size g.name g.typeInfo gi) idx :=
    (Follows.refl idx).call (.insertGlobal (g.addr + delta) g.size g.name g.typeInfo gi)
  unfold populateGlobal
  dsimp only
  split
  · exact hglobal
  · exact (follows_registerFields ..).trans hglobal

theorem follows_populateGlobals (host : Host) (info : DwarfInfo) (delta : UInt64)
    (idx : AddressIndex) (w : World) : Follows (populateGlobals host info delta idx w).1 idx := by
  have hfold := Follows.foldl (fun (r : AddressIndex × World) (g : GlobalVar × ℕ) =>
      populateGlobal true g.1 delta (UInt32.ofNat g.2) r.1 r.2) Prod.fst
    (fun r g => follows_populateGlobal true g.1 delta (UInt32.ofNat g.2) r.1 r.2)
    info.globals.zipIdx (idx, w)
  exact hfold.call (.finalize host.orders)

/-- Populated and finalized, the static intervals stand in the order of their starts. -/
theorem sorted_populateGlobals (host : Host) (info : DwarfInfo) (delta : UInt64)
    (calls : List IndexCall) (w : World) :
    (populateGlobals host info delta (runCalls calls) w).1.statics.Pairwise
      fun a b => a.lo ≤ b.lo :=
  ((follows_populateGlobals host info delta (runCalls calls) w).sound (sound_runCalls calls)).sorted
    staticsSorted_finalize

end Populated

/-- The search finds an interval exactly where one spans the address, and then a best one. -/
def StaticsComplete (idx : AddressIndex) (addr : UInt64) : Prop :=
  ((idx.lookupStatics addr).isSome ↔ ∃ iv ∈ idx.statics, iv.contains addr = true) ∧
    ∀ x, idx.lookupStatics addr = some x → Best idx.statics addr x.1

/-- The search of the populated static intervals is complete at an address exactly if, where
some span it, a best one starts last at or below it. -/
theorem staticsComplete_iff (host : Host) (info : DwarfInfo) (delta : UInt64)
    (calls : List IndexCall) (w : World) (addr : UInt64) :
    StaticsComplete (populateGlobals host info delta (runCalls calls) w).1 addr ↔
      ∀ iv ∈ (populateGlobals host info delta (runCalls calls) w).1.statics,
        iv.contains addr = true →
          ∃ best, Best (populateGlobals host info delta (runCalls calls) w).1.statics addr best ∧
            StartsLast Interval.lo (populateGlobals host info delta (runCalls calls) w).1.statics
              addr best := by
  have hsorted := sorted_populateGlobals host info delta calls w
  generalize (populateGlobals host info delta (runCalls calls) w).1 = idx at hsorted ⊢
  constructor
  · rintro ⟨hsome, hbest⟩ iv hiv hover
    obtain ⟨x, hx⟩ := Option.isSome_iff_exists.mp (hsome.mpr ⟨iv, hiv, hover⟩)
    exact ⟨x.1, hbest x hx, (lookupStatics_eq_some hsorted hx).1⟩
  · intro h
    refine ⟨⟨fun hsome => ?_, fun ⟨iv, hiv, hover⟩ => ?_⟩, fun x hx => ?_⟩
    · obtain ⟨x, hx⟩ := Option.isSome_iff_exists.mp hsome
      obtain ⟨hlast, hover, -⟩ := lookupStatics_eq_some hsorted hx
      exact ⟨x.1, hlast.mem, hover⟩
    · obtain ⟨best, hbest, hlast⟩ := h iv hiv hover
      cases hx : idx.lookupStatics addr with
      | some x => rfl
      | none =>
          have hout := (lookupStatics_eq_none hsorted).mp hx best hlast
          exact absurd (hout.symm.trans hbest.contains) Bool.false_ne_true
    · obtain ⟨hlast, hover, hunbeaten⟩ := lookupStatics_eq_some hsorted hx
      obtain ⟨best, hbest, hstarts⟩ := h x.1 hlast.mem hover
      exact hbest.of_not_beats hlast.mem hover (hunbeaten best hstarts hbest.contains)

/-- A variable of eight bytes whose last field ends after five. -/
def padded : GlobalVar where
  name := "s"
  addr := 0x1000
  size := 8
  typeInfo := ⟨"S", 8, false, false, false, false,
    [⟨"a", 0, 4, ⟨"int", 4, false, false, false, false, []⟩, 0⟩,
      ⟨"b", 4, 1, ⟨"char", 1, false, false, false, false, []⟩, 0⟩]⟩

/-- A byte of the padding is in the variable, and is not found. -/
theorem padding_not_found : ¬ ∀ (host : Host) (info : DwarfInfo) (delta : UInt64)
    (calls : List IndexCall) (w : World) (addr : UInt64),
      StaticsComplete (populateGlobals host info delta (runCalls calls) w).1 addr := by
  intro h
  have hsome := (h .plain { globals := [padded] } 0 [] {} 0x1006).1.mpr
  have hnone : ((populateGlobals .plain { globals := [padded] } 0 (runCalls []) {}).1.lookupStatics
      0x1006).isSome = false := rfl
  rw [hnone] at hsome
  exact Bool.false_ne_true (hsome ⟨⟨0x1000, 0x1008, "s", padded.typeInfo, .global 0⟩,
    List.mem_cons_self, by decide⟩)

end AddressIndex

end Rtmap.Engine
