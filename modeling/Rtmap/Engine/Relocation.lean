import Rtmap.Engine.Variables
import Rtmap.Lib.KeyedCell

/-!
# Relocation of the globals

The globals are populated at their ELF addresses first and again at their run-time
addresses on the first MODULE_LOAD. The second population starts from a new index and
renews every node, but it adds to the shadow type map of the first one.
`relocation_transparent_iff` says for which programs that makes no difference.
-/
namespace Rtmap.Engine
open Rtmap.Ring

/-- Two populations side by side, the second with every variable `shift` further on. -/
structure PopulatesAlike (shift : UInt64)
    (R : AddressIndex → World → AddressIndex → World → Prop) : Prop where
  register : ∀ idx w idx' w' addr size name ti id, R idx w idx' w' →
    R (idx.insertStatic addr size name ti id)
      ((w.removeNode id).ensureNode id name ti addr size)
      (idx'.insertStatic (addr + shift) size name ti id)
      ((w'.removeNode id).ensureNode id name ti (addr + shift) size)
  types : ∀ idx (w : World) m idx' (w' : World) m', R idx w idx' w' →
    R idx { w with stm := m } idx' { w' with stm := m' }
  sort : ∀ orders idx w idx' w', R idx w idx' w' →
    R (AddressIndex.finalize orders idx) w (AddressIndex.finalize orders idx') w'

namespace PopulatesAlike
variable {shift : UInt64} {R : AddressIndex → World → AddressIndex → World → Prop}

theorem fields (h : PopulatesAlike shift R) (gi : UInt32) (levels : ℕ) :
    ∀ name base fields (acc acc' : Populating), acc'.nextField = acc.nextField →
    R acc.addrIndex acc.world acc'.addrIndex acc'.world →
    let r := registerFields gi levels name base fields acc
    let r' := registerFields gi levels name (base + shift) fields acc'
    r'.nextField = r.nextField ∧ R r.addrIndex r.world r'.addrIndex r'.world := by
  induction levels with
  | zero => exact fun _ _ _ _ _ hnext hR => ⟨hnext, hR⟩
  | succ levels ih =>
      intro name base fields acc acc' hnext hR
      simp only [registerFields]
      induction fields generalizing acc acc' with
      | nil => exact ⟨hnext, hR⟩
      | cons f fields ihf =>
          have haddr : base + shift + f.byteOffset = base + f.byteOffset + shift := by
            rw [UInt64.add_assoc, UInt64.add_comm shift, ← UInt64.add_assoc]
          simp only [List.foldl_cons, hnext, haddr]
          split
          · exact ihf acc acc' hnext hR
          · have hreg := h.register _ _ _ _ (base + f.byteOffset) f.byteSize (name ++ "." ++ f.name)
              f.typeInfo (.field gi acc.nextField) hR
            split
            · refine ihf _ _ (ih _ _ _ _ _ ?_ ?_).1 (ih _ _ _ _ _ ?_ ?_).2
              · rfl
              · exact hreg
              · rfl
              · exact hreg
            · exact ihf _ _ rfl hreg

theorem global (h : PopulatesAlike shift R) (g : GlobalVar) (delta : UInt64) (gi : UInt32)
    {idx idx' : AddressIndex} {w w' : World} (hR : R idx w idx' w') :
    let r := populateGlobal true g delta gi idx w
    let r' := populateGlobal true g (delta + shift) gi idx' w'
    R r.1 r.2 r'.1 r'.2 := by
  have hreg := h.register _ _ _ _ (g.addr + delta) g.size g.name g.typeInfo (.global gi) hR
  simp only [populateGlobal, if_true, ← UInt64.add_assoc]
  split
  · split
    · exact h.types _ _ _ _ _ _ hreg
    · exact hreg
  · refine (h.fields gi 7 _ _ _ _ _ ?_ ?_).2
    · rfl
    · split
      · exact h.types _ _ _ _ _ _ hreg
      · exact hreg

theorem globals (h : PopulatesAlike shift R) (host : Host) (info : DwarfInfo) (delta : UInt64)
    (idx : AddressIndex) (w : World) (idx' : AddressIndex) (w' : World) (hR : R idx w idx' w') :
    let r := populateGlobals host info delta idx w
    let r' := populateGlobals host info (delta + shift) idx' w'
    R r.1 r.2 r'.1 r'.2 := by
  have hfold (gs : List (GlobalVar × ℕ)) : ∀ r r' : AddressIndex × World, R r.1 r.2 r'.1 r'.2 →
      let p := gs.foldl (fun r g =>
        populateGlobal true g.1 delta (UInt32.ofNat g.2) r.1 r.2) r
      let p' := gs.foldl (fun r g =>
        populateGlobal true g.1 (delta + shift) (UInt32.ofNat g.2) r.1 r.2) r'
      R p.1 p.2 p'.1 p'.2 := by
    induction gs with
    | nil => exact fun _ _ hr => hr
    | cons g gs ih => exact fun r r' hr => ih _ _ (h.global g.1 delta _ hr)
  exact h.sort _ _ _ _ _ (hfold _ (idx, w) (idx', w') hR)

end PopulatesAlike

section Nodes
variable {host host₀ : Host} {info : DwarfInfo} {delta : UInt64}

/-- Populated at the same addresses, two worlds have the same nodes but for those that
neither population touches. -/
theorem alike_nodes (v v' : World) : PopulatesAlike 0 fun idx w idx' w' => idx' = idx ∧
    ∀ id, w'.nodes id = w.nodes id ∨ (w.nodes id = v.nodes id ∧ w'.nodes id = v'.nodes id) where
  register idx w idx' w' addr size name ti id h := by
    obtain ⟨rfl, hnodes⟩ := h
    simp only [UInt64.add_zero, true_and]
    intro i
    have hrenewed (u : World) := @nodes_renewNode u id i true name ti addr size
    simp only [if_true, true_or, and_true] at hrenewed
    rw [hrenewed, hrenewed]
    split
    · exact .inl rfl
    · exact hnodes i
  types _ _ _ _ _ _ h := h
  sort _ _ _ _ _ h := by
    obtain ⟨rfl, hnodes⟩ := h
    exact ⟨rfl, hnodes⟩

/-- The addresses do not matter to which nodes there are. -/
theorem alike_domain (shift : UInt64) :
    PopulatesAlike shift fun _ w _ w' => ∀ id, (w'.nodes id).isSome = (w.nodes id).isSome where
  register idx w idx' w' addr size name ti id h i := by
    have hrenewed (u : World) (a : UInt64) := @nodes_renewNode u id i true name ti a size
    simp only [if_true, true_or, and_true] at hrenewed
    rw [hrenewed, hrenewed]
    split
    · rfl
    · exact h i
  types _ _ _ _ _ _ h := h
  sort _ _ _ _ _ h := h

theorem populates_unlinked : Populates fun _ w => ∀ id, w.edges id = none where
  register replace _ w addr size name ti id _ h i := by
    rw [edges_renewNode, h i, ite_self]
  types _ _ _ h := h
  sort _ _ _ h := h

/-- A second population makes the index, the nodes and the edges of a first one. -/
theorem repopulate_eq {first : World}
    (hnodes : first.nodes = (populateGlobals host₀ info 0 {} {}).2.nodes)
    (hedges : first.edges = (populateGlobals host₀ info 0 {} {}).2.edges) :
    let again := populateGlobals host info delta {} first
    let fresh := populateGlobals host info delta {} {}
    again.1 = fresh.1 ∧ again.2.nodes = fresh.2.nodes ∧ again.2.edges = fresh.2.edges := by
  intro again fresh
  have hunlinked (h : Host) (d : UInt64) (w : World) (hw : ∀ id, w.edges id = none) (id : NodeId) :
      (populateGlobals h info d {} w).2.edges id = none :=
    @Populates.globals _ populates_unlinked h info d {} w hw id
  have hfirst : ∀ id, (fresh.2.nodes id).isSome = (first.nodes id).isSome := by
    have halike := (alike_domain delta).globals host info 0 {} {} {} {} fun _ => rfl
    rw [UInt64.zero_add] at halike
    rw [hnodes]
    exact halike
  have halike := (alike_nodes {} first).globals host info delta {} {} {} first
    ⟨rfl, fun _ => .inr ⟨rfl, rfl⟩⟩
  rw [UInt64.add_zero] at halike
  obtain ⟨hindex, hsame⟩ := halike
  refine ⟨hindex, funext fun id => ?_, funext fun id => ?_⟩
  · rcases hsame id with hsame | ⟨hnone, hold⟩
    · exact hsame
    · have hgone := hfirst id
      rw [hnone] at hgone
      exact hold.trans ((Option.isNone_iff_eq_none.mp (by simpa using hgone.symm)).trans hnone.symm)
  · have hold := hunlinked host delta first (hedges ▸ hunlinked host₀ 0 {} fun _ => rfl) id
    exact hold.trans (hunlinked host delta {} (fun _ => rfl) id).symm

end Nodes

/-- A global whose type has fields gets a projection. -/
def GlobalVar.isStruct (g : GlobalVar) : Bool :=
  !g.typeInfo.fields.isEmpty && g.typeInfo.byteSize > 0

/-- The projection of a global at the address. -/
def GlobalVar.projection (g : GlobalVar) (addr : UInt64) : TypeProjection :=
  ⟨addr, g.typeInfo, g.name, 0⟩

def TypeProjection.typeName (p : TypeProjection) : String := p.typeInfo.name

/-- The projections that the struct globals at an address ask for, in their order. -/
def DwarfInfo.structsAt (info : DwarfInfo) (delta addr : UInt64) : List TypeProjection :=
  (info.globals.filter fun g => g.isStruct && g.addr + delta == addr).map (·.projection addr)

/-- Wherever the ELF file has struct globals, the run-time addresses bring struct globals
that stand for them: of the one type that they have, and the first of them of their name
and fields too unless one of another type follows. -/
def Relocates (info : DwarfInfo) (delta : UInt64) : Prop :=
  ∀ addr, addr ≠ 0 →
    KeyedCell.Absorbed TypeProjection.typeName (info.structsAt 0 addr) (info.structsAt delta addr)

/-- A program that is not moved relocates, if its struct globals of one address have one
type. -/
theorem relocates_in_place {info : DwarfInfo}
    (h : ∀ g, g ∈ info.globals ∧ g.isStruct → ∀ g', g' ∈ info.globals ∧ g'.isStruct →
      g.addr = g'.addr → g.typeInfo.name = g'.typeInfo.name) : Relocates info 0 := by
  intro addr _ e rest hcons
  have hmem (p : TypeProjection) (hp : p ∈ info.structsAt 0 addr) : ∃ g,
      (g ∈ info.globals ∧ g.isStruct) ∧ g.addr = addr ∧ p.typeName = g.typeInfo.name := by
    obtain ⟨g, hg, rfl⟩ := List.mem_map.mp hp
    obtain ⟨hglobal, hfilter⟩ := List.mem_filter.mp hg
    obtain ⟨hstruct, haddr⟩ := Bool.and_eq_true_iff.mp hfilter
    exact ⟨g, ⟨hglobal, hstruct⟩, by simpa using haddr, rfl⟩
  have hsame (p : TypeProjection) (hp : p ∈ info.structsAt 0 addr) : p.typeName = e.typeName := by
    obtain ⟨g, hg, haddr, hname⟩ := hmem p hp
    obtain ⟨g', hg', haddr', hname'⟩ := hmem e (hcons ▸ List.mem_cons_self)
    rw [hname, hname', h g hg g' hg' (haddr.trans haddr'.symm)]
  exact ⟨fun p hp => hsame p (hcons ▸ List.mem_cons_of_mem _ hp), e, rest, hcons, rfl, .inl rfl⟩

namespace ShadowTypeMap

/-- The stamps of struct globals in a row. -/
def stampStructs (delta : UInt64) (gs : List GlobalVar) (m : ShadowTypeMap) : ShadowTypeMap :=
  gs.foldl (fun m g => (m.stampType (g.addr + delta) g.typeInfo g.name 0).1) m

/-- What is projected on an address and how often that has changed. -/
def cell (m : ShadowTypeMap) (addr : UInt64) : KeyedCell TypeProjection :=
  ⟨m.map.get? addr, m.addrSchisms addr⟩

/-- All stamps have the number 0, as those of globals. -/
def Unnumbered (m : ShadowTypeMap) : Prop := ∀ addr p, m.map.get? addr = some p → p.stampSeq = 0

variable {m : ShadowTypeMap} {g : GlobalVar} {delta : UInt64}

theorem GlobalVar.size_of_isStruct (hg : g.isStruct) : g.typeInfo.byteSize ≠ 0 := by
  intro hzero
  simp [GlobalVar.isStruct, hzero] at hg

/-- What a stamp of a global does: the first of its address projects, one of the same type
does nothing, one of another type replaces the projection and counts. -/
theorem stampType_cases_zero (h : Unnumbered m) {addr : UInt64} {ti : TypeInfo} (source : String)
    (hsize : ti.byteSize ≠ 0) (haddr : addr ≠ 0) :
    (m.map.get? addr = none ∧
      (m.stampType addr ti source 0).1 = m.project addr ti source 0) ∨
    (∃ e, m.map.get? addr = some e ∧ e.typeInfo.name = ti.name ∧
      (m.stampType addr ti source 0).1 = m) ∨
    ∃ e, m.map.get? addr = some e ∧ e.typeInfo.name ≠ ti.name ∧
      (m.stampType addr ti source 0).1 = { m.project addr ti source 0 with
        addrSchisms := Function.update m.addrSchisms addr (m.addrSchisms addr + 1)
        schismCount := if m.addrSchisms addr + 1 ≥ 2 then m.schismCount else m.schismCount + 1
        poolReuseCount :=
          if m.addrSchisms addr + 1 ≥ 2 then m.poolReuseCount + 1 else m.poolReuseCount } := by
  rw [stampType, if_neg (by simp [haddr, hsize])]
  cases he : m.map.get? addr with
  | none => exact .inl ⟨rfl, rfl⟩
  | some e =>
      have hseq := h addr e he
      by_cases hname : e.typeInfo.name = ti.name
      · exact .inr (.inl ⟨e, rfl, hname, by simp only [hname, if_true]⟩)
      · refine .inr (.inr ⟨e, rfl, hname, ?_⟩)
        simp only [hname, hseq, gt_iff_lt, Nat.lt_irrefl, if_false]
        split <;> rfl

/-- A stamp of a struct global puts its projection into the cell of its address. -/
theorem cell_stampType (h : Unnumbered m) (hg : g.isStruct) (x : UInt64) :
    (m.stampType (g.addr + delta) g.typeInfo g.name 0).1.cell x =
      if x = g.addr + delta ∧ x ≠ 0 then
        (m.cell x).put TypeProjection.typeName (g.projection x)
      else m.cell x := by
  by_cases hzero : g.addr + delta = 0
  · rw [if_neg (by rw [hzero]; exact fun hand => hand.2 hand.1), stampType, if_pos (.inl hzero)]
  · have hget (y : UInt64) : (m.project (g.addr + delta) g.typeInfo g.name 0).map.get? y =
        if y = g.addr + delta then some (g.projection (g.addr + delta)) else m.map.get? y :=
      SortedMap.get?_insert ..
    by_cases hx : x = g.addr + delta
    · subst hx
      rw [if_pos ⟨rfl, hzero⟩]
      rcases stampType_cases_zero h g.name (GlobalVar.size_of_isStruct hg) hzero with
        ⟨he, heq⟩ | ⟨e, he, hname, heq⟩ | ⟨e, he, hname, heq⟩
      · rw [heq, cell, cell, hget, if_pos rfl, he]
        rfl
      · rw [heq, cell, he]
        exact (KeyedCell.put_same (by exact hname)).symm
      · rw [heq, cell, cell, he, KeyedCell.put_other (by exact hname)]
        simp only [hget, if_true, Function.update_self]
    · rw [if_neg fun hand => hx hand.1]
      rcases stampType_cases_zero h g.name (GlobalVar.size_of_isStruct hg) hzero with
        ⟨-, heq⟩ | ⟨-, -, -, heq⟩ | ⟨-, -, -, heq⟩
      · rw [heq, cell, hget, if_neg hx]
        rfl
      · rw [heq]
      · simp only [heq, cell, hget, if_neg hx, Function.update_of_ne hx]

theorem Unnumbered.stampType (h : Unnumbered m) (addr : UInt64) (ti : TypeInfo) (source : String) :
    Unnumbered (m.stampType addr ti source 0).1 := by
  intro x p hp
  rcases stampType_cases m addr ti source 0 with ⟨heq, -⟩ | ⟨hmap, -, -⟩
  · rw [heq] at hp
    exact h x p hp
  · rw [hmap, SortedMap.get?_insert] at hp
    split at hp
    · obtain rfl := Option.some.inj hp
      rfl
    · exact h x p hp

theorem stampStructs_snoc (gs : List GlobalVar) (g : GlobalVar) :
    m.stampStructs delta (gs ++ [g]) =
      ((m.stampStructs delta gs).stampType (g.addr + delta) g.typeInfo g.name 0).1 := by
  rw [stampStructs, List.foldl_append]
  rfl

theorem Unnumbered.stampStructs (h : Unnumbered m) (delta : UInt64) (gs : List GlobalVar) :
    Unnumbered (m.stampStructs delta gs) := by
  induction gs generalizing m with
  | nil => exact h
  | cons g gs ih => exact ih (h.stampType _ _ _)

/-- The stamps in a row fill the cells. -/
theorem cell_stampStructs {gs : List GlobalVar} (h : Unnumbered m) (hgs : ∀ g ∈ gs, g.isStruct)
    {x : UInt64} (hx : x ≠ 0) :
    (m.stampStructs delta gs).cell x = (m.cell x).fill TypeProjection.typeName
      ((gs.filter fun g => g.addr + delta == x).map (·.projection x)) := by
  induction gs generalizing m with
  | nil => rfl
  | cons g gs ih =>
      obtain ⟨hg, hgs⟩ := List.forall_mem_cons.mp hgs
      have hstep : m.stampStructs delta (g :: gs) =
          (m.stampType (g.addr + delta) g.typeInfo g.name 0).1.stampStructs delta gs := rfl
      rw [hstep, ih (h.stampType _ _ _) hgs, cell_stampType h hg, List.filter_cons]
      by_cases hat : x = g.addr + delta
      · rw [if_pos ⟨hat, hx⟩, if_pos (by rw [hat]; exact beq_self_eq_true _), List.map_cons,
          KeyedCell.fill_cons]
      · rw [if_neg fun hand => hat hand.1, if_neg fun hbeq => hat (beq_iff_eq.mp hbeq).symm]

/-- Nothing is stamped on the address 0. -/
theorem cell_stampStructs_zero {gs : List GlobalVar} (h : Unnumbered m)
    (hgs : ∀ g ∈ gs, g.isStruct) : (m.stampStructs delta gs).cell 0 = m.cell 0 := by
  induction gs generalizing m with
  | nil => rfl
  | cons g gs ih =>
      obtain ⟨hg, hgs⟩ := List.forall_mem_cons.mp hgs
      have hstep : m.stampStructs delta (g :: gs) =
          (m.stampType (g.addr + delta) g.typeInfo g.name 0).1.stampStructs delta gs := rfl
      rw [hstep, ih (h.stampType _ _ _) hgs, cell_stampType h hg, if_neg fun hand => hand.2 rfl]

/-- The type map without its projections: the counts of schisms, and what no global touches. -/
def unmapped (m : ShadowTypeMap) : ShadowTypeMap := { m with map := SortedMap.empty }

theorem eq_of_unmapped {t f : ShadowTypeMap} (h : t.unmapped = f.unmapped) (hmap : t.map = f.map) :
    t = f := by
  have hback (m : ShadowTypeMap) : m = { m.unmapped with map := m.map } := rfl
  rw [hback t, hback f, h, hmap]

/-- One more schism at the address. -/
def recount (m : ShadowTypeMap) (addr : UInt64) : ShadowTypeMap :=
  { m with
    addrSchisms := Function.update m.addrSchisms addr (m.addrSchisms addr + 1)
    schismCount := if m.addrSchisms addr + 1 ≥ 2 then m.schismCount else m.schismCount + 1
    poolReuseCount :=
      if m.addrSchisms addr + 1 ≥ 2 then m.poolReuseCount + 1 else m.poolReuseCount }

theorem addrSchisms_recount_ne (m : ShadowTypeMap) (addr : UInt64) :
    (m.recount addr).addrSchisms ≠ m.addrSchisms := by
  intro h
  have hat := congrFun h addr
  simp [recount] at hat

theorem unmapped_stampType (h : Unnumbered m) (hg : g.isStruct) :
    (m.stampType (g.addr + delta) g.typeInfo g.name 0).1.unmapped = m.unmapped ∨
    (m.stampType (g.addr + delta) g.typeInfo g.name 0).1.unmapped =
      m.unmapped.recount (g.addr + delta) := by
  by_cases hzero : g.addr + delta = 0
  · rw [stampType, if_pos (.inl hzero)]
    exact .inl rfl
  · rcases stampType_cases_zero h g.name (GlobalVar.size_of_isStruct hg) hzero with
      ⟨-, heq⟩ | ⟨-, -, -, heq⟩ | ⟨-, -, -, heq⟩
    · exact .inl (by rw [heq]; rfl)
    · exact .inl (by rw [heq])
    · exact .inr (by rw [heq]; rfl)

/-- Stamps that change the same cells count the same. -/
theorem unmapped_stampType_congr {t f : ShadowTypeMap} (ht : Unnumbered t) (hf : Unnumbered f)
    (hg : g.isStruct) (h : t.unmapped = f.unmapped)
    (hafter : (t.stampType (g.addr + delta) g.typeInfo g.name 0).1.addrSchisms =
      (f.stampType (g.addr + delta) g.typeInfo g.name 0).1.addrSchisms) :
    (t.stampType (g.addr + delta) g.typeInfo g.name 0).1.unmapped =
      (f.stampType (g.addr + delta) g.typeInfo g.name 0).1.unmapped := by
  have hschisms : t.unmapped.addrSchisms = f.unmapped.addrSchisms := congrArg addrSchisms h
  have hstamped : (t.stampType (g.addr + delta) g.typeInfo g.name 0).1.unmapped.addrSchisms =
      (f.stampType (g.addr + delta) g.typeInfo g.name 0).1.unmapped.addrSchisms := hafter
  rcases @unmapped_stampType t g delta ht hg with ht' | ht' <;>
    rcases @unmapped_stampType f g delta hf hg with hf' | hf'
  · rw [ht', hf', h]
  · rw [ht', hf', hschisms] at hstamped
    exact absurd hstamped.symm (addrSchisms_recount_ne _ _)
  · rw [ht', hf', ← hschisms] at hstamped
    exact absurd hstamped (addrSchisms_recount_ne _ _)
  · rw [ht', hf', h]

/-- A type map without schisms has counted none. -/
theorem unmapped_stampStructs {gs : List GlobalVar} (hgs : ∀ g ∈ gs, g.isStruct)
    (hnone : ∀ addr, (({} : ShadowTypeMap).stampStructs delta gs).addrSchisms addr = 0) :
    (({} : ShadowTypeMap).stampStructs delta gs).unmapped = {} := by
  induction gs using List.reverseRecOn with
  | nil => rfl
  | append_singleton gs g ih =>
      have hg := hgs g (by simp)
      have hold : Unnumbered (({} : ShadowTypeMap).stampStructs delta gs) :=
        Unnumbered.stampStructs (fun _ _ hp => by cases hp) delta gs
      rw [stampStructs_snoc] at hnone ⊢
      rcases @unmapped_stampType _ g delta hold hg with hsame | hmore
      · rw [hsame]
        refine ih (fun g hg => hgs g (List.mem_append_left _ hg)) fun addr => ?_
        exact (congrFun (congrArg addrSchisms hsame) addr).symm.trans (hnone addr)
      · have hone := congrFun (congrArg addrSchisms hmore) (g.addr + delta)
        rw [unmapped, hnone] at hone
        simp [recount] at hone

/-- Stamping the struct globals again at other addresses makes the type map that stamping
them there makes, exactly when they relocate. -/
theorem restamp_iff (info : DwarfInfo) (delta : UInt64) :
    let structs := info.globals.filter GlobalVar.isStruct
    (({} : ShadowTypeMap).stampStructs 0 structs).stampStructs delta structs =
      ({} : ShadowTypeMap).stampStructs delta structs ↔ Relocates info delta := by
  intro structs
  have hstructs : ∀ g ∈ structs, g.isStruct := fun g hg => (List.mem_filter.mp hg).2
  have hempty : Unnumbered {} := fun _ _ hp => by cases hp
  have hfirst := hempty.stampStructs 0 structs
  have hat (d x : UInt64) : (structs.filter fun g => g.addr + d == x).map (·.projection x) =
      info.structsAt d x := by
    simp only [structs, List.filter_filter, DwarfInfo.structsAt, Bool.and_comm]
  have hcell (x : UInt64) (hx : x ≠ 0) : (({} : ShadowTypeMap).stampStructs 0 structs).cell x =
      ({} : KeyedCell TypeProjection).fill TypeProjection.typeName (info.structsAt 0 x) := by
    rw [cell_stampStructs hempty hstructs hx, hat]
    rfl
  constructor
  · intro heq x hx
    have hcells := congrArg (fun m : ShadowTypeMap => m.cell x) heq
    simp only [cell_stampStructs hfirst hstructs hx, cell_stampStructs hempty hstructs hx, hat]
      at hcells
    exact KeyedCell.refill_iff.mp hcells
  · intro hrelocates
    -- on the way the second pass changes the same cells whether there was a first or not
    have hchanges (front : List GlobalVar) (hfront : front <+: structs) :
        ((({} : ShadowTypeMap).stampStructs 0 structs).stampStructs delta front).addrSchisms =
          (({} : ShadowTypeMap).stampStructs delta front).addrSchisms := by
      have hgs : ∀ g ∈ front, g.isStruct := fun g hg => hstructs g (hfront.subset hg)
      funext x
      have hchange (m : ShadowTypeMap) : m.addrSchisms x = (m.cell x).changes := rfl
      rw [hchange, hchange]
      by_cases hx : x = 0
      · subst hx
        rw [cell_stampStructs_zero hfirst hgs, cell_stampStructs_zero hempty hgs,
          cell_stampStructs_zero hempty hstructs]
      · rw [cell_stampStructs hfirst hgs hx, cell_stampStructs hempty hgs hx, hcell x hx]
        refine (hrelocates x hx).changes ?_
        rw [← hat]
        exact (hfront.filter _).map _
    have hquiet : (({} : ShadowTypeMap).stampStructs 0 structs).unmapped = {} := by
      refine unmapped_stampStructs hstructs fun x => ?_
      exact congrFun (hchanges [] (List.nil_prefix)) x
    have hcounts (front : List GlobalVar) (hfront : front <+: structs) :
        ((({} : ShadowTypeMap).stampStructs 0 structs).stampStructs delta front).unmapped =
          (({} : ShadowTypeMap).stampStructs delta front).unmapped := by
      induction front using List.reverseRecOn with
      | nil => exact hquiet
      | append_singleton front g ih =>
          have hprefix := (List.prefix_append front [g]).trans hfront
          have hafter := hchanges _ hfront
          rw [stampStructs_snoc, stampStructs_snoc] at hafter ⊢
          exact unmapped_stampType_congr (hfirst.stampStructs delta front)
            (hempty.stampStructs delta front) (hstructs g (hfront.subset (by simp)))
            (ih hprefix) hafter
    have hmap : ((({} : ShadowTypeMap).stampStructs 0 structs).stampStructs delta structs).map =
        (({} : ShadowTypeMap).stampStructs delta structs).map := by
      refine SortedMap.ext_get? fun x => ?_
      have hvalue (m : ShadowTypeMap) : m.map.get? x = (m.cell x).value := rfl
      rw [hvalue, hvalue]
      by_cases hx : x = 0
      · subst hx
        rw [cell_stampStructs_zero hfirst hstructs, cell_stampStructs_zero hempty hstructs,
          cell_stampStructs_zero hempty hstructs]
      · rw [cell_stampStructs hfirst hstructs hx, hcell x hx,
          cell_stampStructs hempty hstructs hx, hat]
        exact congrArg KeyedCell.value (KeyedCell.refill_iff.mpr (hrelocates x hx))
    exact eq_of_unmapped (hcounts structs List.prefix_rfl) hmap

end ShadowTypeMap

section Population

theorem stm_populateGlobal (replace : Bool) (g : GlobalVar) (delta : UInt64) (gi : UInt32)
    (idx : AddressIndex) (w : World) : (populateGlobal replace g delta gi idx w).2.stm =
      if g.isStruct then (w.stm.stampType (g.addr + delta) g.typeInfo g.name 0).1 else w.stm := by
  let v := if replace then w.removeNode (.global gi) else w
  have hrenewed : v.stm = w.stm := by
    cases replace <;> rfl
  have hnode : (v.ensureNode (.global gi) g.name g.typeInfo (g.addr + delta) g.size).stm = w.stm :=
    (congrArg World.stm (core_ensureNode v (.global gi) g.name g.typeInfo (g.addr + delta)
      g.size)).trans hrenewed
  have hstamped (v : World) (hv : v.stm = w.stm) :
      (if g.isStruct then { v with stm := (v.stm.stampType (g.addr + delta) g.typeInfo g.name 0).1 }
        else v).stm =
      if g.isStruct then (w.stm.stampType (g.addr + delta) g.typeInfo g.name 0).1 else w.stm := by
    split
    · rw [hv]
    · exact hv
  simp only [populateGlobal]
  split
  · exact hstamped _ hnode
  · exact (congrArg World.stm (core_registerFields gi 7 _ _ _ _)).trans (hstamped _ hnode)

/-- A population stamps the struct globals in their order. -/
theorem stm_populateGlobals (host : Host) (info : DwarfInfo) (delta : UInt64) (idx : AddressIndex)
    (w : World) : (populateGlobals host info delta idx w).2.stm =
      w.stm.stampStructs delta (info.globals.filter GlobalVar.isStruct) := by
  have hfold (gs : List GlobalVar) : ∀ (n : ℕ) (r : AddressIndex × World),
      ((gs.zipIdx n).foldl (fun r g =>
        populateGlobal true g.1 delta (UInt32.ofNat g.2) r.1 r.2) r).2.stm =
      r.2.stm.stampStructs delta (gs.filter GlobalVar.isStruct) := by
    induction gs with
    | nil => exact fun _ _ => rfl
    | cons g gs ih =>
        intro n r
        rw [List.zipIdx_cons, List.foldl_cons, ih, stm_populateGlobal, List.filter_cons]
        split <;> rfl
  exact hfold info.globals 0 (idx, w)

end Population

/-- The first MODULE_LOAD leaves what a population at the run-time addresses makes of
nothing. -/
def Transparent (host₀ host : Host) (info : DwarfInfo) (topo : Topology) (ev : Event) : Prop :=
  let s := processEvent host ev (State.started host₀ (some info) topo)
  let fresh := populateGlobals host info (ev.addr - info.elfBaseVaddr) {} {}
  s.addrIndex = fresh.1 ∧ s.world.nodes = fresh.2.nodes ∧ s.world.edges = fresh.2.edges ∧
    s.world.stm = fresh.2.stm

/-- Relocation is transparent exactly for the struct globals that stand for those at their
link-time addresses. -/
theorem relocation_transparent_iff (host₀ host : Host) (info : DwarfInfo) (topo : Topology)
    (ev : Event) (hkind : kindOf ev = .moduleLoad) :
    Transparent host₀ host info topo ev ↔ Relocates info (ev.addr - info.elfBaseVaddr) := by
  let first : World := (countEvent (State.started host₀ (some info) topo)).world
  have hload : (processEvent host ev (State.started host₀ (some info) topo)).addrIndex =
        (populateGlobals host info (ev.addr - info.elfBaseVaddr) {} first).1 ∧
      (processEvent host ev (State.started host₀ (some info) topo)).world =
        (populateGlobals host info (ev.addr - info.elfBaseVaddr) {} first).2 := by
    simp only [processEvent, processKind, hkind]
    exact ⟨rfl, rfl⟩
  obtain ⟨hindex, hnodes, hedges⟩ := @repopulate_eq host host₀ info (ev.addr - info.elfBaseVaddr)
    first rfl rfl
  have hfirst : first.stm = ({} : ShadowTypeMap).stampStructs 0
      (info.globals.filter GlobalVar.isStruct) := stm_populateGlobals host₀ info 0 {} {}
  have hstm := ShadowTypeMap.restamp_iff info (ev.addr - info.elfBaseVaddr)
  dsimp only at hstm
  rw [← hfirst] at hstm
  rw [← hstm, Transparent, hload.1, hload.2, stm_populateGlobals, stm_populateGlobals]
  exact ⟨fun h => h.2.2.2, fun h => ⟨hindex, hnodes, hedges, h⟩⟩

/-- A program with one struct global, at 0x4000. -/
def oneStruct : DwarfInfo where
  globals := [{
    name := "cfg"
    addr := 0x4000
    size := 16
    typeInfo := {
      name := "config"
      byteSize := 16
      fields := [{
        name := "next"
        byteOffset := 8
        byteSize := 8
        typeInfo := { name := "*config", byteSize := 8, isPointer := true } }] } }]

def loadedAt (base : UInt64) : Event := plainEvent EVENT_MODULE_LOAD base 0x1000

/-- Loaded at its link-time address, the program is transparent. -/
theorem load_in_place_transparent : Transparent .plain .plain oneStruct none (loadedAt 0) := by
  refine (relocation_transparent_iff .plain .plain oneStruct none (loadedAt 0) (by decide)).mpr ?_
  refine relocates_in_place fun g hg g' hg' _ => ?_
  obtain rfl := List.mem_singleton.mp hg.1
  obtain rfl := List.mem_singleton.mp hg'.1
  rfl

/-- Loaded anywhere else, it keeps a projection at the link-time address. -/
theorem link_time_projection_stays :
    ¬ (∀ host₀ host info topo ev, kindOf ev = .moduleLoad → Transparent host₀ host info topo ev) ∧
    ((processEvent .plain (loadedAt 0x555555554000)
      (State.started .plain (some oneStruct) none)).world.stm.lookup 0x4000).isSome = true := by
  refine ⟨fun hall => ?_, by decide +kernel⟩
  have hstm := (hall .plain .plain oneStruct none (loadedAt 0x555555554000) (by decide)).2.2.2
  have hold : ((processEvent .plain (loadedAt 0x555555554000)
      (State.started .plain (some oneStruct) none)).world.stm.lookup 0x4000).isSome = true := by
    decide +kernel
  have hfresh : ((populateGlobals .plain oneStruct ((loadedAt 0x555555554000).addr -
      oneStruct.elfBaseVaddr) {} {}).2.stm.lookup 0x4000).isSome = false := by
    decide +kernel
  rw [hstm, hfresh] at hold
  cases hold

end Rtmap.Engine
