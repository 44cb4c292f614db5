import Rtmap.Engine.FrameNodes

/-!
# Where a CALL places the locals

A local's node stands where its location resolves to, its interval in the index
at one offset from the stack pointer that was fixed when the DWARF data was read.
`locals_agree_iff` says for which locals the two are one address.
-/
namespace Rtmap.Engine
open Rtmap.Ring

/-- `TypeInfo::unknown`. -/
def TypeInfo.unknown : TypeInfo := { name := "<unknown>", byteSize := 0 }

/-- `try_extract_local`, of what the entry's attributes decode to: the offset is the one of
the first entry of the location list, whichever entry is in force later. -/
def tryExtractLocal (name : String) (location : LocationTable) (resolved : Option TypeInfo) :
    Option LocalVar :=
  match location.entries with
  | [] => none
  | first :: _ =>
      let frameOffset :=
        match first.piece with
        | .frameBaseOffset off => off
        | .registerOffset _ off => off
        | _ => 0
      let ti := resolved.getD .unknown
      some ⟨frameOffset, name, ti.byteSize, ti, location⟩

namespace LocalVar

/-- The location in force at the callee's entry: of the list's entry over it, else of the first. -/
def piece (l : LocalVar) (elfPc : UInt64) : Option LocationPiece :=
  (l.location.lookup elfPc).orElse fun _ => l.location.entries.head?.map LocationEntry.piece

/-- The address that the index gives the local. -/
def slot (l : LocalVar) (frameBase : UInt64) : UInt64 := frameBase + l.frameOffset.toUInt64

/-- The local is at the address: by its location where that is a fixed address, a register, the
CFA or an expression that has a value, and else by its slot. -/
def At (host : Host) (elfPc frameBase : UInt64) (regs : RegIdx → UInt64) (cfa : Bool)
    (l : LocalVar) (addr : UInt64) : Prop :=
  match l.piece elfPc with
  | some (.address a) => a = addr
  | some (.register r) => ((dwarfRegToIdx r).map regs).getD (l.slot frameBase) = addr
  | some .cfa => regs 7 + 8 = addr
  | some (.expr op) => (host.resolveExpr op regs frameBase cfa).getD (l.slot frameBase) = addr
  | none | some (.frameBaseOffset _) | some (.registerOffset _ _) | some (.implicitValue _) =>
      l.slot frameBase = addr

/-- The address of the local's node. -/
theorem at_localAddr (host : Host) (elfPc frameBase : UInt64) (regs : RegIdx → UInt64)
    (f : FunctionMeta) (l : LocalVar) (addr : UInt64) :
    l.At host elfPc frameBase regs f.frameBaseIsCfa addr ↔
      Call.localAddr host elfPc frameBase regs f l = addr := by
  have hpiece : (l.location.lookup elfPc).orElse
      (fun _ => l.location.entries.head?.map LocationEntry.piece) = l.piece elfPc := rfl
  rw [At, Call.localAddr, hpiece]
  cases l.piece elfPc with
  | none => exact Iff.rfl
  | some p => cases p <;> exact Iff.rfl

end LocalVar

/-- The intervals of the frame are those of the locals that have a size, in their order, and
each starts where the node of its id stands. -/
def LocalsAgree (fid : FrameId) (f : FunctionMeta) (s : State) : Prop :=
  List.Forall₂
    (fun l iv => iv.nodeId = .local fid (UInt16.ofNat l.2) ∧
      ∃ n, s.world.nodes iv.nodeId = some n ∧ n.addr = iv.lo)
    (f.locals.zipIdx.filter fun l => l.1.size ≠ 0) ((s.addrIndex.frame fid).getD [])

/-- Every local with a size has the node of its number in its slot. The node is the local's own
unless there are more than 65536: numbers are of sixteen bits, and the first one keeps it. -/
def SlotsKept (host : Host) (ev : Event) (f : FunctionMeta) (s : State) : Prop :=
  ∀ l ∈ f.locals.zipIdx, l.1.size ≠ 0 →
    ∀ owner, f.locals[(UInt16.ofNat l.2).toNat]? = some owner →
      owner.At host (s.elfPc ev.addr) ev.value s.world.regs f.frameBaseIsCfa (l.1.slot ev.value)

section Nodes
variable {id : LocalVar × ℕ → NodeId} {addr : LocalVar × ℕ → UInt64} {i : NodeId}

/-- A node that exists stays as it is. -/
theorem nodes_foldl_of_some (ls : List (LocalVar × ℕ)) {w : World} {n : Node}
    (h : w.nodes i = some n) :
    (ls.foldl (fun w l => w.ensureNode (id l) l.1.name l.1.typeInfo (addr l) l.1.size) w).nodes i =
      some n := by
  induction ls generalizing w with
  | nil => exact h
  | cons l ls ih =>
      rw [List.foldl_cons]
      apply ih
      rw [nodes_ensureNode, if_neg, h]
      rintro ⟨rfl, hnone⟩
      rw [h] at hnone
      cases hnone

/-- Where there was none, the first local of an id makes the node. -/
theorem nodes_foldl_of_none (ls : List (LocalVar × ℕ)) {w : World} (h : w.nodes i = none) :
    (ls.foldl (fun w l => w.ensureNode (id l) l.1.name l.1.typeInfo (addr l) l.1.size) w).nodes i =
      (ls.find? fun l => i = id l).map fun l =>
        { name := l.1.name, typeInfo := l.1.typeInfo, addr := addr l, size := l.1.size } := by
  induction ls generalizing w with
  | nil => exact h
  | cons l ls ih =>
      rw [List.foldl_cons]
      by_cases hi : i = id l
      · rw [List.find?_cons_of_pos (by simpa using hi), Option.map_some]
        apply nodes_foldl_of_some
        rw [nodes_ensureNode, if_pos ⟨hi, hi ▸ h⟩]
      · rw [List.find?_cons_of_neg (by simpa using hi)]
        apply ih
        rw [nodes_ensureNode, if_neg fun hid => hi hid.1, h]

/-- The first local of a number is the one in that place. -/
theorem find?_number (locals : List LocalVar) (fid : FrameId) (li : UInt16) :
    (locals.zipIdx.find? fun l => NodeId.local fid li = .local fid (UInt16.ofNat l.2)) =
      locals[li.toNat]?.map fun l => (l, li.toNat) := by
  cases hlocal : locals[li.toNat]? with
  | none =>
      rw [Option.map_none, List.find?_eq_none]
      rintro ⟨l, k⟩ hl heq
      have hk := (List.getElem?_eq_some_iff.mp (List.mem_zipIdx_iff_getElem?.mp hl)).1
      have hli : li = UInt16.ofNat k := by simpa using heq
      have hlen := List.getElem?_eq_none_iff.mp hlocal
      rw [hli, UInt16.toNat_ofNat'] at hlen
      have := Nat.mod_le k (2 ^ 16)
      omega
  | some l =>
      rw [Option.map_some, List.find?_eq_some_iff_getElem]
      obtain ⟨hlt, hget⟩ := List.getElem?_eq_some_iff.mp hlocal
      refine ⟨by simp, li.toNat, by simpa using hlt, by simp [hget], fun k hk => ?_⟩
      have hk16 : k < 2 ^ 16 := lt_trans hk li.toNat_lt
      simp only [List.getElem_zipIdx, Nat.zero_add, NodeId.local.injEq, true_and,
        Bool.not_eq_true', decide_eq_false_iff_not]
      rintro rfl
      rw [UInt16.toNat_ofNat', Nat.mod_eq_of_lt hk16] at hk
      exact Nat.lt_irrefl k hk

end Nodes

namespace FrameInv
variable {s : State}

/-- The next frame's locals have no node yet. -/
theorem nodes_next (h : FrameInv s) (li : UInt16) :
    s.world.nodes (.local s.nextFrameId li) = none := by
  by_contra hnode
  rcases h.locals s.nextFrameId li (Option.isSome_iff_ne_none.mpr hnode) with hstack | hqueue
  · obtain ⟨tid, f, hf, hfid⟩ := hstack
    exact Nat.lt_irrefl _ (hfid ▸ h.below tid f hf)
  · exact Nat.lt_irrefl _ (h.gone _ hqueue).1

/-- The index does not hold the next frame. -/
theorem frame_next (h : FrameInv s) : s.addrIndex.frame s.nextFrameId = none := by
  rw [AddressIndex.frame, Option.map_eq_none_iff, List.find?_eq_none]
  intro g hg hfid
  obtain ⟨tid, f, hf, hheld⟩ := h.held g hg
  have hlt := h.below tid f hf
  rw [hheld, of_decide_eq_true hfid] at hlt
  exact Nat.lt_irrefl _ hlt

variable {host : Host} {ev : Event} {f : FunctionMeta}

/-- The nodes that a CALL makes. -/
theorem nodes_call (h : FrameInv s) (hf : s.callee ev.addr = some f) (li : UInt16) :
    (processCall host ev s).world.nodes (.local s.nextFrameId li) =
      f.locals[li.toNat]?.map fun l =>
        { name := l.name
          typeInfo := l.typeInfo
          addr := Call.localAddr host (s.elfPc ev.addr) ev.value s.world.regs f l
          size := l.size } := by
  obtain ⟨regs, oracle, hcall⟩ := @processCall_known host ev s f hf
  rw [hcall]
  refine (nodes_foldl_of_none f.locals.zipIdx (h.nodes_next li)).trans ?_
  rw [find?_number, Option.map_map]
  rfl

/-- The intervals that a CALL files. -/
theorem frame_call (h : FrameInv s) (hf : s.callee ev.addr = some f) :
    ((processCall host ev s).addrIndex.frame s.nextFrameId).getD [] =
      AddressIndex.frameIntervals s.nextFrameId ev.value f.locals := by
  obtain ⟨regs, oracle, hcall⟩ := @processCall_known host ev s f hf
  have hindex : (processCall host ev s).addrIndex = if f.locals.isEmpty then s.addrIndex
      else s.addrIndex.insertFrameLocals s.nextFrameId ev.value f.locals := by
    rw [hcall]
    rfl
  rw [hindex]
  split
  · rename_i hempty
    rw [List.isEmpty_iff.mp hempty, h.frame_next]
    rfl
  · rw [AddressIndex.frame_insertFrameLocals]
    split
    · rfl
    · rename_i hnil
      rw [h.frame_next, not_not.mp fun hne => hnil ⟨rfl, hne⟩]
      rfl

/-- After a CALL a local's interval starts at its node exactly if the local that owns the node
is in the slot of the interval's. -/
theorem localsAgree_call (h : FrameInv s) (hf : s.callee ev.addr = some f) :
    LocalsAgree s.nextFrameId f (processCall host ev s) ↔ SlotsKept host ev f s := by
  rw [LocalsAgree, h.frame_call hf, AddressIndex.frameIntervals, List.forall₂_map_right_iff,
    List.forall₂_same]
  simp only [List.mem_filter, decide_eq_true_eq, true_and, and_imp, h.nodes_call hf, SlotsKept]
  refine forall₃_congr fun l hl hsize => ?_
  constructor
  · rintro ⟨n, hn, haddr⟩ owner howner
    rw [howner, Option.map_some, Option.some.injEq] at hn
    rw [LocalVar.at_localAddr]
    exact (congrArg Node.addr hn).trans haddr
  · intro hat
    have hlt : (UInt16.ofNat l.2).toNat < f.locals.length := by
      have := (List.getElem?_eq_some_iff.mp (List.mem_zipIdx_iff_getElem?.mp hl)).1
      rw [UInt16.toNat_ofNat']
      exact lt_of_le_of_lt (Nat.mod_le _ _) this
    have howner := List.getElem?_eq_getElem hlt
    rw [howner]
    exact ⟨_, rfl, (LocalVar.at_localAddr ..).mp (hat _ howner)⟩

theorem localsAgree_event (h : FrameInv s) (hcall : kindOf ev = .call)
    (hf : s.callee ev.addr = some f) :
    LocalsAgree s.nextFrameId f (processEvent host ev s) ↔ SlotsKept host ev f s := by
  rw [processEvent, processKind, hcall]
  exact h.count.localsAgree_call hf

end FrameInv

theorem frameInv_run (host : Host) (dwarf : Option DwarfInfo) (topo : Topology)
    (inputs : List Input) : FrameInv (Input.run inputs (State.started host dwarf topo)) := by
  induction inputs using List.reverseRecOn with
  | nil => exact frameInv_started host dwarf topo
  | append_singleton front i ih =>
      rw [Input.run_snoc]
      exact ih.apply i

/-- At a CALL to a known function, after any run: each local's interval starts at its node
exactly if every local with a size is in its slot. -/
theorem locals_agree_iff (start : Host) (dwarf : Option DwarfInfo) (topo : Topology)
    (inputs : List Input) (host : Host) (ev : Event) (f : FunctionMeta)
    (hcall : kindOf ev = .call)
    (hf : (Input.run inputs (State.started start dwarf topo)).callee ev.addr = some f) :
    LocalsAgree (Input.run inputs (State.started start dwarf topo)).nextFrameId f
        (processEvent host ev (Input.run inputs (State.started start dwarf topo))) ↔
      SlotsKept host ev f (Input.run inputs (State.started start dwarf topo)) := by
  have h := frameInv_run start dwarf topo inputs
  generalize Input.run inputs (State.started start dwarf topo) = s at h hf ⊢
  exact h.localsAgree_event hcall hf

/-- A function with one variable of eight bytes. -/
def counting (place : LocationPiece) : FunctionMeta where
  name := "next_id"
  lowPc := 0x1000
  highPc := 0x1100
  locals := (tryExtractLocal "counter" ⟨[⟨0, -1, place⟩]⟩
    (some { name := "long", byteSize := 8 })).toList

def countingInfo (place : LocationPiece) : DwarfInfo where
  functions := FunctionMap.empty.add (counting place)

theorem callee_counting (place : LocationPiece) :
    (State.started Host.plain (some (countingInfo place)) none).callee
      (plainEvent EVENT_CALL 0x1000 0x7000).addr = some (counting place) := rfl

/-- In the frame the variable has one address. -/
theorem frame_local_agrees : LocalsAgree 1 (counting (.frameBaseOffset (-8)))
    (processEvent .plain (plainEvent EVENT_CALL 0x1000 0x7000)
      (State.started .plain (some (countingInfo (.frameBaseOffset (-8)))) none)) := by
  refine (locals_agree_iff .plain (some (countingInfo _)) none [] .plain
    (plainEvent EVENT_CALL 0x1000 0x7000) (counting _) rfl (callee_counting _)).mpr ?_
  intro l hl _ owner howner
  obtain rfl := List.mem_singleton.mp hl
  obtain rfl := Option.some.inj howner
  rfl

/-- A static variable: the index has it at the stack pointer, its node is at 0x4000. -/
theorem locals_disagree : ¬ ∀ (start : Host) (dwarf : Option DwarfInfo) (topo : Topology)
    (inputs : List Input) (host : Host) (ev : Event) (f : FunctionMeta), kindOf ev = .call →
      (Input.run inputs (State.started start dwarf topo)).callee ev.addr = some f →
        LocalsAgree (Input.run inputs (State.started start dwarf topo)).nextFrameId f
          (processEvent host ev (Input.run inputs (State.started start dwarf topo))) := by
  intro h
  have hagree := h .plain (some (countingInfo (.address 0x4000))) none [] .plain
    (plainEvent EVENT_CALL 0x1000 0x7000) _ rfl (callee_counting _)
  have hinv := frameInv_run .plain (some (countingInfo (.address 0x4000))) none []
  have hkept := (hinv.localsAgree_event rfl (callee_counting _)).mp hagree
  have hslot : (0x4000 : UInt64) = 0x7000 + 0 :=
    hkept _ List.mem_cons_self (by decide) _ rfl
  exact absurd hslot (by decide)

end Rtmap.Engine
