import Mathlib.Data.List.TakeWhile
import Rtmap.Engine.Steps

/-!
# Lookups that no iteration order decides

Where several live frames hold an interval of the least span over an address, the iteration
order of the frames picks one. Elsewhere a lookup finds the same in every order.
-/
namespace Rtmap.Engine
open Rtmap.Ring

section PickBest
variable {α : Type} (key : α → UInt64)

/-- No entry of the list has a smaller key. -/
def isLeast (l : List α) (x : α) : Bool := l.all fun y => key x ≤ key y

/-- What a fold keeps is before what is as small, and after what is larger. -/
theorem best_split (l : List α) : ∀ b, ∃ front m back, pickBest (fun a b => key a < key b) (b :: l) =
    some m ∧ b :: l = front ++ m :: back ∧ (∀ x ∈ front, key m < key x) ∧
      ∀ x ∈ back, key m ≤ key x := by
  induction l with
  | nil =>
      intro b
      exact ⟨[], b, [], rfl, rfl, by simp, by simp⟩
  | cons c l ih =>
      intro b
      by_cases hless : key c < key b
      · obtain ⟨front, m, back, hbest, hsplit, hfront, hback⟩ := ih c
        have hle : key m ≤ key c := by
          have hc : c ∈ front ++ m :: back := hsplit ▸ List.mem_cons_self
          rcases List.mem_append.mp hc with hc | hc
          · exact (hfront c hc).le
          · rcases List.mem_cons.mp hc with rfl | hc
            · exact le_rfl
            · exact hback c hc
        refine ⟨b :: front, m, back, ?_, by rw [hsplit]; rfl, ?_, hback⟩
        · rw [← hbest]
          simp only [pickBest, List.foldl_cons, decide_eq_true hless, if_true]
        · intro x hx
          rcases List.mem_cons.mp hx with rfl | hx
          · exact lt_of_le_of_lt hle hless
          · exact hfront x hx
      · obtain ⟨front, m, back, hbest, hsplit, hfront, hback⟩ := ih b
        have hsame : pickBest (fun a b => key a < key b) (b :: c :: l) = some m := by
          rw [← hbest]
          simp only [pickBest, List.foldl_cons, decide_eq_false hless, Bool.false_eq_true, if_false]
        rw [not_lt] at hless
        cases front with
        | nil =>
            obtain ⟨rfl, rfl⟩ := List.cons.inj hsplit
            refine ⟨[], b, c :: l, hsame, rfl, hfront, ?_⟩
            intro x hx
            rcases List.mem_cons.mp hx with rfl | hx
            · exact hless
            · exact hback x hx
        | cons d front =>
            obtain ⟨rfl, rfl⟩ := List.cons.inj hsplit
            refine ⟨b :: c :: front, m, back, hsame, rfl, ?_, hback⟩
            intro x hx
            have hb := hfront b List.mem_cons_self
            rcases List.mem_cons.mp hx with rfl | hx
            · exact hb
            · rcases List.mem_cons.mp hx with rfl | hx
              · exact lt_of_lt_of_le hb hless
              · exact hfront x (List.mem_cons_of_mem _ hx)

/-- The first of the least. -/
theorem pickBest_eq_find? (l : List α) :
    pickBest (fun a b => key a < key b) l = l.find? (isLeast key l) := by
  cases l with
  | nil => rfl
  | cons b l =>
      obtain ⟨front, m, back, hbest, hsplit, hfront, hback⟩ := best_split key l b
      rw [hbest, eq_comm, List.find?_eq_some_iff_append]
      refine ⟨?_, front, back, hsplit, ?_⟩
      · rw [isLeast, List.all_eq_true, hsplit]
        intro x hx
        rw [decide_eq_true_eq]
        rcases List.mem_append.mp hx with hx | hx
        · exact (hfront x hx).le
        · rcases List.mem_cons.mp hx with rfl | hx
          · exact le_rfl
          · exact hback x hx
      · intro x hx
        rw [Bool.not_eq_true', isLeast, List.all_eq_false]
        refine ⟨m, by rw [hsplit]; simp, ?_⟩
        rw [decide_eq_true_eq, not_le]
        exact hfront x hx

/-- The first result of a function does not depend on the order of entries of one result. -/
theorem findSome?_of_perm {β : Type} {f : α → Option β} {l l' : List α} (h : l.Perm l')
    (huntied : ∀ a ∈ l, ∀ b ∈ l, (f a).isSome → (f b).isSome → f a = f b) :
    l.findSome? f = l'.findSome? f := by
  cases hl : l.findSome? f with
  | none =>
      rw [eq_comm, List.findSome?_eq_none_iff]
      intro x hx
      exact List.findSome?_eq_none_iff.mp hl x (h.mem_iff.mpr hx)
  | some r =>
      obtain ⟨a, ha, hr⟩ := List.exists_of_findSome?_eq_some hl
      cases hl' : l'.findSome? f with
      | none =>
          rw [List.findSome?_eq_none_iff] at hl'
          rw [hl' a (h.mem_iff.mp ha)] at hr
          cases hr
      | some r' =>
          obtain ⟨b, hb, hr'⟩ := List.exists_of_findSome?_eq_some hl'
          rw [← hr, ← hr']
          exact huntied a ha b (h.mem_iff.mpr hb) (by rw [hr]; rfl) (by rw [hr']; rfl)

end PickBest

namespace AddressIndex

/-- The intervals of a frame over an address. -/
def frameHits (addr : UInt64) (f : FrameId × List Interval) : List FrameHit :=
  (f.2.zipIdx.filter fun iv => iv.1.contains addr).map fun iv => ⟨f.1, iv.2, iv.1⟩

def spanOf (x : FrameHit) : UInt64 := x.interval.span

/-- The frame's first interval over the address that no frame's has a smaller span than. -/
def leastHit (idx : AddressIndex) (addr : UInt64) (f : FrameId × List Interval) :
    Option FrameHit :=
  (frameHits addr f).find? (isLeast spanOf (idx.dynamics.flatMap (frameHits addr)))

/-- One frame only holds intervals of the least span over the address. -/
def Untied (idx : AddressIndex) (addr : UInt64) : Prop :=
  ∀ f ∈ idx.dynamics, ∀ g ∈ idx.dynamics,
    (idx.leastHit addr f).isSome → (idx.leastHit addr g).isSome → f = g

/-- The lookup asks the frames. -/
def AsksFrames (idx : AddressIndex) (addr : UInt64) : Prop :=
  idx.inUniverse addr = true ∧ ∀ e ∈ idx.mru, e.contains addr = false

/-- What the lookup finds is not up to the iteration order. -/
def Decided (idx : AddressIndex) (addr : UInt64) : Prop :=
  idx.AsksFrames addr → idx.Untied addr

variable {idx : AddressIndex} {addr : UInt64}

theorem decided_of_no_frames (h : idx.dynamics = []) (addr : UInt64) : idx.Decided addr := by
  intro _ f hf
  rw [h] at hf
  cases hf

theorem lookupDynamics_eq (orders : IndexOrders) (idx : AddressIndex) (addr : UInt64) :
    idx.lookupDynamics orders addr = (orders.iterate idx.dynamics).findSome? (idx.leastHit addr) := by
  have hleast (x : FrameHit) : isLeast spanOf ((orders.iterate idx.dynamics).flatMap
      (frameHits addr)) x = isLeast spanOf (idx.dynamics.flatMap (frameHits addr)) x := by
    unfold isLeast
    exact ((orders.iterate_perm idx.dynamics).flatMap_right _).all_eq
  have hfind := pickBest_eq_find? spanOf ((orders.iterate idx.dynamics).flatMap (frameHits addr))
  rw [funext hleast, List.find?_flatMap] at hfind
  exact hfind

theorem lookupDynamics_of_untied (h : idx.Untied addr) (orders orders' : IndexOrders) :
    idx.lookupDynamics orders addr = idx.lookupDynamics orders' addr := by
  rw [lookupDynamics_eq, lookupDynamics_eq]
  have hperm (o : IndexOrders) : (o.iterate idx.dynamics).Perm idx.dynamics := o.iterate_perm _
  apply findSome?_of_perm ((hperm orders).trans (hperm orders').symm)
  intro f hf g hg hfsome hgsome
  rw [h f ((hperm orders).mem_iff.mp hf) g ((hperm orders).mem_iff.mp hg) hfsome hgsome]

/-- A decided lookup is the same in every order. -/
theorem lookup_of_decided (h : idx.Decided addr) (orders orders' : IndexOrders) :
    idx.lookup orders addr = idx.lookup orders' addr := by
  unfold lookup
  by_cases hin : idx.inUniverse addr = true
  · cases hmru : idx.mru.dropWhile fun e => !e.contains addr with
    | cons e back => rfl
    | nil =>
        have hasks : idx.AsksFrames addr := by
          refine ⟨hin, fun e he => ?_⟩
          have hall := List.dropWhile_eq_nil_iff.mp hmru e he
          rwa [Bool.not_eq_true'] at hall
        rw [lookupDynamics_of_untied (h hasks) orders orders']
  · rw [Bool.not_eq_true] at hin
    rw [hin]
    rfl

end AddressIndex

/-- Hosts that differ at most in the order in which they iterate over the frames. -/
structure Host.SameButIteration (host host' : Host) : Prop where
  sortByLo : host'.orders.sortByLo = host.orders.sortByLo
  rest : host' = { host with orders := host'.orders }

section Events
variable {host host' : Host} {ev : Event} {s : State}

/-- The lookups in the address index that an event makes. -/
def indexLookups (orders : IndexOrders) (ev : Event) (idx : AddressIndex) :
    List (AddressIndex × UInt64) :=
  match kindOf ev with
  | .write =>
      let r := idx.lookup orders ev.addr
      let pointee := match r.2 with
        | some h => if h.typeInfo.isPointer && ev.size == 8 && ev.value != 0 then [(r.1, ev.value)] else []
        | none => []
      (idx, ev.addr) :: pointee
  | .cacheMiss => [(idx, ev.addr)]
  | _ => []

theorem finalize_of_sameButIteration {orders orders' : IndexOrders}
    (h : orders'.sortByLo = orders.sortByLo) (idx : AddressIndex) :
    idx.finalize orders' = idx.finalize orders := by
  unfold AddressIndex.finalize
  rw [h]

theorem Write.node_of_decided (hsame : host.SameButIteration host') (hkind : kindOf ev = .write)
    (hdecided : ∀ q ∈ indexLookups host.orders ev s.addrIndex, q.1.Decided q.2) :
    node host' ev s = node host ev s := by
  obtain ⟨-, hrest⟩ := hsame
  unfold indexLookups at hdecided
  rw [hkind] at hdecided
  dsimp only at hdecided
  have hfirst := hdecided _ List.mem_cons_self
  have hlookup := AddressIndex.lookup_of_decided hfirst host'.orders host.orders
  dsimp only at hlookup
  unfold node
  rw [hlookup]
  set q := s.addrIndex.lookup host.orders ev.addr with hq
  dsimp only
  cases hiv : q.2 with
  | none => rfl
  | some h =>
      dsimp only
      by_cases hpointer : (h.typeInfo.isPointer && ev.size == 8) = true
      · rw [if_pos hpointer, if_pos hpointer]
        have hedge (t : State) (ht : t.addrIndex = q.1) : edge host' ev h t = edge host ev h t := by
          unfold edge target
          by_cases hzero : ev.value = 0
          · rw [if_pos hzero, if_pos hzero]
          · have hsecond : q.1.Decided ev.value := by
              apply hdecided (q.1, ev.value)
              rw [hiv]
              dsimp only
              rw [if_pos (by rw [hpointer, Bool.true_and, bne_iff_ne]; exact hzero)]
              exact List.mem_cons_of_mem _ (List.mem_singleton_self _)
            rw [if_neg hzero, if_neg hzero, ht,
              AddressIndex.lookup_of_decided hsecond host'.orders host.orders]
        have hstamp (t : State) : stampPointee host' ev h.name h.typeInfo.name t =
            stampPointee host ev h.name h.typeInfo.name t := by
          rw [hrest]
          rfl
        unfold pointer
        rw [hedge _ rfl]
        simp only [hstamp]
      · rw [if_neg hpointer, if_neg hpointer]

/-- An event whose lookups are decided does the same in every iteration order. -/
theorem processEvent_of_decided (hsame : host.SameButIteration host')
    (hdecided : ∀ q ∈ indexLookups host.orders ev s.addrIndex, q.1.Decided q.2) :
    processEvent host' ev s = processEvent host ev s := by
  have hrest := hsame.rest
  unfold processEvent processKind
  cases hkind : kindOf ev with
  | write =>
      have hheap (t : State) : Write.heap host' ev t = Write.heap host ev t := by
        rw [hrest]
        rfl
      obtain ⟨g, m, hs, vs, info, regs, topo, h⟩ := beforeNode_eq host ev s
      have hidx : (beforeNode host ev s).addrIndex = s.addrIndex := by
        rw [h]
        rfl
      show Write.node host' ev (Write.heap host' ev (Write.registered ev (countEvent s))) =
        Write.node host ev (beforeNode host ev s)
      rw [hheap]
      exact Write.node_of_decided hsame hkind (by
        rw [← hidx] at hdecided
        exact hdecided)
  | alloc =>
      dsimp only
      rw [hrest]
      rfl
  | call =>
      dsimp only
      rw [hrest]
      rfl
  | cacheMiss =>
      have hfirst : s.addrIndex.Decided ev.addr := by
        apply hdecided (s.addrIndex, ev.addr)
        unfold indexLookups
        rw [hkind]
        exact List.mem_singleton_self _
      dsimp only
      rw [show (countEvent s).addrIndex = s.addrIndex from rfl,
        AddressIndex.lookup_of_decided hfirst host'.orders host.orders]
  | moduleLoad =>
      have hglobals (info : DwarfInfo) (delta : UInt64) (idx : AddressIndex) (w : World) :
          populateGlobals host' info delta idx w = populateGlobals host info delta idx w := by
        unfold populateGlobals
        dsimp only
        rw [finalize_of_sameButIteration hsame.sortByLo]
      dsimp only
      unfold processModuleLoad
      simp only [hglobals]
  | _ => rfl

end Events

end Rtmap.Engine
