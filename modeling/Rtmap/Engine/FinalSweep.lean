import Rtmap.Engine.Lines
import Rtmap.Engine.SeqTracking

/-!
# The final sweep

At exit the events left in the root's rings go through a second, shorter copy of
the drain loop. Which remains the two loops treat alike.
-/
namespace Rtmap.Engine
open Rtmap.Ring Streams

/-- The instructions that `process_event` itself counts. -/
def ownTicks (ev : Event) : ℕ :=
  match kindOf ev with
  | .read | .bbEntry => 1
  | _ => 0

theorem ownTicks_snapshot {ev : Event} (h : ev.kind = EVENT_REG_SNAPSHOT) : ownTicks ev = 0 := by
  have hkind : kindOf ev = .regSnapshot := by
    rw [kindOf, h]
    rfl
  rw [ownTicks, hkind]

section Events
variable (host : Host) (ev : Event) (s : State)

/-- An event counts as one event and as its own instructions; an ALLOC is the last
one then. -/
theorem counts_processEvent :
    (processEvent host ev s).world.totalEventCount = s.world.totalEventCount + 1 ∧
      (processEvent host ev s).world.insnCounter = s.world.insnCounter + ownTicks ev ∧
      (processEvent host ev s).world.lastAllocEventCount =
        if kindOf ev = .alloc then s.world.totalEventCount + 1
        else s.world.lastAllocEventCount := by
  have hcounts {t : State} {w : World} (h : t.world.core = w.core) :
      t.world.totalEventCount = w.totalEventCount ∧ t.world.insnCounter = w.insnCounter ∧
        t.world.lastAllocEventCount = w.lastAllocEventCount :=
    ⟨of_core World.totalEventCount h, of_core World.insnCounter h,
      of_core World.lastAllocEventCount h⟩
  have hkept {t u : State} (h : t.kept.fixed = u.kept.fixed) :
      t.world.totalEventCount = u.world.totalEventCount ∧
        t.world.insnCounter = u.world.insnCounter ∧
        t.world.lastAllocEventCount = u.world.lastAllocEventCount :=
    ⟨congrArg Kept.totalEventCount h, congrArg Kept.insnCounter h,
      congrArg Kept.lastAllocEventCount h⟩
  rw [processEvent, processKind, ownTicks]
  cases kindOf ev with
  | write => exact hkept (fixed_processWrite host ev (countEvent s))
  | call => exact hcounts (core_processCall host ev (countEvent s))
  | ret => exact hcounts (core_processReturn ev (countEvent s))
  | alloc =>
      have hkept := kept_processAlloc host ev (countEvent s)
      exact ⟨congrArg Kept.totalEventCount hkept, congrArg Kept.insnCounter hkept,
        congrArg Kept.lastAllocEventCount hkept⟩
  | free =>
      have hkept := kept_processFree ev (countEvent s)
      exact ⟨congrArg Kept.totalEventCount hkept, congrArg Kept.insnCounter hkept,
        congrArg Kept.lastAllocEventCount hkept⟩
  | moduleLoad =>
      dsimp only
      rw [processModuleLoad]
      split
      · obtain ⟨m, hcore⟩ := core_populateGlobals host _ _ _ (countEvent s).world
        exact hcounts (w := { (countEvent s).world with stm := m }) hcore
      · exact ⟨rfl, rfl, rfl⟩
  | _ => exact ⟨rfl, rfl, rfl⟩

/-- Events leave a sorted index sorted. -/
theorem staticsSorted_processEvent (h : s.addrIndex.staticsSorted = true) :
    (processEvent host ev s).addrIndex.staticsSorted = true := by
  have hwiden (ivs : List Interval) : ∀ idx : AddressIndex,
      (ivs.foldl (fun i iv => i.widenUniverse iv.lo iv.hi) idx).staticsSorted = idx.staticsSorted := by
    induction ivs with
    | nil => exact fun _ => rfl
    | cons iv ivs ih => exact fun idx => ih _
  rw [processEvent, processKind]
  cases kindOf ev with
  | write => exact (congrArg Kept.staticsSorted (fixed_processWrite host ev (countEvent s))).trans h
  | call =>
      dsimp only
      rw [processCall]
      split
      · simp only [Call.enter, AddressIndex.insertFrameLocals]
        split
        · exact h
        · split <;> exact (hwiden _ _).trans h
      · exact h
  | ret =>
      dsimp only
      rw [processReturn]
      split
      · exact h
      · dsimp only
        split
        · exact h
        · rw [retireFrame]
          split
          · split <;> exact h
          · exact h
  | cacheMiss => exact (AddressIndex.lookup_staticsSorted _).trans h
  | alloc => exact (congrArg Kept.staticsSorted (kept_processAlloc host ev (countEvent s))).trans h
  | free => exact (congrArg Kept.staticsSorted (kept_processFree ev (countEvent s))).trans h
  | moduleLoad =>
      dsimp only
      rw [processModuleLoad]
      split
      · exact AddressIndex.staticsSorted_finalize
      · exact h
  | _ => exact h

end Events

/-- The slots of a buffer that the loops look at. -/
def lookedAt (noBb : Bool) (buf : List Slot) : List Slot :=
  buf.filter fun x => !(noBb && x.2.kind == EVENT_BB_ENTRY)

namespace Piece

/-- The events a piece hands to `process_event`. -/
def processed : Piece → ℕ
  | .event .. => 1
  | .snapshot .. => 0

/-- The instructions a piece counts. -/
def ticks : Piece → ℕ
  | .event _ ev => 1 + ownTicks ev
  | .snapshot .. => 1

/-- The slots of a piece, each weighed by its kind. -/
def weight (μ : Event → ℕ) : Piece → ℕ
  | .event _ ev => μ ev
  | .snapshot header cont => consumed header cont * μ header

theorem processed_le_length (ps : List Piece) : (ps.map processed).sum ≤ ps.length := by
  induction ps with
  | nil => exact Nat.le_refl _
  | cons p ps ih =>
      simp only [List.map_cons, List.sum_cons, List.length_cons]
      have hp : p.processed ≤ 1 := by cases p <;> simp [processed]
      omega

theorem length_le_ticks (ps : List Piece) : ps.length ≤ (ps.map ticks).sum := by
  induction ps with
  | nil => exact Nat.le_refl _
  | cons p ps ih =>
      simp only [List.map_cons, List.sum_cons, List.length_cons]
      have hp : 1 ≤ p.ticks := by cases p <;> simp [ticks]
      omega

/-- Slot by slot, snapshots weigh one instruction too many. -/
theorem sum_ticks_add {ps : List Piece}
    (h : ∀ header cont, Piece.snapshot header cont ∈ ps → header.kind = EVENT_REG_SNAPSHOT) :
    (ps.map ticks).sum + (ps.map (weight fun _ => 1)).sum =
      (ps.map (weight fun e => 1 + ownTicks e)).sum + ps.length := by
  induction ps with
  | nil => rfl
  | cons p ps ih =>
      have hps := ih fun header cont hmem => h header cont (List.mem_cons_of_mem _ hmem)
      simp only [List.map_cons, List.sum_cons, List.length_cons]
      cases p with
      | event host ev =>
          simp only [ticks, weight]
          omega
      | snapshot header cont =>
          simp only [ticks, weight, ownTicks_snapshot (h header cont List.mem_cons_self)]
          omega

/-- Pieces that are all processed weigh one slot each. -/
theorem all_processed {ps : List Piece} (h : (ps.map processed).sum = ps.length) :
    (∀ p ∈ ps, p.processed = 1) ∧ (ps.map (weight fun _ => 1)).sum = ps.length := by
  induction ps with
  | nil => exact ⟨by simp, rfl⟩
  | cons p ps ih =>
      have hle := processed_le_length ps
      simp only [List.map_cons, List.sum_cons, List.length_cons] at h ⊢
      cases p with
      | event host ev =>
          simp only [processed] at h
          obtain ⟨hall, hsum⟩ := ih (by omega)
          refine ⟨fun q hq => ?_, by simp only [weight, hsum]; omega⟩
          rcases List.mem_cons.mp hq with rfl | hq
          · rfl
          · exact hall q hq
      | snapshot header cont =>
          simp only [processed] at h
          omega

end Piece

section Pieces
variable {noBb : Bool}

theorem pieces_drop (skip : ℕ) (buf : List Slot) :
    pieces noBb skip buf = pieces noBb 0 (buf.drop skip) := by
  induction buf generalizing skip with
  | nil => cases skip <;> rfl
  | cons x buf ih =>
      cases skip with
      | zero => rfl
      | succ skip => exact ih skip

/-- A snapshot takes its header alone, or six more slots of its kind. -/
theorem consumed_spec {x : Slot} (rest : List Slot) (hx : x.2.kind = EVENT_REG_SNAPSHOT) :
    consumed x.2 ((rest.take 6).map Prod.snd) = 1 ∨
      consumed x.2 ((rest.take 6).map Prod.snd) = 7 ∧ (rest.take 6).length = 6 ∧
        ∀ y ∈ rest.take 6, y.2.kind = EVENT_REG_SNAPSHOT := by
  have htake : ((rest.take 6).map Prod.snd).take 6 = (rest.take 6).map Prod.snd := by
    rw [List.take_of_length_le]
    simp
  rw [consumed, applyRegSnapshot, if_neg (not_not.mpr hx), htake]
  split
  · exact .inl rfl
  · rename_i hlong
    split
    · rename_i hall
      refine .inr ⟨rfl, ?_, fun y hy => ?_⟩
      · simp only [List.length_map, List.length_take] at hlong ⊢
        omega
      · have hy' := List.all_eq_true.mp hall y.2 (List.mem_map_of_mem hy)
        exact eq_of_beq hy'
    · exact .inl rfl

/-- Every slot looked at lies in one piece. -/
theorem sum_weight_pieces (noBb : Bool) {μ : Event → ℕ} (hμ : ∀ e e' : Event, e.kind = e'.kind → μ e = μ e')
    (buf : List Slot) :
    ((lookedAt noBb buf).map fun x => μ x.2).sum = ((pieces noBb 0 buf).map (Piece.weight μ)).sum := by
  induction hn : buf.length using Nat.strong_induction_on generalizing buf with
  | _ n ih =>
      subst hn
      cases buf with
      | nil => rfl
      | cons x rest =>
          have hrest := ih rest.length (by simp) rest rfl
          rw [pieces]
          split
          · rename_i hbb
            simp only [lookedAt, List.filter_cons, hbb] at hrest ⊢
            exact hrest
          · rename_i hbb
            have hseen : lookedAt noBb (x :: rest) = x :: lookedAt noBb rest := by
              simp only [lookedAt, List.filter_cons, hbb]
              rfl
            rw [hseen, List.map_cons, List.sum_cons]
            split
            · rename_i hx
              rw [List.map_cons, List.sum_cons, Piece.weight, pieces_drop]
              rcases consumed_spec rest hx with hone | ⟨hseven, hlen, hkinds⟩
              · rw [hone, hrest]
                simp
              · have hsplit : lookedAt noBb rest = rest.take 6 ++ lookedAt noBb (rest.drop 6) := by
                  conv_lhs => rw [← List.take_append_drop 6 rest]
                  rw [lookedAt, List.filter_append, lookedAt]
                  congr 1
                  refine List.filter_eq_self.mpr fun y hy => ?_
                  rw [hkinds y hy]
                  cases noBb <;> rfl
                have hsame (y : Slot) (hy : y ∈ rest.take 6) : μ y.2 = μ x.2 :=
                  hμ y.2 x.2 ((hkinds y hy).trans hx.symm)
                have hsix : ((rest.take 6).map fun x => μ x.2).sum = 6 * μ x.2 := by
                  rw [List.map_congr_left hsame, List.map_const', hlen, List.sum_replicate_nat]
                have hdrop := ih (rest.drop 6).length (by
                  rw [List.length_drop, List.length_cons]
                  omega) (rest.drop 6) rfl
                rw [hseven, hsplit, List.map_append, List.sum_append, hsix, hdrop,
                  show 7 - 1 = 6 from rfl]
                omega
            · rw [List.map_cons, List.sum_cons, hrest]
              rfl

theorem sum_weight_rest (noBb : Bool) {μ : Event → ℕ} (hμ : ∀ e e' : Event, e.kind = e'.kind → μ e = μ e')
    (bufs : List (List Slot)) :
    ((lookedAt noBb bufs.flatten).map fun x => μ x.2).sum =
      ((bufs.flatMap (pieces noBb 0)).map (Piece.weight μ)).sum := by
  induction bufs with
  | nil => rfl
  | cons buf bufs ih =>
      rw [List.flatten_cons, List.flatMap_cons, List.map_append, List.sum_append, ← ih,
        ← sum_weight_pieces noBb hμ, lookedAt, List.filter_append, List.map_append, List.sum_append]
      rfl

/-- Slots without snapshots are pieces of their own. -/
theorem pieces_of_no_snapshot (noBb : Bool) {buf : List Slot} (h : ∀ x ∈ buf, x.2.kind ≠ EVENT_REG_SNAPSHOT) :
    pieces noBb 0 buf = (lookedAt noBb buf).map fun x => .event x.1 x.2 := by
  induction buf with
  | nil => rfl
  | cons x rest ih =>
      have hrest := ih fun y hy => h y (List.mem_cons_of_mem _ hy)
      rw [pieces, hrest]
      by_cases hbb : (noBb && x.2.kind == EVENT_BB_ENTRY) = true
      · simp only [lookedAt, List.filter_cons, hbb]
        rfl
      · simp only [lookedAt, List.filter_cons, hbb, h x List.mem_cons_self, if_false]
        rfl

theorem pieces_of_seen_nil {buf : List Slot} (h : lookedAt noBb buf = []) : pieces noBb 0 buf = [] := by
  induction buf with
  | nil => rfl
  | cons x rest ih =>
      simp only [lookedAt, List.filter_cons] at h ih
      split at h
      · cases h
      · rename_i hbb
        rw [pieces, ih h, if_pos (by simpa using hbb)]

theorem kind_of_mem_pieces {header : Event} {cont : List Event} (skip : ℕ) (buf : List Slot)
    (h : Piece.snapshot header cont ∈ pieces noBb skip buf) : header.kind = EVENT_REG_SNAPSHOT := by
  induction buf generalizing skip with
  | nil => cases skip <;> cases h
  | cons x rest ih =>
      cases skip with
      | succ skip => exact ih skip h
      | zero =>
          rw [pieces] at h
          split at h
          · exact ih 0 h
          · split at h
            · rename_i hx
              rcases List.mem_cons.mp h with heq | h
              · rw [(Piece.snapshot.inj heq).1]
                exact hx
              · exact ih _ h
            · rcases List.mem_cons.mp h with heq | h
              · cases heq
              · exact ih 0 h

/-- A buffer whose pieces are all events holds no snapshot slot. -/
theorem no_snapshot_of_pieces {buf : List Slot}
    (h : ∀ p ∈ pieces noBb 0 buf, p.processed = 1) : ∀ x ∈ buf, x.2.kind ≠ EVENT_REG_SNAPSHOT := by
  induction buf with
  | nil => exact fun _ hx => by cases hx
  | cons y rest ih =>
      rw [pieces] at h
      split at h
      · rename_i hbb
        have hy : y.2.kind = EVENT_BB_ENTRY := by
          simp only [Bool.and_eq_true, beq_iff_eq] at hbb
          exact hbb.2
        intro x hx
        rcases List.mem_cons.mp hx with rfl | hx
        · rw [hy]
          decide
        · exact ih h x hx
      · split at h
        · exact absurd (h _ List.mem_cons_self) (by simp [Piece.processed])
        · rename_i hy
          intro x hx
          rcases List.mem_cons.mp hx with rfl | hx
          · exact hy
          · exact ih (fun p hp => h p (List.mem_cons_of_mem _ hp)) x hx

end Pieces

/-- What a drain leaves behind: the world, the shadow registers, the address index,
the gaps in the numbers, and the two recordings. -/
structure Outcome where
  world : World
  shadowRegs : UInt16 → Option ShadowRegisterFile
  addrIndex : AddressIndex
  gaps : List Gap
  recorder : Option (List Event)
  topo : Topology

namespace Session

def outcome (s : Session) : Outcome where
  world := s.engine.world
  shadowRegs := s.engine.shadowRegs
  addrIndex := s.engine.addrIndex
  gaps := s.seq.gaps
  recorder := s.recorder
  topo := s.engine.topo

/-- The root's slots among those left, in the order of the batches. -/
def rootRest (rest : List Pass) : List Slot := rest.flatMap Pass.root

/-- The counters of events and instructions. -/
def counts (s : Session) : ℕ × ℕ := (s.engine.world.totalEventCount, s.engine.world.insnCounter)

section Counts
variable {noBb : Bool} {s : Session}

theorem counts_track (ev : Event) : (s.track ev).counts = s.counts := by
  simp only [track]
  split <;> rfl

theorem counts_handle (host : Host) (ev : Event) :
    (s.handle host ev).counts = s.counts + (1, ownTicks ev) := by
  have hfork (s : Session) : (s.fork ev).counts = s.counts := by
    rw [fork]
    split <;> rfl
  have hcross (s : Session) : (s.crossWrite ev).counts = s.counts := by
    rw [crossWrite]
    split
    · split <;> rfl
    · rfl
  have hevent := counts_processEvent host ev s.engine
  simp only [handle, record]
  exact (hcross _).trans ((hfork _).trans (Prod.ext hevent.1 hevent.2.1))

theorem counts_applySnapshot (header : Event) (cont : List Event) :
    (s.applySnapshot header cont).counts = s.counts := by
  rw [applySnapshot]
  split <;> rfl

theorem counts_count (n : ℕ) : (s.count n).counts = s.counts + (0, 1) := rfl

theorem counts_rootPiece (p : Piece) :
    (s.rootPiece p).counts = s.counts + (p.processed, p.ticks) := by
  cases p with
  | event host ev =>
      rw [rootPiece, counts_handle, counts_track, counts_count]
      exact Prod.ext rfl (Nat.add_assoc _ _ _)
  | snapshot header cont =>
      rw [rootPiece, counts_count, counts_track]
      exact congrArg (· + (0, 1)) (counts_applySnapshot header cont)

theorem counts_childPiece (p : Piece) :
    (s.childPiece p).counts = s.counts + (p.processed, p.ticks) := by
  cases p with
  | event host ev =>
      rw [childPiece, counts_handle, counts_count]
      exact Prod.ext rfl (Nat.add_assoc _ _ _)
  | snapshot header cont =>
      rw [childPiece, counts_count]
      exact congrArg (· + (0, 1)) (counts_applySnapshot header cont)

/-- What the passes of a tick count. -/
theorem counts_tick (orders : IndexOrders) (rest : List Pass) :
    (s.tick noBb orders rest).counts =
      s.counts + (((rest.flatMap fun p => pieces noBb 0 p.root).map Piece.processed).sum +
          ((rest.flatMap fun p => pieces noBb 0 p.children).map Piece.processed).sum,
        ((rest.flatMap fun p => pieces noBb 0 p.root).map Piece.ticks).sum +
          ((rest.flatMap fun p => pieces noBb 0 p.children).map Piece.ticks).sum) := by
  have hfold {f : Session → Piece → Session}
      (hf : ∀ s p, (f s p).counts = s.counts + (p.processed, p.ticks)) (ps : List Piece) :
      ∀ s : Session, (ps.foldl f s).counts =
        s.counts + ((ps.map Piece.processed).sum, (ps.map Piece.ticks).sum) := by
    induction ps with
    | nil => exact fun _ => rfl
    | cons p ps ih =>
        intro s
        rw [List.foldl_cons, ih, hf]
        simp only [List.map_cons, List.sum_cons]
        exact Prod.ext (Nat.add_assoc _ _ _) (Nat.add_assoc _ _ _)
  have hpasses (rest : List Pass) : ∀ s : Session, (rest.foldl (drainPass noBb) s).counts =
      s.counts + (((rest.flatMap fun p => pieces noBb 0 p.root).map Piece.processed).sum +
          ((rest.flatMap fun p => pieces noBb 0 p.children).map Piece.processed).sum,
        ((rest.flatMap fun p => pieces noBb 0 p.root).map Piece.ticks).sum +
          ((rest.flatMap fun p => pieces noBb 0 p.children).map Piece.ticks).sum) := by
    induction rest with
    | nil => exact fun _ => rfl
    | cons p rest ih =>
        intro s
        rw [List.foldl_cons, ih, drainPass, drainChildren, drainRoot,
          hfold (fun _ _ => counts_childPiece _), hfold (fun _ _ => counts_rootPiece _)]
        simp only [List.flatMap_cons, List.map_append, List.sum_append]
        refine Prod.ext ?_ ?_ <;> simp only [Prod.fst_add, Prod.snd_add] <;> omega
  rw [tick]
  dsimp only
  split <;> exact hpasses rest _

/-- What the sweep counts. -/
theorem counts_finalSweep (buf : List Slot) :
    (s.finalSweep noBb buf).counts =
      s.counts + (((lookedAt noBb buf).map fun _ => 1).sum,
        ((lookedAt noBb buf).map fun x => 1 + ownTicks x.2).sum) := by
  rw [finalSweep]
  induction buf generalizing s with
  | nil => rfl
  | cons x buf ih =>
      rw [List.foldl_cons, ih, sweepEvent]
      split
      · rename_i hbb
        simp only [lookedAt, List.filter_cons, hbb]
        rfl
      · rename_i hbb
        have hcount : (record [x.2] { s.count 1 with
            engine := processEvent x.1 x.2 (s.count 1).engine }).counts =
              s.counts + (1, 1 + ownTicks x.2) := by
          have hevent := counts_processEvent x.1 x.2 (s.count 1).engine
          exact Prod.ext hevent.1 (hevent.2.1.trans (Nat.add_assoc _ _ _))
        have hseen : lookedAt noBb (x :: buf) = x :: lookedAt noBb buf := by
          simp only [lookedAt, List.filter_cons, hbb]
          rfl
        rw [hcount, hseen]
        simp only [List.map_cons, List.sum_cons]
        exact Prod.ext (Nat.add_assoc _ _ _) (Nat.add_assoc _ _ _)

/-- Equal counts leave no room for a slot that only one of the loops takes as an
event: children's slots, and snapshots, which count once and are no events. -/
theorem plain_of_counts {orders : IndexOrders} {rest : List Pass}
    (h : (s.finalSweep noBb (rootRest rest)).counts = (s.tick noBb orders rest).counts) :
    (∀ p ∈ rest, lookedAt noBb p.children = []) ∧
      ∀ p ∈ rest, ∀ x ∈ p.root, x.2.kind ≠ EVENT_REG_SNAPSHOT := by
  set root := rest.flatMap fun p => pieces noBb 0 p.root with hroot
  set children := rest.flatMap fun p => pieces noBb 0 p.children with hchildren
  have hkinds (header : Event) (cont : List Event) (hmem : Piece.snapshot header cont ∈ root) :
      header.kind = EVENT_REG_SNAPSHOT := by
    obtain ⟨p, -, hp⟩ := List.mem_flatMap.mp hmem
    exact kind_of_mem_pieces 0 _ hp
  have hown (e e' : Event) (hk : e.kind = e'.kind) : ownTicks e = ownTicks e' := by
    simp only [ownTicks, kindOf, hk]
  have hbufs : rest.flatMap Pass.root = (rest.map Pass.root).flatten := by rw [List.flatMap_def]
  have hpieces : (rest.map Pass.root).flatMap (pieces noBb 0) = root := by
    rw [List.flatMap_map]
  have hone := sum_weight_rest noBb (μ := fun _ => 1) (fun _ _ _ => rfl)
    (rest.map Pass.root)
  have hboth := sum_weight_rest noBb (μ := fun e => 1 + ownTicks e)
    (fun e e' hk => by rw [hown e e' hk]) (rest.map Pass.root)
  rw [hpieces] at hone hboth
  rw [counts_finalSweep, counts_tick, rootRest, hbufs, hone, hboth] at h
  have htotal : (root.map (Piece.weight fun _ => 1)).sum =
      (root.map Piece.processed).sum + (children.map Piece.processed).sum :=
    Nat.add_left_cancel (congrArg Prod.fst h)
  have hinsn : (root.map (Piece.weight fun e => 1 + ownTicks e)).sum =
      (root.map Piece.ticks).sum + (children.map Piece.ticks).sum :=
    Nat.add_left_cancel (congrArg Prod.snd h)
  have hadd := Piece.sum_ticks_add hkinds
  have hroot' := Piece.processed_le_length root
  have hchild := Piece.processed_le_length children
  have hticks := Piece.length_le_ticks children
  obtain ⟨hall, hone'⟩ := Piece.all_processed (show (root.map Piece.processed).sum = root.length by omega)
  have hnone : children = [] := List.eq_nil_of_length_eq_zero (by omega)
  refine ⟨fun p hp => ?_, fun p hp => ?_⟩
  · have hp' : pieces noBb 0 p.children = [] := by
      have hnil := List.flatMap_eq_nil_iff.mp hnone
      exact hnil p hp
    have hsum := sum_weight_pieces noBb (μ := fun _ => 1) (fun _ _ _ => rfl) p.children
    rw [hp'] at hsum
    apply List.eq_nil_of_length_eq_zero
    simpa using hsum
  · exact no_snapshot_of_pieces fun q hq => hall q (List.mem_flatMap.mpr ⟨p, hp, hq⟩)

end Counts

section Sorted
variable {noBb : Bool} {orders : IndexOrders}

/-- The index is sorted. -/
def sorted (s : Session) : Prop := s.engine.addrIndex.staticsSorted = true

theorem sorted_handle {s : Session} (host : Host) (ev : Event) (h : s.sorted) :
    (s.handle host ev).sorted := by
  have hfork (s : Session) (h : s.sorted) : (s.fork ev).sorted := by
    rw [fork]
    split <;> exact h
  have hcross (s : Session) (h : s.sorted) : (s.crossWrite ev).sorted := by
    rw [crossWrite]
    split
    · split <;> exact h
    · exact h
  exact hcross _ (hfork _ (staticsSorted_processEvent host ev _ h))

theorem sorted_applySnapshot {s : Session} (header : Event) (cont : List Event) (h : s.sorted) :
    (s.applySnapshot header cont).sorted := by
  rw [applySnapshot]
  split <;> exact h

theorem sorted_track {s : Session} (ev : Event) (h : s.sorted) : (s.track ev).sorted := by
  simp only [track]
  split <;> exact h

theorem sorted_rootPiece {s : Session} (p : Piece) (h : s.sorted) : (s.rootPiece p).sorted := by
  cases p with
  | event host ev => exact sorted_handle host ev (sorted_track ev h)
  | snapshot header cont => exact sorted_track header (sorted_applySnapshot header cont h)

theorem sorted_childPiece {s : Session} (p : Piece) (h : s.sorted) : (s.childPiece p).sorted := by
  cases p with
  | event host ev => exact sorted_handle host ev h
  | snapshot header cont => exact sorted_applySnapshot header cont h

/-- A tick keeps the index sorted. -/
theorem sorted_tick {s : Session} (passes : List Pass) (h : s.sorted) :
    (s.tick noBb orders passes).sorted := by
  have hfold {f : Session → Piece → Session} (hf : ∀ s p, s.sorted → (f s p).sorted)
      (ps : List Piece) : ∀ s : Session, s.sorted → (ps.foldl f s).sorted := by
    induction ps with
    | nil => exact fun _ h => h
    | cons p ps ih => exact fun s h => ih _ (hf s p h)
  have hpasses (passes : List Pass) : ∀ s : Session, s.sorted →
      (passes.foldl (drainPass noBb) s).sorted := by
    induction passes with
    | nil => exact fun _ h => h
    | cons p passes ih =>
        intro s h
        refine ih _ ?_
        exact hfold (fun _ _ => sorted_childPiece _) _ _ (hfold (fun _ _ => sorted_rootPiece _) _ _ h)
  rw [tick]
  dsimp only
  split
  · exact AddressIndex.staticsSorted_finalize
  · exact hpasses passes { s with needFinalize := false } h

end Sorted

/-- Where the two loops do the same with what is left: no child has an event that
is looked at, the root has no register snapshot, its numbers run on, and where a
topology is written no event has a line of its own in the main loop. -/
structure Plain (noBb : Bool) (rest : List Pass) (s : Session) : Prop where
  children : ∀ p ∈ rest, lookedAt noBb p.children = []
  snapshots : ∀ p ∈ rest, ∀ x ∈ p.root, x.2.kind ≠ EVENT_REG_SNAPSHOT
  numbers : ∀ k : SeqKey, breaks 1 (s.seq.expectedSeq k.1 k.2)
    (SeqTracker.numbers k ((lookedAt noBb (rootRest rest)).map Prod.snd)) = []
  lines : s.engine.topo.isSome → ∀ x ∈ lookedAt noBb (rootRest rest),
    x.2.kind ≠ EVENT_PROCESS_FORK ∧ (x.2.kind = EVENT_WRITE → s.children.children.length > 0 →
      s.children.sharedRegion x.2.addr = none)

section Loops
variable {noBb : Bool} {orders : IndexOrders} {s : Session} {rest : List Pass}

/-- The slots as the main loop takes them when none is a snapshot. -/
def mainEvent (s : Session) (x : Slot) : Session := s.rootPiece (.event x.1 x.2)

/-- The slots as the final sweep takes them. -/
def sweepSeen (s : Session) (x : Slot) : Session :=
  record [x.2] { s.count 1 with engine := processEvent x.1 x.2 (s.count 1).engine }

theorem finalSweep_eq (buf : List Slot) :
    s.finalSweep noBb buf = (lookedAt noBb buf).foldl sweepSeen s := by
  rw [finalSweep]
  induction buf generalizing s with
  | nil => rfl
  | cons x buf ih =>
      rw [List.foldl_cons, ih, sweepEvent]
      by_cases hbb : (noBb && x.2.kind == EVENT_BB_ENTRY) = true
      · simp only [lookedAt, List.filter_cons, hbb, if_true]
        rfl
      · simp only [lookedAt, List.filter_cons, hbb]
        rfl

theorem foldl_drainPass_eq (hchildren : ∀ p ∈ rest, lookedAt noBb p.children = [])
    (hsnapshots : ∀ p ∈ rest, ∀ x ∈ p.root, x.2.kind ≠ EVENT_REG_SNAPSHOT) :
    rest.foldl (drainPass noBb) s = (lookedAt noBb (rootRest rest)).foldl mainEvent s := by
  induction rest generalizing s with
  | nil => rfl
  | cons p rest ih =>
      have hroot := pieces_of_no_snapshot noBb (hsnapshots p List.mem_cons_self)
      have hchild := pieces_of_seen_nil (hchildren p List.mem_cons_self)
      rw [List.foldl_cons, ih (fun q hq => hchildren q (List.mem_cons_of_mem _ hq))
        (fun q hq => hsnapshots q (List.mem_cons_of_mem _ hq)), drainPass, drainChildren, hchild,
        drainRoot, hroot, List.foldl_map]
      simp only [rootRest, List.flatMap_cons, lookedAt, List.filter_append, List.foldl_append]
      rfl

theorem engine_emit_of_none (h : s.engine.topo = none) (l : Line) :
    (s.emit l).engine = s.engine := by
  have htopo : s.engine.topo.emit l = s.engine.topo := by rw [h]; rfl
  show ({ s.engine with topo := s.engine.topo.emit l } : State) = s.engine
  rw [htopo]

/-- The main loop has a line of its own for the event. -/
def Foreign (s : Session) (ev : Event) : Prop :=
  ev.kind = EVENT_PROCESS_FORK ∨ ev.kind = EVENT_WRITE ∧ s.children.children.length > 0 ∧
    s.children.sharedRegion ev.addr ≠ none

theorem children_mainEvent (x : Slot) :
    (s.mainEvent x).children.children = s.children.children ∧
      (s.mainEvent x).children.sharedRegion = s.children.sharedRegion := by
  have htrack (s : Session) : (s.track x.2).children = s.children := by
    simp only [track]
    split <;> rfl
  have hcross (s : Session) : (s.crossWrite x.2).children = s.children := by
    rw [crossWrite]
    split
    · split <;> rfl
    · rfl
  have hfork (s : Session) : (s.fork x.2).children.children = s.children.children ∧
      (s.fork x.2).children.sharedRegion = s.children.sharedRegion := by
    rw [fork]
    split
    · simp only [emit, ChildTracker.registerFork]
      split <;> exact ⟨rfl, rfl⟩
    · exact ⟨rfl, rfl⟩
  simp only [mainEvent, rootPiece, handle, record, hcross, hfork, htrack]
  exact ⟨rfl, rfl⟩

theorem foreign_mainEvent (x : Slot) (ev : Event) :
    (s.mainEvent x).Foreign ev ↔ s.Foreign ev := by
  have hchildren := children_mainEvent (s := s) x
  rw [Foreign, Foreign, hchildren.1, hchildren.2]

theorem recorder_mainEvent (x : Slot) :
    (s.mainEvent x).recorder = s.recorder.map fun r => r ++ [x.2] := by
  have htrack (s : Session) : (s.track x.2).recorder = s.recorder := by
    simp only [track]
    split <;> rfl
  have hcross (s : Session) : (s.crossWrite x.2).recorder = s.recorder := by
    rw [crossWrite]
    split
    · split <;> rfl
    · rfl
  have hfork (s : Session) : (s.fork x.2).recorder = s.recorder := by
    rw [fork]
    split <;> rfl
  simp only [mainEvent, rootPiece, handle, record, hcross, hfork, htrack]
  rfl

/-- An event in sequence without a line of its own is what `process_event` makes of it. -/
theorem engine_mainEvent {x : Slot} (hgap : (s.seq.track x.2).gaps = s.seq.gaps)
    (hlines : s.engine.topo.isSome → ¬ s.Foreign x.2) :
    (s.mainEvent x).engine = (s.sweepSeen x).engine := by
  have htrack : ((s.count 1).track x.2).engine = (s.count 1).engine := by
    simp only [track]
    cases hcont : x.2.isContinuation with
    | true => rfl
    | false =>
        rw [SeqTracker.gaps_track hcont, List.append_right_eq_self] at hgap
        have hnone : s.seq.gapAt x.2.threadId (seqDomain x.2.kind) x.2.seq32 = none := by
          cases h : s.seq.gapAt x.2.threadId (seqDomain x.2.kind) x.2.seq32 with
          | none => rfl
          | some g => rw [h] at hgap; cases hgap
        simp only [Bool.false_eq_true, if_false]
        rw [show (s.count 1).seq = s.seq from rfl, hnone]
  have hchildren : ((s.count 1).track x.2).children = s.children := by
    simp only [track]
    split <;> rfl
  set u : Session := { (s.count 1).track x.2 with
    engine := processEvent x.1 x.2 ((s.count 1).track x.2).engine } with hu
  have hengine : u.engine = (s.sweepSeen x).engine := by
    show processEvent x.1 x.2 ((s.count 1).track x.2).engine = _
    rw [htrack]
    rfl
  have htopo (h : s.engine.topo = none) : u.engine.topo = none := by
    have hloop : u.engine.loopLines = s.engine.loopLines := by
      rw [hengine]
      exact loopLines_processEvent
    simpa [State.loopLines, State.linesOf, h] using hloop
  have hquiet : u.engine.topo = none ∨ ¬ s.Foreign x.2 := by
    cases h : s.engine.topo with
    | none => exact .inl (htopo h)
    | some ls => exact .inr (hlines (by rw [h]; rfl))
  have hfork : (u.fork x.2).engine = u.engine ∧ (u.fork x.2).children.children = s.children.children ∧
      (u.fork x.2).children.sharedRegion = s.children.sharedRegion := by
    rw [fork]
    split
    · rename_i hkind
      refine ⟨?_, ?_⟩
      · rcases hquiet with hnone | hnot
        · exact engine_emit_of_none hnone _
        · exact absurd (.inl hkind) hnot
      · simp only [emit, ChildTracker.registerFork]
        split <;> simp [hu, hchildren]
    · exact ⟨rfl, by rw [← hchildren], by rw [← hchildren]⟩
  have hcross : ((u.fork x.2).crossWrite x.2).engine = u.engine := by
    rw [crossWrite]
    split
    · rename_i hwrite
      split
      · rename_i region hregion
        rcases hquiet with hnone | hnot
        · exact (engine_emit_of_none (by rw [hfork.1, hnone]) _).trans hfork.1
        · rw [hfork.2.1] at hwrite
          rw [hfork.2.2] at hregion
          exact absurd (.inr ⟨hwrite.1, hwrite.2, by rw [hregion]; simp⟩) hnot
      · exact hfork.1
    · exact hfork.1
  exact hcross.trans hengine

/-- The main loop writes its own lines only, one at least for a foreign event. -/
theorem loopLines_mainEvent (x : Slot) :
    ∃ ls, (s.mainEvent x).engine.loopLines = s.engine.loopLines.map (· ++ ls) ∧
      (s.Foreign x.2 → ls ≠ []) := by
  have hid (o : Option (List Line)) : o = o.map (· ++ []) := by cases o <;> simp
  have hmap (o : Option (List Line)) (xs ys : List Line) :
      (o.map (· ++ xs)).map (· ++ ys) = o.map (· ++ (xs ++ ys)) := by cases o <;> simp
  have hemit (s : Session) (l : Line) (hl : l.ofLoop = true) :
      (s.emit l).engine.loopLines = s.engine.loopLines.map (· ++ [l]) := linesOf_emit hl
  have htrack : ∃ ls, ((s.count 1).track x.2).engine.loopLines =
      s.engine.loopLines.map (· ++ ls) := by
    simp only [track]
    split
    · exact ⟨_, hemit _ _ rfl⟩
    · exact ⟨[], hid _⟩
  have hchildren : ((s.count 1).track x.2).children = s.children := by
    simp only [track]
    split <;> rfl
  obtain ⟨ls, hls⟩ := htrack
  set u : Session := { (s.count 1).track x.2 with
    engine := processEvent x.1 x.2 ((s.count 1).track x.2).engine } with hu
  have hulines : u.engine.loopLines = s.engine.loopLines.map (· ++ ls) :=
    (loopLines_processEvent).trans hls
  have hfork : ∃ ks, (u.fork x.2).engine.loopLines = u.engine.loopLines.map (· ++ ks) ∧
      (x.2.kind = EVENT_PROCESS_FORK → ks ≠ []) ∧
      (u.fork x.2).children.children = s.children.children ∧
      (u.fork x.2).children.sharedRegion = s.children.sharedRegion := by
    rw [fork]
    split
    · refine ⟨_, hemit { u with children := _ } _ rfl, by simp, ?_⟩
      simp only [emit, ChildTracker.registerFork]
      split <;> simp [hu, hchildren]
    · rename_i hkind
      exact ⟨[], hid _, fun h => absurd h hkind, by rw [← hchildren], by rw [← hchildren]⟩
  obtain ⟨ks, hks, hforked, hsame⟩ := hfork
  have hcross : ∃ js, ((u.fork x.2).crossWrite x.2).engine.loopLines =
      (u.fork x.2).engine.loopLines.map (· ++ js) ∧
      (x.2.kind = EVENT_WRITE ∧ s.children.children.length > 0 ∧
        s.children.sharedRegion x.2.addr ≠ none → js ≠ []) := by
    rw [crossWrite, hsame.1, hsame.2]
    split
    · rename_i hwrite
      split
      · exact ⟨_, hemit _ _ rfl, by simp⟩
      · rename_i hregion
        exact ⟨[], hid _, fun h => absurd hregion h.2.2⟩
    · rename_i hwrite
      exact ⟨[], hid _, fun h => absurd ⟨h.1, h.2.1⟩ hwrite⟩
  obtain ⟨js, hjs, hcrossed⟩ := hcross
  refine ⟨ls ++ ks ++ js, ?_, fun hforeign => ?_⟩
  · show ((u.fork x.2).crossWrite x.2).engine.loopLines = _
    rw [hjs, hks, hulines, hmap, hmap, List.append_assoc]
  · rcases hforeign with h | h
    · simp [hforked h]
    · simp [hcrossed h]

theorem loopLines_foldl_mainEvent (xs : List Slot) : ∀ s : Session,
    ∃ ls, (xs.foldl mainEvent s).engine.loopLines = s.engine.loopLines.map (· ++ ls) ∧
      ((∃ x ∈ xs, s.Foreign x.2) → ls ≠ []) := by
  induction xs with
  | nil => exact fun s => ⟨[], by cases h : s.engine.loopLines <;> simp [h], by simp⟩
  | cons x xs ih =>
      intro s
      obtain ⟨ls, hls, hfirst⟩ := loopLines_mainEvent (s := s) x
      obtain ⟨ks, hks, hrest⟩ := ih (s.mainEvent x)
      refine ⟨ls ++ ks, ?_, ?_⟩
      · rw [List.foldl_cons, hks, hls]
        cases s.engine.loopLines <;> simp
      · rintro ⟨y, hy, hforeign⟩
        rcases List.mem_cons.mp hy with rfl | hy
        · simp [hfirst hforeign]
        · simp [hrest ⟨y, hy, (foreign_mainEvent x y.2).mpr hforeign⟩]

theorem loopLines_foldl_sweepSeen (xs : List Slot) : ∀ s : Session,
    (xs.foldl sweepSeen s).engine.loopLines = s.engine.loopLines := by
  induction xs with
  | nil => exact fun _ => rfl
  | cons x xs ih => exact fun s => (ih _).trans loopLines_processEvent

theorem seq_foldl_mainEvent (xs : List Slot) : ∀ s : Session,
    (xs.foldl mainEvent s).seq = s.seq.hear (xs.map Prod.snd) := by
  induction xs with
  | nil => exact fun _ => rfl
  | cons x xs ih =>
      intro s
      rw [List.foldl_cons, ih, mainEvent, seq_rootPiece]
      rfl

theorem seq_foldl_sweepSeen (xs : List Slot) : ∀ s : Session,
    (xs.foldl sweepSeen s).seq = s.seq := by
  induction xs with
  | nil => exact fun _ => rfl
  | cons x xs ih => exact fun s => ih _

/-- In sequence and without lines of its own the main loop is the sweep. -/
theorem foldl_mainEvent_eq (xs : List Slot) : ∀ m s : Session, m.engine = s.engine →
    m.recorder = s.recorder → (m.seq.hear (xs.map Prod.snd)).gaps = m.seq.gaps →
    (m.engine.topo.isSome → ∀ x ∈ xs, ¬ m.Foreign x.2) →
    (xs.foldl mainEvent m).engine = (xs.foldl sweepSeen s).engine ∧
      (xs.foldl mainEvent m).recorder = (xs.foldl sweepSeen s).recorder := by
  induction xs with
  | nil => exact fun _ _ hengine hrec _ _ => ⟨hengine, hrec⟩
  | cons x xs ih =>
      intro m s hengine hrec hgaps hlines
      have hfirst : (m.seq.track x.2).gaps = m.seq.gaps := by
        have hfront := SeqTracker.gaps_prefix_hear (m.seq.track x.2) (xs.map Prod.snd)
        have hbefore := SeqTracker.gaps_prefix_hear m.seq [x.2]
        exact (hbefore.eq_of_length_le
          (hfront.length_le.trans (Nat.le_of_eq (congrArg List.length hgaps)))).symm
      have hquiet (h : m.engine.topo.isSome) : ¬ m.Foreign x.2 := hlines h x List.mem_cons_self
      have hstep := engine_mainEvent hfirst hquiet
      have hsweep : (m.sweepSeen x).engine = (s.sweepSeen x).engine := by
        show processEvent x.1 x.2 (tickInsn m.engine) = processEvent x.1 x.2 (tickInsn s.engine)
        rw [hengine]
      refine ih _ _ (hstep.trans hsweep) ?_ ?_ fun h y hy hforeign => ?_
      · rw [recorder_mainEvent, hrec]
        rfl
      · rw [mainEvent, seq_rootPiece]
        exact hgaps.trans hfirst.symm
      · refine hlines ?_ y (List.mem_cons_of_mem _ hy) ((foreign_mainEvent x y.2).mp hforeign)
        obtain ⟨ls, hls, -⟩ := loopLines_mainEvent (s := m) x
        cases htopo : m.engine.topo with
        | some _ => rfl
        | none =>
            simp only [State.loopLines, State.linesOf, htopo, Option.map_none,
              Option.map_eq_none_iff] at hls
            rw [hls] at h
            exact h

/-- The end of a tick touches the index only, and a sorted one not at all. -/
theorem tick_eq (noBb : Bool) (orders : IndexOrders) (s : Session) (rest : List Pass) :
    ∃ idx, (s.tick noBb orders rest).outcome =
        { (rest.foldl (drainPass noBb) { s with needFinalize := false }).outcome with
          addrIndex := idx } ∧
      ((rest.foldl (drainPass noBb) { s with needFinalize := false }).sorted →
        idx = (rest.foldl (drainPass noBb) { s with needFinalize := false }).engine.addrIndex) := by
  rw [tick]
  dsimp only
  split
  · exact ⟨_, rfl, fun h => AddressIndex.finalize_of_sorted h⟩
  · exact ⟨_, rfl, fun _ => rfl⟩

end Loops

/-- In a session with a sorted index, the final sweep leaves what the main loop
would have left exactly where the rest is plain. -/
theorem outcome_finalSweep_iff (noBb : Bool) (orders : IndexOrders) {s : Session} (hs : s.sorted)
    (rest : List Pass) :
    (s.finalSweep noBb (rootRest rest)).outcome = (s.tick noBb orders rest).outcome ↔
      Plain noBb rest s := by
  obtain ⟨idx, htick, hidx⟩ := tick_eq noBb orders s rest
  constructor
  · intro h
    have hcounts : (s.finalSweep noBb (rootRest rest)).counts = (s.tick noBb orders rest).counts :=
      congrArg (fun o : Outcome => (o.world.totalEventCount, o.world.insnCounter)) h
    obtain ⟨hchildren, hsnapshots⟩ := plain_of_counts hcounts
    rw [htick, foldl_drainPass_eq hchildren hsnapshots, finalSweep_eq] at h
    refine ⟨hchildren, hsnapshots, ?_, fun htopo x hx => ?_⟩
    · have hgaps := congrArg Outcome.gaps h
      simp only [outcome, seq_foldl_sweepSeen, seq_foldl_mainEvent] at hgaps
      exact (SeqTracker.gaps_hear_eq_iff _ _).mp hgaps.symm
    · obtain ⟨ls, hls, hforeign⟩ := loopLines_foldl_mainEvent (lookedAt noBb (rootRest rest))
        { s with needFinalize := false }
      have hloop : ((lookedAt noBb (rootRest rest)).foldl sweepSeen s).engine.loopLines =
          ((lookedAt noBb (rootRest rest)).foldl mainEvent
            { s with needFinalize := false }).engine.loopLines :=
        congrArg (Option.map (List.filter Line.ofLoop)) (congrArg Outcome.topo h)
      have hsame : s.engine.loopLines = s.engine.loopLines.map (· ++ ls) :=
        (loopLines_foldl_sweepSeen _ s).symm.trans (hloop.trans hls)
      obtain ⟨lines, hlines⟩ := Option.isSome_iff_exists.mp htopo
      have hnil : ls = [] := by
        simpa [State.loopLines, State.linesOf, hlines] using hsame
      have hnot : ¬ s.Foreign x.2 := fun hf => hforeign ⟨x, hx, hf⟩ hnil
      refine ⟨fun hk => hnot (.inl hk), fun hk hpos => ?_⟩
      by_contra hregion
      exact hnot (.inr ⟨hk, hpos, hregion⟩)
  · intro h
    have hflat := foldl_drainPass_eq (s := { s with needFinalize := false }) h.children h.snapshots
    have hgaps := (SeqTracker.gaps_hear_eq_iff s.seq
      ((lookedAt noBb (rootRest rest)).map Prod.snd)).mpr h.numbers
    have hquiet (htopo : s.engine.topo.isSome) : ∀ x ∈ lookedAt noBb (rootRest rest),
        ¬ s.Foreign x.2 := by
      rintro x hx (hk | ⟨hk, hpos, hregion⟩)
      · exact (h.lines htopo x hx).1 hk
      · exact hregion ((h.lines htopo x hx).2 hk hpos)
    obtain ⟨hengine, hrec⟩ := foldl_mainEvent_eq (lookedAt noBb (rootRest rest))
      { s with needFinalize := false } s rfl rfl hgaps hquiet
    have hsorted : (rest.foldl (drainPass noBb) { s with needFinalize := false }).sorted := by
      rw [hflat, sorted, hengine]
      have hsweep (xs : List Slot) : ∀ s : Session, s.sorted → (xs.foldl sweepSeen s).sorted := by
        induction xs with
        | nil => exact fun _ hs => hs
        | cons x xs ih => exact fun s hs => ih _ (staticsSorted_processEvent x.1 x.2 _ hs)
      exact hsweep _ _ hs
    rw [htick, hidx hsorted, finalSweep_eq, hflat]
    simp only [outcome, hengine, hrec, seq_foldl_sweepSeen, seq_foldl_mainEvent]
    rw [show ({ s with needFinalize := false } : Session).seq = s.seq from rfl, hgaps]

/-- The sessions of `run_headless`: from an empty index, with the globals of the
program and of the libraries entered and ticks of the main loop taken. -/
inductive Reached (noBb : Bool) : Session → Prop
  | start {s : Session} : s.engine.addrIndex = {} → Reached noBb s
  | globals {s : Session} (host : Host) (info : DwarfInfo) (delta : UInt64) :
      Reached noBb s → Reached noBb { s with engine := { s.engine with
        addrIndex := (populateGlobals host info delta s.engine.addrIndex s.engine.world).1
        world := (populateGlobals host info delta s.engine.addrIndex s.engine.world).2 } }
  | libraries {s : Session} (host : Host) (modtab : List Module) :
      Reached noBb s → Reached noBb { s with
        engine := (populateLibGlobals host modtab s.engine).1 }
  | tick {s : Session} (orders : IndexOrders) (passes : List Pass) :
      Reached noBb s → Reached noBb (s.tick noBb orders passes)

theorem sorted_populateLibGlobals (host : Host) (modtab : List Module) (s : State)
    (h : s.addrIndex.staticsSorted = true) :
    (populateLibGlobals host modtab s).1.addrIndex.staticsSorted = true := by
  rw [populateLibGlobals]
  split
  · exact h
  · rename_i info _
    split
    · exact h
    · split
      · exact h
      · rename_i deltas _
        dsimp only
        split
        · exact AddressIndex.staticsSorted_finalize
        · rename_i hnone
          have hempty : ∀ l ∈ info.libGlobals, l.globals = [] := by
            simpa [List.sum_eq_zero_iff_forall_eq_nat] using hnone
          have hglobals : ((info.libGlobals.zip deltas).flatMap fun d =>
              d.1.globals.map fun g => (g, d.2)) = [] := by
            rw [List.flatMap_eq_nil_iff]
            intro d hd
            rw [hempty d.1 (List.of_mem_zip hd).1, List.map_nil]
          rw [populateLibs, hglobals]
          exact h

theorem sorted_of_reached {noBb : Bool} {s : Session} (h : Reached noBb s) : s.sorted := by
  induction h with
  | start h =>
      rw [sorted, h]
  | globals host info delta _ _ => exact AddressIndex.staticsSorted_finalize
  | libraries host modtab _ ih => exact sorted_populateLibGlobals host modtab _ ih
  | tick orders passes _ ih => exact sorted_tick passes ih

/-- When `run_headless` exits, its final sweep leaves what the main loop would have
left exactly where the rest is plain. -/
theorem final_sweep_agrees_iff {noBb : Bool} {s : Session} (hs : Reached noBb s)
    (orders : IndexOrders) (rest : List Pass) :
    (s.finalSweep noBb (rootRest rest)).outcome = (s.tick noBb orders rest).outcome ↔
      Plain noBb rest s :=
  outcome_finalSweep_iff noBb orders (sorted_of_reached hs) rest

/-- One write left in the root's rings is swept as the main loop would take it. -/
theorem final_sweep_agrees_on_write :
    (({} : Session).finalSweep false (rootRest [⟨[(.plain, plainEvent 0 0x1000 7)], []⟩])).outcome =
      (({} : Session).tick false .plain [⟨[(.plain, plainEvent 0 0x1000 7)], []⟩]).outcome := by
  refine (final_sweep_agrees_iff (.start rfl) .plain _).mpr ⟨by simp [lookedAt], ?_, fun k => ?_, ?_⟩
  · simp only [List.mem_singleton, forall_eq]
    decide
  · simp only [rootRest, List.flatMap_singleton, lookedAt, SeqTracker.numbers]
    by_cases hk : seqKey (plainEvent 0 0x1000 7) = k
    · subst hk
      decide
    · simp [hk, breaks]
  · intro htopo
    cases htopo

/-- A snapshot left in the root's rings: the main loop restores the registers from
it, the sweep takes its seven slots for events. -/
theorem final_sweep_misses_snapshot :
    ¬ ∀ (noBb : Bool) (s : Session), Reached noBb s → ∀ (orders : IndexOrders) (rest : List Pass),
      (s.finalSweep noBb (rootRest rest)).outcome = (s.tick noBb orders rest).outcome := by
  intro hall
  let rest : List Pass := [⟨onesSnapshot.slots.map fun e => (.plain, e), []⟩]
  have hregs : (({} : Session).finalSweep false (rootRest rest)).engine.world.regs 0 =
      (({} : Session).tick false .plain rest).engine.world.regs 0 :=
    congrArg (fun o : Outcome => o.world.regs 0) (hall false {} (.start rfl) .plain rest)
  have hsweep : (({} : Session).finalSweep false (rootRest rest)).engine.world.regs 0 = 0 := by
    decide +kernel
  have hmain : (({} : Session).tick false .plain rest).engine.world.regs 0 = 1 := by
    decide +kernel
  rw [hsweep, hmain] at hregs
  exact absurd hregs (by decide)

end Session

end Rtmap.Engine
