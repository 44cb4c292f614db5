import Mathlib.Data.Finset.Card
import Mathlib.Data.Finset.Range
import Rtmap.Engine.WarmPasses

/-!
# The steps of the warm scan

A call of `step` works in rounds: one takes an item off the queue and visits it or drops it,
and the last one may put its item back because the budget is used up. `steps_lose_nothing`
says what holds over the calls of a scanner's life.
-/
namespace Rtmap.Engine

namespace PtrScan

/-- The queue is added to, and not over its limit. -/
structure Grows (s s' : PtrScan) : Prop where
  appended : s.queue <+: s'.queue
  capped : s.queue.length ≤ WARM_SCAN_QUEUE_CAP → s'.queue.length ≤ WARM_SCAN_QUEUE_CAP

namespace Grows

theorem of_eq {s s' : PtrScan} (h : s'.queue = s.queue) : Grows s s' where
  appended := h ▸ List.prefix_rfl
  capped hcap := h ▸ hcap

theorem refl (s : PtrScan) : Grows s s := of_eq rfl

theorem trans {s s' s'' : PtrScan} (h : Grows s s') (k : Grows s' s'') : Grows s s'' where
  appended := h.appended.trans k.appended
  capped hcap := k.capped (h.capped hcap)

theorem push {s : PtrScan} (item : WarmItem) (h : s.queue.length < WARM_SCAN_QUEUE_CAP) :
    Grows s (s.push item) where
  appended := List.prefix_append _ _
  capped _ := by
    rw [PtrScan.push, List.length_append, List.length_singleton]
    exact h

theorem foldl {f : PtrScan → FieldInfo → PtrScan} (h : ∀ s x, Grows s (f s x))
    (fields : List FieldInfo) (s : PtrScan) : Grows s (fields.foldl f s) := by
  induction fields generalizing s with
  | nil => exact refl s
  | cons x fields ih => exact (h s x).trans (ih (f s x))

end Grows

section Scan
variable (view : WarmView) (registry : Registry) (visited : List UInt64)

theorem grows_offer (item : WarmItem) (s : PtrScan) : Grows s (s.offer visited item) := by
  rw [offer]
  split
  · rename_i h
    exact .push item h.2
  · split
    · exact .of_eq rfl
    · exact .refl s

theorem grows_offerContainers (ptr : UInt64) (qualified : String) (depth : ℕ)
    (es : List ContainerOfEntry) (s : PtrScan) :
    Grows s (offerContainers registry visited ptr qualified depth es s) := by
  induction es generalizing s with
  | nil => exact .refl s
  | cons e es ih =>
      rw [offerContainers]
      split
      · exact .of_eq rfl
      · rename_i hroom
        refine Grows.trans ?_ (ih _)
        split
        · split
          · exact .refl s
          · exact .push _ (not_le.mp hroom)
        · exact .refl s

theorem grows_offerSlots (ptr : UInt64) (inner : TypeInfo) (qualified : String) (depth : ℕ)
    (is : List ℕ) (s : PtrScan) :
    Grows s (offerSlots view visited ptr inner qualified depth is s) := by
  induction is generalizing s with
  | nil => exact .refl s
  | cons i is ih =>
      rw [offerSlots]
      split
      · exact .of_eq rfl
      · refine Grows.trans ?_ (ih _)
        have hread : Grows s s.countRead := .of_eq rfl
        split
        · exact hread.trans (grows_offer visited _ _)
        · exact hread

theorem grows_follow (source : String) (depth : ℕ) (f : FieldInfo) (faddr ptr : UInt64)
    (s : PtrScan) : Grows s (follow view registry visited source depth f faddr ptr s) := by
  rw [follow]
  dsimp only
  split
  · rename_i ti _
    have hlinked : Grows s
        { s with cold := s.cold ++ [.link source faddr ptr (pointeeName f) f.name] } := .of_eq rfl
    exact (hlinked.trans (grows_offerContainers registry visited ptr _ depth _ _)).trans
      (grows_offer visited _ _)
  · split
    · rename_i inner _
      have hregister : Grows s (registerIndirect view ptr inner s) := by
        rw [registerIndirect]
        split
        · exact .of_eq rfl
        · exact .refl s
      exact hregister.trans (grows_offerSlots view visited ptr inner _ depth _ _)
    · exact .refl s

theorem grows_scanPointer (source : String) (depth : ℕ) (f : FieldInfo) (faddr : UInt64)
    (s : PtrScan) : Grows s (scanPointer view registry visited source depth f faddr s) := by
  rw [scanPointer]
  split
  · exact .of_eq rfl
  · have hread : Grows s s.countRead := .of_eq rfl
    split
    · exact hread
    · exact hread.trans (grows_follow view registry visited source depth f faddr _ _)

theorem grows_scanPtrFields (levels : ℕ) (base : UInt64) (fields : List FieldInfo)
    (source : String) (depth : ℕ) (s : PtrScan) :
    Grows s (scanPtrFields view registry visited levels base fields source depth s) := by
  induction levels generalizing base fields source depth s with
  | zero => exact .refl s
  | succ levels ih =>
      rw [scanPtrFields]
      refine Grows.foldl (fun s f => ?_) fields s
      split
      · exact .refl s
      · split
        · exact grows_scanPointer view registry visited source depth f _ s
        · split
          · exact ih _ _ _ _ s
          · exact .refl s

end Scan

end PtrScan

namespace WarmState

/-- The items that the rounds visit. -/
def stepVisits (host : Host) (view : WarmView) (budget start : ℕ) : ℕ → WarmState → List WarmItem
  | 0, _ => []
  | rounds + 1, s =>
      match s.scanner.queue with
      | [] => []
      | item :: queue =>
          let popped := withQueue host s item queue
          if s.scanner.stats.reads - start ≥ budget then []
          else if item.depth > s.scanner.maxDepth ∨ item.addr ∈ s.scanner.visited then
            stepVisits host view budget start rounds popped
          else
            deepItem host s item ::
              stepVisits host view budget start rounds (visit view (deepItem host s item) popped)

/-- The item that the budget stops. -/
def interrupted (host : Host) (view : WarmView) (budget start : ℕ) :
    ℕ → WarmState → Option WarmItem
  | 0, _ => none
  | rounds + 1, s =>
      match s.scanner.queue with
      | [] => none
      | item :: queue =>
          let popped := withQueue host s item queue
          if s.scanner.stats.reads - start ≥ budget then some item
          else if item.depth > s.scanner.maxDepth ∨ item.addr ∈ s.scanner.visited then
            interrupted host view budget start rounds popped
          else interrupted host view budget start rounds (visit view (deepItem host s item) popped)

section Round
variable {host : Host} {view : WarmView} {budget start rounds : ℕ} {s : WarmState}
  {item : WarmItem} {queue : List WarmItem}

/-- What a round does: the loop ends without an item, ends by the budget, drops the item or
visits it. -/
theorem stepLoop_empty (h : s.scanner.queue = []) :
    stepLoop host view budget start (rounds + 1) s = s ∧
      stepVisits host view budget start (rounds + 1) s = [] ∧
      interrupted host view budget start (rounds + 1) s = none := by
  rw [stepLoop, stepVisits, interrupted, h]
  exact ⟨rfl, rfl, rfl⟩

theorem stepLoop_budget (h : s.scanner.queue = item :: queue)
    (hbudget : s.scanner.stats.reads - start ≥ budget) :
    stepLoop host view budget start (rounds + 1) s =
        withQueue host s item (deepItem host s item :: queue) ∧
      stepVisits host view budget start (rounds + 1) s = [] ∧
      interrupted host view budget start (rounds + 1) s = some item := by
  refine ⟨?_, ?_, ?_⟩
  · rw [stepLoop, h]
    exact if_pos hbudget
  · rw [stepVisits, h]
    exact if_pos hbudget
  · rw [interrupted, h]
    exact if_pos hbudget

theorem stepLoop_skip (h : s.scanner.queue = item :: queue)
    (hbudget : ¬s.scanner.stats.reads - start ≥ budget)
    (hskip : item.depth > s.scanner.maxDepth ∨ item.addr ∈ s.scanner.visited) :
    stepLoop host view budget start (rounds + 1) s =
        stepLoop host view budget start rounds (withQueue host s item queue) ∧
      stepVisits host view budget start (rounds + 1) s =
        stepVisits host view budget start rounds (withQueue host s item queue) ∧
      interrupted host view budget start (rounds + 1) s =
        interrupted host view budget start rounds (withQueue host s item queue) := by
  refine ⟨?_, ?_, ?_⟩
  · rw [stepLoop, h]
    exact (if_neg hbudget).trans (if_pos hskip)
  · rw [stepVisits, h]
    exact (if_neg hbudget).trans (if_pos hskip)
  · rw [interrupted, h]
    exact (if_neg hbudget).trans (if_pos hskip)

theorem stepLoop_visit (h : s.scanner.queue = item :: queue)
    (hbudget : ¬s.scanner.stats.reads - start ≥ budget)
    (hskip : ¬(item.depth > s.scanner.maxDepth ∨ item.addr ∈ s.scanner.visited)) :
    stepLoop host view budget start (rounds + 1) s =
        stepLoop host view budget start rounds
          (visit view (deepItem host s item) (withQueue host s item queue)) ∧
      stepVisits host view budget start (rounds + 1) s = deepItem host s item ::
        stepVisits host view budget start rounds
          (visit view (deepItem host s item) (withQueue host s item queue)) ∧
      interrupted host view budget start (rounds + 1) s =
        interrupted host view budget start rounds
          (visit view (deepItem host s item) (withQueue host s item queue)) := by
  refine ⟨?_, ?_, ?_⟩
  · rw [stepLoop, h]
    exact (if_neg hbudget).trans (if_neg hskip)
  · rw [stepVisits, h]
    exact (if_neg hbudget).trans (if_neg hskip)
  · rw [interrupted, h]
    exact (if_neg hbudget).trans (if_neg hskip)

/-- A scan of fields adds to the queue, up to its limit. -/
theorem scanFields_grows (view : WarmView) (base : UInt64) (ti : TypeInfo) (source : String)
    (depth : ℕ) (s : WarmState) :
    s.scanner.queue <+: (scanFields view base ti source depth s).scanner.queue ∧
      (s.scanner.queue.length ≤ WARM_SCAN_QUEUE_CAP →
        (scanFields view base ti source depth s).scanner.queue.length ≤
          WARM_SCAN_QUEUE_CAP) := by
  have hgrows := PtrScan.grows_scanPtrFields view s.info.typeRegistry s.scanner.visited 8 base
    ti.fields source depth ⟨s.scanner.queue, s.scanner.stats, s.world.stm, s.cold⟩
  exact ⟨hgrows.appended, hgrows.capped⟩

/-- So does a visit. -/
theorem visit_grows (view : WarmView) (item : WarmItem) (s : WarmState) :
    s.scanner.queue <+: (visit view item s).scanner.queue ∧
      (s.scanner.queue.length ≤ WARM_SCAN_QUEUE_CAP →
        (visit view item s).scanner.queue.length ≤ WARM_SCAN_QUEUE_CAP) := by
  let marked : WarmState := { s with scanner := { s.scanner with
    visited := item.addr :: s.scanner.visited } }
  have hgrows := scanFields_grows view item.addr item.typeInfo item.source (item.depth + 1)
    (stamp view item marked)
  rw [(stamp_frame view item marked).1] at hgrows
  exact hgrows

/-- The queue stays within its limit. -/
theorem capped_stepLoop (rounds : ℕ) (h : s.scanner.queue.length ≤ WARM_SCAN_QUEUE_CAP) :
    (stepLoop host view budget start rounds s).scanner.queue.length ≤ WARM_SCAN_QUEUE_CAP := by
  induction rounds generalizing s with
  | zero => exact h
  | succ rounds ih =>
      cases hqueue : s.scanner.queue with
      | nil =>
          rw [(stepLoop_empty hqueue).1]
          exact h
      | cons item queue =>
          rw [hqueue] at h
          have hless : queue.length ≤ WARM_SCAN_QUEUE_CAP := (Nat.le_succ _).trans h
          by_cases hbudget : s.scanner.stats.reads - start ≥ budget
          · rw [(stepLoop_budget hqueue hbudget).1]
            exact h
          · by_cases hskip : item.depth > s.scanner.maxDepth ∨ item.addr ∈ s.scanner.visited
            · rw [(stepLoop_skip hqueue hbudget hskip).1]
              exact ih hless
            · rw [(stepLoop_visit hqueue hbudget hskip).1]
              exact ih ((visit_grows view _ _).2 hless)

/-- The visited addresses are those of the items visited, on top of the earlier ones; each is
new. -/
theorem visited_stepLoop (host : Host) (view : WarmView) (budget start rounds : ℕ)
    (s : WarmState) :
    (stepLoop host view budget start rounds s).scanner.visited =
        ((stepVisits host view budget start rounds s).map WarmItem.addr).reverse ++
          s.scanner.visited ∧
      (s.scanner.visited.Nodup →
        (stepLoop host view budget start rounds s).scanner.visited.Nodup) := by
  induction rounds generalizing s with
  | zero => exact ⟨rfl, id⟩
  | succ rounds ih =>
      cases hqueue : s.scanner.queue with
      | nil =>
          rw [(stepLoop_empty hqueue).1, (stepLoop_empty hqueue).2.1]
          exact ⟨rfl, id⟩
      | cons item queue =>
          by_cases hbudget : s.scanner.stats.reads - start ≥ budget
          · rw [(stepLoop_budget hqueue hbudget).1, (stepLoop_budget hqueue hbudget).2.1]
            exact ⟨rfl, id⟩
          · by_cases hskip : item.depth > s.scanner.maxDepth ∨ item.addr ∈ s.scanner.visited
            · rw [(stepLoop_skip hqueue hbudget hskip).1, (stepLoop_skip hqueue hbudget hskip).2.1]
              exact ih _
            · obtain ⟨hmark, hnodup⟩ := ih
                (visit view (deepItem host s item) (withQueue host s item queue))
              have hvisited := (visit_frame view (deepItem host s item)
                (withQueue host s item queue)).2.1
              rw [hvisited] at hmark hnodup
              rw [(stepLoop_visit hqueue hbudget hskip).1,
                (stepLoop_visit hqueue hbudget hskip).2.1]
              constructor
              · rw [hmark, List.map_cons, List.reverse_cons, List.append_assoc]
                rfl
              · exact fun hset => hnodup (List.nodup_cons.mpr ⟨(not_or.mp hskip).2, hset⟩)

theorem mem_visited_stepLoop (rounds : ℕ) {a : UInt64} (h : a ∈ s.scanner.visited) :
    a ∈ (stepLoop host view budget start rounds s).scanner.visited := by
  rw [(visited_stepLoop _ _ _ _ rounds s).1]
  exact List.mem_append_right _ h

/-- An item by its address, its source and its depth. -/
def SameWork (i item : WarmItem) : Prop :=
  i.addr = item.addr ∧ i.source = item.source ∧ i.depth = item.depth

/-- A queued item is dropped for its depth, its address is visited, or it stays queued. -/
theorem kept_stepLoop (rounds : ℕ) {i : WarmItem} (h : i ∈ s.scanner.queue) :
    s.scanner.maxDepth < i.depth ∨
      i.addr ∈ (stepLoop host view budget start rounds s).scanner.visited ∨
      ∃ j ∈ (stepLoop host view budget start rounds s).scanner.queue, SameWork j i := by
  induction rounds generalizing s with
  | zero => exact .inr (.inr ⟨i, h, rfl, rfl, rfl⟩)
  | succ rounds ih =>
      cases hqueue : s.scanner.queue with
      | nil =>
          rw [hqueue] at h
          cases h
      | cons item queue =>
          rw [hqueue] at h
          by_cases hbudget : s.scanner.stats.reads - start ≥ budget
          · rw [(stepLoop_budget hqueue hbudget).1]
            rcases List.mem_cons.mp h with rfl | h
            · exact .inr (.inr ⟨_, List.mem_cons_self, rfl, rfl, rfl⟩)
            · exact .inr (.inr ⟨i, List.mem_cons_of_mem _ h, rfl, rfl, rfl⟩)
          · by_cases hskip : item.depth > s.scanner.maxDepth ∨ item.addr ∈ s.scanner.visited
            · rw [(stepLoop_skip hqueue hbudget hskip).1]
              rcases List.mem_cons.mp h with rfl | h
              · refine hskip.imp id fun hvisited => .inl ?_
                exact mem_visited_stepLoop (s := withQueue host s i queue) rounds hvisited
              · exact ih (s := withQueue host s item queue) h
            · rw [(stepLoop_visit hqueue hbudget hskip).1]
              obtain ⟨-, hvisited, hmax, -⟩ := visit_frame view (deepItem host s item)
                (withQueue host s item queue)
              rcases List.mem_cons.mp h with rfl | h
              · refine .inr (.inl (mem_visited_stepLoop rounds ?_))
                rw [hvisited]
                exact List.mem_cons_self
              · have hgrown := (visit_grows view (deepItem host s item)
                  (withQueue host s item queue)).1.subset h
                have hrest := ih hgrown
                rw [hmax] at hrest
                exact hrest

/-- The item that the budget stops is in front, with its type materialized. -/
theorem front_stepLoop (rounds : ℕ) {item : WarmItem}
    (h : interrupted host view budget start rounds s = some item) :
    ∃ first rest, (stepLoop host view budget start rounds s).scanner.queue = first :: rest ∧
      SameWork first item := by
  induction rounds generalizing s with
  | zero => cases h
  | succ rounds ih =>
      cases hqueue : s.scanner.queue with
      | nil =>
          rw [(stepLoop_empty hqueue).2.2] at h
          cases h
      | cons i queue =>
          by_cases hbudget : s.scanner.stats.reads - start ≥ budget
          · rw [(stepLoop_budget hqueue hbudget).2.2] at h
            obtain rfl := Option.some.inj h
            rw [(stepLoop_budget hqueue hbudget).1]
            exact ⟨_, _, rfl, rfl, rfl, rfl⟩
          · by_cases hskip : i.depth > s.scanner.maxDepth ∨ i.addr ∈ s.scanner.visited
            · rw [(stepLoop_skip hqueue hbudget hskip).2.2] at h
              rw [(stepLoop_skip hqueue hbudget hskip).1]
              exact ih h
            · rw [(stepLoop_visit hqueue hbudget hskip).2.2] at h
              rw [(stepLoop_visit hqueue hbudget hskip).1]
              exact ih h

theorem length_le_of_nodup {l : List UInt64} (h : l.Nodup) : l.length ≤ 2 ^ 64 := by
  have hnodup : (l.map UInt64.toNat).Nodup := h.map fun _ _ => UInt64.toNat_inj.mp
  have hsub : (l.map UInt64.toNat).toFinset ⊆ Finset.range (2 ^ 64) := by
    intro n hn
    obtain ⟨a, -, rfl⟩ := List.mem_map.mp (List.mem_toFinset.mp hn)
    exact Finset.mem_range.mpr a.toNat_lt
  have hcard := Finset.card_le_card hsub
  rw [List.toFinset_card_of_nodup hnodup, List.length_map, Finset.card_range] at hcard
  exact hcard

/-- So many rounds are enough: more change nothing, and without an item that the budget stops
the queue is empty. -/
structure Ended (host : Host) (view : WarmView) (budget start rounds : ℕ) (s : WarmState) :
    Prop where
  loop (more : ℕ) : stepLoop host view budget start (rounds + more) s =
    stepLoop host view budget start rounds s
  visits (more : ℕ) : stepVisits host view budget start (rounds + more) s =
    stepVisits host view budget start rounds s
  empty (h : interrupted host view budget start rounds s = none) :
    (stepLoop host view budget start rounds s).scanner.queue = []

/-- The loop ends: a round takes an item off the queue or visits one of finitely many
addresses. -/
theorem exists_ended (host : Host) (view : WarmView) (budget start : ℕ) (s : WarmState)
    (h : s.scanner.visited.Nodup) :
    ∃ rounds, Ended host view budget start rounds s := by
  induction hunseen : 2 ^ 64 - s.scanner.visited.length using Nat.strongRecOn generalizing s with
  | _ unseen ihvisit =>
      induction hqueue : s.scanner.queue generalizing s with
      | nil =>
          refine ⟨1, fun more => ?_, fun more => ?_, fun _ => ?_⟩
          · rw [Nat.add_comm, (stepLoop_empty hqueue).1, (stepLoop_empty hqueue).1]
          · rw [Nat.add_comm, (stepLoop_empty hqueue).2.1, (stepLoop_empty hqueue).2.1]
          · rw [(stepLoop_empty hqueue).1, hqueue]
      | cons item queue ihskip =>
          by_cases hbudget : s.scanner.stats.reads - start ≥ budget
          · refine ⟨1, fun more => ?_, fun more => ?_, fun hnone => ?_⟩
            · rw [Nat.add_comm, (stepLoop_budget hqueue hbudget).1,
                (stepLoop_budget hqueue hbudget).1]
            · rw [Nat.add_comm, (stepLoop_budget hqueue hbudget).2.1,
                (stepLoop_budget hqueue hbudget).2.1]
            · rw [(stepLoop_budget hqueue hbudget).2.2] at hnone
              cases hnone
          · by_cases hskip : item.depth > s.scanner.maxDepth ∨ item.addr ∈ s.scanner.visited
            · obtain ⟨rounds, hloop, hvisits, hempty⟩ :=
                ihskip (withQueue host s item queue) h hunseen rfl
              refine ⟨rounds + 1, fun more => ?_, fun more => ?_, fun hnone => ?_⟩
              · rw [Nat.add_right_comm, (stepLoop_skip hqueue hbudget hskip).1,
                  (stepLoop_skip hqueue hbudget hskip).1, hloop]
              · rw [Nat.add_right_comm, (stepLoop_skip hqueue hbudget hskip).2.1,
                  (stepLoop_skip hqueue hbudget hskip).2.1, hvisits]
              · rw [(stepLoop_skip hqueue hbudget hskip).2.2] at hnone
                rw [(stepLoop_skip hqueue hbudget hskip).1]
                exact hempty hnone
            · set after := visit view (deepItem host s item) (withQueue host s item queue)
                with hafter
              have hvisited : after.scanner.visited = item.addr :: s.scanner.visited :=
                (visit_frame view (deepItem host s item) (withQueue host s item queue)).2.1
              have hnodup : after.scanner.visited.Nodup := by
                rw [hvisited]
                exact List.nodup_cons.mpr ⟨(not_or.mp hskip).2, h⟩
              have hfew := length_le_of_nodup hnodup
              have hlength : after.scanner.visited.length = s.scanner.visited.length + 1 :=
                congrArg List.length hvisited
              obtain ⟨rounds, hloop, hvisits, hempty⟩ :=
                ihvisit (2 ^ 64 - after.scanner.visited.length) (by omega) after hnodup rfl
              refine ⟨rounds + 1, fun more => ?_, fun more => ?_, fun hnone => ?_⟩
              · rw [Nat.add_right_comm, (stepLoop_visit hqueue hbudget hskip).1,
                  (stepLoop_visit hqueue hbudget hskip).1, hloop]
              · rw [Nat.add_right_comm, (stepLoop_visit hqueue hbudget hskip).2.1,
                  (stepLoop_visit hqueue hbudget hskip).2.1, hvisits]
              · rw [(stepLoop_visit hqueue hbudget hskip).2.2] at hnone
                rw [(stepLoop_visit hqueue hbudget hskip).1]
                exact hempty hnone

/-- A step with a budget takes the first item: it visits the address unless the item is too
deep. -/
theorem mem_visited_of_first (hqueue : s.scanner.queue = item :: queue) (hbudget : 0 < budget)
    (rounds : ℕ) : s.scanner.maxDepth < item.depth ∨
      item.addr ∈ (step host view budget (rounds + 1) s).scanner.visited := by
  have hleft : ¬s.scanner.stats.reads - s.scanner.stats.reads ≥ budget := by omega
  rw [step]
  by_cases hskip : item.depth > s.scanner.maxDepth ∨ item.addr ∈ s.scanner.visited
  · refine hskip.imp id fun hvisited => ?_
    exact mem_visited_stepLoop (rounds + 1) hvisited
  · rw [(stepLoop_visit hqueue hleft hskip).1]
    refine .inr (mem_visited_stepLoop rounds ?_)
    rw [(visit_frame view (deepItem host s item) (withQueue host s item queue)).2.1]
    exact List.mem_cons_self

end Round

/-- Seeding visits nothing and keeps the queue within its limit. -/
theorem seed_frame (host : Host) (view : WarmView) (delta : UInt64) (s : WarmState) :
    (seed host view delta s).scanner.visited = s.scanner.visited ∧
      (s.scanner.queue.length ≤ WARM_SCAN_QUEUE_CAP →
        (seed host view delta s).scanner.queue.length ≤ WARM_SCAN_QUEUE_CAP) := by
  have hfields (globals : List GlobalVar) (s : WarmState) :
      let after := globals.foldl (fun s g =>
        scanFields view (g.addr + delta) g.typeInfo g.name 1 s) s
      after.scanner.visited = s.scanner.visited ∧
        (s.scanner.queue.length ≤ WARM_SCAN_QUEUE_CAP →
          after.scanner.queue.length ≤ WARM_SCAN_QUEUE_CAP) := by
    induction globals generalizing s with
    | nil => exact ⟨rfl, id⟩
    | cons g globals ih =>
        obtain ⟨hvisited, hcapped⟩ := ih (scanFields view (g.addr + delta) g.typeInfo g.name 1 s)
        exact ⟨hvisited, fun h => hcapped ((scanFields_grows view _ _ _ _ s).2 h)⟩
  exact hfields _ { s with info := prepare host s.info }

/-- The calls on a scanner, with the addresses they visit. Between the calls the rest of the
engine may change. -/
inductive Life (first : WarmScanner) : List UInt64 → WarmScanner → Prop
  | start : Life first [] first
  | seed {visits : List UInt64} (host : Host) (view : WarmView) (delta : UInt64) (s : WarmState)
      (h : Life first visits s.scanner) :
      Life first visits (WarmState.seed host view delta s).scanner
  | step {visits : List UInt64} (host : Host) (view : WarmView) (budget rounds : ℕ)
      (s : WarmState) (h : Life first visits s.scanner) :
      Life first
        (visits ++ (stepVisits host view budget s.scanner.stats.reads rounds s).map WarmItem.addr)
        (WarmState.step host view budget rounds s).scanner

theorem Life.visited {first scanner : WarmScanner} {visits : List UInt64}
    (h : Life first visits scanner) :
    scanner.visited = visits.reverse ++ first.visited ∧
      (first.visited.Nodup → scanner.visited.Nodup) ∧
      (first.queue.length ≤ WARM_SCAN_QUEUE_CAP →
        scanner.queue.length ≤ WARM_SCAN_QUEUE_CAP) := by
  induction h with
  | start => exact ⟨rfl, id, id⟩
  | seed host view delta s _ ih =>
      obtain ⟨hvisited, hnodup, hcapped⟩ := ih
      obtain ⟨hsame, hcap⟩ := seed_frame host view delta s
      rw [hsame]
      exact ⟨hvisited, hnodup, fun h => hcap (hcapped h)⟩
  | step host view budget rounds s _ ih =>
      obtain ⟨hvisited, hnodup, hcapped⟩ := ih
      obtain ⟨hsame, hset⟩ := visited_stepLoop host view budget s.scanner.stats.reads rounds s
      refine ⟨?_, fun h => hset (hnodup h), fun h => capped_stepLoop rounds (hcapped h)⟩
      rw [WarmState.step, hsame, hvisited, List.reverse_append, List.append_assoc]

/-- What a call of `step` comes to. -/
structure StepOutcome (host : Host) (view : WarmView) (budget rounds : ℕ) (s : WarmState) :
    Prop where
  ended (more : ℕ) : step host view budget (rounds + more) s = step host view budget rounds s
  capped : (step host view budget rounds s).scanner.queue.length ≤ WARM_SCAN_QUEUE_CAP
  visited (a : UInt64) : a ∈ (step host view budget rounds s).scanner.visited ↔
    a ∈ s.scanner.visited ∨
      ∃ i ∈ stepVisits host view budget s.scanner.stats.reads rounds s, i.addr = a
  kept (item : WarmItem) (h : item ∈ s.scanner.queue) : s.scanner.maxDepth < item.depth ∨
    item.addr ∈ (step host view budget rounds s).scanner.visited ∨
    ∃ i ∈ (step host view budget rounds s).scanner.queue, SameWork i item
  stopped :
    match interrupted host view budget s.scanner.stats.reads rounds s with
    | some item => ∃ i rest, SameWork i item ∧
        (step host view budget rounds s).scanner.queue = i :: rest
    | none => (step host view budget rounds s).scanner.queue = []
  later (item : WarmItem) (rest : List WarmItem)
    (h : (step host view budget rounds s).scanner.queue = item :: rest) (s' : WarmState)
    (hsame : s'.scanner = (step host view budget rounds s).scanner) (host' : Host)
    (view' : WarmView) (budget' rounds' : ℕ) (hbudget : 0 < budget') :
    s'.scanner.maxDepth < item.depth ∨
      item.addr ∈ (step host' view' budget' (rounds' + 1) s').scanner.visited

/-- Over a scanner's life no address is visited twice and the queue stays within its limit.
A step ends; it loses no item that is not too deep, and one that the budget stops is in front
of the queue and is what the next step with a budget takes first. Its address is unvisited
unless another item of it was visited. -/
theorem steps_lose_nothing (first scanner : WarmScanner) (visits : List UInt64)
    (hcap : first.queue.length ≤ WARM_SCAN_QUEUE_CAP) (hset : first.visited.Nodup)
    (hlife : Life first visits scanner) :
    visits.Nodup ∧ (∀ a ∈ visits, a ∉ first.visited) ∧
      scanner.queue.length ≤ WARM_SCAN_QUEUE_CAP ∧
      ∀ (host : Host) (view : WarmView) (budget : ℕ) (s : WarmState), s.scanner = scanner →
        ∃ rounds, StepOutcome host view budget rounds s := by
  obtain ⟨hvisited, hnodup, hcapped⟩ := hlife.visited
  have hnodup := hnodup hset
  have hall := hvisited ▸ hnodup
  rw [List.nodup_append] at hall
  obtain ⟨hvisits, -, hnew⟩ := hall
  refine ⟨List.nodup_reverse.mp hvisits, fun a ha hold => ?_, hcapped hcap, ?_⟩
  · exact hnew a (List.mem_reverse.mpr ha) a hold rfl
  · intro host view budget s hs
    obtain ⟨rounds, hloop, -, hempty⟩ := exists_ended host view budget s.scanner.stats.reads s
      (hs ▸ hnodup)
    refine ⟨rounds, hloop, capped_stepLoop rounds (hs ▸ hcapped hcap), fun a => ?_,
      fun item h => kept_stepLoop rounds h, ?_, ?_⟩
    · rw [step, (visited_stepLoop _ _ _ _ rounds s).1, List.mem_append, List.mem_reverse, List.mem_map,
        or_comm]
    · cases hstop : interrupted host view budget s.scanner.stats.reads rounds s with
      | none => exact hempty hstop
      | some item =>
          obtain ⟨i, rest, hqueue, hsame⟩ := front_stepLoop rounds hstop
          exact ⟨i, rest, hsame, hqueue⟩
    · intro item rest h s' hsame host' view' budget' rounds' hbudget
      exact mem_visited_of_first (hsame ▸ h) hbudget rounds'

/-- The head and the tail of a list of one node are in the queue. -/
def twice : WarmState where
  scanner := {
    maxDepth := 12
    queue := [⟨0x20000, listNode, "cfg.head", 1⟩, ⟨0x20000, listNode, "cfg.tail", 1⟩] }
  info := listInfo
  world := {}
  topo := none

/-- All memory is null. -/
def nullView : WarmView where
  mem _ := some 0
  oracle := {}
  allocs := {}
  containerOf _ := []

/-- A step with a budget of one read visits the address and leaves the second item, which a
later step takes. -/
theorem twice_loses_nothing :
    (stepVisits .plain nullView 1 0 2 twice).map WarmItem.addr = [0x20000] ∧
      (step .plain nullView 1 2 twice).scanner.queue.map WarmItem.addr = [0x20000] ∧
      0x20000 ∉ twice.scanner.visited ∧
      ∃ rounds, StepOutcome .plain nullView 1 rounds (step .plain nullView 1 2 twice) := by
  have hvisits : (stepVisits .plain nullView 1 0 2 twice).map WarmItem.addr = [0x20000] := by
    decide +kernel
  obtain ⟨-, hnew, -, hsteps⟩ := steps_lose_nothing twice.scanner _ _ (by decide) List.nodup_nil
    (.step .plain nullView 1 2 twice .start)
  refine ⟨hvisits, by decide +kernel, hnew _ ?_, hsteps .plain nullView 1 _ rfl⟩
  exact List.mem_append_right [] (hvisits ▸ List.mem_singleton.mpr rfl)

/-- The first visit reads one word, which is the budget: the second item is stopped, and its
address is visited. -/
theorem interrupted_visited : ¬∀ (host : Host) (view : WarmView) (budget rounds : ℕ)
    (s : WarmState), s.scanner.queue.length ≤ WARM_SCAN_QUEUE_CAP → s.scanner.visited.Nodup →
    ∀ item, interrupted host view budget s.scanner.stats.reads rounds s = some item →
      item.addr ∉ (step host view budget rounds s).scanner.visited := by
  intro h
  have hstop : (interrupted .plain nullView 1 0 2 twice).map WarmItem.addr = some 0x20000 := by
    decide +kernel
  have hvisited : 0x20000 ∈ (step .plain nullView 1 2 twice).scanner.visited := by
    decide +kernel
  obtain ⟨item, hitem, haddr⟩ := Option.map_eq_some_iff.mp hstop
  refine h .plain nullView 1 2 twice (by decide) List.nodup_nil item hitem ?_
  rw [haddr]
  exact hvisited

end WarmState

end Rtmap.Engine
