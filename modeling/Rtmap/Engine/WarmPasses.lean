import Mathlib.Logic.Relation
import Rtmap.Engine.WarmScan
import Rtmap.Lib.BreadthFirst

/-!
# Passes of the warm scan

A pass seeds the scanner from the globals and works on the queue. It is a
breadth-first search by addresses in which the first item of an address decides
with which type and at which depth its fields are read, and in which the addresses
of earlier passes are never visited again.
-/
namespace Rtmap.Engine
open BreadthFirst Rtmap.Ring

/-- A pass of the main loop: `seed` and calls of `step`, each with its budget and its rounds. -/
structure WarmPass where
  host : Host
  mem : ShadowTypeMap.Memory
  containerOf : String → List ContainerOfEntry
  steps : List (ℕ × ℕ)

/-- The engine with its scanner. -/
structure WarmEngine where
  engine : State
  scanner : WarmScanner
  cold : List ColdLine := []

namespace WarmPass

def view (p : WarmPass) (r : WarmEngine) : WarmView :=
  ⟨p.mem, r.engine.heapOracle, r.engine.world.heapAllocs, p.containerOf⟩

/-- The stores after `seed`. -/
def seeded (p : WarmPass) (r : WarmEngine) (info : DwarfInfo) (delta : UInt64) : WarmState :=
  WarmState.seed p.host (p.view r) delta ⟨r.scanner, info, r.engine.world, r.engine.topo, r.cold⟩

/-- The stores after the calls of `step`. -/
def stepped (p : WarmPass) (r : WarmEngine) (info : DwarfInfo) (delta : UInt64) : WarmState :=
  p.steps.foldl (fun s b => WarmState.step p.host (p.view r) b.1 b.2 s) (p.seeded r info delta)

/-- A pass where the DWARF data is there and relocated. -/
def run (p : WarmPass) (r : WarmEngine) : WarmEngine :=
  match r.engine.dwarfInfo, r.engine.relocationDelta with
  | some info, some delta =>
      let s := p.stepped r info delta
      { engine := { r.engine with world := s.world, topo := s.topo, dwarfInfo := some s.info }
        scanner := s.scanner
        cold := s.cold }
  | _, _ => r

end WarmPass

inductive WarmInput where
  | input (i : Input)
  | pass (p : WarmPass)

def WarmInput.apply : WarmInput → WarmEngine → WarmEngine
  | .input i, r => { r with engine := i.apply r.engine }
  | .pass p, r => p.run r

def runWarm (r : WarmEngine) (inputs : List WarmInput) : WarmEngine :=
  inputs.foldl (fun r i => i.apply r) r

/-- The DWARF data with any types materialized. -/
def Materialized (host : Host) : DwarfInfo → DwarfInfo → Prop :=
  Relation.ReflTransGen fun info info' => ∃ n, info' = info.ensureType host.deep n

section Reached
variable (host : Host) (mem : ShadowTypeMap.Memory) (info : DwarfInfo) (delta : UInt64)

/-- A pointer field of eight bytes at the offset, at any nesting. -/
inductive PointerField : List FieldInfo → UInt64 → FieldInfo → Prop
  | top {fields : List FieldInfo} {f : FieldInfo} :
      f ∈ fields → f.name ≠ "<pointee>" → PtrScan.isLink f → PointerField fields f.byteOffset f
  | embedded {fields : List FieldInfo} {f g : FieldInfo} {offset : UInt64} :
      f ∈ fields → f.name ≠ "<pointee>" → PtrScan.isEmbedded f →
      PointerField f.typeInfo.fields offset g → PointerField fields (f.byteOffset + offset) g

/-- A pointer field of an object at `base` holds the address of an object of a registry type. -/
def Hop (registry : Registry) (base : UInt64) (fields : List FieldInfo) (a : UInt64)
    (ti : TypeInfo) : Prop :=
  ∃ offset f, PointerField fields offset f ∧ mem (base + offset) = some a ∧ a ≠ 0 ∧
    registry (PtrScan.pointeeName f) = some ti ∧ ti.byteSize ≠ 0

/-- An object of the type is reached from a global along that many pointers. -/
inductive Reached : ℕ → UInt64 → TypeInfo → Prop
  | global {g : GlobalVar} {info' : DwarfInfo} {a : UInt64} {ti : TypeInfo} :
      g ∈ info.globals → Materialized host info info' →
      Hop mem info'.typeRegistry (g.addr + delta) g.typeInfo.fields a ti → Reached 1 a ti
  | next {k : ℕ} {info' : DwarfInfo} {b a : UInt64} {t ti : TypeInfo} :
      Reached k b t → Materialized host info info' →
      Hop mem info'.typeRegistry b (WarmState.materialize host info' t).2.fields a ti →
      Reached (k + 1) a ti

end Reached

section Follows
variable (host : Host) (view : WarmView) (info : DwarfInfo)

/-- The types that an item's type may have become by a pass. -/
def Deepened : TypeInfo → TypeInfo → Prop :=
  Relation.ReflTransGen fun t t' =>
    ∃ info', Materialized host info info' ∧ t' = (WarmState.materialize host info' t).2

/-- The search of a pass: an item leads to what its fields lead to, whichever types are
materialized when it is visited. -/
def warmSpace (maxDepth : ℕ) : Space WarmItem UInt64 where
  key := WarmItem.addr
  cut n := n.depth > maxDepth
  next n ns := ∃ t info', Deepened host info n.typeInfo t ∧ Materialized host info info' ∧
    ns = PtrScan.fieldItems view (WarmState.materialize host info' t).1.typeRegistry 8 n.addr
      (WarmState.materialize host info' t).2.fields n.source (n.depth + 1)

/-- Every type that the item may be stamped with has a size. -/
def Sized (n : WarmItem) : Prop :=
  ∀ t info', Deepened host info n.typeInfo t → Materialized host info info' →
    (WarmState.materialize host info' t).2.byteSize ≠ 0

/-- The items that the fields of the globals lead to. -/
def globalItems (delta : UInt64) : List WarmItem :=
  info.globals.flatMap fun g =>
    PtrScan.fieldItems view info.typeRegistry 8 (g.addr + delta) g.typeInfo.fields g.name 1

/-- The queued item is the searched one, its type deepened. -/
def SameItem (x : ℕ × WarmItem) (c : WarmItem) : Prop :=
  c.addr = x.2.addr ∧ c.source = x.2.source ∧ c.depth = x.2.depth ∧
    Deepened host info x.2.typeInfo c.typeInfo

variable {host view info} {visited : List UInt64} {start : List WarmItem} {maxDepth : ℕ}

/-- The scanner is where the search is. -/
structure Follows (host : Host) (view : WarmView) (info : DwarfInfo) (visited : List UInt64)
    (start : List WarmItem) (maxDepth : ℕ) (s : WarmState) (sr : Search WarmItem) : Prop where
  inv : Inv (warmSpace host view info maxDepth) (· ∈ visited) start sr
  queue : List.Forall₂ (SameItem host info) sr.queue s.scanner.queue
  visited : s.scanner.visited = sr.done.map (fun x => x.2.addr) ++ visited
  materialized : Materialized host info s.info
  maxDepth : s.scanner.maxDepth = maxDepth
  projected : ∀ x ∈ sr.done, x.2.addr ≠ 0 → Sized host info x.2 → s.Projected x.2.addr

theorem materialized_materialize {info' : DwarfInfo} (h : Materialized host info info')
    (ti : TypeInfo) : Materialized host info (WarmState.materialize host info' ti).1 := by
  rw [WarmState.materialize]
  split
  · exact h.tail ⟨ti.name, rfl⟩
  · exact h

/-- A type that is deep already stays as it is. -/
theorem sized_of_deep {host : Host} {info : DwarfInfo} {n : WarmItem}
    (h : (n.typeInfo.shallow || n.typeInfo.fields.isEmpty) = false)
    (hsize : n.typeInfo.byteSize ≠ 0) : Sized host info n := by
  have hsame (i : DwarfInfo) : WarmState.materialize host i n.typeInfo = (i, n.typeInfo) := by
    rw [WarmState.materialize, h]
    rfl
  intro t i hdeep _
  have ht : t = n.typeInfo := by
    induction hdeep with
    | refl => rfl
    | tail _ hstep ih =>
        obtain ⟨i, -, rfl⟩ := hstep
        rw [ih, hsame]
  rw [ht, hsame]
  exact hsize

theorem Follows.mem_visited {s : WarmState} {sr : Search WarmItem}
    (h : Follows host view info visited start maxDepth s sr) {a : UInt64} :
    a ∈ s.scanner.visited ↔ a ∈ visited ∨ ∃ y ∈ sr.done, y.2.addr = a := by
  rw [h.visited, List.mem_append, List.mem_map, or_comm]

section Pop
variable {s : WarmState} {item : WarmItem} {queue : List WarmItem} {sr : Search WarmItem}

theorem Follows.pushBack (h : Follows host view info visited start maxDepth s sr)
    (hqueue : s.scanner.queue = item :: queue) :
    Follows host view info visited start maxDepth
      (withQueue host s item (deepItem host s item :: queue)) sr where
  inv := h.inv
  queue := by
    have hsame := h.queue
    rw [hqueue] at hsame
    obtain ⟨x, rest, ⟨haddr, hsource, hdepth, hdeep⟩, hrest, hsr⟩ :=
      List.forall₂_cons_right_iff.mp hsame
    rw [hsr]
    exact .cons ⟨haddr, hsource, hdepth, hdeep.tail ⟨s.info, h.materialized, rfl⟩⟩ hrest
  visited := h.visited
  materialized := materialized_materialize h.materialized item.typeInfo
  maxDepth := h.maxDepth
  projected := h.projected

theorem Follows.skip (h : Follows host view info visited start maxDepth s sr)
    (hqueue : s.scanner.queue = item :: queue)
    (hskip : item.depth > s.scanner.maxDepth ∨ item.addr ∈ s.scanner.visited) :
    ∃ sr', Follows host view info visited start maxDepth (withQueue host s item queue) sr' := by
  have hsame := h.queue
  rw [hqueue] at hsame
  obtain ⟨x, rest, ⟨haddr, -, hdepth, -⟩, hrest, hsr⟩ := List.forall₂_cons_right_iff.mp hsame
  obtain ⟨srQueue, done⟩ := sr
  obtain rfl : srQueue = x :: rest := hsr
  refine ⟨⟨rest, done⟩, h.inv.skip ?_, hrest, h.visited, materialized_materialize h.materialized _,
    h.maxDepth, h.projected⟩
  rcases hskip with hcut | hvisited
  · rw [h.maxDepth, hdepth] at hcut
    exact .inl hcut
  · rw [haddr] at hvisited
    exact .inr (h.mem_visited.mp hvisited)

theorem Follows.visit (h : Follows host view info visited start maxDepth s sr)
    (hqueue : s.scanner.queue = item :: queue)
    (hskip : ¬ (item.depth > s.scanner.maxDepth ∨ item.addr ∈ s.scanner.visited))
    (hhits : (WarmState.visit view (deepItem host s item)
      (withQueue host s item queue)).scanner.stats.queueCapHits = s.scanner.stats.queueCapHits) :
    ∃ sr', Follows host view info visited start maxDepth
      (WarmState.visit view (deepItem host s item) (withQueue host s item queue)) sr' := by
  have hsame := h.queue
  rw [hqueue] at hsame
  obtain ⟨x, rest, ⟨haddr, hsource, hdepth, hdeep⟩, hrest, hsr⟩ :=
    List.forall₂_cons_right_iff.mp hsame
  obtain ⟨srQueue, done⟩ := sr
  obtain rfl : srQueue = x :: rest := hsr
  obtain ⟨hcut, hnew⟩ := not_or.mp hskip
  rw [h.maxDepth, hdepth] at hcut
  obtain ⟨hinfo, hvisited, hmax, hkeeps, hstamps, -, hemits⟩ := WarmState.visit_frame view
    (deepItem host s item) (withQueue host s item queue)
  have hnewx : x.2.addr ∉ s.scanner.visited := haddr ▸ hnew
  have hunseen := (not_or.mp fun hseen => hnewx (h.mem_visited.mpr hseen)).1
  let found := PtrScan.fieldItems view (withQueue host s item queue).info.typeRegistry 8
    (deepItem host s item).addr (deepItem host s item).typeInfo.fields
    (deepItem host s item).source ((deepItem host s item).depth + 1)
  let children := found.filter fun c => c.addr ∉ item.addr :: s.scanner.visited
  have hnext : (warmSpace host view info maxDepth).next x.2 found := by
    refine ⟨item.typeInfo, s.info, hdeep, h.materialized, ?_⟩
    rw [← haddr, ← hsource, ← hdepth]
    rfl
  refine ⟨⟨rest ++ children.map fun c => (x.1 + 1, c), x :: done⟩, ?_, ?_, ?_, ?_, ?_, ?_⟩
  · refine h.inv.visit hcut hunseen hnext (fun c hc => List.mem_of_mem_filter hc) fun c hc => ?_
    by_cases hold : c.addr ∈ item.addr :: s.scanner.visited
    · right
      rcases List.mem_cons.mp hold with hitem | hold
      · exact .inr ⟨x, List.mem_cons_self, (hitem.trans haddr).symm⟩
      · exact (h.mem_visited.mp hold).imp_right fun ⟨y, hy, hkey⟩ =>
          ⟨y, List.mem_cons_of_mem x hy, hkey⟩
    · exact .inl (List.mem_filter.mpr ⟨hc, decide_eq_true hold⟩)
  · rw [hemits hhits]
    refine List.rel_append hrest ?_
    exact List.forall₂_map_left_iff.mpr (List.forall₂_same.mpr fun c _ => ⟨rfl, rfl, rfl, .refl⟩)
  · rw [hvisited, List.map_cons, List.cons_append]
    exact congrArg₂ List.cons haddr h.visited
  · rw [hinfo]
    exact materialized_materialize h.materialized item.typeInfo
  · rw [hmax]
    exact h.maxDepth
  · intro y hy hnull hsized
    rcases List.mem_cons.mp hy with rfl | hy
    · rw [← haddr]
      exact hstamps (haddr ▸ hnull) (hsized item.typeInfo s.info hdeep h.materialized)
    · exact hkeeps _ (h.projected y hy hnull hsized)

end Pop

end Follows

section Loop
variable {host : Host} {view : WarmView} {info : DwarfInfo} {visited : List UInt64}
  {start : List WarmItem} {maxDepth hits : ℕ} {s : WarmState}

/-- While the queue was never full the scanner is where a search is. -/
def Searching (host : Host) (view : WarmView) (info : DwarfInfo) (visited : List UInt64)
    (start : List WarmItem) (maxDepth hits : ℕ) (s : WarmState) : Prop :=
  hits ≤ s.scanner.stats.queueCapHits ∧ (s.scanner.stats.queueCapHits = hits →
    ∃ sr, Follows host view info visited start maxDepth s sr)

theorem searching_stepLoop (budget reads rounds : ℕ)
    (h : Searching host view info visited start maxDepth hits s) :
    Searching host view info visited start maxDepth hits
      (WarmState.stepLoop host view budget reads rounds s) := by
  induction rounds generalizing s with
  | zero => exact h
  | succ rounds ih =>
      cases hqueue : s.scanner.queue with
      | nil =>
          rw [WarmState.stepLoop, hqueue]
          exact h
      | cons item queue =>
          rw [WarmState.stepLoop, hqueue]
          dsimp only
          split
          · refine ⟨h.1, fun hsame => ?_⟩
            obtain ⟨sr, hsr⟩ := h.2 hsame
            exact ⟨sr, hsr.pushBack hqueue⟩
          · split
            · rename_i hskip
              refine ih ⟨h.1, fun hsame => ?_⟩
              obtain ⟨sr, hsr⟩ := h.2 hsame
              exact hsr.skip hqueue hskip
            · rename_i hskip
              have hmore : s.scanner.stats.queueCapHits ≤ _ := (WarmState.visit_frame view
                (deepItem host s item) (withQueue host s item queue)).2.2.2.2.2.1
              refine ih ⟨h.1.trans hmore, fun hsame => ?_⟩
              have hbefore : s.scanner.stats.queueCapHits = hits :=
                Nat.le_antisymm (hmore.trans hsame.le) h.1
              obtain ⟨sr, hsr⟩ := h.2 hbefore
              exact hsr.visit hqueue hskip (hsame.trans hbefore.symm)

theorem projected_stepLoop (budget reads rounds : ℕ) {a : UInt64} (h : s.Projected a) :
    (WarmState.stepLoop host view budget reads rounds s).Projected a := by
  induction rounds generalizing s with
  | zero => exact h
  | succ rounds ih =>
      rw [WarmState.stepLoop]
      split
      · exact h
      · dsimp only
        split
        · exact h
        · split
          · exact ih h
          · exact ih ((WarmState.visit_frame view _ _).2.2.2.1 a h)

/-- Seeding queues the items of the globals. -/
theorem seedFields_frame (view : WarmView) (delta : UInt64) (globals : List GlobalVar)
    (s : WarmState) :
    let found := globals.flatMap fun g =>
      PtrScan.fieldItems view s.info.typeRegistry 8 (g.addr + delta) g.typeInfo.fields g.name 1
    let after := globals.foldl (fun s g =>
      WarmState.scanFields view (g.addr + delta) g.typeInfo g.name 1 s) s
    after.info = s.info ∧ after.scanner.visited = s.scanner.visited ∧
      after.scanner.maxDepth = s.scanner.maxDepth ∧ (∀ a, after.Projected a ↔ s.Projected a) ∧
      s.scanner.stats.queueCapHits ≤ after.scanner.stats.queueCapHits ∧
      (after.scanner.stats.queueCapHits = s.scanner.stats.queueCapHits →
        after.scanner.queue = s.scanner.queue ++
          found.filter fun c => c.addr ∉ s.scanner.visited) := by
  induction globals generalizing s with
  | nil => exact ⟨rfl, rfl, rfl, fun _ => Iff.rfl, Nat.le_refl _, fun _ => (List.append_nil _).symm⟩
  | cons g globals ih =>
      obtain ⟨hinfo, hvisited, hmax, hprojected, hhits, hqueue⟩ := WarmState.scanFields_frame view
        (g.addr + delta) g.typeInfo g.name 1 s
      obtain ⟨hinfo', hvisited', hmax', hprojected', hhits', hqueue'⟩ := ih
        (WarmState.scanFields view (g.addr + delta) g.typeInfo g.name 1 s)
      rw [hinfo, hvisited] at hqueue'
      refine ⟨hinfo'.trans hinfo, hvisited'.trans hvisited, hmax'.trans hmax,
        fun a => (hprojected' a).trans (hprojected a), hhits.trans hhits', fun hsame => ?_⟩
      have hfirst := Nat.le_antisymm (hhits'.trans hsame.le) hhits
      rw [List.foldl_cons, hqueue' (hsame.trans hfirst.symm), hqueue hfirst, List.flatMap_cons,
        List.filter_append, List.append_assoc]

/-- After seeding, the search is at its start. -/
theorem searching_seed (delta : UInt64) (s : WarmState) :
    Searching host view (WarmState.prepare host s.info) s.scanner.visited
      (s.scanner.queue ++ globalItems view (WarmState.prepare host s.info) delta)
      s.scanner.maxDepth s.scanner.stats.queueCapHits (WarmState.seed host view delta s) := by
  obtain ⟨hinfo, hvisited, hmax, -, hhits, hqueue⟩ := seedFields_frame view delta
    (WarmState.prepare host s.info).globals { s with info := WarmState.prepare host s.info }
  refine ⟨hhits, fun hsame => ?_⟩
  let queue := s.scanner.queue ++ (globalItems view (WarmState.prepare host s.info) delta).filter
    fun c => c.addr ∉ s.scanner.visited
  refine ⟨⟨queue.map fun n => (0, n), []⟩, inv_start (fun n hn => ?_) (fun n hn => ?_), ?_,
    hvisited, ?_, hmax, fun x hx => by cases hx⟩
  · exact (List.mem_append.mp hn).elim (List.mem_append_left _)
      fun hn => List.mem_append_right _ (List.mem_of_mem_filter hn)
  · by_cases hold : n.addr ∈ s.scanner.visited
    · exact .inr hold
    · left
      exact (List.mem_append.mp hn).elim (List.mem_append_left _)
        fun hn => List.mem_append_right _ (List.mem_filter.mpr ⟨hn, decide_eq_true hold⟩)
  · have hseeded : (WarmState.seed host view delta s).scanner.queue = queue := hqueue hsame
    rw [hseeded]
    exact List.forall₂_map_left_iff.mpr (List.forall₂_same.mpr fun c _ => ⟨rfl, rfl, rfl, .refl⟩)
  · have hseeded : (WarmState.seed host view delta s).info = WarmState.prepare host s.info := hinfo
    rw [hseeded]
    exact .refl

theorem projected_seed (delta : UInt64) {a : UInt64} (h : s.Projected a) :
    (WarmState.seed host view delta s).Projected a :=
  ((seedFields_frame view delta (WarmState.prepare host s.info).globals
    { s with info := WarmState.prepare host s.info }).2.2.2.1 a).mpr h

end Loop

section Loop
variable {host : Host} {view : WarmView} {s : WarmState}

/-- No block is allocated or freed by a pass. -/
theorem heapAllocs_stepLoop (budget reads rounds : ℕ) :
    (WarmState.stepLoop host view budget reads rounds s).world.heapAllocs = s.world.heapAllocs := by
  induction rounds generalizing s with
  | zero => rfl
  | succ rounds ih =>
      rw [WarmState.stepLoop]
      split
      · rfl
      · dsimp only
        split
        · rfl
        · split
          · exact ih
          · exact ih.trans (WarmState.heapAllocs_visit view _ _)

theorem heapAllocs_seed (delta : UInt64) :
    (WarmState.seed host view delta s).world.heapAllocs = s.world.heapAllocs := by
  have hfields (globals : List GlobalVar) (t : WarmState) : (globals.foldl (fun t g =>
      WarmState.scanFields view (g.addr + delta) g.typeInfo g.name 1 t) t).world.heapAllocs =
        t.world.heapAllocs := by
    induction globals generalizing t with
    | nil => rfl
    | cons g globals ih => exact ih _
  exact hfields _ _

end Loop

namespace WarmPass
variable {p : WarmPass} {r : WarmEngine} {info : DwarfInfo} {delta : UInt64}

/-- After a pass that empties its queue, without a full queue or a read error, every
live block that the globals reach along `max_depth` pointers has a projection. -/
def Covers (p : WarmPass) (r : WarmEngine) : Prop :=
  (p.run r).scanner.queue = [] →
  (p.run r).scanner.stats.queueCapHits = r.scanner.stats.queueCapHits →
  (p.run r).scanner.stats.readErrors = r.scanner.stats.readErrors →
  ∀ info delta, r.engine.dwarfInfo = some info → r.engine.relocationDelta = some delta →
  ∀ k a ti, Reached p.host p.mem (WarmState.prepare p.host info) delta k a ti →
    k ≤ r.scanner.maxDepth → ((p.run r).engine.world.heapAllocs.allocSize a).isSome →
    ((p.run r).engine.world.stm.lookup a).isSome

/-- The items that a pass starts with: those an earlier pass left and those of the globals. -/
def firstItems (p : WarmPass) (r : WarmEngine) (info : DwarfInfo) (delta : UInt64) :
    List WarmItem :=
  r.scanner.queue ++ globalItems (p.view r) info delta

/-- The pass visits the address for the first time and stamps it, whichever of the items
that may be queued for an address comes first. -/
def Finds (p : WarmPass) (r : WarmEngine) (info : DwarfInfo) (delta a : UInt64) : Prop :=
  let space := warmSpace p.host (p.view r) info r.scanner.maxDepth
  ∃ n, Certain space (· ∈ r.scanner.visited) (p.firstItems r info delta) n a ∧
    ∀ m ≤ n, ∀ item, Met space (· ∈ r.scanner.visited) (p.firstItems r info delta) m item →
      item.addr = a → item.depth ≤ r.scanner.maxDepth → Sized p.host info item

/-- Every live block that the globals reach has a projection before the pass or is found. -/
def Settles (p : WarmPass) (r : WarmEngine) : Prop :=
  ∀ info delta, r.engine.dwarfInfo = some info → r.engine.relocationDelta = some delta →
  ∀ k a ti, Reached p.host p.mem (WarmState.prepare p.host info) delta k a ti →
    k ≤ r.scanner.maxDepth → (r.engine.world.heapAllocs.allocSize a).isSome →
    (r.engine.world.stm.lookup a).isSome ∨ p.Finds r (WarmState.prepare p.host info) delta a

theorem run_eq (hinfo : r.engine.dwarfInfo = some info)
    (hdelta : r.engine.relocationDelta = some delta) :
    (p.run r).scanner = (p.stepped r info delta).scanner ∧
      (p.run r).engine.world = (p.stepped r info delta).world := by
  rw [run, hinfo, hdelta]
  exact ⟨rfl, rfl⟩

theorem heapAllocs_stepped :
    (p.stepped r info delta).world.heapAllocs = r.engine.world.heapAllocs := by
  have hsteps (steps : List (ℕ × ℕ)) (s : WarmState) : (steps.foldl (fun s b =>
      WarmState.step p.host (p.view r) b.1 b.2 s) s).world.heapAllocs = s.world.heapAllocs := by
    induction steps generalizing s with
    | nil => rfl
    | cons b steps ih => exact (ih _).trans (heapAllocs_stepLoop _ _ _)
  exact (hsteps p.steps _).trans (heapAllocs_seed delta)

theorem projected_stepped {a : UInt64} (h : (r.engine.world.stm.lookup a).isSome) :
    (p.stepped r info delta).Projected a := by
  have hsteps (steps : List (ℕ × ℕ)) (s : WarmState) (hs : s.Projected a) : (steps.foldl
      (fun s b => WarmState.step p.host (p.view r) b.1 b.2 s) s).Projected a := by
    induction steps generalizing s with
    | nil => exact hs
    | cons b steps ih => exact ih _ (projected_stepLoop _ _ _ hs)
  exact hsteps p.steps _ (projected_seed delta h)

theorem searching_stepped : Searching p.host (p.view r) (WarmState.prepare p.host info)
    r.scanner.visited (p.firstItems r (WarmState.prepare p.host info) delta) r.scanner.maxDepth
    r.scanner.stats.queueCapHits (p.stepped r info delta) := by
  have hsteps (steps : List (ℕ × ℕ)) (s : WarmState)
      (hs : Searching p.host (p.view r) (WarmState.prepare p.host info) r.scanner.visited
        (p.firstItems r (WarmState.prepare p.host info) delta) r.scanner.maxDepth
        r.scanner.stats.queueCapHits s) :
      Searching p.host (p.view r) (WarmState.prepare p.host info) r.scanner.visited
        (p.firstItems r (WarmState.prepare p.host info) delta) r.scanner.maxDepth
        r.scanner.stats.queueCapHits (steps.foldl
          (fun s b => WarmState.step p.host (p.view r) b.1 b.2 s) s) := by
    induction steps generalizing s with
    | nil => exact hs
    | cons b steps ih => exact ih _ (searching_stepLoop _ _ _ hs)
  exact hsteps p.steps _ (searching_seed delta
    ⟨r.scanner, info, r.engine.world, r.engine.topo, r.cold⟩)

/-- A pass that empties its queue stamps what it is certain to find. -/
theorem projected_of_finds (hqueue : (p.stepped r info delta).scanner.queue = [])
    (hhits : (p.stepped r info delta).scanner.stats.queueCapHits = r.scanner.stats.queueCapHits)
    {a : UInt64} (ha : a ≠ 0) (hfinds : p.Finds r (WarmState.prepare p.host info) delta a) :
    (p.stepped r info delta).Projected a := by
  obtain ⟨⟨queue, done⟩, hsr⟩ := searching_stepped.2 hhits
  have hempty := hsr.queue
  rw [hqueue] at hempty
  obtain rfl : queue = [] := List.forall₂_nil_right_iff.mp hempty
  obtain ⟨n, hcertain, hsized⟩ := hfinds
  obtain ⟨x, hx, rfl, hle⟩ := hsr.inv.found hcertain
  exact hsr.projected x hx ha (hsized x.1 hle x.2 (hsr.inv.met x (.inr hx)) rfl
    (Nat.le_of_not_lt (hsr.inv.uncut x hx)))

theorem reached_ne_zero {host : Host} {mem : ShadowTypeMap.Memory} {k : ℕ} {a : UInt64}
    {ti : TypeInfo} (h : Reached host mem info delta k a ti) : a ≠ 0 := by
  cases h with
  | global _ _ hhop =>
      obtain ⟨_, _, _, _, hne, -⟩ := hhop
      exact hne
  | next _ _ hhop =>
      obtain ⟨_, _, _, _, hne, -⟩ := hhop
      exact hne

theorem covers_of_settles (h : p.Settles r) : p.Covers r := by
  intro hqueue hhits _ info delta hinfo hdelta k a ti hreached hk hlive
  obtain ⟨hscanner, hworld⟩ := run_eq (p := p) hinfo hdelta
  rw [hscanner] at hqueue hhits
  rw [hworld, heapAllocs_stepped] at hlive
  rw [hworld]
  rcases h info delta hinfo hdelta k a ti hreached hk hlive with hbefore | hfinds
  · exact projected_stepped hbefore
  · exact projected_of_finds hqueue hhits (reached_ne_zero hreached) hfinds

end WarmPass

/-- In every run of events and passes, the passes that settle what they reach cover it. -/
theorem passes_cover (start : WarmEngine) (inputs : List WarmInput)
    (h : ∀ front p, front ++ [.pass p] <+: inputs → p.Settles (runWarm start front)) :
    ∀ front p, front ++ [.pass p] <+: inputs → p.Covers (runWarm start front) :=
  fun front p hfront => WarmPass.covers_of_settles (h front p hfront)

theorem PointerField.isLink {fields : List FieldInfo} {offset : UInt64} {f : FieldInfo}
    (h : PointerField fields offset f) : f.name ≠ "<pointee>" ∧ PtrScan.isLink f := by
  induction h with
  | top _ hname hlink => exact ⟨hname, hlink⟩
  | embedded _ _ _ _ ih => exact ih

/-- A pointer field of the object itself leads to its pointee at the depth of the scan. -/
theorem mem_fieldItems (view : WarmView) {registry : Registry} {fields : List FieldInfo}
    {base a : UInt64} {f : FieldInfo} {ti : TypeInfo} (source : String) (depth : ℕ)
    (hf : f ∈ fields) (hname : f.name ≠ "<pointee>") (hlink : PtrScan.isLink f)
    (hmem : view.mem (base + f.byteOffset) = some a) (ha : a ≠ 0)
    (hti : registry (PtrScan.pointeeName f) = some ti) (hsize : ti.byteSize ≠ 0) :
    ⟨a, ti, source ++ "." ++ f.name, depth⟩ ∈
      PtrScan.fieldItems view registry 8 base fields source depth := by
  have hpointee : PtrScan.pointee registry f = some ti := by
    have hpos : ti.byteSize > 0 := UInt64.pos_iff_ne_zero.mpr hsize
    rw [PtrScan.pointee, hti]
    exact Option.filter_eq_some_iff.mpr ⟨rfl, decide_eq_true hpos⟩
  rw [PtrScan.fieldItems]
  refine List.mem_flatMap.mpr ⟨f, hf, ?_⟩
  rw [if_neg hname, if_pos hlink, PtrScan.pointerItems, hmem]
  dsimp only
  rw [if_neg ha, PtrScan.followItems, hpointee]
  exact List.mem_append_right _ List.mem_cons_self

namespace WarmPass

section Flat

/-- What a pass may meet, by the number of addresses before the item. -/
def Meets (p : WarmPass) (r : WarmEngine) (info : DwarfInfo) (delta : UInt64) (m : ℕ)
    (item : WarmItem) : Prop :=
  Met (warmSpace p.host (p.view r) info r.scanner.maxDepth) (· ∈ r.scanner.visited)
    (p.firstItems r info delta) m item

variable {p : WarmPass} {r : WarmEngine} {info : DwarfInfo} {delta : UInt64}

/-- Flat data: the types are complete, an address is met with one type and at a depth
that counts the pointers to it, and no pointer lies in an embedded struct. -/
structure Flat (p : WarmPass) (r : WarmEngine) (info : DwarfInfo) (delta : UInt64) : Prop where
  complete : ∀ info', Materialized p.host info info' → info' = info
  stable : ∀ m n, p.Meets r info delta m n →
    (WarmState.materialize p.host info n.typeInfo).2 = n.typeInfo
  sized : ∀ m n, p.Meets r info delta m n → n.typeInfo.byteSize ≠ 0
  oneType : ∀ m n m' n', p.Meets r info delta m n → p.Meets r info delta m' n' →
    n.addr = n'.addr → n.typeInfo = n'.typeInfo
  counted : ∀ m n, p.Meets r info delta m n → n.depth = m + 1
  top : ∀ m n, p.Meets r info delta m n → ∀ offset f, PointerField n.typeInfo.fields offset f →
    f ∈ n.typeInfo.fields ∧ offset = f.byteOffset
  topGlobals : ∀ g ∈ info.globals, ∀ offset f, PointerField g.typeInfo.fields offset f →
    f ∈ g.typeInfo.fields ∧ offset = f.byteOffset

theorem Flat.deepened (h : Flat p r info delta) {m : ℕ} {n : WarmItem}
    (hn : p.Meets r info delta m n) {t : TypeInfo} (ht : Deepened p.host info n.typeInfo t) :
    t = n.typeInfo := by
  induction ht with
  | refl => rfl
  | tail _ hstep ih =>
      obtain ⟨info', hinfo', rfl⟩ := hstep
      rw [ih, h.complete info' hinfo']
      exact h.stable m n hn

/-- Every item of the address leads on where one does. -/
theorem Flat.leads (h : Flat p r info delta) {m m' : ℕ} {n n' : WarmItem}
    (hn : p.Meets r info delta m n) (hn' : p.Meets r info delta m' n') (haddr : n'.addr = n.addr)
    {f : FieldInfo} {a : UInt64} {ti : TypeInfo} (hfield : PointerField n.typeInfo.fields
      f.byteOffset f) (hf : f ∈ n.typeInfo.fields) (hmem : p.mem (n.addr + f.byteOffset) = some a)
    (ha : a ≠ 0) (hti : info.typeRegistry (PtrScan.pointeeName f) = some ti)
    (hsize : ti.byteSize ≠ 0) {ns : List WarmItem}
    (hns : (warmSpace p.host (p.view r) info r.scanner.maxDepth).next n' ns) :
    ⟨a, ti, n'.source ++ "." ++ f.name, n'.depth + 1⟩ ∈ ns := by
  obtain ⟨t, info', ht, hinfo', rfl⟩ := hns
  obtain rfl := h.complete info' hinfo'
  obtain rfl := h.deepened hn' ht
  have hinfo : (WarmState.materialize p.host info' n'.typeInfo).1 = info' :=
    h.complete _ (materialized_materialize .refl _)
  rw [h.stable m' n' hn', hinfo, haddr, h.oneType m' n' m n hn' hn haddr]
  exact mem_fieldItems (p.view r) _ _ hf hfield.isLink.1 hfield.isLink.2 hmem ha hti hsize

/-- Over flat data a fresh scanner is certain to find what the globals reach. -/
theorem Flat.certain (h : Flat p r info delta) (hfresh : r.scanner.visited = []) {k : ℕ}
    {a : UInt64} {ti : TypeInfo} (hreached : Reached p.host p.mem info delta k a ti)
    (hk : k ≤ r.scanner.maxDepth) :
    ∃ m n, k = m + 1 ∧ n.addr = a ∧ n.typeInfo = ti ∧ p.Meets r info delta m n ∧
      Certain (warmSpace p.host (p.view r) info r.scanner.maxDepth) (· ∈ r.scanner.visited)
        (p.firstItems r info delta) m a := by
  have hnew (x : UInt64) : x ∉ r.scanner.visited := by
    rw [hfresh]
    exact List.not_mem_nil
  induction hreached with
  | @global g info' a ti hg hinfo hhop =>
      obtain ⟨offset, f, hfield, hmem, hne, hti, hsize⟩ := hhop
      obtain ⟨hf, rfl⟩ := h.topGlobals g hg offset f hfield
      obtain rfl := h.complete info' hinfo
      have hitem := mem_fieldItems (p.view r) g.name 1 hf hfield.isLink.1 hfield.isLink.2
        hmem hne hti hsize
      have hfirst : (⟨a, ti, g.name ++ "." ++ f.name, 1⟩ : WarmItem) ∈
          p.firstItems r info' delta :=
        List.mem_append_right _ (List.mem_flatMap.mpr ⟨g, hg, hitem⟩)
      exact ⟨0, ⟨a, ti, g.name ++ "." ++ f.name, 1⟩, rfl, rfl, rfl, .start hfirst,
        .start hfirst (Nat.not_lt.mpr hk) (hnew a)⟩
  | @next k info' b a t ti _ hinfo hhop ih =>
      obtain ⟨m, n, rfl, rfl, rfl, hmet, hcertain⟩ := ih (Nat.le_of_succ_le hk)
      obtain rfl := h.complete info' hinfo
      rw [h.stable m n hmet] at hhop
      obtain ⟨offset, f, hfield, hmem, hne, hti, hsize⟩ := hhop
      obtain ⟨hf, rfl⟩ := h.top m n hmet offset f hfield
      have hdepth := h.counted m n hmet
      have huncut : ¬ n.depth > r.scanner.maxDepth := by omega
      have hnext : (warmSpace p.host (p.view r) info' r.scanner.maxDepth).next n _ :=
        ⟨n.typeInfo, info', .refl, .refl, rfl⟩
      refine ⟨m + 1, ⟨a, ti, n.source ++ "." ++ f.name, n.depth + 1⟩, rfl, rfl, rfl,
        .next hmet huncut (hnew _) hnext (h.leads hmet hmet rfl hfield hf hmem hne hti hsize hnext),
        .next hcertain (hnew a) ?_⟩
      intro m' hm' n' hmet' haddr _ ns hns
      refine ⟨_, h.leads hmet hmet' haddr hfield hf hmem hne hti hsize hns, rfl, ?_⟩
      have hdepth' := h.counted m' n' hmet'
      change ¬ n'.depth + 1 > r.scanner.maxDepth
      omega

/-- Over flat data the first pass covers what the globals reach. -/
theorem covers_of_flat (hfresh : r.scanner.visited = [])
    (h : ∀ info delta, r.engine.dwarfInfo = some info → r.engine.relocationDelta = some delta →
      Flat p r (WarmState.prepare p.host info) delta) : p.Covers r := by
  refine covers_of_settles fun info delta hinfo hdelta k a ti hreached hk _ => ?_
  have hflat := h info delta hinfo hdelta
  obtain ⟨m, n, -, -, -, -, hcertain⟩ := hflat.certain hfresh hreached hk
  refine .inr ⟨m, hcertain, fun m' _ item hmet _ _ t info' ht hinfo' => ?_⟩
  obtain rfl := hflat.complete info' hinfo'
  obtain rfl := hflat.deepened hmet ht
  rw [hflat.stable m' item hmet]
  exact hflat.sized m' item hmet

end Flat

end WarmPass

section Reallocated

def listNode : TypeInfo where
  name := "node"
  byteSize := 16
  fields := [{
    name := "next"
    byteOffset := 8
    byteSize := 8
    typeInfo := { name := "*node", byteSize := 8, isPointer := true } }]

def configType : TypeInfo where
  name := "config"
  byteSize := 16
  fields := [{
    name := "head"
    byteOffset := 0
    byteSize := 8
    typeInfo := { name := "*node", byteSize := 8, isPointer := true } }]

/-- A relocated program with a global `cfg` that holds the head of a list. -/
def listInfo : DwarfInfo where
  globals := [⟨"cfg", 0x4000, 16, configType⟩]
  typeRegistry n := if n = "node" then some listNode else none

def listProgram : WarmEngine where
  engine := { dwarfInfo := some listInfo, relocationDelta := some 0 }
  scanner := { maxDepth := 12 }

/-- The head is the node at 0x20000, every other word is null. -/
def oneNode : ShadowTypeMap.Memory := fun a => some (if a = 0x4000 then 0x20000 else 0)

def oneNodePass : WarmPass where
  host := .plain
  mem := oneNode
  containerOf _ := []
  steps := [(2000, 10)]

theorem reached_oneNode {host : Host} {info : DwarfInfo} {delta : UInt64} {k : ℕ} {a : UInt64}
    {ti : TypeInfo} (h : Reached host oneNode info delta k a ti) : a = 0x20000 := by
  have hhop {registry : Registry} {base a : UInt64} {fields : List FieldInfo} {ti : TypeInfo}
      (h : Hop oneNode registry base fields a ti) : a = 0x20000 := by
    obtain ⟨offset, f, -, hmem, hne, -⟩ := h
    rw [oneNode] at hmem
    obtain rfl := Option.some.inj hmem
    by_cases hhead : base + offset = 0x4000
    · rw [if_pos hhead]
    · rw [if_neg hhead] at hne
      exact absurd rfl hne
  cases h with
  | global _ _ h => exact hhop h
  | next _ _ h => exact hhop h

def allocNode : WarmInput := .input (.event .plain (plainEvent EVENT_ALLOC 0x20000 0x20))
def freeNode : WarmInput := .input (.event .plain (plainEvent EVENT_FREE 0x20000 0))

/-- The block is allocated, found by a pass, freed and allocated again. -/
def reallocated : List WarmInput := [allocNode, .pass oneNodePass, freeNode, allocNode]

theorem reached_node (delta : UInt64) (hdelta : delta = 0) :
    Reached .plain oneNode (WarmState.prepare .plain listInfo) delta 1 0x20000
      listNode := by
  subst hdelta
  refine .global (g := ⟨"cfg", 0x4000, 16, configType⟩) List.mem_cons_self .refl ?_
  exact ⟨0, _, .top List.mem_cons_self (by decide) (by decide), rfl, by decide, rfl, by decide⟩

/-- The second pass leaves the block without a projection: its address was visited. -/
theorem reallocated_block_not_covered :
    ¬ (∀ front p, front ++ [.pass p] <+: reallocated ++ [.pass oneNodePass] →
      p.Covers (runWarm listProgram front)) := by
  intro hall
  have hcovers := hall reallocated oneNodePass (List.prefix_refl _)
  have hend : (oneNodePass.run (runWarm listProgram reallocated)).scanner.queue.length = 0 ∧
      (oneNodePass.run (runWarm listProgram reallocated)).scanner.stats.queueCapHits =
        (runWarm listProgram reallocated).scanner.stats.queueCapHits ∧
      (oneNodePass.run (runWarm listProgram reallocated)).scanner.stats.readErrors =
        (runWarm listProgram reallocated).scanner.stats.readErrors ∧
      ((oneNodePass.run (runWarm listProgram reallocated)).engine.world.heapAllocs.allocSize
        0x20000).isSome = true ∧
      ((oneNodePass.run (runWarm listProgram reallocated)).engine.world.stm.lookup
        0x20000).isSome = false := by
    decide +kernel
  obtain ⟨hqueue, hhits, herrors, hlive, hmissing⟩ := hend
  have hprojected := hcovers (List.length_eq_zero_iff.mp hqueue) hhits herrors listInfo 0 rfl rfl 1
    0x20000 listNode (reached_node 0 rfl) (by decide) hlive
  rw [hmissing] at hprojected
  cases hprojected

theorem oneNode_found : oneNodePass.Finds (runWarm listProgram [allocNode])
    (WarmState.prepare .plain listInfo) 0 0x20000 := by
  have hfirst : ∃ n ∈ oneNodePass.firstItems (runWarm listProgram [allocNode])
      (WarmState.prepare .plain listInfo) 0, n.addr = 0x20000 ∧ ¬ n.depth > 12 := by
    decide +kernel
  have hdeep : ∀ n ∈ oneNodePass.firstItems (runWarm listProgram [allocNode])
      (WarmState.prepare .plain listInfo) 0,
      (n.typeInfo.shallow || n.typeInfo.fields.isEmpty) = false ∧ n.typeInfo.byteSize ≠ 0 := by
    decide +kernel
  obtain ⟨n, hn, haddr, hdepth⟩ := hfirst
  refine ⟨0, haddr ▸ .start hn hdepth List.not_mem_nil, fun m hm item hmet _ _ => ?_⟩
  cases hmet with
  | start hitem =>
      obtain ⟨hfields, hsize⟩ := hdeep item hitem
      exact sized_of_deep hfields hsize
  | next => exact absurd hm (Nat.not_succ_le_zero _)

/-- Without the free, both passes settle the block. -/
theorem kept_block_settled : ∀ front p,
    front ++ [.pass p] <+: [allocNode, .pass oneNodePass, .pass oneNodePass] →
      p.Settles (runWarm listProgram front) := by
  intro front p hfront
  have hsettles (r : WarmEngine) (hinfo : r.engine.dwarfInfo = some listInfo)
      (hdelta : r.engine.relocationDelta = some 0)
      (h : (r.engine.world.stm.lookup 0x20000).isSome ∨
        oneNodePass.Finds r (WarmState.prepare .plain listInfo) 0 0x20000) :
      oneNodePass.Settles r := by
    intro info delta hinfo' hdelta' k a ti hreached _ _
    obtain rfl := Option.some.inj (hinfo.symm.trans hinfo')
    obtain rfl := Option.some.inj (hdelta.symm.trans hdelta')
    obtain rfl := reached_oneNode hreached
    exact h
  rcases front with _ | ⟨i, _ | ⟨j, _ | ⟨k, front⟩⟩⟩
  · simp [allocNode] at hfront
  · simp only [List.cons_append, List.nil_append, List.cons_prefix_cons, WarmInput.pass.injEq]
      at hfront
    obtain ⟨rfl, rfl, -⟩ := hfront
    exact hsettles _ rfl rfl (.inr oneNode_found)
  · simp only [List.cons_append, List.nil_append, List.cons_prefix_cons, WarmInput.pass.injEq]
      at hfront
    obtain ⟨rfl, rfl, rfl, -⟩ := hfront
    exact hsettles _ rfl rfl (.inl (by decide +kernel))
  · simp at hfront

theorem kept_block_covered :
    oneNodePass.Covers (runWarm listProgram [allocNode, .pass oneNodePass]) :=
  passes_cover listProgram [allocNode, .pass oneNodePass, .pass oneNodePass] kept_block_settled
    [allocNode, .pass oneNodePass] oneNodePass (List.prefix_refl _)

end Reallocated

end Rtmap.Engine
