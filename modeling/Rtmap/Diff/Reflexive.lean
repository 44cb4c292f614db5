import Rtmap.Diff.Checkpoint
import Rtmap.Engine.Freshness
import Rtmap.Engine.FrameTies
import Rtmap.Engine.SettledTypes

/-!
# A recording compared with itself

The two replays of one file share the type registry, and have each their own hash maps. The
second one agrees with the first where the first looks up no type that it finds later, and
no lookup in the address index is up to the iteration order.
-/
namespace Rtmap.Diff
open Rtmap.Engine
open Rtmap.Ring (Event EVENT_ALLOC EVENT_WRITE EVENT_REG_SNAPSHOT)

/-- The slots of one event. -/
def SameSlot (x y : Slot) : Prop := x.1.SameButIteration y.1 ∧ y.2 = x.2

/-- Two replays of one file: they iterate over their hash maps in orders of their own. -/
structure SameFile (a b : Recording) : Prop where
  host : a.host.SameButIteration b.host
  orders : b.orders.sortByLo = a.orders.sortByLo
  slots : List.Forall₂ SameSlot a.slots b.slots

/-- The resolver is a function of the type's name, and patches depend on what they look up. -/
structure Recording.Resolves (a : Recording) (D : String → Option TypeInfo) : Prop where
  deep : ∀ x ∈ a.slots, ∀ r n, x.1.deep r n = D n
  patch : ∀ x ∈ a.slots, PatchReads x.1.patch

def Recording.allPieces (a : Recording) : List Piece :=
  (Streams.cut READ_BATCH a.slots).flatMap (pieces false 0)

/-- The replay after the first pieces. -/
def Recording.after (a : Recording) (info : Option DwarfInfo) (interval : ℕ) (front : List Piece) :
    Checkpoints TopologyCheckpoint :=
  front.foldl (Checkpoints.step takeCheckpoint interval a.orders)
    (Checkpoints.start interval a.host info)

/-- The first replay, before each event, has found the types that the event looks up, as far
as it finds them at all; and it finds the same intervals in every iteration order. -/
structure Repeatable (a : Recording) (info : Option DwarfInfo) (interval : ℕ) : Prop where
  types : ∀ front host ev, front ++ [.event host ev] <+: a.allPieces →
    (a.after info interval a.allPieces).engine.types.Gives
      (eventAnswers host ev (a.after info interval front).engine)
  frames : ∀ front host ev, front ++ [.event host ev] <+: a.allPieces →
    ∀ q ∈ indexLookups host.orders ev (a.after info interval front).engine.addrIndex,
      q.1.Decided q.2

section Pieces

/-- Pieces of the same slots. -/
inductive SamePiece : Piece → Piece → Prop
  | event {host host' : Host} (ev : Event) :
      host.SameButIteration host' → SamePiece (.event host ev) (.event host' ev)
  | snapshot (header : Event) (cont : List Event) :
      SamePiece (.snapshot header cont) (.snapshot header cont)

theorem samePieces {xs ys : List Slot} (h : List.Forall₂ SameSlot xs ys) :
    ∀ skip, List.Forall₂ SamePiece (pieces false skip xs) (pieces false skip ys) := by
  have hevents {xs ys : List Slot} (h : List.Forall₂ SameSlot xs ys) :
      ys.map Prod.snd = xs.map Prod.snd := by
    induction h with
    | nil => rfl
    | cons hhead _ ih => rw [List.map_cons, List.map_cons, hhead.2, ih]
  induction h with
  | nil =>
      intro skip
      cases skip <;> exact List.Forall₂.nil
  | @cons x y xs ys hxy htail ih =>
      intro skip
      cases skip with
      | succ skip => exact ih skip
      | zero =>
          obtain ⟨host, ev⟩ := x
          obtain ⟨host', ev'⟩ := y
          obtain ⟨hsame, hev⟩ := hxy
          dsimp only at hsame hev
          subst hev
          simp only [pieces, Bool.false_and, Bool.false_eq_true, if_false, List.map_take, hevents htail]
          by_cases hsnapshot : ev'.kind = EVENT_REG_SNAPSHOT
          · rw [if_pos hsnapshot, if_pos hsnapshot]
            exact List.Forall₂.cons (.snapshot ..) (ih _)
          · rw [if_neg hsnapshot, if_neg hsnapshot]
            exact List.Forall₂.cons (.event _ hsame) (ih _)

theorem samePieces_of_sameFile {a b : Recording} (h : List.Forall₂ SameSlot a.slots b.slots) :
    List.Forall₂ SamePiece a.allPieces b.allPieces := by
  have hmax : 0 < READ_BATCH := by decide
  have hcut (n : ℕ) : ∀ xs ys : List Slot, xs.length ≤ n → List.Forall₂ SameSlot xs ys →
      List.Forall₂ (List.Forall₂ SameSlot) (Streams.cut READ_BATCH xs) (Streams.cut READ_BATCH ys) := by
    induction n with
    | zero =>
        intro xs ys hlength hxs
        obtain rfl := List.length_eq_zero_iff.mp (Nat.le_zero.mp hlength)
        cases hxs
        rw [Streams.cut_nil]
        exact List.Forall₂.nil
    | succ n ih =>
        intro xs ys hlength hxs
        cases hxs with
        | nil =>
            rw [Streams.cut_nil]
            exact List.Forall₂.nil
        | @cons x y xs ys hhead htail =>
            have hall : List.Forall₂ SameSlot (x :: xs) (y :: ys) := List.Forall₂.cons hhead htail
            rw [Streams.cut_of_ne hmax (List.cons_ne_nil _ _),
              Streams.cut_of_ne hmax (List.cons_ne_nil _ _)]
            apply List.Forall₂.cons (List.forall₂_take _ hall)
            apply ih _ _ _ (List.forall₂_drop _ hall)
            rw [List.length_cons] at hlength
            rw [List.length_drop, List.length_cons]
            omega
  exact List.rel_flatMap (hcut _ _ _ le_rfl h) fun _ _ hslots => samePieces hslots 0

end Pieces

section Runs
variable {C : Type*} {take : ℕ → World → HeapGraph → C} {interval : ℕ} {orders orders' : IndexOrders}
  {D : String → Option TypeInfo} {r : Registry}

/-- The replay with another registry. -/
def withTypes (r : Registry) (c : Checkpoints C) : Checkpoints C :=
  { c with engine := c.engine.withTypes r }

theorem finalize_withTypes (h : orders'.sortByLo = orders.sortByLo) (c : Checkpoints C) :
    (withTypes r c).finalize orders' = withTypes r (c.finalize orders) := by
  unfold Checkpoints.finalize
  rw [show (withTypes r c).needFinalize = c.needFinalize from rfl,
    show (withTypes r c).engine.addrIndex = c.engine.addrIndex from rfl,
    finalize_of_sameButIteration h]
  split <;> rfl

theorem step_withTypes (horders : orders'.sortByLo = orders.sortByLo) {host host' : Host} {ev : Event}
    (hsame : host.SameButIteration host') (hdeep : ∀ r n, host.deep r n = D n)
    (hpatch : PatchReads host.patch) (c : Checkpoints C)
    (hgrows : (processEvent host ev c.engine).types.Grows D r)
    (hgives : r.Gives (eventAnswers host ev c.engine))
    (hdecided : ∀ q ∈ indexLookups host.orders ev c.engine.addrIndex, q.1.Decided q.2) :
    Checkpoints.step take interval orders' (withTypes r c) (.event host' ev) =
      withTypes r (Checkpoints.step take interval orders c (.event host ev)) := by
  have hevent : processEvent host' ev (c.engine.withTypes r) =
      (processEvent host ev c.engine).withTypes r := by
    rw [← processEvent_withTypes hdeep hpatch hgrows hgives]
    exact processEvent_of_decided hsame hdecided
  unfold Checkpoints.step
  dsimp only
  rw [show (withTypes r c).engine = c.engine.withTypes r from rfl, hevent]
  let q : Checkpoints C := { c with
    engine := processEvent host ev c.engine
    seq := c.seq + 1
    needFinalize := c.needFinalize || ev.kind == Rtmap.Ring.EVENT_CALL }
  show (if c.nextCheckpoint ≤ c.seq + 1 then
      { Checkpoints.takeCheckpoint take ((withTypes r q).finalize orders') with
        nextCheckpoint := ((withTypes r q).finalize orders').nextCheckpoint + interval }
    else withTypes r q) = withTypes r (if c.nextCheckpoint ≤ c.seq + 1 then
      { Checkpoints.takeCheckpoint take (q.finalize orders) with
        nextCheckpoint := (q.finalize orders).nextCheckpoint + interval }
    else q)
  rw [finalize_withTypes horders]
  split <;> rfl

theorem types_finalize (c : Checkpoints C) : (c.finalize orders).engine.dwarfInfo = c.engine.dwarfInfo := by
  unfold Checkpoints.finalize
  split <;> rfl

/-- The DWARF data after a piece are those after its event. -/
theorem dwarfInfo_step (c : Checkpoints C) (p : Piece) :
    (Checkpoints.step take interval orders c p).engine.dwarfInfo =
      match p with
      | .event host ev => (processEvent host ev c.engine).dwarfInfo
      | .snapshot _ _ => c.engine.dwarfInfo := by
  unfold Checkpoints.step
  cases p with
  | snapshot header cont =>
      dsimp only
      cases (applyRegSnapshot (header :: cont)).2 <;> rfl
  | event host ev =>
      dsimp only
      split
      · exact types_finalize _
      · rfl

/-- The hosts of the events among pieces. -/
def Hosts (p : Host → Prop) (ps : List Piece) : Prop := ∀ host ev, Piece.event host ev ∈ ps → p host

theorem grows_run (ps : List Piece) : ∀ c : Checkpoints C,
    Hosts (fun host => ∀ r n, host.deep r n = D n) ps →
      c.engine.types.Grows D (ps.foldl (Checkpoints.step take interval orders) c).engine.types := by
  induction ps with
  | nil => exact fun c _ => Registry.Grows.refl _
  | cons p ps ih =>
      intro c hdeep
      have hrest := ih (Checkpoints.step take interval orders c p)
        fun host ev h => hdeep host ev (List.mem_cons_of_mem _ h)
      have hstep : (Checkpoints.step take interval orders c p).engine.dwarfInfo = _ :=
        dwarfInfo_step c p
      rw [List.foldl_cons]
      refine Registry.Grows.trans ?_ hrest
      cases p with
      | snapshot header cont => rw [types_of_dwarfInfo hstep]
      | event host ev =>
          rw [types_of_dwarfInfo hstep]
          exact grows_processEvent (hdeep host ev List.mem_cons_self)

/-- A run on the pieces of the same slots, with the registry that the first run ends with. -/
theorem run_withTypes (horders : orders'.sortByLo = orders.sortByLo) {ps ps' : List Piece}
    (hpieces : List.Forall₂ SamePiece ps ps') : ∀ c : Checkpoints C,
      Hosts (fun host => ∀ r n, host.deep r n = D n) ps →
      Hosts (fun host => PatchReads host.patch) ps →
      (ps.foldl (Checkpoints.step take interval orders) c).engine.types.Grows D r →
      (∀ front host ev, front ++ [.event host ev] <+: ps →
        r.Gives (eventAnswers host ev
          (front.foldl (Checkpoints.step take interval orders) c).engine)) →
      (∀ front host ev, front ++ [.event host ev] <+: ps →
        ∀ q ∈ indexLookups host.orders ev
          (front.foldl (Checkpoints.step take interval orders) c).engine.addrIndex, q.1.Decided q.2) →
      ps'.foldl (Checkpoints.step take interval orders') (withTypes r c) =
        withTypes r (ps.foldl (Checkpoints.step take interval orders) c) := by
  induction hpieces with
  | nil => exact fun _ _ _ _ _ _ => rfl
  | @cons p p' ps ps' hpiece _ ih =>
      intro c hdeep hpatch hgrows htypes hframes
      have hstep : Checkpoints.step take interval orders' (withTypes r c) p' =
          withTypes r (Checkpoints.step take interval orders c p) := by
        cases hpiece with
        | snapshot header cont =>
            unfold Checkpoints.step
            dsimp only
            cases (applyRegSnapshot (header :: cont)).2 <;> rfl
        | @event host host' ev hsame =>
            have hhead : [] ++ [Piece.event host ev] <+: Piece.event host ev :: ps :=
              List.prefix_append [_] ps
            refine step_withTypes horders hsame (hdeep host ev List.mem_cons_self)
              (hpatch host ev List.mem_cons_self) c ?_ (htypes [] host ev hhead)
              (hframes [] host ev hhead)
            have hafter : (Checkpoints.step take interval orders c (.event host ev)).engine.types.Grows D
                (ps.foldl (Checkpoints.step take interval orders)
                  (Checkpoints.step take interval orders c (.event host ev))).engine.types :=
              grows_run ps _ fun host ev h => hdeep host ev (List.mem_cons_of_mem _ h)
            rw [types_of_dwarfInfo (dwarfInfo_step c _)] at hafter
            exact hafter.trans hgrows
      rw [List.foldl_cons, List.foldl_cons, hstep]
      apply ih
      · exact fun host ev h => hdeep host ev (List.mem_cons_of_mem _ h)
      · exact fun host ev h => hpatch host ev (List.mem_cons_of_mem _ h)
      · exact hgrows
      · intro front host ev hfront
        exact htypes (p :: front) host ev (List.cons_prefix_cons.mpr ⟨rfl, hfront⟩)
      · intro front host ev hfront
        exact hframes (p :: front) host ev (List.cons_prefix_cons.mpr ⟨rfl, hfront⟩)

end Runs

section Replays
variable {a b : Recording} {info : Option DwarfInfo} {interval : ℕ}

theorem baseline_eq (a : Recording) (info : Option DwarfInfo) (interval : ℕ) :
    baseline a info interval = Checkpoints.takeCheckpoint takeCheckpoint
      ((a.after info interval a.allPieces).finalize a.orders) :=
  Checkpoints.replay_eq ..

/-- A replay changes the registry of the DWARF data only. -/
theorem dwarfInfo_baseline (a : Recording) (info : Option DwarfInfo) (interval : ℕ) :
    (baseline a info interval).engine.dwarfInfo =
      info.map (DwarfInfo.withTypes (a.after info interval a.allPieces).engine.types) := by
  have hstart : (Checkpoints.start interval a.host info :
      Checkpoints TopologyCheckpoint).engine.dwarfInfo = info := by
    cases info <;> rfl
  have hstatic (ps : List Piece) : ∀ c : Checkpoints TopologyCheckpoint,
      (ps.foldl (Checkpoints.step takeCheckpoint interval a.orders) c).engine.dwarfInfo.map
        DwarfInfo.static = c.engine.dwarfInfo.map DwarfInfo.static := by
    induction ps with
    | nil => exact fun _ => rfl
    | cons p ps ih =>
        intro c
        rw [List.foldl_cons, ih, dwarfInfo_step]
        cases p with
        | snapshot header cont => rfl
        | event host ev => exact static_processEvent
  have hend := dwarfInfo_of_static (hstatic a.allPieces (Checkpoints.start interval a.host info))
  rw [dwarfInfo_withTypes, hstart] at hend
  rw [baseline_eq]
  exact (types_finalize _).trans hend

/-- The second replay starts as the first one, with the registry that this ends with. -/
theorem start_withTypes (h : a.host.SameButIteration b.host) (r : Registry) :
    (Checkpoints.start interval b.host (info.map (DwarfInfo.withTypes r)) :
        Checkpoints TopologyCheckpoint) =
      withTypes r (Checkpoints.start interval a.host info) := by
  cases info with
  | none => rfl
  | some info =>
      have hglobals : populateGlobals b.host (info.withTypes r) 0 {} {} =
          populateGlobals a.host info 0 {} {} := by
        unfold populateGlobals
        dsimp only
        rw [finalize_of_sameButIteration h.sortByLo]
        rfl
      unfold Checkpoints.start Replay.start
      dsimp only [Option.map_some]
      rw [hglobals]
      rfl

theorem hosts_allPieces {p : Host → Prop} (h : ∀ x ∈ a.slots, p x.1) : Hosts p a.allPieces := by
  have hpieces (xs : List Slot) : ∀ skip, (∀ x ∈ xs, p x.1) → Hosts p (pieces false skip xs) := by
    induction xs with
    | nil =>
        intro skip _ host ev hmem
        cases skip <;> cases hmem
    | cons x xs ih =>
        intro skip hxs
        have htail : ∀ y ∈ xs, p y.1 := fun y hy => hxs y (List.mem_cons_of_mem _ hy)
        cases skip with
        | succ skip => exact ih skip htail
        | zero =>
            intro host ev hmem
            simp only [pieces, Bool.false_and, Bool.false_eq_true, if_false] at hmem
            by_cases hsnapshot : x.2.kind = EVENT_REG_SNAPSHOT
            · rw [if_pos hsnapshot] at hmem
              rcases List.mem_cons.mp hmem with heq | hmem
              · cases heq
              · exact ih _ htail host ev hmem
            · rw [if_neg hsnapshot] at hmem
              rcases List.mem_cons.mp hmem with heq | hmem
              · cases heq
                exact hxs x List.mem_cons_self
              · exact ih _ htail host ev hmem
  intro host ev hmem
  obtain ⟨batch, hbatch, hpiece⟩ := List.mem_flatMap.mp hmem
  refine hpieces batch 0 (fun x hx => h x ?_) host ev hpiece
  rw [← Streams.flatten_cut (by decide : 0 < READ_BATCH) (l := a.slots)]
  exact List.mem_flatten.mpr ⟨batch, hbatch, hx⟩

/-- The second replay is the first one, but for the registry. -/
theorem subject_withTypes {D : String → Option TypeInfo} (hfile : SameFile a b) (hresolves : a.Resolves D)
    (hrepeat : Repeatable a info interval) : subject a b info interval =
      withTypes (a.after info interval a.allPieces).engine.types (baseline a info interval) := by
  have hrun : b.allPieces.foldl (Checkpoints.step takeCheckpoint interval b.orders)
      (withTypes (a.after info interval a.allPieces).engine.types
        (Checkpoints.start interval a.host info)) = _ :=
    run_withTypes hfile.orders (samePieces_of_sameFile hfile.slots)
      (Checkpoints.start interval a.host info) (hosts_allPieces hresolves.deep)
      (hosts_allPieces hresolves.patch) (Registry.Grows.refl _) hrepeat.types hrepeat.frames
  unfold subject
  rw [dwarfInfo_baseline, baseline_eq]
  have hreplay : replayToCheckpoints b (info.map (DwarfInfo.withTypes
      (a.after info interval a.allPieces).engine.types)) interval =
        Checkpoints.takeCheckpoint takeCheckpoint (Checkpoints.finalize b.orders
          (b.allPieces.foldl (Checkpoints.step takeCheckpoint interval b.orders)
            (Checkpoints.start interval b.host (info.map (DwarfInfo.withTypes
              (a.after info interval a.allPieces).engine.types))))) := Checkpoints.replay_eq ..
  rw [hreplay, start_withTypes hfile.host]
  exact (congrArg (fun c => Checkpoints.takeCheckpoint takeCheckpoint (Checkpoints.finalize b.orders c))
    hrun).trans (congrArg (Checkpoints.takeCheckpoint takeCheckpoint)
      (finalize_withTypes hfile.orders _))

/-- A first replay that finds no type, of a program without frames, is repeatable. -/
theorem repeatable_of_nothing_found {D : String → Option TypeInfo} (hresolves : a.Resolves D)
    (hfound : ∀ n, (D n).isSome →
      (a.after info interval a.allPieces).engine.types n = (a.after info interval []).engine.types n)
    (hframes : ∀ front, front <+: a.allPieces →
      (a.after info interval front).engine.addrIndex.dynamics = []) :
    Repeatable a info interval := by
  have hdeep : Hosts (fun host => ∀ r n, host.deep r n = D n) a.allPieces :=
    hosts_allPieces hresolves.deep
  constructor
  · intro front host ev hfront
    obtain ⟨back, hback⟩ := hfront
    have hmem : Piece.event host ev ∈ a.allPieces := by
      rw [← hback]
      simp
    have hgrows (xs ys : List Piece) (h : xs ++ ys = a.allPieces) :
        (a.after info interval xs).engine.types.Grows D
          (a.after info interval (xs ++ ys)).engine.types := by
      unfold Recording.after
      rw [List.foldl_append]
      refine grows_run ys _ fun host ev hev => hdeep host ev ?_
      rw [← h]
      exact List.mem_append_right _ hev
    have hend : (a.after info interval a.allPieces).engine.types =
        (a.after info interval []).engine.types := by
      funext n
      rcases hgrows [] a.allPieces rfl n with hsame | ⟨-, hsome, -⟩
      · exact hsame
      · exact hfound n hsome
    have hstays (xs ys : List Piece) (h : xs ++ ys = a.allPieces) :
        (a.after info interval xs).engine.types = (a.after info interval []).engine.types := by
      have hlater := hgrows xs ys h
      rw [h, hend] at hlater
      refine Registry.Grows.antisymm (D := D) ?_ hlater
      unfold Recording.after
      refine grows_run xs _ fun host ev hev => hdeep host ev ?_
      rw [← h]
      exact List.mem_append_left _ hev
    have hbefore := hstays front (.event host ev :: back) (by rw [← hback, List.append_assoc]; rfl)
    have hafter := hstays (front ++ [.event host ev]) back hback
    rw [hend, ← hbefore]
    apply gives_eventAnswers (hdeep host ev hmem)
    rw [hbefore, ← hafter]
    unfold Recording.after
    rw [List.foldl_append]
    have hlast : (Checkpoints.step takeCheckpoint interval a.orders
        (front.foldl (Checkpoints.step takeCheckpoint interval a.orders)
          (Checkpoints.start interval a.host info)) (.event host ev)).engine.dwarfInfo = _ :=
      dwarfInfo_step _ (.event host ev)
    exact (types_of_dwarfInfo hlast).symm
  · intro front host ev hfront q hq
    have hnone := hframes front ((List.prefix_append _ _).trans hfront)
    unfold indexLookups at hq
    split at hq
    · rcases List.mem_cons.mp hq with rfl | hq
      · exact AddressIndex.decided_of_no_frames hnone _
      · split at hq
        · split at hq
          · cases List.mem_singleton.mp hq
            apply AddressIndex.decided_of_no_frames
            rw [AddressIndex.lookup_dynamics]
            exact hnone
          · cases hq
        · cases hq
    · cases List.mem_singleton.mp hq
      exact AddressIndex.decided_of_no_frames hnone _
    · cases hq

/-- A recording that the first replay leaves repeatable is reported identical to itself at
every checkpoint. -/
theorem identical_of_repeatable {D : String → Option TypeInfo} (hfile : SameFile a b)
    (hresolves : a.Resolves D) (hrepeat : Repeatable a info interval) :
    (verdict a b info interval).allIdentical := by
  have hsubject := subject_withTypes hfile hresolves hrepeat
  have hsame : (subject a b info interval).checkpoints = (baseline a info interval).checkpoints := by
    rw [hsubject]
    rfl
  have hlast : (baseline a info interval).checkpoints.getLast? = _ :=
    getLast?_checkpoints a info interval
  unfold verdict
  rw [hsame, allIdentical_iff hlast hlast]
  intro i x y hx hy
  have hxy : x = y := Option.some.inj (hx.symm.trans hy)
  subst hxy
  refine ⟨?_, rfl⟩
  rw [symmDiff_self]
  exact Finset.empty_subset _

end Replays

section Shared

def pointerTo (name : String) : TypeInfo where
  name := "*" ++ name
  byteSize := 8
  isPointer := true

/-- A structure that starts with a pointer. -/
def linking (name field target : String) : TypeInfo where
  name := name
  byteSize := 16
  fields := [{ name := field, byteOffset := 0, byteSize := 8, typeInfo := pointerTo target }]

/-- The resolver finds `edge` in the ELF file. -/
def edgeOnDemand (n : String) : Option TypeInfo :=
  if n = "edge" then some {
    name := "edge"
    byteSize := 24
    fields := [{
      name := "weight"
      byteOffset := 0
      byteSize := 8
      typeInfo := { name := "long", byteSize := 8 } }] }
  else none

/-- Two pointer variables, `head` at 0x4000 and `link` at 0x4008. The registry has `node` and
what a node points to, and not what that points to. -/
def nodesOnly : DwarfInfo where
  globals := [{ name := "head", addr := 0x4000, size := 8, typeInfo := pointerTo "node" },
    { name := "link", addr := 0x4008, size := 8, typeInfo := pointerTo "edge" }]
  typeRegistry := fun n =>
    if n = "node" then some (linking "node" "next" "mid")
    else if n = "mid" then some (linking "mid" "out" "edge")
    else none

def onDemand (events : List Event) : Recording where
  host := .plain
  orders := Host.plain.orders
  slots := events.map fun ev => ({ Host.plain with deep := fun _ n => edgeOnDemand n }, ev)

/-- Three blocks; the first one is a node, which makes the second one a `mid`. -/
def twoTyped : List Event :=
  [numbered 1 10 (plainEvent EVENT_ALLOC 0x10000 0x40),
    numbered 1 11 (plainEvent EVENT_ALLOC 0x20000 0x40),
    numbered 1 12 (plainEvent EVENT_ALLOC 0x30000 0x40),
    numbered 1 13 (plainEvent EVENT_WRITE 0x10000 0x20000),
    numbered 1 14 (plainEvent EVENT_WRITE 0x4000 0x10000)]

/-- A tagged pointer goes to the second block, and the third one is stored in `link`. -/
def taggedLink : List Event :=
  twoTyped ++ [numbered 1 15 (plainEvent EVENT_WRITE 0x20000 0x30001),
    numbered 1 16 (plainEvent EVENT_WRITE 0x4008 0x30000)]

theorem SameFile.refl (a : Recording) : SameFile a a := by
  refine ⟨⟨rfl, rfl⟩, rfl, List.forall₂_same.mpr fun x _ => ⟨⟨rfl, rfl⟩, rfl⟩⟩

theorem onDemand_resolves (events : List Event) : (onDemand events).Resolves edgeOnDemand := by
  constructor
  · intro x hx
    obtain ⟨ev, -, rfl⟩ := List.mem_map.mp hx
    exact fun _ _ => rfl
  · intro x hx
    obtain ⟨ev, -, rfl⟩ := List.mem_map.mp hx
    exact fun _ _ _ _ => rfl

/-- Up to there `edge` is not asked for. -/
theorem twoTyped_identical :
    (verdict (onDemand twoTyped) (onDemand twoTyped) (some nodesOnly) 1).allIdentical := by
  apply identical_of_repeatable (SameFile.refl _) (onDemand_resolves _)
  apply repeatable_of_nothing_found (onDemand_resolves _)
  · intro n hn
    have hedge : n = "edge" := by
      by_contra hne
      rw [edgeOnDemand, if_neg hne] at hn
      cases hn
    subst hedge
    have hend : (((onDemand twoTyped).after (some nodesOnly) 1
      (onDemand twoTyped).allPieces).engine.types "edge").isNone = true := by decide +kernel
    rw [Option.isNone_iff_eq_none.mp hend]
    rfl
  · intro front hfront
    have hall : ∀ i < 6, ((onDemand twoTyped).after (some nodesOnly) 1
        ((onDemand twoTyped).allPieces.take i)).engine.addrIndex.dynamics.isEmpty = true := by
      decide +kernel
    have hlength : (onDemand twoTyped).allPieces.length = 5 := by decide +kernel
    have hle := hfront.length_le
    rw [List.prefix_iff_eq_take.mp hfront]
    exact List.isEmpty_iff.mp (hall front.length (by omega))

/-- The second replay knows `edge` from the start and stamps what the tagged pointer points
to; the first one has looked `edge` up too early. -/
theorem taggedLink_diverges : ¬ ∀ (D : String → Option TypeInfo) (a b : Recording)
    (info : Option DwarfInfo) (interval : ℕ), 1 ≤ interval → SameFile a b → a.Resolves D →
      (verdict a b info interval).allIdentical := by
  intro hall
  have hidentical := hall edgeOnDemand (onDemand taggedLink) (onDemand taggedLink) (some nodesOnly) 100
    (by decide) (SameFile.refl _) (onDemand_resolves _)
  revert hidentical
  decide +kernel

end Shared

end Rtmap.Diff
