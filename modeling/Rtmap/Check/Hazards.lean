import Rtmap.Check.Blocks
import Rtmap.Engine.Bounds
import Rtmap.Engine.Replay

/-!
# Hazards from the events to the gate

A WRITE offends when the live blocks show it to leave its block or to fall between blocks.
The engine keeps the first 64 addresses that are offended, prints a line for each, and the
checker reads these lines back.
-/
namespace Rtmap

namespace SortedMap
variable {K V : Type*} [LinearOrder K] {m : SortedMap K V} {e : K × V}

theorem le_of_head? (h : m.entries.head? = some e) : ∀ a ∈ m.entries, e.1 ≤ a.1 := by
  obtain ⟨tail, htail⟩ := List.head?_eq_some_iff.mp h
  have hsorted := m.sorted
  rw [htail, List.pairwise_cons] at hsorted
  intro a ha
  rw [htail] at ha
  rcases List.mem_cons.mp ha with rfl | ha
  · exact le_rfl
  · exact (hsorted.1 a ha).le

theorem le_getLast? (h : m.entries.getLast? = some e) : ∀ a ∈ m.entries, a.1 ≤ e.1 := by
  obtain ⟨front, hfront⟩ := List.getLast?_eq_some_iff.mp h
  have hsorted := m.sorted
  rw [hfront, List.pairwise_append] at hsorted
  intro a ha
  rw [hfront] at ha
  rcases List.mem_append.mp ha with ha | ha
  · exact (hsorted.2.2 a ha e (List.mem_singleton_self e)).le
  · rw [List.mem_singleton.mp ha]

/-- Two entries of a key are one. -/
theorem eq_of_mem_entries {k : K} {v w : V} (hv : (k, v) ∈ m.entries) (hw : (k, w) ∈ m.entries) :
    v = w :=
  Option.some.inj ((get?_eq_some.mpr hv).symm.trans (get?_eq_some.mpr hw))

end SortedMap

namespace Engine
open Rtmap.Ring

/-- The write starts between the blocks: none is around its start, one starts below it,
and the last one ends above it. -/
structure InHole (live : UInt64 → Option UInt64) (addr : UInt64) (size : UInt32) : Prop where
  fits : addr.toNat + size.toNat < 2 ^ 64
  outside : ∀ base s, live base = some s → base ≤ addr →
    (∀ base', (live base').isSome → base' ≤ addr → base' ≤ base) → saturatingAdd base s ≤ addr
  above : ∃ base, (live base).isSome ∧ base ≤ addr
  below : ∃ base s, live base = some s ∧ (∀ base', (live base').isSome → base' ≤ base) ∧
    addr < base + s

section Verdict
variable (t : HeapAllocTracker) (addr : UInt64) (size : UInt32)

theorem allocSize_eq_some {base s : UInt64} : t.allocSize base = some s ↔
    ∃ a, (base, a) ∈ t.allocs.entries ∧ a.size = s := by
  rw [HeapAllocTracker.allocSize, Option.map_eq_some_iff]
  exact exists_congr fun a => and_congr_left fun _ => SortedMap.get?_eq_some

theorem isSome_allocSize {base : UInt64} : (t.allocSize base).isSome ↔
    ∃ a, (base, a) ∈ t.allocs.entries := by
  rw [HeapAllocTracker.allocSize, Option.isSome_map, Option.isSome_iff_exists]
  exact exists_congr fun a => SortedMap.get?_eq_some

/-- The first and the last block of the tracker. -/
theorem spans_iff : t.spans addr = true ↔ (∃ base, (t.allocSize base).isSome ∧ base ≤ addr) ∧
    ∃ base s, t.allocSize base = some s ∧ (∀ base', (t.allocSize base').isSome → base' ≤ base) ∧
      addr < base + s := by
  simp only [isSome_allocSize, allocSize_eq_some]
  rw [HeapAllocTracker.spans]
  cases hhead : t.allocs.entries.head? with
  | none =>
      have hnil : t.allocs.entries = [] := List.head?_eq_none_iff.mp hhead
      simp [hnil]
  | some first =>
      obtain ⟨last, hlast⟩ : ∃ last, t.allocs.entries.getLast? = some last := by
        rw [← Option.isSome_iff_exists, List.getLast?_isSome]
        exact List.ne_nil_of_mem (List.mem_of_head? hhead)
      have hleast := SortedMap.le_of_head? hhead
      have hgreatest := SortedMap.le_getLast? hlast
      have hmem : last ∈ t.allocs.entries := List.mem_of_getLast? hlast
      rw [hlast]
      simp only [ge_iff_le, Bool.and_eq_true, decide_eq_true_eq]
      constructor
      · rintro ⟨habove, hbelow⟩
        exact ⟨⟨first.1, ⟨first.2, List.mem_of_head? hhead⟩, habove⟩, last.1, last.2.size,
          ⟨last.2, hmem, rfl⟩, fun base' ⟨a, ha⟩ => hgreatest _ ha, hbelow⟩
      · rintro ⟨⟨base, ⟨a, ha⟩, habove⟩, base', s, ⟨b, hb, rfl⟩, hmax, hbelow⟩
        have hsame : base' = last.1 := le_antisymm (hgreatest _ hb) (hmax _ ⟨last.2, hmem⟩)
        subst hsame
        obtain rfl := SortedMap.eq_of_mem_entries hb hmem
        exact ⟨(hleast _ ha).trans habove, hbelow⟩

/-- The bounds check finds something when the write overruns or lies in a hole. -/
theorem isSome_checkWriteBounds (stm : ShadowTypeMap) :
    (t.checkWriteBounds addr size stm).isSome = true ↔
      Overruns t.allocSize addr size ∨ InHole t.allocSize addr size := by
  have hfits : (∃ e, checkedAdd addr size.toUInt64 = some e) ↔
      addr.toNat + size.toNat < 2 ^ 64 := by
    rw [checkedAdd, UInt32.toNat_toUInt64]
    split <;> simp_all
  have houtside : t.containingAlloc addr = none ↔ ∀ base s, t.allocSize base = some s →
      base ≤ addr → (∀ base', (t.allocSize base').isSome → base' ≤ addr → base' ≤ base) →
        saturatingAdd base s ≤ addr := by
    rw [Option.eq_none_iff_forall_not_mem]
    constructor
    · intro h base s hs hle hmax
      by_contra hlt
      exact h (base, s) (containingAlloc_eq_some.mpr ⟨hs, hle, hmax, not_le.mp hlt⟩)
    · rintro h ⟨base, s⟩ hfound
      obtain ⟨hs, hle, hmax, hlt⟩ := containingAlloc_eq_some.mp hfound
      exact absurd (h base s hs hle hmax) (not_le.mpr hlt)
  have hhole : InHole t.allocSize addr size ↔ (∃ e, checkedAdd addr size.toUInt64 = some e) ∧
      t.containingAlloc addr = none ∧ t.spans addr = true := by
    rw [hfits, houtside, spans_iff]
    exact ⟨fun h => ⟨h.fits, h.outside, h.above, h.below⟩,
      fun h => ⟨h.1, h.2.1, h.2.2.1, h.2.2.2⟩⟩
  rw [overruns_iff, hhole, HeapAllocTracker.checkWriteBounds]
  cases checkedAdd addr size.toUInt64 with
  | none => simp
  | some writeEnd =>
      cases t.containingAlloc addr with
      | none => by_cases hspan : t.spans addr = true <;> simp [hspan]
      | some block =>
          obtain ⟨base, s⟩ := block
          by_cases hcut : writeEnd > saturatingAdd base s <;> simp [hcut]

end Verdict

/-- The check of a WRITE that the events before it make fail. -/
def Offends (front : List HostEvent) (e : HostEvent) (oracle : HeapOracle) : Prop :=
  kindOf e.2 = .write ∧ oracle.isHeap e.2.addr = true ∧
    (Overruns (liveAfter front) e.2.addr e.2.size ∨
      InHole (liveAfter front) e.2.addr e.2.size ∧
        Write.HEAP_HOLE_GRACE ≤ sinceAlloc (front.map Prod.snd) + 1)

/-- The check fails in this state. -/
def Write.Fails (ev : Event) (s : State) : Prop :=
  Overruns s.world.heapAllocs.allocSize ev.addr ev.size ∨
    InHole s.world.heapAllocs.allocSize ev.addr ev.size ∧ Write.graceOver s

/-- A failing check is recorded: there is room, and its address is new. -/
def Write.Records (ev : Event) (s : State) : Prop :=
  s.world.hazards.length < 64 ∧ ev.addr ∉ s.world.hazards.map HeapHazard.writeAddr ∧
    Write.Fails ev s

section Step
variable {host : Host} {ev : Event} {s t : State}

/-- From `s` to `t` the hazards are recorded and printed. -/
structure Reported (ev : Event) (s t : State) (hs : List HeapHazard) : Prop where
  hazards : t.world.hazards = s.world.hazards ++ hs
  lines : t.linesOf Line.isHazard =
    (s.linesOf Line.isHazard).map (· ++ hs.map (Write.hazardLine ev))

theorem reported_nil (hhazards : t.world.hazards = s.world.hazards)
    (hlines : t.linesOf Line.isHazard = s.linesOf Line.isHazard) : Reported ev s t [] where
  hazards := hhazards.trans (List.append_nil _).symm
  lines := by
    rw [hlines]
    simp

/-- The bounds check of a write. -/
theorem reported_bounds (ev : Event) (s : State) : ∃ hs, Reported ev s (Write.bounds ev s) hs ∧
    (Write.Records ev s ∧ hs.map HeapHazard.writeAddr = [ev.addr] ∨
      ¬ Write.Records ev s ∧ hs = []) := by
  have hsome := isSome_checkWriteBounds s.world.heapAllocs ev.addr ev.size s.world.stm
  have hspec := checkWriteBounds_spec s.world.heapAllocs ev.addr ev.size s.world.stm
  have hskip (h : ¬ Write.Records ev s) (heq : Write.bounds ev s = s) :
      ∃ hs, Reported ev s (Write.bounds ev s) hs ∧
        (Write.Records ev s ∧ hs.map HeapHazard.writeAddr = [ev.addr] ∨
          ¬ Write.Records ev s ∧ hs = []) := by
    rw [heq]
    exact ⟨[], reported_nil rfl rfl, .inr ⟨h, rfl⟩⟩
  by_cases hroom : s.world.hazards.length < 64
  · cases hcheck : s.world.heapAllocs.checkWriteBounds ev.addr ev.size s.world.stm with
    | none =>
        rw [hcheck] at hsome
        apply hskip
        · rintro ⟨-, -, hfails⟩
          exact absurd (hsome.mpr (hfails.imp_right And.left)) Bool.false_ne_true
        · rw [Write.bounds, if_pos hroom, hcheck]
    | some hz =>
        rw [hcheck] at hsome hspec
        obtain ⟨haddr, hkind⟩ := hspec
        have hfails : Write.Fails ev s ↔ Write.inGrace s.world hz = false := by
          rw [Write.inGrace, Bool.and_eq_false_iff, beq_eq_false_iff_ne, ne_eq,
            decide_eq_false_iff_not, not_lt, Write.Fails]
          have hhole : ¬ hz.kind = .heapHole ↔ hz.kind = .outOfBounds := by
            cases hz.kind <;> simp
          rw [hhole, hkind]
          constructor
          · exact fun h => h.imp_right And.right
          · rintro (hover | hgrace)
            · exact .inl hover
            · exact (hsome.mp rfl).imp_right fun hhole => ⟨hhole, hgrace⟩
        have hany : (s.world.hazards.any fun prev => prev.writeAddr == hz.writeAddr) = true ↔
            ev.addr ∈ s.world.hazards.map HeapHazard.writeAddr := by
          simp [haddr]
        by_cases hquiet : (Write.inGrace s.world hz ||
            s.world.hazards.any fun prev => prev.writeAddr == hz.writeAddr) = true
        · apply hskip
          · rintro ⟨-, hnew, hf⟩
            rw [hfails.mp hf, Bool.false_or, hany] at hquiet
            exact hnew hquiet
          · rw [Write.bounds, if_pos hroom, hcheck]
            exact if_pos hquiet
        · have hrecords : Write.Records ev s := by
            rw [Bool.or_eq_true, not_or, Bool.not_eq_true, hany] at hquiet
            exact ⟨hroom, hquiet.2, hfails.mpr hquiet.1⟩
          let found : HeapHazard := { hz with
            pc := ev.ripLo.toUInt64
            regSnapshot := (s.shadowRegs ev.threadId).map ShadowRegisterFile.values }
          have hbounds : Write.bounds ev s = ({ s with
              world := { s.world with hazards := s.world.hazards ++ [found] } } : State).emit
                (Write.hazardLine ev found) := by
            rw [Write.bounds, if_pos hroom, hcheck]
            exact if_neg hquiet
          rw [hbounds]
          exact ⟨[found], ⟨rfl, linesOf_emit rfl⟩,
            .inl ⟨hrecords, congrArg (fun a => [a]) haddr⟩⟩
  · apply hskip
    · exact fun h => hroom h.1
    · rw [Write.bounds, if_neg hroom]

theorem hazardLines_processAlloc :
    (processAlloc host ev s).linesOf Line.isHazard = s.linesOf Line.isHazard := by
  have hnode (l : Line) (h : l.ofNode = true) (_ : l.number = seqOf ev) : l.isHazard = false :=
    Line.isHazard_of_ofNode h
  have hrenew (old : Option UInt64) (t : State) :
      (Alloc.renew ev old t).linesOf Line.isHazard = t.linesOf Line.isHazard := by
    rw [Alloc.renew.eq_def]
    split
    · exact linesOf_closeEpoch _ _ _ hnode
    · rfl
  rw [processAlloc, linesOf_stampBirth hnode, Alloc.track]
  split
  · rfl
  · rw [linesOf_emit_of_not rfl, hrenew]
    rfl

theorem hazardLines_processFree :
    (processFree ev s).linesOf Line.isHazard = s.linesOf Line.isHazard := by
  have hnode (l : Line) (h : l.ofNode = true) (_ : l.number = seqOf ev) : l.isHazard = false :=
    Line.isHazard_of_ofNode h
  rw [processFree]
  split
  · rw [linesOf_emit_of_not rfl]
    exact linesOf_closeEpoch _ _ _ hnode
  · split
    · exact linesOf_closeEpoch _ _ _ hnode
    · rfl

theorem hazardLines_of_not_write (hkind : kindOf ev ≠ .write) :
    (processEvent host ev s).linesOf Line.isHazard = s.linesOf Line.isHazard := by
  rw [processEvent, processKind]
  cases hk : kindOf ev with
  | write => exact absurd hk hkind
  | alloc => exact hazardLines_processAlloc
  | free => exact hazardLines_processFree
  | call =>
      simp only [processCall]
      split <;> rfl
  | ret =>
      have hretire (fid : FrameId) (t : State) :
          (retireFrame fid t).linesOf Line.isHazard = t.linesOf Line.isHazard := by
        rw [retireFrame]
        split
        · split <;> rfl
        · rfl
      simp only [processReturn]
      split
      · rfl
      · split
        · rfl
        · exact hretire ..
  | moduleLoad =>
      simp only [processModuleLoad]
      split <;> rfl
  | _ => rfl

/-- An event's step: a WRITE to the heap whose check fails is recorded and printed. -/
theorem reported_processEvent (host : Host) (ev : Event) (s : State) :
    ∃ hs, Reported ev s (processEvent host ev s) hs ∧
      (kindOf ev = .write ∧ s.heapOracle.isHeap ev.addr = true ∧ Write.Records ev (countEvent s) ∧
          hs.map HeapHazard.writeAddr = [ev.addr] ∨
        ¬ (kindOf ev = .write ∧ s.heapOracle.isHeap ev.addr = true ∧
          Write.Records ev (countEvent s)) ∧ hs = []) := by
  have hnode (l : Line) (h : l.ofNode = true) (_ : l.number = seqOf ev) : l.isHazard = false :=
    Line.isHazard_of_ofNode h
  have hheap (l : Line) (h : l.ofHeap = true) (_ : l.number = seqOf ev) : l.isHazard = false :=
    Line.isHazard_of_ofHeap h
  obtain ⟨t, -, -, hhazards⟩ := hazards_processEvent host ev s
  by_cases hwrite : kindOf ev = .write
  · by_cases hisHeap : s.heapOracle.isHeap ev.addr = true
    · -- the check is made behind the earlier stages, which leave what it reads
      set u := Write.beforeBounds host ev (countEvent s) with hu
      have hlines : u.linesOf Line.isHazard = s.linesOf Line.isHazard := by
        rw [hu, Write.beforeBounds, Write.linesOf_propagate hheap, Write.linesOf_fields hheap]
        exact (Write.linesOf_cohere _).trans Write.linesOf_observe
      have huhazards : u.world.hazards = s.world.hazards :=
        Write.hazards_beforeBounds host ev (countEvent s)
      have huallocs : u.world.heapAllocs = s.world.heapAllocs :=
        congrArg Kept.heapAllocs (Write.fixed_beforeBounds host ev (countEvent s))
      have hrecords : Write.Records ev u ↔ Write.Records ev (countEvent s) := by
        rw [Write.Records, Write.Records, Write.Fails, Write.Fails, huhazards, huallocs,
          Write.graceOver_beforeBounds]
        rfl
      have hevent : processEvent host ev s = Write.node host ev (Write.bounds ev u) := by
        rw [processEvent, processKind, hwrite]
        dsimp only
        rw [processWrite_eq,
          if_pos (show (countEvent s).heapOracle.isHeap ev.addr = true from hisHeap)]
      obtain ⟨hs, hreported, hcases⟩ := reported_bounds ev u
      refine ⟨hs, ⟨?_, ?_⟩, ?_⟩
      · rw [hevent, Write.hazards_node, hreported.hazards, huhazards]
      · rw [hevent, Write.linesOf_node hnode, hreported.lines, hlines]
      · rw [hrecords] at hcases
        exact hcases.imp (fun h => ⟨hwrite, hisHeap, h⟩) fun h => ⟨fun hall => h.1 hall.2.2, h.2⟩
    · refine ⟨[], reported_nil ?_ ?_, .inr ⟨fun h => hisHeap h.2.1, rfl⟩⟩
      · rw [hhazards, if_neg fun h => hisHeap h.2]
      · rw [processEvent, processKind, hwrite]
        dsimp only
        rw [processWrite_eq,
          if_neg (show ¬ (countEvent s).heapOracle.isHeap ev.addr = true from hisHeap),
          Write.linesOf_node hnode]
        exact (Write.linesOf_cohere _).trans Write.linesOf_observe
  · refine ⟨[], reported_nil ?_ (hazardLines_of_not_write hwrite), .inr ⟨fun h => hwrite h.1, rfl⟩⟩
    rw [hhazards, if_neg fun h => hwrite h.1]

end Step

/-- A run that begins with its stream, without blocks or hazards. -/
structure Unharmed (s : State) : Prop extends Opens s where
  hazards : s.world.hazards = []
  young : s.world.lastAllocEventCount = s.world.totalEventCount

section Runs
variable {start : State}

open Classical in
/-- The addresses of the WRITEs that offend, in order, `front` being processed before. -/
noncomputable def offendedFrom (start : State) : List HostEvent → List HostEvent → List UInt64
  | _, [] => []
  | front, e :: rest =>
      (if Offends front e (runEvents start front).heapOracle then [e.2.addr] else []) ++
        offendedFrom start (front ++ [e]) rest

noncomputable def offended (start : State) : List HostEvent → List UInt64 := offendedFrom start []

open Classical in
theorem offendedFrom_snoc (start : State) (front events : List HostEvent) (e : HostEvent) :
    offendedFrom start front (events ++ [e]) = offendedFrom start front events ++
      if Offends (front ++ events) e (runEvents start (front ++ events)).heapOracle
      then [e.2.addr] else [] := by
  induction events generalizing front with
  | nil => simp [offendedFrom]
  | cons x xs ih => simp [offendedFrom, ih]

open Classical in
theorem offended_snoc (start : State) (front : List HostEvent) (e : HostEvent) :
    offended start (front ++ [e]) = offended start front ++
      if Offends front e (runEvents start front).heapOracle then [e.2.addr] else [] :=
  offendedFrom_snoc start [] front e

theorem offendedFrom_eq_nil_iff (start : State) (front events : List HostEvent) :
    offendedFrom start front events = [] ↔ ∀ mid e back, events = mid ++ e :: back →
      ¬ Offends (front ++ mid) e (runEvents start (front ++ mid)).heapOracle := by
  induction events generalizing front with
  | nil => simp [offendedFrom]
  | cons x xs ih =>
      rw [offendedFrom, List.append_eq_nil_iff, ih]
      constructor
      · rintro ⟨hfirst, hrest⟩ mid e back hsplit
        cases mid with
        | nil =>
            obtain ⟨rfl, rfl⟩ := List.cons.inj hsplit
            rw [List.append_nil]
            exact fun h => absurd (if_pos h ▸ hfirst) (List.cons_ne_nil _ _)
        | cons y ys =>
            obtain ⟨rfl, htail⟩ := List.cons.inj hsplit
            have hnot := hrest ys e back htail
            rwa [List.append_assoc, List.singleton_append] at hnot
      · intro h
        refine ⟨if_neg (by simpa using h [] x xs rfl), fun mid e back hsplit => ?_⟩
        have hnot := h (x :: mid) e back (by rw [hsplit, List.cons_append])
        rwa [List.append_assoc, List.singleton_append]

/-- One more element, of the first distinct ones. -/
theorem take_eraseDups_snoc (xs : List UInt64) (a : UInt64) (n : ℕ) :
    (xs ++ [a]).eraseDups.take n = xs.eraseDups.take n ++
      if (xs.eraseDups.take n).length < n ∧ a ∉ xs.eraseDups.take n then [a] else [] := by
  by_cases hfull : n ≤ xs.eraseDups.length
  · have hlength : (xs.eraseDups.take n).length = n := by
      rw [List.length_take]
      omega
    rw [if_neg fun h => absurd hlength h.1.ne, List.append_nil, List.eraseDups_append,
      List.take_append_of_le_length hfull]
  · have htake : xs.eraseDups.take n = xs.eraseDups := List.take_of_length_le (by omega)
    rw [htake, List.eraseDups_append, List.take_append, htake]
    congr 1
    by_cases ha : a ∈ xs
    · rw [if_neg fun h => h.2 (List.mem_eraseDups.mpr ha)]
      simp [List.removeAll, ha]
    · have hone : ([a].removeAll xs).eraseDups = [a] := by
        simp [List.removeAll, ha, List.eraseDups_cons]
      rw [if_pos ⟨by omega, fun h => ha (List.mem_eraseDups.mp h)⟩, hone]
      exact List.take_of_length_le (by rw [List.length_singleton]; omega)

theorem liveAfter_snoc (front : List HostEvent) (e : HostEvent) :
    liveAfter (front ++ [e]) = liveNext (liveAfter front) e := by
  rw [liveAfter, List.foldl_append]
  rfl

/-- What the check of an event reads is known from the events before it. -/
structure Known (front : List HostEvent) (s : State) : Prop where
  blocks : s.world.heapAllocs.allocSize = liveAfter front
  age : Replay.Aged (sinceAlloc (front.map Prod.snd)) s.world

theorem known_runEvents (hstart : Unharmed start) (events : List HostEvent) :
    Known events (runEvents start events) := by
  induction events using List.reverseRecOn with
  | nil =>
      refine ⟨?_, hstart.young.le, ?_⟩
      · show start.world.heapAllocs.allocSize = _
        rw [hstart.blocks]
        rfl
      · show start.world.totalEventCount - start.world.lastAllocEventCount = _
        rw [hstart.young, Nat.sub_self]
        rfl
  | append_singleton front e ih =>
      obtain ⟨htotal, -, hlast⟩ := counts_processEvent e.1 e.2
        (runEvents start front)
      have hle := ih.age.le
      have hage := ih.age.age
      rw [runEvents_snoc]
      refine ⟨?_, ?_, ?_⟩
      · rw [allocSize_processEvent, ih.blocks, liveAfter_snoc]
      · rw [htotal, hlast]
        split <;> omega
      · rw [htotal, hlast, List.map_append, List.map_singleton, sinceAlloc_append_singleton]
        split <;> omega

theorem Known.offends_iff {front : List HostEvent} {s : State} (h : Known front s) (e : HostEvent) :
    Offends front e s.heapOracle ↔ kindOf e.2 = .write ∧ s.heapOracle.isHeap e.2.addr = true ∧
      Write.Fails e.2 (countEvent s) := by
  have hgrace : Write.graceOver (countEvent s) ↔
      Write.HEAP_HOLE_GRACE ≤ sinceAlloc (front.map Prod.snd) + 1 := by
    have hle := h.age.le
    have hage := h.age.age
    show Write.HEAP_HOLE_GRACE ≤ s.world.totalEventCount + 1 - s.world.lastAllocEventCount ↔ _
    omega
  rw [Offends, Write.Fails, hgrace, ← h.blocks]
  rfl

/-- A run records the first 64 addresses that are offended and prints what it records. -/
theorem recorded_runEvents (hstart : Unharmed start) (events : List HostEvent) :
    (runEvents start events).world.hazards.map HeapHazard.writeAddr =
        (offended start events).eraseDups.take 64 ∧
      ∃ ls, (runEvents start events).linesOf Line.isHazard = some ls ∧
        List.Forall₂ (fun l h => ∃ ev, l = Write.hazardLine ev h) ls
          (runEvents start events).world.hazards := by
  induction events using List.reverseRecOn with
  | nil =>
      refine ⟨?_, [], ?_, ?_⟩
      · show start.world.hazards.map _ = _
        rw [hstart.hazards]
        rfl
      · show start.topo.map _ = _
        rw [hstart.stream]
        rfl
      · show List.Forall₂ _ _ start.world.hazards
        rw [hstart.hazards]
        exact .nil
  | append_singleton front e ih =>
      obtain ⟨haddrs, ls, hls, hlines⟩ := ih
      obtain ⟨hs, hreported, hcases⟩ := reported_processEvent e.1 e.2 (runEvents start front)
      have hoffends := (known_runEvents hstart front).offends_iff e
      rw [runEvents_snoc, hreported.hazards, hreported.lines, hls]
      have hprinted : List.Forall₂ (fun l h => ∃ ev, l = Write.hazardLine ev h)
          (hs.map (Write.hazardLine e.2)) hs :=
        List.forall₂_map_left_iff.mpr (List.forall₂_same.mpr fun h _ => ⟨e.2, rfl⟩)
      refine ⟨?_, _, rfl, List.rel_append hlines hprinted⟩
      rw [List.map_append, offended_snoc]
      have hroom : (runEvents start front).world.hazards.length < 64 ↔
          ((offended start front).eraseDups.take 64).length < 64 := by
        rw [← haddrs, List.length_map]
      have hrecords : Write.Records e.2 (countEvent (runEvents start front)) ↔
          (((offended start front).eraseDups.take 64).length < 64 ∧
            e.2.addr ∉ (offended start front).eraseDups.take 64) ∧
          Write.Fails e.2 (countEvent (runEvents start front)) := by
        rw [← hroom, ← haddrs, and_assoc]
        rfl
      rw [hrecords] at hcases
      rw [haddrs]
      rcases hcases with ⟨hwrite, hheap, ⟨hnew, hfails⟩, haddr⟩ | ⟨hnot, rfl⟩
      · rw [if_pos (hoffends.mpr ⟨hwrite, hheap, hfails⟩), take_eraseDups_snoc, if_pos hnew, haddr]
      · rw [List.map_nil, List.append_nil]
        by_cases hoffended : Offends front e (runEvents start front).heapOracle
        · obtain ⟨hwrite, hheap, hfails⟩ := hoffends.mp hoffended
          rw [if_pos hoffended, take_eraseDups_snoc,
            if_neg fun hnew => hnot ⟨hwrite, hheap, hnew, hfails⟩, List.append_nil]
        · rw [if_neg hoffended, List.append_nil]

end Runs

end Engine

namespace Check
open Engine

/-- What the checker reads of a recorded hazard, from a line of this number. -/
def readHazard (seq : ℕ) (h : HeapHazard) : HazardEvent where
  seq := seq
  kind := h.kind.text
  writeAddr := h.writeAddr
  writeSize := h.writeSize
  allocBase := h.allocBase
  allocSize := h.allocSize.toNat
  overflow := h.overflowBytes.toNat
  typeName := rereadName (h.typeName.getD "")
  fieldName := rereadName (h.fieldName.getD "")

section Lines
variable {ls : List Line} {hs : List HeapHazard}

theorem hazard?_hazardLine (ev : Ring.Event) (h : HeapHazard) :
    (recordOf rereadName reparse (Write.hazardLine ev h)).hazard? =
      some (readHazard (reparse (seqOf ev)) h) := by
  have hnumber (x : UInt64) : reparse x.toNat = x.toNat := if_pos x.toNat_lt
  simp only [Write.hazardLine, recordOf, Record.hazard?, readHazard, hnumber]

theorem filterMap_hazard? (ls : List Line) :
    (ls.map (recordOf rereadName reparse)).filterMap Record.hazard? =
      (ls.filter Line.isHazard).filterMap fun l => (recordOf rereadName reparse l).hazard? := by
  rw [List.filterMap_map, List.filterMap_filter]
  refine List.filterMap_congr fun l _ => ?_
  cases l <;> rfl

theorem read_hazardLines (h : List.Forall₂ (fun l h => ∃ ev, l = Write.hazardLine ev h) ls hs) :
    List.Forall₂ (fun e h => ∃ seq, e = readHazard seq h)
      (ls.filterMap fun l => (recordOf rereadName reparse l).hazard?) hs := by
  induction h with
  | nil => exact .nil
  | cons hfirst _ ih =>
      obtain ⟨ev, rfl⟩ := hfirst
      rw [List.filterMap_cons, hazard?_hazardLine]
      exact .cons ⟨_, rfl⟩ ih

/-- The checker's hazards are those recorded, one for one. -/
theorem map_writeAddr_of_read {es : List HazardEvent}
    (h : List.Forall₂ (fun e h => ∃ seq, e = readHazard seq h) es hs) :
    es.map HazardEvent.writeAddr = hs.map HeapHazard.writeAddr := by
  induction h with
  | nil => rfl
  | cons hfirst _ ih =>
      obtain ⟨seq, rfl⟩ := hfirst
      rw [List.map_cons, List.map_cons, ih]
      rfl

end Lines

/-- From the events of a run to the gate: the checker reads back exactly the recorded
hazards, these are at the first 64 addresses that a WRITE offends, and `no_hazards` passes
exactly if no WRITE does. -/
theorem hazards_reported {start : Engine.State} (hstart : Unharmed start)
    (events : List HostEvent) : ∃ ls g, (runEvents start events).topo = some ls ∧
      TopoGraph.build (topologyFile ls) = some g ∧
      List.Forall₂ (fun e h => ∃ seq, e = readHazard seq h) g.hazards
        (runEvents start events).world.hazards ∧
      g.hazards.map HazardEvent.writeAddr = (offended start events).eraseDups.take 64 ∧
      (evalOne g .noHazards = true ↔ ∀ front e back, events = front ++ e :: back →
        ¬ Offends front e (runEvents start front).heapOracle) := by
  obtain ⟨haddrs, hlines, hfilter, hprinted⟩ := recorded_runEvents hstart events
  obtain ⟨ls, hls, rfl⟩ := Option.map_eq_some_iff.mp hfilter
  have hread : List.Forall₂ (fun e h => ∃ seq, e = readHazard seq h)
      (TopoGraph.ofRecords (ls.map (recordOf rereadName reparse))).hazards
      (runEvents start events).world.hazards := by
    obtain ⟨-, -, hhazards⟩ := foldl_add_books (ls.map (recordOf rereadName reparse)) {}
    rw [TopoGraph.ofRecords, hhazards, filterMap_hazard?]
    exact read_hazardLines hprinted
  have hoffended := (map_writeAddr_of_read hread).trans haddrs
  refine ⟨ls, _, hls, build_topologyFile ls, hread, hoffended, ?_⟩
  have hnone : offended start events = [] ↔ ∀ front e back, events = front ++ e :: back →
      ¬ Offends front e (runEvents start front).heapOracle := offendedFrom_eq_nil_iff start [] events
  rw [← hnone, evalOne, decide_eq_true_iff, ← List.length_map (f := HazardEvent.writeAddr),
    hoffended, List.length_eq_zero_iff]
  constructor
  · intro hempty
    cases hlist : offended start events with
    | nil => rfl
    | cons a as =>
        rw [hlist, List.eraseDups_cons, List.take_succ_cons] at hempty
        cases hempty
  · intro hempty
    rw [hempty]
    rfl

/-- A block, and a write across its end. -/
def writeAcross : List HostEvent :=
  [(.plain, plainEvent Ring.EVENT_ALLOC 0x10000 64),
    (.plain, plainEvent Ring.EVENT_WRITE 0x1003c 0x20000)]

theorem hazards_reported_across : ∃ ls g, (runEvents { topo := some [] } writeAcross).topo = some ls ∧
    TopoGraph.build (topologyFile ls) = some g ∧ g.hazards.length = 1 ∧
    evalOne g .noHazards = false := by
  obtain ⟨ls, g, hls, hg, hread, -⟩ :=
    @hazards_reported { topo := some [] } ⟨⟨rfl, rfl⟩, rfl, rfl⟩ writeAcross
  have hone : (runEvents { topo := some [] } writeAcross).world.hazards.length = 1 := by
    decide +kernel
  have hlength := hread.length_eq.trans hone
  refine ⟨ls, g, hls, hg, hlength, ?_⟩
  rw [evalOne, hlength]
  rfl

end Check

end Rtmap
