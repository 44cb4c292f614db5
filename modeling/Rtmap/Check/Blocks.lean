import Rtmap.Check.Assertions
import Rtmap.Check.RoundTrip
import Rtmap.Engine.BlockLines

/-!
# The checker's book of allocations

What the ALLOC and FREE lines of a run make of the checker's book. A FREE line frees the
last entry of its address, as it follows an ALLOC line there. An ALLOC line of an
address that is tracked leaves one more entry that is not freed.
-/
namespace Rtmap.Check
open Rtmap.Engine
open Rtmap.Ring (EVENT_ALLOC EVENT_FREE)

/-- The book, its last entry first. -/
def bookRecord (book : List AllocEvent) : Record → List AllocEvent
  | .alloc seq addr size => ⟨seq, addr, size, false, 0⟩ :: book
  | .free seq addr => freeFirst addr seq book
  | _ => book

/-- The book of the lines as the checker reads them, its last entry first. -/
def bookOf (ls : List Line) : List AllocEvent :=
  (ls.map (recordOf rereadName reparse)).foldl bookRecord []

theorem allocs_ofRecords (rs : List Record) :
    (TopoGraph.ofRecords rs).allocs = (rs.foldl bookRecord []).reverse := by
  induction rs using List.reverseRecOn with
  | nil => rfl
  | append_singleton rs r ih =>
      rw [TopoGraph.ofRecords, List.foldl_append, List.foldl_append, ← TopoGraph.ofRecords]
      cases r <;> simp [TopoGraph.add, bookRecord, ih, freeLast]

theorem bookOf_snoc (ls : List Line) (l : Line) :
    bookOf (ls ++ [l]) = bookRecord (bookOf ls) (recordOf rereadName reparse l) := by
  rw [bookOf, List.map_append, List.foldl_append]
  rfl

theorem bookOf_filter (ls : List Line) : bookOf (ls.filter Line.isBlock) = bookOf ls := by
  induction ls using List.reverseRecOn with
  | nil => rfl
  | append_singleton ls l ih =>
      rw [List.filter_append, bookOf_snoc, ← ih]
      cases l <;>
        simp [Line.isBlock, List.filter_cons, bookOf_snoc, recordOf, bookRecord]

section Entries
variable {book : List AllocEvent} {addr addr' : UInt64} {seq : ℕ}

/-- The last entry of an address. -/
def latest (addr : UInt64) (book : List AllocEvent) : Option AllocEvent :=
  book.find? fun a => a.addr = addr

/-- The entries that are not freed. -/
def unfreed (book : List AllocEvent) : ℕ := (book.filter fun a => !a.freed).length

theorem latest_cons (a : AllocEvent) (book : List AllocEvent) (addr : UInt64) :
    latest addr (a :: book) = if a.addr = addr then some a else latest addr book := by
  rw [latest, List.find?_cons]
  split <;> simp_all [latest]

/-- Another address keeps its last entry when a block is freed. -/
theorem latest_freeFirst_of_ne (h : addr' ≠ addr) :
    latest addr' (freeFirst addr seq book) = latest addr' book := by
  induction book with
  | nil => rfl
  | cons a as ih =>
      rw [freeFirst]
      split
      · rename_i ha
        have hne : a.addr ≠ addr' := ha.1 ▸ h.symm
        rw [latest_cons, latest_cons, if_neg hne, if_neg hne]
      · rw [latest_cons, latest_cons, ih]

/-- One entry less is not freed. -/
theorem unfreed_freeFirst {a : AllocEvent} (h : latest addr book = some a) (ha : a.freed = false) :
    unfreed (freeFirst addr seq book) + 1 = unfreed book := by
  induction book with
  | nil => cases h
  | cons b bs ih =>
      rw [latest_cons] at h
      rw [freeFirst]
      by_cases hb : b.addr = addr
      · rw [if_pos hb] at h
        obtain rfl := Option.some.inj h
        rw [if_pos ⟨hb, ha⟩]
        simp [unfreed, ha]
      · rw [if_neg hb] at h
        rw [if_neg fun hc => hb hc.1]
        have hrest := ih h
        simp only [unfreed, List.filter_cons] at hrest ⊢
        split
        · rw [List.length_cons, List.length_cons]
          omega
        · exact hrest

end Entries

section Runs
variable {bs : List Line}

/-- The last entry of an address whose last block line is an ALLOC is not freed. -/
theorem latest_of_lastBlock (h : FreesTracked bs) :
    ∀ addr, lastBlock addr bs = true →
      ∃ a, latest addr (bookOf bs) = some a ∧ a.freed = false := by
  induction h with
  | nil => exact fun addr h => absurd h Bool.false_ne_true
  | @snoc bs l _ hl ih =>
      intro addr htracked
      rw [lastBlock_snoc] at htracked
      rw [bookOf_snoc]
      cases l with
      | alloc seq tid a size =>
          rw [recordOf, bookRecord, latest_cons]
          split
          · exact ⟨_, rfl, rfl⟩
          · rename_i hne
            simp only [nextBlock, Bool.or_eq_true, beq_iff_eq, hne, or_false] at htracked
            exact ih addr htracked
      | free seq tid a size =>
          simp only [nextBlock, Bool.and_eq_true, bne_iff_ne, ne_eq] at htracked
          rw [recordOf, bookRecord, latest_freeFirst_of_ne (Ne.symm htracked.2)]
          exact ih addr htracked.1
      | _ => exact ih addr htracked

/-- The entries that an event adds to those not freed are the blocks that it adds to the
tracker, and one more where a tracked block changes its size. -/
theorem unfreed_next {t : HeapAllocTracker} (h : Booked t bs) (ev : Ring.Event) :
    unfreed (bookOf (bs ++ blockLines ev t)) + t.liveCount =
      unfreed (bookOf bs) + (nextTracker ev t).liveCount + if Resizes ev t then 1 else 0 := by
  have hkind {k : EventKind} (hk : kindOf ev = k) (hne : k ≠ .alloc) : ¬ Resizes ev t :=
    fun hr => hne (hk.symm.trans hr.1)
  rw [blockLines, nextTracker]
  cases hk : kindOf ev with
  | alloc =>
      have hlength : (t.onAlloc ev.addr (Alloc.size ev)).1.liveCount =
          t.liveCount + if (t.allocSize ev.addr).isSome then 0 else 1 := by
        rw [HeapAllocTracker.allocSize, Option.isSome_map]
        exact SortedMap.length_insert _ _ _
      have hpush : unfreed (bookOf (bs ++ [.alloc (seqOf ev) ev.threadId ev.addr (Alloc.size ev)])) =
          unfreed (bookOf bs) + 1 := by
        rw [bookOf_snoc]
        rfl
      have hresizes : Resizes ev t ↔ ∃ size, t.allocSize ev.addr = some size ∧ size ≠ Alloc.size ev :=
        and_iff_right hk
      dsimp only
      rw [hlength]
      simp only [hresizes]
      cases hsize : t.allocSize ev.addr with
      | none =>
          rw [if_neg (by simp), hpush]
          simp
          omega
      | some size =>
          by_cases hsame : size = Alloc.size ev
          · simp [hsame]
          · rw [if_neg (by simpa using hsame), hpush]
            simp [hsame]
            omega
  | free =>
      have hlength : (t.onFree ev.addr).1.liveCount +
          (if (t.allocSize ev.addr).isSome then 1 else 0) = t.liveCount := by
        rw [HeapAllocTracker.allocSize, Option.isSome_map]
        exact SortedMap.length_erase _ _
      rw [if_neg (hkind hk (by decide))]
      dsimp only
      cases hsize : t.allocSize ev.addr with
      | none =>
          rw [hsize] at hlength
          simp at hlength ⊢
          omega
      | some size =>
          have htracked : lastBlock ev.addr bs = true := by
            rw [h.tracked, hsize]
            rfl
          obtain ⟨a, hlatest, ha⟩ := latest_of_lastBlock h.frees ev.addr htracked
          have hfree : unfreed (freeFirst ev.addr (reparse (seqOf ev)) (bookOf bs)) + 1 =
              unfreed (bookOf bs) := unfreed_freeFirst hlatest ha
          rw [hsize] at hlength
          dsimp only
          rw [bookOf_snoc, recordOf, bookRecord]
          simp at hlength
          omega
  | _ =>
      rw [if_neg (hkind hk (by decide))]
      simp

/-- How many events of the run change the size of a tracked block. -/
def resizes (s : Engine.State) : List HostEvent → ℕ
  | [] => 0
  | e :: es =>
      (if Resizes e.2 s.world.heapAllocs then 1 else 0) + resizes (processEvent e.1 e.2 s) es

theorem resizes_snoc (s : Engine.State) (events : List HostEvent) (e : HostEvent) :
    resizes s (events ++ [e]) = resizes s events +
      if Resizes e.2 (runEvents s events).world.heapAllocs then 1 else 0 := by
  induction events generalizing s with
  | nil =>
      rw [List.nil_append, resizes, resizes, resizes, add_zero, zero_add]
      rfl
  | cons e' es ih =>
      rw [List.cons_append, resizes, resizes, ih, add_assoc]
      rfl

theorem resizes_eq_zero_iff (s : Engine.State) (events : List HostEvent) :
    resizes s events = 0 ↔ ∀ front e back, events = front ++ e :: back →
      ¬ Resizes e.2 (runEvents s front).world.heapAllocs := by
  induction events generalizing s with
  | nil => exact iff_of_true rfl fun front e back h => by simp at h
  | cons e' es ih =>
      rw [resizes, Nat.add_eq_zero_iff, ih]
      constructor
      · rintro ⟨hfirst, hrest⟩ front e back h
        cases front with
        | nil =>
            obtain ⟨rfl, -⟩ := List.cons.inj h
            intro (hr : Resizes _ s.world.heapAllocs)
            rw [if_pos hr] at hfirst
            cases hfirst
        | cons f front =>
            obtain ⟨rfl, hes⟩ := List.cons.inj h
            exact hrest front e back hes
      · intro h
        exact ⟨if_neg (h [] e' es rfl), fun front e back hes => h (e' :: front) e back (by
          rw [hes, List.cons_append])⟩

variable {start : Engine.State}

/-- The checker counts the live blocks and, once more each, those that changed their size. -/
theorem unfreed_runEvents (hstart : Opens start) (events : List HostEvent) :
    ∃ bs, (runEvents start events).blocks = some bs ∧
      unfreed (bookOf bs) = (runEvents start events).world.heapAllocs.liveCount +
        resizes start events := by
  induction events using List.reverseRecOn with
  | nil =>
      refine ⟨[], ?_, ?_⟩
      · show start.topo.map _ = _
        rw [hstart.stream]
        rfl
      · show 0 = start.world.heapAllocs.liveCount + 0
        rw [hstart.blocks]
        rfl
  | append_singleton events e ih =>
      obtain ⟨bs, hbs, hcount⟩ := ih
      obtain ⟨bs', hbs', hbooked⟩ := booked_runEvents hstart events
      obtain rfl := Option.some.inj (hbs.symm.trans hbs')
      have hnext := unfreed_next hbooked e.2
      rw [runEvents_snoc, blocks_processEvent, hbs, heapAllocs_eq_nextTracker, resizes_snoc]
      refine ⟨_, rfl, ?_⟩
      dsimp only
      omega

theorem liveAllocCount_ofRecords (ls : List Line) :
    (TopoGraph.ofRecords (ls.map (recordOf rereadName reparse))).liveAllocCount =
      unfreed (bookOf ls) := by
  rw [TopoGraph.liveAllocCount, allocs_ofRecords, List.filter_reverse, List.length_reverse]
  rfl

end Runs

/-- The checker and the tracker count the same live blocks after the run. -/
def LiveCountsAgree (s : Engine.State) : Prop :=
  ∃ ls g, s.topo = some ls ∧ TopoGraph.build (topologyFile ls) = some g ∧
    g.liveAllocCount = s.world.heapAllocs.liveCount

/-- What the checker counts in a run's file. -/
theorem liveAllocCount_runEvents {start : Engine.State} (hstart : Opens start)
    (events : List HostEvent) :
    ∃ ls g, (runEvents start events).topo = some ls ∧ TopoGraph.build (topologyFile ls) = some g ∧
      g.liveAllocCount =
        (runEvents start events).world.heapAllocs.liveCount + resizes start events := by
  obtain ⟨bs, hbs, hcount⟩ := unfreed_runEvents hstart events
  obtain ⟨ls, hls, hfilter⟩ := Option.map_eq_some_iff.mp hbs
  refine ⟨ls, _, hls, build_topologyFile ls, ?_⟩
  rw [liveAllocCount_ofRecords, ← bookOf_filter, hfilter, hcount]

/-- The counts agree exactly if no ALLOC of the run changes the size of a tracked block. -/
theorem liveCountsAgree_iff {start : Engine.State} (hstart : Opens start)
    (events : List HostEvent) :
    LiveCountsAgree (runEvents start events) ↔
      ∀ front e back, events = front ++ e :: back →
        ¬ Resizes e.2 (runEvents start front).world.heapAllocs := by
  obtain ⟨ls, g, hls, hg, hcount⟩ := liveAllocCount_runEvents hstart events
  rw [← resizes_eq_zero_iff]
  constructor
  · rintro ⟨ls', g', hls', hg', hagree⟩
    obtain rfl := Option.some.inj (hls.symm.trans hls')
    obtain rfl := Option.some.inj (hg.symm.trans hg')
    omega
  · intro hnone
    exact ⟨ls, g, hls, hg, by omega⟩

/-- A block that is allocated, freed and allocated again. -/
theorem liveCountsAgree_reuse :
    LiveCountsAgree (runEvents { topo := some [] }
      [(.plain, plainEvent EVENT_ALLOC 0x10000 64), (.plain, plainEvent EVENT_FREE 0x10000 0),
        (.plain, plainEvent EVENT_ALLOC 0x10000 16)]) := by
  apply (liveCountsAgree_iff ⟨rfl, rfl⟩ _).mpr
  rw [← resizes_eq_zero_iff]
  decide +kernel

/-- A block of another size at a tracked address is counted twice. -/
theorem liveCountsDisagree_resized :
    ¬ ∀ start : Engine.State, Opens start → ∀ events, LiveCountsAgree (runEvents start events) := by
  intro h
  obtain ⟨ls, g, hls, hg, hagree⟩ := h { topo := some [] } ⟨rfl, rfl⟩
    [(.plain, plainEvent EVENT_ALLOC 0x10000 64), (.plain, plainEvent EVENT_ALLOC 0x10000 16)]
  obtain ⟨ls', g', hls', hg', hcount⟩ := @liveAllocCount_runEvents { topo := some [] } ⟨rfl, rfl⟩
    [(.plain, plainEvent EVENT_ALLOC 0x10000 64), (.plain, plainEvent EVENT_ALLOC 0x10000 16)]
  obtain rfl := Option.some.inj (hls.symm.trans hls')
  obtain rfl := Option.some.inj (hg.symm.trans hg')
  have hresizes : resizes { topo := some [] }
      [(.plain, plainEvent EVENT_ALLOC 0x10000 64),
        (.plain, plainEvent EVENT_ALLOC 0x10000 16)] = 1 := by
    decide +kernel
  omega

end Rtmap.Check
