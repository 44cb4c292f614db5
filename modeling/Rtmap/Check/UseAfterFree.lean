import Rtmap.Check.Blocks
import Rtmap.Engine.Freshness

/-!
# Uses after a free

The checker compares the numbers of stamps and links with the number under which their
target was freed last, wherever the lines stand. `Life` is what the lines say in their
order about one address; `Timely` says when the numbers say the same.
-/
namespace Rtmap.Check
open Rtmap.Engine
open Rtmap.Ring (EVENT_ALLOC EVENT_FREE EVENT_WRITE)

/-- The number and the target of a STAMP or LINK line. -/
def target? : Line → Option (ℕ × UInt64)
  | .stamp seq addr .. => some (seq, addr)
  | .link seq _ _ toAddr .. => some (seq, toAddr)
  | _ => none

/-- The number and the address of a STAMP line. -/
def stamp? : Line → Option (ℕ × UInt64)
  | .stamp seq addr .. => some (seq, addr)
  | _ => none

/-- The number and the target of a LINK line. -/
def link? : Line → Option (ℕ × UInt64)
  | .link seq _ _ toAddr .. => some (seq, toAddr)
  | _ => none

/-- The number and the address of a FREE line. -/
def freed? : Line → Option (ℕ × UInt64)
  | .free seq _ addr _ => some (seq, addr)
  | _ => none

/-- What the lines say about an address. -/
structure Life where
  /-- the most recent of its ALLOC and FREE lines is a FREE -/
  freed : Bool := false
  freeSeq : Option ℕ := none
  /-- the STAMP and LINK lines that target it: their number, and whether it was freed -/
  marks : List (ℕ × Bool) := []
deriving DecidableEq, Repr

def Life.next (addr : UInt64) (v : Life) (l : Line) : Life where
  freed :=
    match l with
    | .alloc _ _ a _ => if a = addr then false else v.freed
    | .free _ _ a _ => if a = addr then true else v.freed
    | _ => v.freed
  freeSeq :=
    match l with
    | .free seq _ a _ => if a = addr then some seq else v.freeSeq
    | _ => v.freeSeq
  marks := v.marks ++ ((target? l).toList.filter fun x => x.2 = addr).map fun x => (x.1, v.freed)

def life (addr : UInt64) (ls : List Line) : Life := ls.foldl (Life.next addr) {}

/-- Some STAMP or LINK line targets an address whose most recent ALLOC or FREE line is a FREE. -/
def UsesFreed (ls : List Line) : Prop :=
  ∃ front l back seq addr, ls = front ++ l :: back ∧ target? l = some (seq, addr) ∧
    (life addr front).freed = true

/-- A property of the places of the lines. -/
theorem exists_split_iff {ls : List Line} {p : List Line → Line → List Line → Prop} :
    (∃ front l back, ls = front ++ l :: back ∧ p front l back) ↔
      ∃ i : Fin ls.length, p (ls.take i) (ls.get i) (ls.drop (i + 1)) := by
  constructor
  · rintro ⟨front, l, back, rfl, h⟩
    have hlt : front.length < (front ++ l :: back).length := by simp
    exact ⟨⟨front.length, hlt⟩, by simpa using h⟩
  · rintro ⟨i, h⟩
    refine ⟨ls.take i, ls.get i, ls.drop (i + 1), ?_, h⟩
    rw [List.get_eq_getElem, List.getElem_cons_drop, List.take_append_drop]

theorem usesFreed_iff {ls : List Line} : UsesFreed ls ↔
    ∃ i : Fin ls.length, ∃ x ∈ (target? (ls.get i)).toList, (life x.2 (ls.take i)).freed = true := by
  rw [← exists_split_iff (p := fun front l _ =>
    ∃ x ∈ (target? l).toList, (life x.2 front).freed = true)]
  constructor
  · rintro ⟨front, l, back, seq, addr, hsplit, hx, hfreed⟩
    exact ⟨front, l, back, hsplit, (seq, addr), Option.mem_toList.mpr hx, hfreed⟩
  · rintro ⟨front, l, back, hsplit, x, hx, hfreed⟩
    exact ⟨front, l, back, x.1, x.2, hsplit, Option.mem_toList.mp hx, hfreed⟩

instance (ls : List Line) : Decidable (UsesFreed ls) := decidable_of_iff _ usesFreed_iff.symm

/-- The number of the line says what its place says: a line is numbered above the last
FREE of its target exactly if the target is freed, and a FREE line is numbered between
the lines that came in the life of its block and those that came too late. -/
def InTime (front : List Line) (l : Line) : Prop :=
  (∀ x ∈ (target? l).toList, ∀ n ∈ (life x.2 front).freeSeq.toList,
    n < x.1 ↔ (life x.2 front).freed = true) ∧
  ∀ y ∈ (freed? l).toList, 0 < y.1 ∧ ∀ x ∈ (life y.2 front).marks, y.1 < x.1 ↔ x.2 = true

instance (front : List Line) (l : Line) : Decidable (InTime front l) :=
  inferInstanceAs (Decidable (_ ∧ _))

/-- Each line came in time. -/
inductive Timely : List Line → Prop
  | nil : Timely []
  | snoc {ls : List Line} {l : Line} (h : Timely ls) (hl : InTime ls l) : Timely (ls ++ [l])

section Life
variable {addr : UInt64} {ls : List Line}

theorem life_snoc (addr : UInt64) (ls : List Line) (l : Line) :
    life addr (ls ++ [l]) = (life addr ls).next addr l := by
  rw [life, List.foldl_append]
  rfl

theorem marks_next (v : Life) (l : Line) : (v.next addr l).marks = v.marks ++
    ((target? l).toList.filter fun x => x.2 = addr).map fun x => (x.1, v.freed) := rfl

/-- The marks are the lines that target the address. -/
theorem mem_marks_iff {x : ℕ × Bool} : x ∈ (life addr ls).marks ↔
    ∃ front l back, ls = front ++ l :: back ∧ target? l = some (x.1, addr) ∧
      (life addr front).freed = x.2 := by
  induction ls using List.reverseRecOn with
  | nil => exact iff_of_false List.not_mem_nil fun ⟨front, l, back, h, _⟩ => by simp at h
  | append_singleton ls l ih =>
      rw [life_snoc, marks_next, List.mem_append, ih]
      constructor
      · rintro (⟨front, m, back, rfl, hrest⟩ | hlast)
        · exact ⟨front, m, back ++ [l], by simp, hrest⟩
        · obtain ⟨y, hy, rfl⟩ := List.mem_map.mp hlast
          obtain ⟨htarget, haddr⟩ := List.mem_filter.mp hy
          obtain rfl : y.2 = addr := of_decide_eq_true haddr
          exact ⟨ls, l, [], by simp, Option.mem_toList.mp htarget, rfl⟩
      · rintro ⟨front, m, back, heq, htarget, hfreed⟩
        rcases List.eq_nil_or_concat back with rfl | ⟨back, b, rfl⟩
        · obtain ⟨rfl, hlast⟩ := List.append_inj' heq rfl
          obtain rfl := (List.cons.inj hlast).1
          refine .inr (List.mem_map.mpr ⟨(x.1, addr), List.mem_filter.mpr ⟨?_, by simp⟩, ?_⟩)
          · exact Option.mem_toList.mpr htarget
          · rw [hfreed]
        · have hfront : ls ++ [l] = (front ++ m :: back) ++ [b] := by
            rw [heq]
            simp
          obtain ⟨rfl, -⟩ := List.append_inj' hfront rfl
          exact .inl ⟨front, m, back, rfl, htarget, hfreed⟩

/-- An address that was never freed is not freed. -/
theorem freed_of_freeSeq (h : (life addr ls).freeSeq = none) : (life addr ls).freed = false := by
  induction ls using List.reverseRecOn with
  | nil => rfl
  | append_singleton ls l ih =>
      rw [life_snoc] at h ⊢
      cases l with
      | alloc seq tid a size =>
          have hfreed := ih h
          simp only [Life.next]
          split
          · rfl
          · exact hfreed
      | free seq tid a size =>
          simp only [Life.next] at h ⊢
          split
          · rename_i heq
            rw [if_pos heq] at h
            cases h
          · rename_i hne
            rw [if_neg hne] at h
            exact ih h
      | _ => exact ih h

theorem freeSeq_of_append {back : List Line} (h : (life addr (ls ++ back)).freeSeq = none) :
    (life addr ls).freeSeq = none := by
  induction back using List.reverseRecOn with
  | nil => simpa using h
  | append_singleton back l ih =>
      rw [← List.append_assoc, life_snoc] at h
      apply ih
      cases l with
      | free seq tid a size =>
          simp only [Life.next] at h
          split at h
          · cases h
          · exact h
      | _ => exact h

/-- In time, the number of the last FREE tells the late lines from the others. -/
theorem Timely.marks (h : Timely ls) : ∀ {n : ℕ}, (life addr ls).freeSeq = some n →
    ∀ x ∈ (life addr ls).marks, n < x.1 ↔ x.2 = true := by
  induction h with
  | nil =>
      intro n hn
      cases hn
  | @snoc ls l hls hl ih =>
      intro n hn x hx
      rw [life_snoc] at hn hx
      cases l with
      | free seq tid a size =>
          have hmarks : x ∈ (life addr ls).marks := by simpa [Life.next, target?] using hx
          simp only [Life.next] at hn
          split at hn
          · rename_i heq
            rw [← Option.some.inj hn]
            exact (hl.2 (seq, a) (by simp [freed?])).2 x (heq ▸ hmarks)
          · exact ih hn x hmarks
      | _ =>
          -- a line that targets the address is compared with the last FREE before it
          rcases List.mem_append.mp hx with hx | hx
          · exact ih hn x hx
          · obtain ⟨y, hy, rfl⟩ := List.mem_map.mp hx
            obtain ⟨hmem, haddr⟩ := List.mem_filter.mp hy
            obtain rfl : y.2 = addr := of_decide_eq_true haddr
            exact hl.1 y hmem n (Option.mem_toList.mpr hn)

end Life

section Book
variable {addr : UInt64} {book : List AllocEvent} {bs : List Line}

/-- An entry that says when the address was freed. -/
def saysFreed (addr : UInt64) (a : AllocEvent) : Bool :=
  a.addr = addr && a.freed && a.freeSeq > 0

/-- The number under which the address was freed, by the last entry that says so. -/
def freedIn (addr : UInt64) (book : List AllocEvent) : Option ℕ :=
  (book.find? (saysFreed addr)).map AllocEvent.freeSeq

theorem freedIn_cons (a : AllocEvent) (book : List AllocEvent) : freedIn addr (a :: book) =
    if saysFreed addr a then some a.freeSeq else freedIn addr book := by
  rw [freedIn, List.find?_cons]
  split <;> simp_all [freedIn]

theorem freeSeqs_eq (g : TopoGraph) (addr : UInt64) :
    g.freeSeqs addr = freedIn addr g.allocs.reverse := by
  rw [TopoGraph.freeSeqs]
  induction g.allocs using List.reverseRecOn with
  | nil => rfl
  | append_singleton as a ih =>
      rw [List.foldl_append, List.reverse_append, List.reverse_singleton, List.singleton_append,
        freedIn_cons, ← ih, List.foldl_cons, List.foldl_nil]
      by_cases hfrees : saysFreed addr a = true
      · rw [if_pos hfrees]
        simp only [saysFreed, Bool.and_eq_true, decide_eq_true_eq] at hfrees
        obtain ⟨⟨rfl, hfreed⟩, hseq⟩ := hfrees
        rw [if_pos ⟨hfreed, hseq⟩, Function.update_self]
      · rw [if_neg hfrees]
        split
        · rename_i hfreed
          have hne : a.addr ≠ addr := by
            rintro rfl
            exact hfrees (by simp [saysFreed, hfreed.1, hfreed.2])
          rw [Function.update_of_ne hne.symm]
        · rfl

theorem freedIn_freeFirst_of_ne {addr' : UInt64} {seq : ℕ} (h : addr ≠ addr') :
    freedIn addr (freeFirst addr' seq book) = freedIn addr book := by
  induction book with
  | nil => rfl
  | cons a as ih =>
      rw [freeFirst]
      split
      · rename_i ha
        have hne : a.addr ≠ addr := ha.1 ▸ h.symm
        rw [freedIn_cons, freedIn_cons, if_neg (by simp [saysFreed, hne]),
          if_neg (by simp [saysFreed, hne])]
      · rw [freedIn_cons, freedIn_cons, ih]

theorem freedIn_freeFirst {a : AllocEvent} {seq : ℕ} (hlatest : latest addr book = some a)
    (ha : a.freed = false) (hseq : 0 < seq) :
    freedIn addr (freeFirst addr seq book) = some seq := by
  induction book with
  | nil => cases hlatest
  | cons b bs ih =>
      rw [latest_cons] at hlatest
      rw [freeFirst]
      by_cases hb : b.addr = addr
      · rw [if_pos hb] at hlatest
        obtain rfl := Option.some.inj hlatest
        rw [if_pos ⟨hb, ha⟩, freedIn_cons, if_pos (by simp [saysFreed, hb, hseq])]
      · rw [if_neg hb] at hlatest
        rw [if_neg fun hc => hb hc.1, freedIn_cons, if_neg (by simp [saysFreed, hb]), ih hlatest]

/-- The checker's book knows the number of the last FREE line of each address. -/
theorem freedIn_bookOf (h : FreesTracked bs)
    (hnumbers : ∀ l ∈ bs, ∀ seq tid a size, l = .free seq tid a size → 0 < seq ∧ seq < 2 ^ 64) :
    freedIn addr (bookOf bs) = (life addr bs).freeSeq := by
  induction h with
  | nil => rfl
  | @snoc bs l hbs hl ih =>
      have ih := ih fun m hm => hnumbers m (List.mem_append_left _ hm)
      rw [bookOf_snoc, life_snoc]
      cases l with
      | alloc seq tid a size =>
          rw [recordOf, bookRecord, freedIn_cons, if_neg (by simp [saysFreed]), ih]
          rfl
      | free seq tid a size =>
          obtain ⟨hpos, hlt⟩ := hnumbers _ (List.mem_append_right _ List.mem_cons_self) _ _ _ _ rfl
          have hseq : reparse seq = seq := if_pos hlt
          obtain ⟨e, hlatest, he⟩ := latest_of_lastBlock hbs a (hl _ _ _ _ rfl)
          rw [recordOf, bookRecord, hseq]
          simp only [Life.next]
          split
          · rename_i heq
            rw [← heq, freedIn_freeFirst hlatest he hpos]
          · rename_i hne
            rw [freedIn_freeFirst_of_ne (Ne.symm hne), ih]
      | _ => exact ih

end Book

section Read
variable {ls : List Line} {g : TopoGraph}

/-- The stamp that the checker reads of a line. -/
def readStamp? (l : Line) : Option StampEvent := (recordOf rereadName reparse l).stamp?

/-- The link that the checker reads of a line. -/
def readLink? (l : Line) : Option LinkEvent := (recordOf rereadName reparse l).link?

theorem books_lines (hg : g = .ofRecords (ls.map (recordOf rereadName reparse))) :
    g.stamps = ls.filterMap readStamp? ∧ g.links = ls.filterMap readLink? := by
  obtain ⟨hstamps, hlinks, -⟩ := foldl_add_books (ls.map (recordOf rereadName reparse)) {}
  rw [← TopoGraph.ofRecords, ← hg, List.filterMap_map] at hstamps hlinks
  exact ⟨hstamps, hlinks⟩

/-- The checker's stamps are the STAMP lines. -/
theorem stamps_lines (hg : g = .ofRecords (ls.map (recordOf rereadName reparse)))
    (hnumber : ∀ l ∈ ls, l.number < 2 ^ 64) :
    g.stamps.map (fun s => (s.seq, s.addr)) = ls.filterMap stamp? := by
  rw [(books_lines hg).1, List.map_filterMap]
  apply List.filterMap_congr
  intro l hl
  have hlt := hnumber l hl
  cases l with
  | stamp seq addr typeName typeSize source fieldCount =>
      have hseq : reparse seq = seq := if_pos hlt
      rw [readStamp?, recordOf, hseq]
      rfl
  | _ => rfl

/-- The checker's links are the LINK lines. -/
theorem links_lines (hg : g = .ofRecords (ls.map (recordOf rereadName reparse)))
    (hnumber : ∀ l ∈ ls, l.number < 2 ^ 64) :
    g.links.map (fun l => (l.seq, l.toAddr)) = ls.filterMap link? := by
  rw [(books_lines hg).2, List.map_filterMap]
  apply List.filterMap_congr
  intro l hl
  have hlt := hnumber l hl
  cases l with
  | link seq fromName fromAddr toAddr pointeeType edgeField =>
      have hseq : reparse seq = seq := if_pos hlt
      rw [readLink?, recordOf, hseq]
      rfl
  | _ => rfl

/-- What holds of all entries of a book holds of all lines of its kind. -/
theorem forall_read_iff {α : Type} {f : α → ℕ × UInt64} {kind : Line → Option (ℕ × UInt64)}
    {xs : List α} (h : xs.map f = ls.filterMap kind) {p : ℕ × UInt64 → Prop} :
    (∀ x ∈ xs, p (f x)) ↔ ∀ l ∈ ls, ∀ y, kind l = some y → p y := by
  rw [← List.forall_mem_map, h]
  constructor
  · exact fun hall l hl y hy => hall y (List.mem_filterMap.mpr ⟨l, hl, hy⟩)
  · intro hall y hy
    obtain ⟨l, hl, hkind⟩ := List.mem_filterMap.mp hy
    exact hall l hl y hkind

end Read

section Verdict
variable {ls : List Line}

theorem freeSeq_filter (addr : UInt64) (ls : List Line) :
    (life addr (ls.filter Line.isBlock)).freeSeq = (life addr ls).freeSeq := by
  induction ls using List.reverseRecOn with
  | nil => rfl
  | append_singleton ls l ih =>
      rw [List.filter_append, life_snoc]
      cases l <;>
        simp [Line.isBlock, List.filter_cons, life_snoc, Life.next, ih]

theorem target?_eq_some_iff {l : Line} {x : ℕ × UInt64} :
    target? l = some x ↔ stamp? l = some x ∨ link? l = some x := by
  cases l <;> simp [target?, stamp?, link?]

/-- The assertion holds exactly if no stamp or link is numbered above the last free of its
target. -/
theorem useAfterFrees_eq_zero_iff {g : TopoGraph}
    (hg : g = .ofRecords (ls.map (recordOf rereadName reparse)))
    (hnumber : ∀ l ∈ ls, l.number < 2 ^ 64) :
    g.useAfterFrees = 0 ↔ ∀ l ∈ ls, ∀ x, target? l = some x →
      TopoGraph.isLate g.freeSeqs x.1 x.2 = false := by
  rw [TopoGraph.useAfterFrees, Nat.add_eq_zero_iff, List.length_eq_zero_iff,
    List.length_eq_zero_iff, List.filter_eq_nil_iff, List.filter_eq_nil_iff]
  have hstamps := forall_read_iff (stamps_lines hg hnumber)
    (p := fun x => ¬ TopoGraph.isLate g.freeSeqs x.1 x.2 = true)
  have hlinks := forall_read_iff (links_lines hg hnumber)
    (p := fun x => ¬ TopoGraph.isLate g.freeSeqs x.1 x.2 = true)
  rw [hstamps, hlinks]
  simp only [Bool.not_eq_true]
  constructor
  · intro h l hl x hx
    rcases target?_eq_some_iff.mp hx with hstamp | hlink
    · exact h.1 l hl x hstamp
    · exact h.2 l hl x hlink
  · intro h
    exact ⟨fun l hl x hx => h l hl x (target?_eq_some_iff.mpr (.inl hx)),
      fun l hl x hx => h l hl x (target?_eq_some_iff.mpr (.inr hx))⟩

theorem Timely.free_pos (h : Timely ls) :
    ∀ l ∈ ls, ∀ seq tid addr size, l = .free seq tid addr size → 0 < seq := by
  induction h with
  | nil => exact nofun
  | @snoc ls l _ hl ih =>
      intro m hm seq tid addr size heq
      rcases List.mem_append.mp hm with hm | hm
      · exact ih m hm seq tid addr size heq
      · obtain rfl := List.mem_singleton.mp hm
        subst heq
        exact (hl.2 (seq, addr) (by simp [freed?])).1

end Verdict

/-- Where each line of a run comes in time, the assertion fails exactly if an address is
used while it is freed. -/
theorem noUseAfterFree_exact {start : Engine.State} (hstart : Opens start)
    (events : List HostEvent) {ls : List Line} (hls : (runEvents start events).topo = some ls)
    (htimely : Timely ls) :
    ∃ g, TopoGraph.build (topologyFile ls) = some g ∧
      (evalOne g .noUseAfterFree = false ↔ UsesFreed ls) := by
  refine ⟨_, build_topologyFile ls, ?_⟩
  set g := TopoGraph.ofRecords (ls.map (recordOf rereadName reparse)) with hg
  have hnumber : ∀ l ∈ ls, l.number < 2 ^ 64 := fun l hl =>
    (number_lt_of_runEvents hstart events hls l hl).trans (by decide)
  obtain ⟨bs, hbs, hbooked⟩ := booked_runEvents hstart events
  have hfilter : ls.filter Line.isBlock = bs := by
    rw [State.blocks, State.linesOf, hls] at hbs
    exact Option.some.inj hbs
  have hfreed (addr : UInt64) : g.freeSeqs addr = (life addr ls).freeSeq := by
    rw [freeSeqs_eq, hg, allocs_ofRecords, List.reverse_reverse, ← bookOf, ← bookOf_filter,
      ← freeSeq_filter, hfilter]
    apply freedIn_bookOf hbooked.frees
    rintro l hl seq tid a size rfl
    rw [← hfilter] at hl
    have hmem := (List.mem_filter.mp hl).1
    exact ⟨htimely.free_pos _ hmem _ _ _ _ rfl, hnumber _ hmem⟩
  -- a line is late for the checker exactly if its target is freed before it
  have hlate {front back : List Line} {l : Line} {x : ℕ × UInt64} (hsplit : ls = front ++ l :: back)
      (hx : target? l = some x) :
      TopoGraph.isLate g.freeSeqs x.1 x.2 = (life x.2 front).freed := by
    rw [TopoGraph.isLate, hfreed]
    cases hn : (life x.2 ls).freeSeq with
    | none =>
        rw [hsplit] at hn
        exact (freed_of_freeSeq (freeSeq_of_append hn)).symm
    | some n =>
        have hmark : (x.1, (life x.2 front).freed) ∈ (life x.2 ls).marks :=
          mem_marks_iff.mpr ⟨front, l, back, hsplit, hx, rfl⟩
        have hiff := htimely.marks hn _ hmark
        rw [Bool.eq_iff_iff, ← hiff]
        exact decide_eq_true_iff
  have hzero : evalOne g .noUseAfterFree = true ↔ ¬ UsesFreed ls := by
    rw [evalOne, decide_eq_true_iff, useAfterFrees_eq_zero_iff hg hnumber]
    constructor
    · rintro h ⟨front, l, back, seq, addr, hsplit, hx, hfreed⟩
      have hmem : l ∈ ls := by
        rw [hsplit]
        exact List.mem_append_right _ List.mem_cons_self
      have hnot := h l hmem _ hx
      rw [hlate hsplit hx, hfreed] at hnot
      cases hnot
    · intro h l hmem x hx
      obtain ⟨front, back, hsplit⟩ := List.append_of_mem hmem
      rw [hlate hsplit hx, Bool.eq_false_iff]
      exact fun hfreed => h ⟨front, l, back, x.1, x.2, hsplit, hx, hfreed⟩
  rw [← Bool.not_eq_true, hzero, not_not]

/-- A block is stored in a variable, freed and stored again. -/
def storedWhenFreed : List HostEvent :=
  [(.plain, numbered 1 1 (plainEvent EVENT_ALLOC 0x20000 64)),
    (.plain, numbered 1 2 (plainEvent EVENT_WRITE 0x4000 0x20000)),
    (.plain, numbered 1 3 (plainEvent EVENT_FREE 0x20000 0)),
    (.plain, numbered 1 4 (plainEvent EVENT_WRITE 0x4000 0x20000))]

/-- Its lines come in time, and its last two are found. -/
theorem noUseAfterFree_exact_stored : ∃ g, TopoGraph.build (topologyFile
      [.alloc 1 1 0x20000 64, .stamp 2 0x20000 "node" 16 "head" 0,
        .link 2 "head" 0x4000 0x20000 "node" "head",
        .typeEpochClose 3 0x20000 "node" "head" 2 3 .free, .free 3 1 0x20000 64,
        .stamp 4 0x20000 "node" 16 "head" 0, .link 4 "head" 0x4000 0x20000 "node" "head"]) =
      some g ∧ (evalOne g .noUseAfterFree = false ↔ UsesFreed
      [.alloc 1 1 0x20000 64, .stamp 2 0x20000 "node" 16 "head" 0,
        .link 2 "head" 0x4000 0x20000 "node" "head",
        .typeEpochClose 3 0x20000 "node" "head" 2 3 .free, .free 3 1 0x20000 64,
        .stamp 4 0x20000 "node" 16 "head" 0, .link 4 "head" 0x4000 0x20000 "node" "head"]) := by
  refine @noUseAfterFree_exact { twoVariables with topo := some [] } ⟨rfl, rfl⟩ storedWhenFreed _
    (by decide +kernel) ?_
  have h1 : Timely [.alloc 1 1 0x20000 64] := Timely.nil.snoc (by decide)
  have h2 := h1.snoc (l := .stamp 2 0x20000 "node" 16 "head" 0) (by decide)
  have h3 := h2.snoc (l := .link 2 "head" 0x4000 0x20000 "node" "head") (by decide)
  have h4 := h3.snoc (l := .typeEpochClose 3 0x20000 "node" "head" 2 3 .free) (by decide)
  have h5 := h4.snoc (l := .free 3 1 0x20000 64) (by decide)
  have h6 := h5.snoc (l := .stamp 4 0x20000 "node" 16 "head" 0) (by decide)
  exact h6.snoc (by decide)

/-- A block is freed, allocated again and then stored in a variable. -/
def storedWhenReused : List HostEvent :=
  [(.plain, numbered 1 1 (plainEvent EVENT_ALLOC 0x20000 64)),
    (.plain, numbered 1 2 (plainEvent EVENT_FREE 0x20000 0)),
    (.plain, numbered 1 3 (plainEvent EVENT_ALLOC 0x20000 64)),
    (.plain, numbered 1 4 (plainEvent EVENT_WRITE 0x4000 0x20000))]

/-- The assertion fails on it, though no address is used while it is freed. -/
theorem noUseAfterFree_reused :
    ¬ ∀ (start : Engine.State), Opens start → ∀ (events : List HostEvent) (ls : List Line),
      (runEvents start events).topo = some ls → ∃ g, TopoGraph.build (topologyFile ls) = some g ∧
        (evalOne g .noUseAfterFree = false ↔ UsesFreed ls) := by
  intro h
  obtain ⟨g, hg, hiff⟩ := h { twoVariables with topo := some [] } ⟨rfl, rfl⟩ storedWhenReused
    [.alloc 1 1 0x20000 64, .free 2 1 0x20000 64, .alloc 3 1 0x20000 64,
      .stamp 4 0x20000 "node" 16 "head" 0, .link 4 "head" 0x4000 0x20000 "node" "head"]
    (by decide +kernel)
  rw [build_topologyFile] at hg
  rw [← Option.some.inj hg] at hiff
  exact absurd (hiff.mp (by decide +kernel)) (by decide)

end Rtmap.Check
