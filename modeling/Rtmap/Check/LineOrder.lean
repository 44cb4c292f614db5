import Rtmap.Check.FinalGraph
import Rtmap.Check.UseAfterFree
import Rtmap.Engine.GraphLines

/-!
# The order of the lines

Two assertions are about what comes first, an ALLOC or a STAMP of its address, a STAMP or a
LINK to it. The checker compares the numbers that the lines carry; `InOrder` says when the
numbers of a line and of those before it tell what their places tell.
-/
namespace Rtmap.Check
open Rtmap.Engine Rtmap.Str
open Rtmap.Ring (EVENT_ALLOC EVENT_WRITE)

section Lines

/-- The number and the address of an ALLOC line. -/
def alloc? : Line → Option (ℕ × UInt64)
  | .alloc seq _ addr _ => some (seq, addr)
  | _ => none

/-- The number and the address of a STAMP line that is not one at an allocation site. -/
def typed? : Line → Option (ℕ × UInt64)
  | .stamp seq addr _ _ source _ =>
      if "alloc@".toList.isPrefixOf source.toList then none else some (seq, addr)
  | _ => none

/-- The numbers of the lines of one kind at an address, in their order. -/
def numbersAt (kind : Line → Option (ℕ × UInt64)) (addr : UInt64) (ls : List Line) : List ℕ :=
  ((ls.filterMap kind).filter fun x => x.2 == addr).map Prod.fst

/-- Some STAMP line targets an address that has an ALLOC line, but none before it. -/
def StampedUnallocated (ls : List Line) : Prop :=
  ∃ front l back seq addr, ls = front ++ l :: back ∧ stamp? l = some (seq, addr) ∧
    numbersAt alloc? addr ls ≠ [] ∧ numbersAt alloc? addr front = []

/-- Some LINK line precedes the first STAMP line of its target, which is stamped later. -/
def LinkedUnstamped (ls : List Line) : Prop :=
  ∃ front l back seq addr, ls = front ++ l :: back ∧ link? l = some (seq, addr) ∧
    numbersAt typed? addr front = [] ∧ numbersAt typed? addr back ≠ []

theorem stampedUnallocated_iff {ls : List Line} : StampedUnallocated ls ↔
    ∃ i : Fin ls.length, ∃ x ∈ (stamp? (ls.get i)).toList, numbersAt alloc? x.2 ls ≠ [] ∧
      numbersAt alloc? x.2 (ls.take i) = [] := by
  rw [← exists_split_iff (p := fun front l _ => ∃ x ∈ (stamp? l).toList,
    numbersAt alloc? x.2 ls ≠ [] ∧ numbersAt alloc? x.2 front = [])]
  constructor
  · intro h
    obtain ⟨front, l, back, seq, addr, hsplit, hx, hrest⟩ := h
    exact ⟨front, l, back, hsplit, (seq, addr), Option.mem_toList.mpr hx, hrest⟩
  · intro h
    obtain ⟨front, l, back, hsplit, x, hx, hrest⟩ := h
    exact ⟨front, l, back, x.1, x.2, hsplit, Option.mem_toList.mp hx, hrest⟩

instance decidableStampedUnallocated (ls : List Line) : Decidable (StampedUnallocated ls) :=
  decidable_of_iff _ stampedUnallocated_iff.symm

/-- The lines before the first ALLOC line of the address. -/
def unallocated (addr : UInt64) (ls : List Line) : List Line :=
  ls.takeWhile fun l => (alloc? l).all fun x => x.2 ≠ addr

/-- The number of the line tells what its place tells, given the lines before it. -/
structure InOrder (front : List Line) (l : Line) : Prop where
  /-- behind an ALLOC line of its address a STAMP line is not numbered below all of them -/
  stamp : ∀ seq addr, stamp? l = some (seq, addr) → numbersAt alloc? addr front ≠ [] →
    ∃ n ∈ numbersAt alloc? addr front, n ≤ seq
  /-- an ALLOC line is numbered above the STAMP lines from before the first of its address -/
  alloc : ∀ seq addr, alloc? l = some (seq, addr) →
    ∀ n ∈ numbersAt stamp? addr (unallocated addr front), n < seq
  /-- a LINK line is not numbered below the first STAMP line of its target -/
  link : ∀ seq addr, link? l = some (seq, addr) →
    ∀ n ∈ (numbersAt typed? addr front).head?, n ≤ seq
  /-- the first STAMP line of an address is numbered above the LINK lines before it -/
  typed : ∀ seq addr, typed? l = some (seq, addr) → numbersAt typed? addr front = [] →
    ∀ n ∈ numbersAt link? addr front, n < seq

theorem inOrder_iff {front : List Line} {l : Line} : InOrder front l ↔
    (∀ x ∈ (stamp? l).toList, numbersAt alloc? x.2 front ≠ [] →
      ∃ n ∈ numbersAt alloc? x.2 front, n ≤ x.1) ∧
    (∀ x ∈ (alloc? l).toList, ∀ n ∈ numbersAt stamp? x.2 (unallocated x.2 front), n < x.1) ∧
    (∀ x ∈ (link? l).toList, ∀ n ∈ (numbersAt typed? x.2 front).head?, n ≤ x.1) ∧
    ∀ x ∈ (typed? l).toList, numbersAt typed? x.2 front = [] →
      ∀ n ∈ numbersAt link? x.2 front, n < x.1 := by
  simp only [Option.mem_toList, Option.mem_def, Prod.forall]
  exact ⟨fun h => ⟨h.stamp, h.alloc, h.link, h.typed⟩, fun h => ⟨h.1, h.2.1, h.2.2.1, h.2.2.2⟩⟩

instance decidableInOrder (front : List Line) (l : Line) : Decidable (InOrder front l) :=
  decidable_of_iff _ inOrder_iff.symm

section Numbers
variable {kind : Line → Option (ℕ × UInt64)} {addr : UInt64} {ls ls' : List Line} {n : ℕ}

theorem mem_numbersAt_iff : n ∈ numbersAt kind addr ls ↔ ∃ l ∈ ls, kind l = some (n, addr) := by
  rw [numbersAt, List.mem_map]
  constructor
  · intro h
    obtain ⟨⟨m, a⟩, hmem, rfl⟩ := h
    obtain ⟨hin, haddr⟩ := List.mem_filter.mp hmem
    obtain ⟨l, hl, hkind⟩ := List.mem_filterMap.mp hin
    obtain rfl : a = addr := beq_iff_eq.mp haddr
    exact ⟨l, hl, hkind⟩
  · intro h
    obtain ⟨l, hl, hkind⟩ := h
    exact ⟨(n, addr), List.mem_filter.mpr ⟨List.mem_filterMap.mpr ⟨l, hl, hkind⟩,
      beq_self_eq_true addr⟩, rfl⟩

theorem numbersAt_append : numbersAt kind addr (ls ++ ls') =
    numbersAt kind addr ls ++ numbersAt kind addr ls' := by
  rw [numbersAt, List.filterMap_append, List.filter_append, List.map_append]
  rfl

theorem numbersAt_eq_nil_iff :
    numbersAt kind addr ls = [] ↔ ∀ l ∈ ls, ∀ n, kind l ≠ some (n, addr) := by
  rw [List.eq_nil_iff_forall_not_mem]
  constructor
  · exact fun h l hl n hkind => h n (mem_numbersAt_iff.mpr ⟨l, hl, hkind⟩)
  · intro h n hn
    obtain ⟨l, hl, hkind⟩ := mem_numbersAt_iff.mp hn
    exact h l hl n hkind

/-- The line that has the first number. -/
theorem exists_first_of_numbersAt {rest : List ℕ} (h : numbersAt kind addr ls = n :: rest) :
    ∃ front l back, ls = front ++ l :: back ∧ kind l = some (n, addr) ∧
      numbersAt kind addr front = [] := by
  induction ls with
  | nil => cases h
  | cons l ls ih =>
      rw [← List.singleton_append, numbersAt_append] at h
      cases hfirst : numbersAt kind addr [l] with
      | nil =>
          rw [hfirst, List.nil_append] at h
          obtain ⟨front, m, back, rfl, hm, hfront⟩ := ih h
          refine ⟨l :: front, m, back, rfl, hm, ?_⟩
          rw [← List.singleton_append, numbersAt_append, hfirst, hfront]
          rfl
      | cons m ms =>
          rw [hfirst] at h
          obtain rfl : m = n := (List.cons.inj h).1
          obtain ⟨x, hx, hkind⟩ := mem_numbersAt_iff.mp
            (show m ∈ numbersAt kind addr [l] by rw [hfirst]; exact List.mem_cons_self)
          obtain rfl := List.mem_singleton.mp hx
          exact ⟨[], x, ls, rfl, hkind, rfl⟩

end Numbers

end Lines

section Order
variable {ls : List Line}

theorem inOrder_snoc {m : Line} (h : ∀ front l, front ++ [l] <+: ls → InOrder front l)
    (hm : InOrder ls m) : ∀ front l, front ++ [l] <+: ls ++ [m] → InOrder front l := by
  intro front l hbegin
  rcases List.prefix_concat_iff.mp hbegin with heq | hbegin
  · obtain ⟨rfl, hlast⟩ := List.append_inj' heq rfl
    rwa [(List.cons.inj hlast).1]
  · exact h front l hbegin

/-- In order, a stamp line has an ALLOC line that is not numbered above it exactly if one stands
before it. -/
theorem stamp_told (h : ∀ front l, front ++ [l] <+: ls → InOrder front l) {front back : List Line}
    {l : Line} {seq : ℕ} {addr : UInt64} (hsplit : ls = front ++ l :: back)
    (hstamp : stamp? l = some (seq, addr)) :
    (∃ n ∈ numbersAt alloc? addr ls, n ≤ seq) ↔ numbersAt alloc? addr front ≠ [] := by
  have hbegin : front ++ [l] <+: ls := ⟨back, by rw [hsplit, List.append_assoc]; rfl⟩
  constructor
  · intro hex hnone
    obtain ⟨n, hn, hle⟩ := hex
    obtain ⟨m, hm, halloc⟩ := mem_numbersAt_iff.mp hn
    -- the ALLOC line stands behind the STAMP line, which nothing allocates before
    have hback : m ∈ back := by
      rw [hsplit, List.mem_append, List.mem_cons] at hm
      rcases hm with hm | rfl | hm
      · exact absurd halloc (numbersAt_eq_nil_iff.mp hnone m hm n)
      · cases m <;> cases halloc
        cases hstamp
      · exact hm
    obtain ⟨mid, rest, rfl⟩ := List.append_of_mem hback
    have hinner : (front ++ l :: mid) ++ [m] <+: ls := ⟨rest, by rw [hsplit]; simp⟩
    have hbare : seq ∈ numbersAt stamp? addr (unallocated addr (front ++ l :: mid)) := by
      refine mem_numbersAt_iff.mpr ⟨l, ?_, hstamp⟩
      rw [unallocated, List.takeWhile_append_of_pos]
      · refine List.mem_append_right _ ?_
        rw [List.takeWhile_cons_of_pos]
        · exact List.mem_cons_self
        · cases l <;> first | rfl | cases hstamp
      · intro x hx
        have hx := numbersAt_eq_nil_iff.mp hnone x hx
        cases hkey : alloc? x with
        | none => rfl
        | some y =>
            have hne : y.2 ≠ addr := by
              intro heq
              exact hx y.1 (by rw [hkey, ← heq])
            simpa using hne
    have hlt := (h _ _ hinner).alloc n addr halloc seq hbare
    omega
  · intro hsome
    obtain ⟨n, hn, hle⟩ := (h _ _ hbegin).stamp seq addr hstamp hsome
    refine ⟨n, ?_, hle⟩
    rw [hsplit, numbersAt_append]
    exact List.mem_append_left _ hn

/-- In order, a link line is numbered below the first STAMP line of its target exactly if that
stands behind it. -/
theorem link_told (h : ∀ front l, front ++ [l] <+: ls → InOrder front l) {front back : List Line}
    {l : Line} {seq : ℕ} {addr : UInt64} (hsplit : ls = front ++ l :: back)
    (hlink : link? l = some (seq, addr)) :
    (∃ n ∈ (numbersAt typed? addr ls).head?, seq < n) ↔
      numbersAt typed? addr front = [] ∧ numbersAt typed? addr back ≠ [] := by
  have hbegin : front ++ [l] <+: ls := ⟨back, by rw [hsplit, List.append_assoc]; rfl⟩
  have hself : numbersAt typed? addr [l] = [] := by
    refine numbersAt_eq_nil_iff.mpr fun x hx n htyped => ?_
    obtain rfl := List.mem_singleton.mp hx
    cases x <;> cases hlink
    cases htyped
  have hall : numbersAt typed? addr ls =
      numbersAt typed? addr front ++ numbersAt typed? addr back := by
    rw [hsplit, ← List.singleton_append, numbersAt_append, numbersAt_append, hself,
      List.nil_append]
  rw [hall]
  cases hfront : numbersAt typed? addr front with
  | cons n rest =>
      refine iff_of_false ?_ fun hboth => by cases hboth.1
      intro hex
      obtain ⟨m, hm, hlt⟩ := hex
      obtain rfl : n = m := Option.some.inj hm
      have hle := (h _ _ hbegin).link seq addr hlink n (by rw [hfront]; rfl)
      omega
  | nil =>
      rw [List.nil_append]
      constructor
      · intro hex
        obtain ⟨m, hm, -⟩ := hex
        refine ⟨rfl, fun hnone => ?_⟩
        rw [hnone] at hm
        cases hm
      · intro hboth
        obtain ⟨n, rest, hback⟩ := List.exists_cons_of_ne_nil hboth.2
        rw [hback]
        refine ⟨n, rfl, ?_⟩
        -- the first STAMP line of the target, and what stands before it
        obtain ⟨mid, m, back', rfl, htyped, hmid⟩ : ∃ mid m back', back = mid ++ m :: back' ∧
            typed? m = some (n, addr) ∧ numbersAt typed? addr mid = [] :=
          exists_first_of_numbersAt hback
        have hinner : (front ++ l :: mid) ++ [m] <+: ls := ⟨back', by rw [hsplit]; simp⟩
        refine (h _ _ hinner).typed n addr htyped ?_ seq ?_
        · rw [← List.singleton_append, numbersAt_append, numbersAt_append, hfront, hself, hmid]
          rfl
        · exact mem_numbersAt_iff.mpr ⟨l, by simp, hlink⟩

/-- The numbers tell of each STAMP line whether an ALLOC line of its address stands before it,
and of each LINK line whether the first STAMP line of its target stands behind it. -/
structure OrderTold (ls : List Line) : Prop where
  stamps : ∀ front l back seq addr, ls = front ++ l :: back → stamp? l = some (seq, addr) →
    ((∃ n ∈ numbersAt alloc? addr ls, n ≤ seq) ↔ numbersAt alloc? addr front ≠ [])
  links : ∀ front l back seq addr, ls = front ++ l :: back → link? l = some (seq, addr) →
    ((∃ n ∈ (numbersAt typed? addr ls).head?, seq < n) ↔
      numbersAt typed? addr front = [] ∧ numbersAt typed? addr back ≠ [])

/-- A line whose beginning is told is in order. -/
theorem OrderTold.inOrder {front : List Line} {l : Line} (h : OrderTold (front ++ [l])) :
    InOrder front l where
  stamp := by
    intro seq addr hstamp hsome
    obtain ⟨n, hn, hle⟩ := (h.stamps front l [] seq addr rfl hstamp).mpr hsome
    have hself : numbersAt alloc? addr [l] = [] := by
      cases l <;> first | rfl | cases hstamp
    rw [numbersAt_append, hself, List.append_nil] at hn
    exact ⟨n, hn, hle⟩
  alloc := by
    intro seq addr halloc n hn
    obtain ⟨m, hm, hstamp⟩ := mem_numbersAt_iff.mp hn
    obtain ⟨before, mid, hsplit⟩ := List.append_of_mem hm
    obtain ⟨rest, hrest⟩ := List.takeWhile_prefix (l := front)
      fun l => (alloc? l).all fun x => x.2 ≠ addr
    have hwhole : front ++ [l] = before ++ m :: (mid ++ rest ++ [l]) := by
      rw [← hrest, ← unallocated, hsplit]
      simp
    have hnone : numbersAt alloc? addr before = [] := by
      refine numbersAt_eq_nil_iff.mpr fun x hx k hkey => ?_
      have hpos := List.mem_takeWhile_imp (show x ∈ unallocated addr front by
        rw [hsplit]
        exact List.mem_append_left _ hx)
      simp [hkey] at hpos
    by_contra hge
    refine (h.stamps before m _ n addr hwhole hstamp).mp ⟨seq, ?_, not_lt.mp hge⟩ hnone
    exact mem_numbersAt_iff.mpr ⟨l, by simp, halloc⟩
  link := by
    intro seq addr hlink n hn
    by_contra hlt
    have hself : numbersAt typed? addr [l] = [] := by
      cases l <;> first | rfl | cases hlink
    refine ((h.links front l [] seq addr rfl hlink).mp ⟨n, ?_, not_le.mp hlt⟩).2 rfl
    rwa [numbersAt_append, hself, List.append_nil]
  typed := by
    intro seq addr htyped hnone n hn
    obtain ⟨m, hm, hlink⟩ := mem_numbersAt_iff.mp hn
    obtain ⟨before, mid, rfl⟩ := List.append_of_mem hm
    have hself : numbersAt typed? addr [l] = [seq] := by
      simp [numbersAt, htyped]
    have hbehind : numbersAt typed? addr (mid ++ [l]) ≠ [] := by
      simp [numbersAt_append, hself]
    have hfirst : numbersAt typed? addr before = [] := by
      rw [numbersAt_append] at hnone
      exact (List.append_eq_nil_iff.mp hnone).1
    obtain ⟨k, hk, hlt⟩ := (h.links before m (mid ++ [l]) n addr (by simp) hlink).mpr
      ⟨hfirst, hbehind⟩
    rw [numbersAt_append, hnone, hself] at hk
    rwa [Option.some.inj hk]

/-- The lines are in order exactly if each of their beginnings is told. -/
theorem inOrder_iff_orderTold : (∀ front l, front ++ [l] <+: ls → InOrder front l) ↔
    ∀ early, early <+: ls → OrderTold early := by
  constructor
  · intro h early hearly
    have h : ∀ front l, front ++ [l] <+: early → InOrder front l := fun front l hbegin =>
      h front l (hbegin.trans hearly)
    exact ⟨fun _ _ _ _ _ => stamp_told h, fun _ _ _ _ _ => link_told h⟩
  · exact fun h front l hbegin => (h _ hbegin).inOrder

end Order

section Names

/-- The reader returns a plain character in front of a name. -/
theorem reread_cons {c : Char} (h : c ∉ ['"', '\\', '\r', '\t']) (hline : c ≠ '\n') (cs : Text) :
    reread (c :: cs) = c :: reread cs := by
  have hquote : c ≠ '"' := fun hc => h (by simp [hc])
  have hback : c ≠ '\\' := fun hc => h (by simp [hc])
  rw [reread_eq, reread_eq, esc_cons, escChar_of_plain h hline, List.singleton_append,
    List.takeWhile_cons_of_pos (by simpa using hquote), unbreak_cons_of_ne hback]

/-- Of another character it leaves a newline or a backslash. -/
theorem head_reread {c d : Char} {cs ds : Text} (h : reread (c :: cs) = d :: ds)
    (hc : c ∈ ['"', '\\', '\r', '\t', '\n']) : d ∈ ['\\', '\n'] := by
  have hescaped (e : Char) (hne : e ≠ 'n') (rest : Text) :
      unbreak ('\\' :: (e :: rest).takeWhile fun c => c ≠ '"') = d :: ds → d = '\\' := by
    intro heq
    by_cases hquote : e = '"'
    · rw [List.takeWhile_cons_of_neg (by simpa using hquote)] at heq
      exact ((List.cons.inj heq).1).symm
    · rw [List.takeWhile_cons_of_pos (by simpa using hquote), unbreak_backslash hne] at heq
      exact ((List.cons.inj heq).1).symm
  rw [reread_eq, esc_cons] at h
  simp only [List.mem_cons, List.not_mem_nil, or_false] at hc
  rcases hc with rfl | rfl | rfl | rfl | rfl
  · exact List.mem_cons.mpr (.inl (hescaped '"' (by decide) _ h))
  · exact List.mem_cons.mpr (.inl (hescaped '\\' (by decide) _ h))
  · exact List.mem_cons.mpr (.inl (hescaped 'r' (by decide) _ h))
  · exact List.mem_cons.mpr (.inl (hescaped 't' (by decide) _ h))
  · have hnewline : unbreak ('\\' :: 'n' :: (esc cs).takeWhile fun c => c ≠ '"') = d :: ds := h
    rw [unbreak_escape] at hnewline
    rw [← (List.cons.inj hnewline).1]
    decide

/-- A name begins with plain letters exactly if what is read of it does. -/
theorem isPrefixOf_reread {p : Text} (hp : ∀ c ∈ p, c ∉ ['"', '\\', '\r', '\t', '\n']) (s : Text) :
    p.isPrefixOf (reread s) = p.isPrefixOf s := by
  induction p generalizing s with
  | nil => rw [List.isPrefixOf_nil_left, List.isPrefixOf_nil_left]
  | cons x p ih =>
      have hx := hp x List.mem_cons_self
      cases s with
      | nil => rfl
      | cons c cs =>
          by_cases hc : c ∈ ['"', '\\', '\r', '\t', '\n']
          · have hne : x ≠ c := fun heq => hx (heq ▸ hc)
            have hfalse : (x :: p).isPrefixOf (c :: cs) = false := by
              simp [List.isPrefixOf, hne]
            rw [hfalse]
            cases hread : reread (c :: cs) with
            | nil => rfl
            | cons d ds =>
                have hd := head_reread hread hc
                have hne' : x ≠ d := by
                  intro heq
                  rw [← heq] at hd
                  rcases List.mem_pair.mp hd with hd | hd
                  · exact hx (by simp [hd])
                  · exact hx (by simp [hd])
                simp [List.isPrefixOf, hne']
          · have hplain : c ∉ ['"', '\\', '\r', '\t'] := fun hmem => hc (by
              simp only [List.mem_cons, List.not_mem_nil, or_false] at hmem ⊢
              tauto)
            have hline : c ≠ '\n' := fun heq => hc (by simp [heq])
            rw [reread_cons hplain hline, List.isPrefixOf_cons_cons, List.isPrefixOf_cons_cons,
              ih (fun c hc => hp c (List.mem_cons_of_mem x hc))]

end Names

section Checker
variable {ls : List Line} {g : TopoGraph} {addr : UInt64}

/-- Freeing an entry leaves its number and its address. -/
theorem map_freeFirst (addr : UInt64) (freeSeq : ℕ) (as : List AllocEvent) :
    (freeFirst addr freeSeq as).map (fun a => (a.seq, a.addr)) =
      as.map fun a => (a.seq, a.addr) := by
  induction as with
  | nil => rfl
  | cons a as ih =>
      rw [freeFirst]
      split
      · rfl
      · rw [List.map_cons, List.map_cons, ih]

theorem map_bookOf (hnumber : ∀ l ∈ ls, l.number < 2 ^ 64) :
    (bookOf ls).map (fun a => (a.seq, a.addr)) = (ls.filterMap alloc?).reverse := by
  induction ls using List.reverseRecOn with
  | nil => rfl
  | append_singleton ls l ih =>
      have ih := ih fun m hm => hnumber m (List.mem_append_left _ hm)
      rw [bookOf_snoc, List.filterMap_append, List.reverse_append, ← ih]
      cases l with
      | alloc seq tid a size =>
          have hseq : reparse seq = seq :=
            if_pos (hnumber _ (List.mem_append_right _ List.mem_cons_self))
          rw [recordOf, bookRecord, hseq]
          rfl
      | free seq tid a size => exact map_freeFirst ..
      | _ => rfl

/-- The checker's allocations are the ALLOC lines. -/
theorem allocs_lines (hg : g = .ofRecords (ls.map (recordOf rereadName reparse)))
    (hnumber : ∀ l ∈ ls, l.number < 2 ^ 64) :
    g.allocs.map (fun a => (a.seq, a.addr)) = ls.filterMap alloc? := by
  rw [hg, allocs_ofRecords, ← bookOf, List.map_reverse, map_bookOf hnumber, List.reverse_reverse]

/-- A stamp stands at an allocation site as the checker reads it exactly if it does in its
line. -/
theorem isAllocSite_reread (s : StampEvent) (source : String) (h : s.source = rereadName source) :
    TopoGraph.isAllocSite s = "alloc@".toList.isPrefixOf source.toList := by
  have hplain : ∀ c ∈ "alloc@".toList, c ∉ ['"', '\\', '\r', '\t', '\n'] := by simp
  have hsource : (rereadName source).toList = reread source.toList := String.toList_ofList
  rw [TopoGraph.isAllocSite, h, hsource, isPrefixOf_reread hplain]

/-- The stamps that the checker compares with links are the STAMP lines of no allocation site. -/
theorem typed_lines (hg : g = .ofRecords (ls.map (recordOf rereadName reparse)))
    (hnumber : ∀ l ∈ ls, l.number < 2 ^ 64) :
    (g.stamps.filter fun s => !TopoGraph.isAllocSite s).map (fun s => (s.seq, s.addr)) =
      ls.filterMap typed? := by
  rw [(books_lines hg).1, List.filter_filterMap, List.map_filterMap]
  apply List.filterMap_congr
  intro l hl
  have hlt := hnumber l hl
  cases l with
  | stamp seq addr typeName typeSize source fieldCount =>
      have hseq : reparse seq = seq := if_pos hlt
      have hsite := isAllocSite_reread
        ⟨seq, addr, rereadName typeName, typeSize, rereadName source, reparse fieldCount⟩ source rfl
      rw [readStamp?, recordOf, hseq, typed?, Record.stamp?, Option.filter_some, hsite]
      cases "alloc@".toList.isPrefixOf source.toList <;> rfl
  | _ => rfl

end Checker

section Read
variable {α : Type} {f : α → ℕ × UInt64} {kind : Line → Option (ℕ × UInt64)} {xs : List α}
  {ls : List Line}

theorem numbersAt_read (h : xs.map f = ls.filterMap kind) (addr : UInt64) :
    numbersAt kind addr ls = (xs.filter fun x => (f x).2 == addr).map fun x => (f x).1 := by
  rw [numbersAt, ← h, List.filter_map, List.map_map]
  rfl

end Read

section Verdicts
variable {ls : List Line} {g : TopoGraph}

/-- The assertion holds exactly if each stamped address that has ALLOC lines has one that is
not numbered above the stamp. -/
theorem stampsBeforeAlloc_eq_zero_iff
    (hg : g = .ofRecords (ls.map (recordOf rereadName reparse)))
    (hnumber : ∀ l ∈ ls, l.number < 2 ^ 64) :
    g.stampsBeforeAlloc = 0 ↔ ∀ l ∈ ls, ∀ x, stamp? l = some x → numbersAt alloc? x.2 ls ≠ [] →
      ∃ n ∈ numbersAt alloc? x.2 ls, n ≤ x.1 := by
  rw [← forall_read_iff (stamps_lines hg hnumber), TopoGraph.stampsBeforeAlloc,
    List.length_eq_zero_iff, List.filter_eq_nil_iff]
  refine forall₂_congr fun s _ => ?_
  rw [numbersAt_read (allocs_lines hg hnumber)]
  simp [and_assoc]

theorem firstStampSeq_eq (hg : g = .ofRecords (ls.map (recordOf rereadName reparse)))
    (hnumber : ∀ l ∈ ls, l.number < 2 ^ 64) (addr : UInt64) :
    g.firstStampSeq addr = (numbersAt typed? addr ls).head? := by
  rw [numbersAt_read (typed_lines hg hnumber), TopoGraph.firstStampSeq, List.head?_map,
    List.filter_filter, List.head?_filter]
  simp [Bool.and_comm]

/-- The assertion holds exactly if no link is numbered below the first stamp of its target. -/
theorem linksBeforeStamp_eq_zero_iff
    (hg : g = .ofRecords (ls.map (recordOf rereadName reparse)))
    (hnumber : ∀ l ∈ ls, l.number < 2 ^ 64) :
    g.linksBeforeStamp = 0 ↔ ∀ l ∈ ls, ∀ x, link? l = some x → x.2 ≠ 0 →
      ¬ ∃ n ∈ (numbersAt typed? x.2 ls).head?, x.1 < n := by
  rw [← forall_read_iff (links_lines hg hnumber), TopoGraph.linksBeforeStamp,
    List.length_eq_zero_iff, List.filter_eq_nil_iff]
  refine forall₂_congr fun l _ => ?_
  rw [TopoGraph.isEarly, firstStampSeq_eq hg hnumber]
  cases (numbersAt typed? l.toAddr ls).head? <;> simp

end Verdicts

section Targets
variable {host : Host} {ev : Ring.Event} {s : State} {l : Line}

/-- No LINK line targets the null address. -/
def Aims (l : Line) : Prop := ∀ x, link? l = some x → x.2 ≠ 0

theorem aims_of_linksAs (h : ∀ field, linksAs field l = false) : Aims l := by
  intro x hx
  cases l with
  | link seq fromName fromAddr toAddr pointeeType edgeField =>
      have hfield := h (rereadName edgeField)
      simp [linksAs] at hfield
  | _ => cases hx

theorem aims_fieldLinks (hl : l ∈ Write.fieldLinks ev s) : Aims l := by
  rw [Write.fieldLinks, Write.linkedField] at hl
  split at hl
  · rename_i hstore
    obtain ⟨y, -, rfl⟩ := List.mem_map.mp hl
    intro x hx
    obtain rfl := Option.some.inj hx
    exact hstore.2.2
  · cases hl

theorem aims_variableStamps {h : Interval} (hl : l ∈ Write.variableStamps host ev h s) :
    Aims l := by
  intro x hx
  rw [Write.variableStamps] at hl
  split at hl
  · cases hl
  · split at hl
    · cases hl
    · split at hl
      · rw [List.mem_singleton.mp hl] at hx
        cases hx
      · cases hl

theorem aims_pointerLines {h : Interval} (hl : l ∈ Write.pointerLines host ev h s) : Aims l := by
  rw [Write.pointerLines] at hl
  split at hl
  · cases hl
  · rename_i hvalue
    rcases List.mem_append.mp hl with hl | hl
    · split at hl
      · exact aims_variableStamps hl
      · cases hl
    · intro x hx
      rw [List.mem_singleton.mp hl] at hx
      obtain rfl := Option.some.inj hx
      exact hvalue

theorem aims_nodeLines (hl : l ∈ Write.nodeLines host ev s) : Aims l := by
  rw [Write.nodeLines] at hl
  split at hl
  · cases hl
  · split at hl
    · exact aims_pointerLines hl
    · cases hl

/-- The graph lines of an event. -/
theorem aims_graphLines (hl : l ∈ graphLines host ev s) : Aims l := by
  rw [graphLines] at hl
  split at hl
  · rcases List.mem_append.mp hl with hl | hl
    · rw [Write.heapLines] at hl
      split at hl
      · rcases List.mem_append.mp hl with hl | hl
        · exact aims_fieldLinks hl
        · exact aims_of_linksAs fun _ => linksAs_propagateLines hl
      · cases hl
    · exact aims_nodeLines hl
  · exact aims_of_linksAs fun _ => linksAs_birthLines hl
  · cases hl

/-- The lines of a run. -/
theorem aims_runEvents {start : State} (hstart : Opens start) (events : List HostEvent)
    {ls : List Line} (hls : (runEvents start events).topo = some ls) : ∀ l ∈ ls, Aims l := by
  have hdrawn : ∃ gs, (runEvents start events).drawn = some gs ∧ ∀ l ∈ gs, Aims l := by
    clear hls
    induction events using List.reverseRecOn with
    | nil =>
        refine ⟨[], ?_, fun l hl => absurd hl List.not_mem_nil⟩
        show start.topo.map _ = _
        rw [hstart.stream]
        rfl
    | append_singleton events e ih =>
        obtain ⟨gs, hgs, haims⟩ := ih
        have hdraws := draws_processEvent e.1 e.2 (runEvents start events)
        rw [Draws, hgs] at hdraws
        rw [runEvents_snoc]
        refine ⟨_, hdraws, fun l hl => ?_⟩
        rcases List.mem_append.mp hl with hl | hl
        · exact haims l hl
        · exact aims_graphLines hl
  obtain ⟨gs, hgs, haims⟩ := hdrawn
  rw [State.drawn, State.linesOf, hls] at hgs
  obtain rfl := Option.some.inj hgs
  intro l hl x hx
  refine haims l (List.mem_filter.mpr ⟨hl, ?_⟩) x hx
  cases l <;> first | rfl | cases hx

end Targets

/-- Where each line of a run is in order, both assertions fail exactly if a line comes before
the one that should precede it. -/
theorem temporal_exact {start : Engine.State} (hstart : Opens start) (events : List HostEvent)
    {ls : List Line} (hls : (runEvents start events).topo = some ls)
    (hordered : ∀ front l, front ++ [l] <+: ls → InOrder front l) :
    ∃ g, TopoGraph.build (topologyFile ls) = some g ∧
      (evalOne g .allocBeforeStamp = false ↔ StampedUnallocated ls) ∧
      (evalOne g .stampBeforeLink = false ↔ LinkedUnstamped ls) := by
  refine ⟨_, build_topologyFile ls, ?_⟩
  set g := TopoGraph.ofRecords (ls.map (recordOf rereadName reparse)) with hg
  have hnumber : ∀ l ∈ ls, l.number < 2 ^ 64 := fun l hl =>
    (number_lt_of_runEvents hstart events hls l hl).trans (by decide)
  have hmem {front back : List Line} {l : Line} (hsplit : ls = front ++ l :: back) : l ∈ ls := by
    rw [hsplit]
    exact List.mem_append_right _ List.mem_cons_self
  have htold : OrderTold ls := inOrder_iff_orderTold.mp hordered ls (List.prefix_refl ls)
  have hstamps : evalOne g .allocBeforeStamp = true ↔ ¬ StampedUnallocated ls := by
    rw [evalOne, decide_eq_true_iff, stampsBeforeAlloc_eq_zero_iff hg hnumber]
    constructor
    · intro h hbare
      obtain ⟨front, l, back, seq, addr, hsplit, hstamp, hsome, hnone⟩ := hbare
      have hex := h l (hmem hsplit) _ hstamp hsome
      exact (htold.stamps _ _ _ _ _ hsplit hstamp).mp hex hnone
    · intro h l hl x hx hsome
      obtain ⟨front, back, hsplit⟩ := List.append_of_mem hl
      refine (htold.stamps _ _ _ _ _ hsplit hx).mpr fun hnone => ?_
      exact h ⟨front, l, back, x.1, x.2, hsplit, hx, hsome, hnone⟩
  have hlinks : evalOne g .stampBeforeLink = true ↔ ¬ LinkedUnstamped ls := by
    rw [evalOne, decide_eq_true_iff, linksBeforeStamp_eq_zero_iff hg hnumber]
    constructor
    · intro h hbare
      obtain ⟨front, l, back, seq, addr, hsplit, hlink, hboth⟩ := hbare
      have haim := aims_runEvents hstart events hls l (hmem hsplit) _ hlink
      exact h l (hmem hsplit) _ hlink haim ((htold.links _ _ _ _ _ hsplit hlink).mpr hboth)
    · intro h l hl x hx _ hex
      obtain ⟨front, back, hsplit⟩ := List.append_of_mem hl
      have hboth := (htold.links _ _ _ _ _ hsplit hx).mp hex
      exact h ⟨front, l, back, x.1, x.2, hsplit, hx, hboth⟩
  rw [← Bool.not_eq_true, hstamps, not_not, ← Bool.not_eq_true, hlinks, not_not]
  exact ⟨Iff.rfl, Iff.rfl⟩

/-- A block is stored in a variable. -/
def storedWhenAllocated : List HostEvent :=
  [(.plain, numbered 1 1 (plainEvent EVENT_ALLOC 0x20000 64)),
    (.plain, numbered 1 2 (plainEvent EVENT_WRITE 0x4000 0x20000))]

/-- Its lines are in order. -/
theorem temporal_exact_stored : ∃ g, TopoGraph.build (topologyFile
      [.alloc 1 1 0x20000 64, .stamp 2 0x20000 "node" 16 "head" 0,
        .link 2 "head" 0x4000 0x20000 "node" "head"]) = some g ∧
      (evalOne g .allocBeforeStamp = false ↔ StampedUnallocated
      [.alloc 1 1 0x20000 64, .stamp 2 0x20000 "node" 16 "head" 0,
        .link 2 "head" 0x4000 0x20000 "node" "head"]) ∧
      (evalOne g .stampBeforeLink = false ↔ LinkedUnstamped
      [.alloc 1 1 0x20000 64, .stamp 2 0x20000 "node" 16 "head" 0,
        .link 2 "head" 0x4000 0x20000 "node" "head"]) := by
  refine @temporal_exact { twoVariables with topo := some [] } ⟨rfl, rfl⟩ storedWhenAllocated _
    (by decide +kernel) ?_
  have h0 : ∀ front l, front ++ [l] <+: [] → InOrder front l := by
    intro front l hbegin
    simp at hbegin
  have h1 := inOrder_snoc h0 (m := .alloc 1 1 0x20000 64) (by decide)
  have h2 := inOrder_snoc h1 (m := .stamp 2 0x20000 "node" 16 "head" 0) (by decide)
  exact inOrder_snoc h2 (by decide)

/-- A thread allocates a block, another one stores it in a variable. -/
def storedByAnother : List HostEvent :=
  [(.plain, numbered 1 5 (plainEvent EVENT_ALLOC 0x20000 64)),
    (.plain, numbered 2 1 (plainEvent EVENT_WRITE 0x4000 0x20000))]

/-- An assertion fails on it, though the ALLOC line comes first. -/
theorem temporal_numbered_by_thread :
    ¬ ∀ (start : Engine.State), Opens start → ∀ (events : List HostEvent) (ls : List Line),
      (runEvents start events).topo = some ls → ∃ g, TopoGraph.build (topologyFile ls) = some g ∧
        (evalOne g .allocBeforeStamp = false ↔ StampedUnallocated ls) ∧
        (evalOne g .stampBeforeLink = false ↔ LinkedUnstamped ls) := by
  intro h
  obtain ⟨g, hg, hiff, -⟩ := h { twoVariables with topo := some [] } ⟨rfl, rfl⟩ storedByAnother
    [.alloc 5 1 0x20000 64, .stamp 1 0x20000 "node" 16 "head" 0,
      .link 1 "head" 0x4000 0x20000 "node" "head"]
    (by decide +kernel)
  rw [build_topologyFile] at hg
  rw [← Option.some.inj hg] at hiff
  exact absurd (hiff.mp (by decide +kernel)) (by decide)

end Rtmap.Check
