import Rtmap.Engine.IndexCalls

/-!
# Lookups against the intervals held

What an address should resolve to is a matter of the intervals held: the one of the
highest tier, then of the least width. The cache answers with an interval that once was
that for another address, and the search of the static intervals looks at one start only.
-/
namespace Rtmap.Engine
open Stabbing (StartsLast)

/-- What an address should resolve to: a best interval with the offset in it, where some
interval holds the address. -/
def Specified (held : List Interval) (addr : UInt64) : Option (Interval × UInt64) → Prop
  | none => ∀ iv ∈ held, iv.contains addr = false
  | some x => Best held addr x.1 ∧ x.2 = addr - x.1.lo

namespace AddressIndex

/-- The lookup returns what is specified of the held intervals, and that is one answer. -/
def Agrees (orders : IndexOrders) (idx : AddressIndex) (addr : UInt64) : Prop :=
  ∀ x, Specified idx.held addr x ↔ x = (idx.lookupResult orders addr).2

/-- The cache and the search of the static intervals do not get in the way: no two best
intervals tie, the first cached one over the address is beaten by none, and where neither the
cache nor a frame has one, a best one starts last at or below the address. -/
structure Undisturbed (idx : AddressIndex) (addr : UInt64) : Prop where
  untied : ∀ a b, Best idx.held addr a → Best idx.held addr b → a = b
  cached : ∀ e iv, (idx.mru.find? fun e => e.contains addr) = some e →
    idx.resolveMru e = some iv →
      ∀ other ∈ idx.held, other.contains addr = true → other.beats iv = false
  starts : (idx.mru.find? fun e => e.contains addr) = none →
    (∀ f ∈ idx.dynamics, ∀ iv ∈ f.2, iv.contains addr = false) →
      ∀ iv, Best idx.held addr iv → StartsLast Interval.lo idx.statics addr iv

theorem specified_only_none {held : List Interval} {addr : UInt64} :
    (∀ x, Specified held addr x ↔ x = none) ↔ ∀ iv ∈ held, iv.contains addr = false := by
  constructor
  · exact fun h => (h none).mpr rfl
  · intro h x
    cases x with
    | none => exact iff_of_true h rfl
    | some x =>
        refine iff_of_false (fun hx => ?_) nofun
        exact Bool.false_ne_true ((h x.1 hx.1.mem).symm.trans hx.1.contains)

theorem specified_only_some {held : List Interval} {addr : UInt64} {iv : Interval} :
    (∀ x, Specified held addr x ↔ x = some (iv, addr - iv.lo)) ↔
      Best held addr iv ∧ ∀ a b, Best held addr a → Best held addr b → a = b := by
  constructor
  · intro h
    have hiv (a : Interval) (ha : Best held addr a) : a = iv :=
      congrArg Prod.fst (Option.some.inj ((h (some (a, addr - a.lo))).mp ⟨ha, rfl⟩))
    exact ⟨((h _).mpr rfl).1, fun a b ha hb => (hiv a ha).trans (hiv b hb).symm⟩
  · rintro ⟨hbest, huntied⟩ x
    cases x with
    | none =>
        refine iff_of_false (fun h => ?_) nofun
        exact Bool.false_ne_true ((h iv hbest.mem).symm.trans hbest.contains)
    | some x =>
        constructor
        · rintro ⟨hx, hoffset⟩
          have heq := huntied x.1 iv hx hbest
          rw [← heq, ← hoffset]
        · intro h
          obtain rfl := Option.some.inj h
          exact ⟨hbest, rfl⟩

section Agreement
variable {idx : AddressIndex} {orders : IndexOrders} {addr : UInt64}

theorem inUniverse_of_contains (h : Sound idx) {iv : Interval} (hiv : iv ∈ idx.held)
    (hover : iv.contains addr = true) : idx.inUniverse addr = true := by
  obtain ⟨hlo, hhi⟩ := h.within iv hiv
  rw [Interval.contains, Bool.and_eq_true, decide_eq_true_eq, decide_eq_true_eq] at hover
  rw [inUniverse, Bool.and_eq_true, decide_eq_true_eq, decide_eq_true_eq]
  exact ⟨hlo.trans hover.1, lt_of_lt_of_le hover.2 hhi⟩

theorem mem_held_of_resolveMru {e : MruEntry} {iv : Interval} (h : idx.resolveMru e = some iv) :
    iv ∈ idx.held := mem_held.mpr (files_of_resolveMru h)

/-- Any interval of a frame beats those of the globals and their fields. -/
theorem best_of_frames (h : Sound idx) {iv : Interval} (hframe : ∃ f ∈ idx.dynamics, iv ∈ f.2)
    (hover : iv.contains addr = true) (hleast : ∀ f ∈ idx.dynamics, ∀ other ∈ f.2,
      other.contains addr = true → iv.span ≤ other.span) : Best idx.held addr iv := by
  obtain ⟨f, hf, hiv⟩ := hframe
  refine ⟨mem_held.mpr (.inr ⟨f, hf, hiv⟩), hover, fun other hother hcontains => ?_⟩
  rw [Interval.not_beats_iff, h.frames f hf iv hiv]
  rcases mem_held.mp hother with hother | ⟨g, hg, hother⟩
  · exact .inl (h.statics other hother)
  · exact .inr ⟨h.frames g hg other hother, hleast g hg other hother hcontains⟩

/-- Where no frame has one, the intervals over the address are static. -/
theorem mem_statics_of_held (hframes : ∀ f ∈ idx.dynamics, ∀ iv ∈ f.2, iv.contains addr = false)
    {iv : Interval} (hiv : iv ∈ idx.held) (hover : iv.contains addr = true) : iv ∈ idx.statics := by
  rcases mem_held.mp hiv with hiv | ⟨f, hf, hiv⟩
  · exact hiv
  · rw [hframes f hf iv hiv] at hover
    cases hover

/-- The first cached entry over the address is the one that the loop stops at. -/
theorem dropWhile_mru {e : MruEntry} (h : (idx.mru.find? fun e => e.contains addr) = some e) :
    ∃ back, (idx.mru.dropWhile fun e => !e.contains addr) = e :: back := by
  obtain ⟨hover, front, back, hsplit, hfront⟩ := List.find?_eq_some_iff_append.mp h
  refine ⟨back, ?_⟩
  rw [hsplit, List.dropWhile_append_of_pos hfront,
    List.dropWhile_cons_of_neg (by simpa using hover)]

theorem dropWhile_mru_nil (h : (idx.mru.find? fun e => e.contains addr) = none) :
    (idx.mru.dropWhile fun e => !e.contains addr) = [] := by
  rw [List.dropWhile_eq_nil_iff]
  intro e he
  simpa using List.find?_eq_none.mp h e he

theorem lookupResult_of_out (h : idx.inUniverse addr = false) :
    (idx.lookupResult orders addr).2 = none := by
  rw [lookupResult, h]
  rfl

theorem lookupResult_of_cached (hin : idx.inUniverse addr = true) {e : MruEntry} {iv : Interval}
    (h : (idx.mru.find? fun e => e.contains addr) = some e) (hiv : idx.resolveMru e = some iv)
    (hlo : e.lo = iv.lo) : (idx.lookupResult orders addr).2 = some (iv, addr - iv.lo) := by
  obtain ⟨back, hdrop⟩ := dropWhile_mru h
  unfold lookupResult
  rw [hin, hdrop, ← hlo]
  exact congrArg (Option.map fun iv => (iv, addr - e.lo)) hiv

theorem lookupResult_of_frame (hin : idx.inUniverse addr = true)
    (h : (idx.mru.find? fun e => e.contains addr) = none) {x : FrameHit}
    (hx : idx.lookupDynamics orders addr = some x) :
    (idx.lookupResult orders addr).2 = some (x.interval, addr - x.interval.lo) := by
  unfold lookupResult
  rw [hin, dropWhile_mru_nil h, hx]
  rfl

theorem lookupResult_of_static (hin : idx.inUniverse addr = true)
    (h : (idx.mru.find? fun e => e.contains addr) = none)
    (hx : idx.lookupDynamics orders addr = none) : (idx.lookupResult orders addr).2 =
      (idx.lookupStatics addr).map fun x => (x.1, addr - x.1.lo) := by
  unfold lookupResult
  rw [hin, dropWhile_mru_nil h, hx]
  cases idx.lookupStatics addr <;> rfl

/-- Out of the range of all intervals nothing is found, and rightly so. -/
theorem agrees_of_out (h : Sound idx) (hin : idx.inUniverse addr = false) :
    Agrees orders idx addr ∧ Undisturbed idx addr := by
  have hnone (iv : Interval) (hiv : iv ∈ idx.held) : iv.contains addr = false := by
    by_contra hover
    rw [Bool.not_eq_false] at hover
    rw [inUniverse_of_contains h hiv hover] at hin
    cases hin
  have hbest (a : Interval) : ¬ Best idx.held addr a := fun ha =>
    Bool.false_ne_true ((hnone a ha.mem).symm.trans ha.contains)
  constructor
  · unfold Agrees
    rw [lookupResult_of_out hin]
    exact specified_only_none.mpr hnone
  · refine ⟨fun a _ ha => absurd ha (hbest a), fun e iv he hiv => ?_, fun _ _ iv hiv =>
      absurd hiv (hbest iv)⟩
    obtain ⟨jv, hjv, hlo, hhi⟩ := h.cached e (List.mem_of_find?_eq_some he)
    have hover := List.find?_some he
    rw [MruEntry.contains_eq, hlo, hhi] at hover
    exact absurd hover (by rw [← Interval.contains, hnone jv (mem_held_of_resolveMru hjv)]; simp)

theorem agrees_of_cached (h : Sound idx) (hin : idx.inUniverse addr = true) {e : MruEntry}
    (hfind : (idx.mru.find? fun e => e.contains addr) = some e) :
    Agrees orders idx addr ↔ Undisturbed idx addr := by
  obtain ⟨iv, hiv, hlo, hhi⟩ := h.cached e (List.mem_of_find?_eq_some hfind)
  have hover : iv.contains addr = true := by
    have hcontains := List.find?_some hfind
    rwa [MruEntry.contains_eq, hlo, hhi] at hcontains
  unfold Agrees
  rw [lookupResult_of_cached hin hfind hiv hlo, specified_only_some]
  constructor
  · rintro ⟨hbest, huntied⟩
    refine ⟨huntied, fun d jv hd hjv => ?_, fun hnone => ?_⟩
    · obtain rfl := Option.some.inj (hfind.symm.trans hd)
      obtain rfl := Option.some.inj (hiv.symm.trans hjv)
      exact hbest.unbeaten
    · rw [hfind] at hnone
      cases hnone
  · intro hcond
    exact ⟨⟨mem_held_of_resolveMru hiv, hover, hcond.cached e iv hfind hiv⟩, hcond.untied⟩

theorem agrees_of_frame (h : Sound idx) (hin : idx.inUniverse addr = true)
    (hfind : (idx.mru.find? fun e => e.contains addr) = none) {x : FrameHit}
    (hx : idx.lookupDynamics orders addr = some x) :
    Agrees orders idx addr ↔ Undisturbed idx addr := by
  obtain ⟨-, hover, hframe, hleast⟩ := h.lookupDynamics_eq_some hx
  unfold Agrees
  rw [lookupResult_of_frame hin hfind hx, specified_only_some]
  constructor
  · rintro ⟨-, huntied⟩
    refine ⟨huntied, fun e _ he => ?_, fun _ hnone => ?_⟩
    · rw [hfind] at he
      cases he
    · obtain ⟨f, hf, hiv⟩ := hframe
      rw [hnone f hf _ hiv] at hover
      cases hover
  · exact fun hcond => ⟨best_of_frames h hframe hover hleast, hcond.untied⟩

/-- Of the static intervals over the address, one that starts last and is unbeaten among
those that do is best if any best one starts last. -/
theorem agrees_of_static (hsorted : idx.statics.Pairwise fun a b => a.lo ≤ b.lo)
    (hin : idx.inUniverse addr = true)
    (hfind : (idx.mru.find? fun e => e.contains addr) = none)
    (hx : idx.lookupDynamics orders addr = none) :
    Agrees orders idx addr ↔ Undisturbed idx addr := by
  have hframes := lookupDynamics_eq_none.mp hx
  have hcached (e : MruEntry) (iv : Interval)
      (he : (idx.mru.find? fun e => e.contains addr) = some e) : idx.resolveMru e = some iv →
        ∀ other ∈ idx.held, other.contains addr = true → other.beats iv = false := by
    rw [hfind] at he
    cases he
  unfold Agrees
  rw [lookupResult_of_static hin hfind hx]
  cases hstatic : idx.lookupStatics addr with
  | none =>
      have hnone := (lookupStatics_eq_none hsorted).mp hstatic
      rw [Option.map_none, specified_only_none]
      constructor
      · intro hout
        have hbest (a : Interval) : ¬ Best idx.held addr a := fun ha =>
          Bool.false_ne_true ((hout a ha.mem).symm.trans ha.contains)
        exact ⟨fun a _ ha => absurd ha (hbest a), hcached, fun _ _ a ha => absurd ha (hbest a)⟩
      · intro hcond iv hiv
        by_contra hover
        rw [Bool.not_eq_false] at hover
        obtain ⟨best, hbest⟩ := exists_best hiv hover
        have hout := hnone best (hcond.starts hfind hframes best hbest)
        exact Bool.false_ne_true (hout.symm.trans hbest.contains)
  | some x =>
      obtain ⟨hlast, hover, hunbeaten⟩ := lookupStatics_eq_some hsorted hstatic
      rw [Option.map_some, specified_only_some]
      constructor
      · rintro ⟨hbest, huntied⟩
        refine ⟨huntied, hcached, fun _ _ iv hiv => ?_⟩
        rw [huntied iv x.1 hiv hbest]
        exact hlast
      · intro hcond
        have hheld : x.1 ∈ idx.held := mem_held.mpr (.inl hlast.mem)
        obtain ⟨best, hbest⟩ := exists_best hheld hover
        have hstarts := hcond.starts hfind hframes best hbest
        exact ⟨hbest.of_not_beats hheld hover (hunbeaten best hstarts hbest.contains), hcond.untied⟩

end Agreement

/-- After any calls: a lookup in the finalized index agrees with the intervals held, whatever
was looked up before and in whatever order frames are iterated over, exactly if it is
undisturbed. -/
theorem lookup_agrees_iff (calls : List IndexCall) (orders : IndexOrders) (addr : UInt64)
    (hsorted : (runCalls calls).staticsSorted = true) :
    Agrees orders (runCalls calls) addr ↔ Undisturbed (runCalls calls) addr := by
  have h := sound_runCalls calls
  generalize runCalls calls = idx at h hsorted ⊢
  cases hin : idx.inUniverse addr with
  | false =>
      obtain ⟨hagrees, hcond⟩ : Agrees orders idx addr ∧ Undisturbed idx addr :=
        agrees_of_out h hin
      exact iff_of_true hagrees hcond
  | true =>
      cases hfind : idx.mru.find? fun e => e.contains addr with
      | some e => exact agrees_of_cached h hin hfind
      | none =>
          cases hx : idx.lookupDynamics orders addr with
          | some x => exact agrees_of_frame h hin hfind hx
          | none => exact agrees_of_static (h.sorted hsorted) hin hfind hx

/-- Intervals that share no address are looked up by the calls as specified. -/
theorem undisturbed_of_disjoint {idx : AddressIndex} {addr : UInt64} (h : Sound idx)
    (hproper : ∀ iv ∈ idx.held, iv.lo < iv.hi)
    (hdisjoint : ∀ a ∈ idx.held, ∀ b ∈ idx.held, ∀ x, a.contains x = true →
      b.contains x = true → a = b) : Undisturbed idx addr where
  untied a b ha hb := hdisjoint a ha.mem b hb.mem addr ha.contains hb.contains
  cached e iv he hiv other hother hover := by
    obtain ⟨jv, hjv, hlo, hhi⟩ := h.cached e (List.mem_of_find?_eq_some he)
    obtain rfl := Option.some.inj (hiv.symm.trans hjv)
    have hcontains := List.find?_some he
    rw [MruEntry.contains_eq, hlo, hhi] at hcontains
    rw [hdisjoint other hother iv (mem_held_of_resolveMru hiv) addr hover hcontains,
      Interval.not_beats_iff]
    exact .inr ⟨rfl, le_rfl⟩
  starts _ hframes iv hiv := by
    have hstatics := mem_statics_of_held hframes hiv.mem hiv.contains
    have hover := hiv.contains
    rw [Interval.contains, Bool.and_eq_true, decide_eq_true_eq, decide_eq_true_eq] at hover
    suffices hdisjoint : ∀ a ∈ idx.statics, ∀ b ∈ idx.statics, a.lo < b.lo → a.hi ≤ b.lo from
      .of_disjoint hdisjoint hstatics hover.1 hover.2
    intro a ha b hb hab
    by_contra hlt
    have haheld : a ∈ idx.held := mem_held.mpr (.inl ha)
    have hbheld : b ∈ idx.held := mem_held.mpr (.inl hb)
    have hacontains : a.contains b.lo = true := by
      rw [Interval.contains, Bool.and_eq_true, decide_eq_true_eq, decide_eq_true_eq]
      exact ⟨hab.le, not_le.mp hlt⟩
    have hbcontains : b.contains b.lo = true := by
      rw [Interval.contains, Bool.and_eq_true, decide_eq_true_eq, decide_eq_true_eq]
      exact ⟨le_rfl, hproper b hbheld⟩
    exact absurd hab (by
      rw [hdisjoint a haheld b hbheld b.lo hacontains hbcontains]
      exact lt_irrefl _)

/-- A variable of sixteen bytes with a field of four at its start, looked up past the field. -/
def nested : List IndexCall :=
  [.insertGlobal 0x1000 16 "g" ⟨"pair", 16, false, false, false, false, []⟩ 0,
    .insertField 0x1000 4 "g.a" ⟨"int", 4, false, false, false, false, []⟩ 0 0,
    .finalize .plain, .lookup .plain 0x1008]

theorem not_agrees_nested : ¬ Agrees .plain (runCalls nested) 0x1002 := by
  intro h
  have hresult : ((runCalls nested).lookupResult .plain 0x1002).2 = some
      (⟨0x1000, 0x1010, "g", ⟨"pair", 16, false, false, false, false, []⟩, .global 0⟩, 2) := rfl
  have hbest := ((h _).mpr hresult.symm).1
  have hfield := hbest.unbeaten
    ⟨0x1000, 0x1004, "g.a", ⟨"int", 4, false, false, false, false, []⟩, .field 0 0⟩
    (List.mem_cons_of_mem _ List.mem_cons_self) (by decide)
  exact absurd hfield (by decide)

/-- The cache answers with the variable where the field should be found. -/
theorem lookup_not_agrees : ¬ ∀ (calls : List IndexCall) (orders : IndexOrders) (addr : UInt64),
    (runCalls calls).staticsSorted = true → Agrees orders (runCalls calls) addr :=
  fun h => not_agrees_nested (h nested .plain 0x1002 rfl)

theorem nested_disturbed :
    (runCalls nested).staticsSorted = true ∧ ¬ Undisturbed (runCalls nested) 0x1002 :=
  ⟨rfl, fun h => not_agrees_nested ((lookup_agrees_iff nested .plain 0x1002 rfl).mpr h)⟩

end AddressIndex

end Rtmap.Engine
