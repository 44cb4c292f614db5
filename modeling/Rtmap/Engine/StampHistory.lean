import Mathlib.Data.Finset.Card
import Rtmap.Engine.StampCalls

/-!
# The history of a type map

Over any calls: what the projections are keyed by, which stamps replace which,
and what the two counters of replacements add up to.
-/
namespace Rtmap.Engine.ShadowTypeMap

/-- The address whose projection the effect replaces by one of another type. -/
def Effect.replaces (m : ShadowTypeMap) : Effect → Option UInt64
  | .stamp s =>
      match m.lookup s.addr, (s.apply m).lookup s.addr with
      | some p, some q => if p.typeInfo.name = q.typeInfo.name then none else some s.addr
      | _, _ => none
  | .purge _ _ => none

/-- The addresses of the replacements, in their order. -/
def replacedFrom : List Effect → ShadowTypeMap → List UInt64
  | [], _ => []
  | e :: es, m => (e.replaces m).toList ++ replacedFrom es (e.apply m)

def replaced (effects : List Effect) : List UInt64 := replacedFrom effects {}

/-- The effect drops the projection of the address. -/
def Effect.purges (a : UInt64) : Effect → Bool
  | .stamp _ => false
  | .purge addr size => !outside addr size a

/-- What holds of the projections and the counters after these effects. -/
structure Orderly (effects : List Effect) : Prop where
  keyed : ∀ a p, (after effects).lookup a = some p →
    p.baseAddr = a ∧ a ≠ 0 ∧ p.typeInfo.byteSize ≠ 0
  grows : ∀ early late, effects = early ++ late → ∀ a, (∀ e ∈ late, e.purges a = false) →
    ∀ p, (after early).lookup a = some p →
      ∃ q, (after effects).lookup a = some q ∧ p.stampSeq ≤ q.stampSeq
  refuses : ∀ early s, effects = early ++ [.stamp s] → ∀ p,
    (after early).lookup s.addr = some p → p.typeInfo.name ≠ s.typeInfo.name →
      s.seq < p.stampSeq → (after effects).lookup s.addr = some p
  total : (after effects).schismCount + (after effects).poolReuseCount = (replaced effects).length
  /-- the first replacement at an address counts as a schism, the later ones as reuse -/
  firsts : (after effects).schismCount = (replaced effects).toFinset.card

section Step
variable {m : ShadowTypeMap} {s : Stamp} {e : Effect}

/-- One more replacement at the address. -/
def countHit (m : ShadowTypeMap) (addr : UInt64) : ShadowTypeMap :=
  { m with
    addrSchisms := Function.update m.addrSchisms addr (m.addrSchisms addr + 1)
    schismCount := if m.addrSchisms addr = 0 then m.schismCount + 1 else m.schismCount
    poolReuseCount :=
      if m.addrSchisms addr = 0 then m.poolReuseCount else m.poolReuseCount + 1 }

/-- A stamp that finds a projection of its type, or a later one. -/
def Stamp.idle (m : ShadowTypeMap) (s : Stamp) : Prop :=
  s.addr = 0 ∨ s.typeInfo.byteSize = 0 ∨ ∃ p, m.lookup s.addr = some p ∧
    (p.typeInfo.name = s.typeInfo.name ∨ s.seq < p.stampSeq)

def Stamp.projection (s : Stamp) : TypeProjection := ⟨s.addr, s.typeInfo, s.source, s.seq⟩

/-- A stamp does nothing, projects its type on an address without a projection, or replaces
one of another type that is not newer. -/
theorem Stamp.apply_cases (s : Stamp) (m : ShadowTypeMap) :
    (s.idle m ∧ s.apply m = m) ∨
    (s.addr ≠ 0 ∧ s.typeInfo.byteSize ≠ 0 ∧ m.lookup s.addr = none ∧
      s.apply m = m.project s.addr s.typeInfo s.source s.seq) ∨
    (s.addr ≠ 0 ∧ s.typeInfo.byteSize ≠ 0 ∧
      (∃ p, m.lookup s.addr = some p ∧ p.typeInfo.name ≠ s.typeInfo.name ∧ p.stampSeq ≤ s.seq) ∧
      s.apply m = (m.countHit s.addr).project s.addr s.typeInfo s.source s.seq) := by
  rw [idle, lookup, Stamp.apply, stampType]
  by_cases hnull : s.addr = 0 ∨ s.typeInfo.byteSize = 0
  · rw [if_pos hnull]
    exact .inl ⟨hnull.elim .inl fun h => .inr (.inl h), rfl⟩
  · rw [if_neg hnull]
    obtain ⟨haddr, hsize⟩ := not_or.mp hnull
    cases m.map.get? s.addr with
    | none => exact .inr (.inl ⟨haddr, hsize, rfl, rfl⟩)
    | some p =>
        dsimp only
        by_cases hname : p.typeInfo.name = s.typeInfo.name
        · rw [if_pos hname]
          exact .inl ⟨.inr (.inr ⟨p, rfl, .inl hname⟩), rfl⟩
        · rw [if_neg hname]
          by_cases hseq : p.stampSeq > s.seq
          · rw [if_pos hseq]
            exact .inl ⟨.inr (.inr ⟨p, rfl, .inr hseq⟩), rfl⟩
          · rw [if_neg hseq]
            refine .inr (.inr ⟨haddr, hsize, ⟨p, rfl, hname, not_lt.mp hseq⟩, ?_⟩)
            by_cases hhits : m.addrSchisms s.addr = 0
            · simp [countHit, project, hhits]
            · simp [countHit, project, hhits, Nat.one_le_iff_ne_zero]

theorem lookup_project (m : ShadowTypeMap) (addr : UInt64) (ti : TypeInfo) (source : String)
    (seq : ℕ) (a : UInt64) :
    (m.project addr ti source seq).lookup a =
      if a = addr then some ⟨addr, ti, source, seq⟩ else m.lookup a :=
  SortedMap.get?_insert ..

/-- What a stamp leaves at an address. -/
theorem Stamp.lookup_apply (s : Stamp) (m : ShadowTypeMap) (a : UInt64) :
    (s.idle m ∧ (s.apply m).lookup a = m.lookup a) ∨
      (¬ s.idle m ∧ (s.apply m).lookup a =
        if a = s.addr then some s.projection else m.lookup a) := by
  rcases s.apply_cases m with ⟨hidle, heq⟩ | ⟨haddr, hsize, hnone, heq⟩ |
    ⟨haddr, hsize, ⟨p, hp, hname, hseq⟩, heq⟩
  · rw [heq]
    exact .inl ⟨hidle, rfl⟩
  · refine .inr ⟨?_, heq ▸ lookup_project ..⟩
    rintro (h | h | ⟨p, hp, -⟩)
    · exact haddr h
    · exact hsize h
    · rw [hnone] at hp
      cases hp
  · refine .inr ⟨?_, heq ▸ lookup_project ..⟩
    rintro (h | h | ⟨q, hq, hcond⟩)
    · exact haddr h
    · exact hsize h
    · obtain rfl := Option.some.inj (hp.symm.trans hq)
      exact hcond.elim hname fun h => absurd h (not_lt.mpr hseq)

end Step

/-- Projections are filed under their base, which is not null, and their types have a size. -/
def Keyed (m : ShadowTypeMap) : Prop :=
  ∀ a p, m.lookup a = some p → p.baseAddr = a ∧ a ≠ 0 ∧ p.typeInfo.byteSize ≠ 0

section Keyed
variable {m : ShadowTypeMap} {a : UInt64} {p : TypeProjection}

theorem keyed_empty : Keyed {} := fun _ _ h => by cases h

theorem Keyed.apply (h : Keyed m) (e : Effect) : Keyed (e.apply m) := by
  intro a p hp
  cases e with
  | stamp s =>
      rcases s.lookup_apply m a with ⟨-, heq⟩ | ⟨hbusy, heq⟩
      · exact h a p (heq ▸ hp)
      · have hp := heq.symm.trans hp
        split at hp
        · rename_i ha
          obtain rfl := Option.some.inj hp
          refine ⟨ha.symm, ha ▸ fun hnull => hbusy (.inl hnull), fun hsize => ?_⟩
          exact hbusy (.inr (.inl hsize))
        · exact h a p hp
  | purge addr size => exact h a p (SortedMap.get?_retain_eq_some.mp hp).1

theorem Keyed.after (effects : List Effect) : Keyed (after effects) := by
  induction effects using List.reverseRecOn with
  | nil => exact keyed_empty
  | append_singleton front e ih =>
      rw [ShadowTypeMap.after, List.foldl_append]
      exact ih.apply e

/-- An effect that does not purge the address leaves a projection there, which is as it was
or newer. -/
theorem Keyed.grows (h : Keyed m) (hp : m.lookup a = some p) {e : Effect}
    (hkept : e.purges a = false) :
    ∃ q, (e.apply m).lookup a = some q ∧ p.stampSeq ≤ q.stampSeq := by
  cases e with
  | stamp s =>
      rcases s.lookup_apply m a with ⟨-, heq⟩ | ⟨hbusy, heq⟩
      · exact ⟨p, heq.trans hp, le_rfl⟩
      · by_cases ha : a = s.addr
        · refine ⟨s.projection, heq.trans (if_pos ha), not_lt.mp fun hlt => hbusy ?_⟩
          exact .inr (.inr ⟨p, ha ▸ hp, .inr hlt⟩)
        · exact ⟨p, (heq.trans (if_neg ha)).trans hp, le_rfl⟩
  | purge addr size =>
      refine ⟨p, SortedMap.get?_retain_eq_some.mpr ⟨hp, ?_⟩, le_rfl⟩
      rw [(h a p hp).1]
      simpa [Effect.purges] using hkept

end Keyed

/-- The counters count the replacements listed. -/
structure Counted (m : ShadowTypeMap) (l : List UInt64) : Prop where
  hits : ∀ a, m.addrSchisms a = l.count a
  total : m.schismCount + m.poolReuseCount = l.length
  firsts : m.schismCount = l.toFinset.card

section Counted
variable {m : ShadowTypeMap} {l : List UInt64}

theorem Counted.countHit (h : Counted m l) (addr : UInt64) :
    Counted (m.countHit addr) (l ++ [addr]) where
  hits a := by
    change Function.update m.addrSchisms addr (m.addrSchisms addr + 1) a = _
    rw [List.count_append, List.count_singleton, ← h.hits, Function.update_apply]
    by_cases ha : a = addr
    · simp [ha]
    · simp [ha, Ne.symm ha]
  total := by
    have htotal := h.total
    simp only [ShadowTypeMap.countHit, List.length_append, List.length_singleton]
    split
    · omega
    · omega
  firsts := by
    have hinsert : (l ++ [addr]).toFinset = insert addr l.toFinset := by
      ext a
      simp
    have hfirst : m.addrSchisms addr = 0 ↔ addr ∉ l.toFinset := by
      rw [h.hits, List.count_eq_zero, List.mem_toFinset]
    simp only [ShadowTypeMap.countHit]
    rw [hinsert]
    split
    · rename_i hzero
      rw [Finset.card_insert_of_notMem (hfirst.mp hzero), h.firsts]
    · rename_i hmem
      rw [Finset.insert_eq_of_mem (not_not.mp fun hnot => hmem (hfirst.mpr hnot)), h.firsts]

theorem Counted.project (h : Counted m l) (addr : UInt64) (ti : TypeInfo) (source : String)
    (seq : ℕ) : Counted (m.project addr ti source seq) l := ⟨h.hits, h.total, h.firsts⟩

theorem Counted.apply (h : Counted m l) (e : Effect) :
    Counted (e.apply m) (l ++ (e.replaces m).toList) := by
  cases e with
  | purge addr size =>
      rw [show (Effect.purge addr size).replaces m = none from rfl, Option.toList_none,
        List.append_nil]
      exact ⟨h.hits, h.total, h.firsts⟩
  | stamp s =>
      rw [Effect.apply, Effect.replaces]
      rcases s.apply_cases m with ⟨-, heq⟩ | ⟨-, -, hnone, heq⟩ | ⟨-, -, ⟨p, hp, hname, -⟩, heq⟩
      · rw [heq]
        cases m.lookup s.addr with
        | none => simpa using h
        | some p => simpa using h
      · rw [hnone, heq]
        simpa using h.project _ _ _ _
      · rw [heq, lookup_project, if_pos rfl, hp]
        dsimp only
        rw [if_neg hname]
        exact (h.countHit s.addr).project _ _ _ _

end Counted

theorem replacedFrom_append (front back : List Effect) (m : ShadowTypeMap) :
    replacedFrom (front ++ back) m =
      replacedFrom front m ++ replacedFrom back (front.foldl Effect.apply m) := by
  induction front generalizing m with
  | nil => rfl
  | cons e front ih =>
      rw [List.cons_append, replacedFrom, ih, List.foldl_cons, replacedFrom, List.append_assoc]

theorem counted_after (effects : List Effect) : Counted (after effects) (replaced effects) := by
  induction effects using List.reverseRecOn with
  | nil => exact ⟨fun _ => rfl, rfl, rfl⟩
  | append_singleton front e ih =>
      rw [replaced, replacedFrom_append, replacedFrom, replacedFrom, List.append_nil, after,
        List.foldl_append]
      exact ih.apply e

theorem grows_after (early late : List Effect) {a : UInt64}
    (hkept : ∀ e ∈ late, e.purges a = false) {p : TypeProjection}
    (hp : (after early).lookup a = some p) :
    ∃ q, (after (early ++ late)).lookup a = some q ∧ p.stampSeq ≤ q.stampSeq := by
  induction late using List.reverseRecOn with
  | nil => exact ⟨p, by rwa [List.append_nil], le_rfl⟩
  | append_singleton late e ih =>
      obtain ⟨q, hq, hle⟩ := ih fun e he => hkept e (List.mem_append_left _ he)
      obtain ⟨r, hr, hle'⟩ := (Keyed.after (early ++ late)).grows hq
        (hkept e (List.mem_append_right _ List.mem_cons_self))
      refine ⟨r, ?_, hle.trans hle'⟩
      rw [after, ← List.append_assoc, List.foldl_append]
      exact hr

theorem orderly (effects : List Effect) : Orderly effects where
  keyed := Keyed.after effects
  grows early late heq a hkept p hp := heq ▸ grows_after early late hkept hp
  refuses early s heq p hp _ hlt := by
    rw [heq, after, List.foldl_append]
    rcases s.lookup_apply (after early) s.addr with ⟨-, hsame⟩ | ⟨hbusy, -⟩
    · exact hsame.trans hp
    · exact absurd (.inr (.inr ⟨p, hp, .inr hlt⟩)) hbusy
  total := (counted_after effects).total
  firsts := (counted_after effects).firsts

/-- Over any calls: projections and counters are as the stamps and purges of the calls leave
them one after the other, and these are orderly at each point. -/
theorem calls_orderly (calls : List StmCall) :
    (runCalls calls).bare = after (history calls) ∧
      ∀ effects, effects <+: history calls → Orderly effects :=
  ⟨bare_runCalls calls, fun effects _ => orderly effects⟩

end Rtmap.Engine.ShadowTypeMap
