import Rtmap.Engine.FrameNodes
import Rtmap.Lib.Stabbing

/-!
# Calls of the address index

Any sequence of insertions, removals, finalizations and lookups keeps the index sound. What
its two searches find, and the best interval over an address among those held.
-/
namespace Rtmap.Engine
open Stabbing (StartsLast lastGroup mem_lastGroup)

section PickBest
variable {α : Type} {better : α → α → Bool}

theorem pickBest_eq_none {l : List α} : pickBest better l = none ↔ l = [] := by
  have hfold : ∀ (l : List α) (b : α), (l.foldl (pickStep better) (some b)).isSome := by
    intro l
    induction l with
    | nil => exact fun _ => rfl
    | cons c l ih =>
        intro b
        rw [List.foldl_cons]
        dsimp only [pickStep]
        split
        · exact ih c
        · exact ih b
  constructor
  · intro h
    cases l with
    | nil => rfl
    | cons c l =>
        have hsome : (pickBest better (c :: l)).isSome := hfold l c
        rw [h] at hsome
        cases hsome
  · rintro rfl
    rfl

/-- What is picked is beaten by none, where entries that do not beat each other rank alike. -/
theorem unbeaten_of_pickBest (hasymm : ∀ a b, better a b = true → better b a = false)
    (htrans : ∀ a b c, better b a = false → better c b = false → better c a = false)
    {l : List α} {x : α} (h : pickBest better l = some x) : ∀ y ∈ l, better y x = false := by
  have hfold : ∀ (l : List α) (b : α), l.foldl (pickStep better) (some b) = some x →
      better b x = false ∧ ∀ y ∈ l, better y x = false := by
    intro l
    induction l with
    | nil =>
        intro b hb
        obtain rfl := Option.some.inj hb
        refine ⟨?_, by simp⟩
        by_contra hself
        rw [Bool.not_eq_false] at hself
        exact absurd hself (by rw [hasymm _ _ hself]; simp)
    | cons c l ih =>
        intro b hb
        rw [List.foldl_cons] at hb
        dsimp only [pickStep] at hb
        split at hb
        · rename_i hbeats
          obtain ⟨hc, hrest⟩ := ih c hb
          refine ⟨htrans x c b hc (hasymm c b hbeats), fun y hy => ?_⟩
          rcases List.mem_cons.mp hy with rfl | hy
          · exact hc
          · exact hrest y hy
        · rename_i hbeats
          rw [Bool.not_eq_true] at hbeats
          obtain ⟨hb', hrest⟩ := ih b hb
          refine ⟨hb', fun y hy => ?_⟩
          rcases List.mem_cons.mp hy with rfl | hy
          · exact htrans x b y hb' hbeats
          · exact hrest y hy
  cases l with
  | nil => cases h
  | cons c l =>
      obtain ⟨hc, hrest⟩ := hfold l c h
      intro y hy
      rcases List.mem_cons.mp hy with rfl | hy
      · exact hc
      · exact hrest y hy

end PickBest

namespace Interval

/-- Of a higher tier, or of the same one and narrower. -/
def beats (a b : Interval) : Bool :=
  a.nodeId.rank > b.nodeId.rank || (a.nodeId.rank == b.nodeId.rank && a.span < b.span)

theorem beats_iff {a b : Interval} : a.beats b = true ↔
    b.nodeId.rank < a.nodeId.rank ∨ a.nodeId.rank = b.nodeId.rank ∧ a.span < b.span := by
  simp [beats]

theorem not_beats_iff {a b : Interval} : a.beats b = false ↔
    a.nodeId.rank < b.nodeId.rank ∨ a.nodeId.rank = b.nodeId.rank ∧ b.span ≤ a.span := by
  rw [← Bool.not_eq_true, beats_iff]
  constructor
  · intro h
    rcases lt_trichotomy a.nodeId.rank b.nodeId.rank with hlt | heq | hgt
    · exact .inl hlt
    · exact .inr ⟨heq, not_lt.mp fun hspan => h (.inr ⟨heq, hspan⟩)⟩
    · exact absurd (.inl hgt) h
  · rintro (hlt | ⟨heq, hspan⟩) (hgt | ⟨heq', hspan'⟩)
    · exact absurd hlt (lt_asymm hgt)
    · exact hlt.ne heq'
    · exact hgt.ne' heq
    · exact absurd hspan' (not_lt.mpr hspan)

theorem beats_asymm (a b : Interval) (h : a.beats b = true) : b.beats a = false := by
  rw [not_beats_iff]
  rcases beats_iff.mp h with hlt | ⟨heq, hspan⟩
  · exact .inl hlt
  · exact .inr ⟨heq.symm, hspan.le⟩

theorem beats_trans (a b c : Interval) (hba : b.beats a = false) (hcb : c.beats b = false) :
    c.beats a = false := by
  rw [not_beats_iff] at hba hcb ⊢
  rcases hba with hba | ⟨hba, hspan⟩
  · rcases hcb with hcb | ⟨hcb, -⟩
    · exact .inl (hcb.trans hba)
    · exact .inl (hcb ▸ hba)
  · rcases hcb with hcb | ⟨hcb, hspan'⟩
    · exact .inl (hba ▸ hcb)
    · exact .inr ⟨hcb.trans hba, hspan.trans hspan'⟩

end Interval

/-- An interval that holds the address and that no other one over the address beats. -/
structure Best (held : List Interval) (addr : UInt64) (iv : Interval) : Prop where
  mem : iv ∈ held
  contains : iv.contains addr = true
  unbeaten : ∀ other ∈ held, other.contains addr = true → other.beats iv = false

theorem exists_best {held : List Interval} {addr : UInt64} {iv : Interval} (hiv : iv ∈ held)
    (hover : iv.contains addr = true) : ∃ best, Best held addr best := by
  have hmem : iv ∈ held.filter fun iv => iv.contains addr := List.mem_filter.mpr ⟨hiv, hover⟩
  cases hpick : pickBest Interval.beats (held.filter fun iv => iv.contains addr) with
  | none =>
      rw [pickBest_eq_none.mp hpick] at hmem
      cases hmem
  | some best =>
      have hunbeaten := unbeaten_of_pickBest Interval.beats_asymm Interval.beats_trans hpick
      obtain ⟨hbest, hcontains⟩ := List.mem_filter.mp (pickBest_mem hpick)
      exact ⟨best, hbest, hcontains, fun other hother hc =>
        hunbeaten other (List.mem_filter.mpr ⟨hother, hc⟩)⟩

theorem Best.of_not_beats {held : List Interval} {addr : UInt64} {a b : Interval}
    (ha : Best held addr a) (hb : b ∈ held) (hover : b.contains addr = true)
    (h : a.beats b = false) : Best held addr b :=
  ⟨hb, hover, fun other hother hc => Interval.beats_trans _ _ _ h (ha.unbeaten other hother hc)⟩

inductive IndexCall where
  | insertGlobal (addr size : UInt64) (name : String) (typeInfo : TypeInfo) (globalIdx : UInt32)
  | insertField (addr size : UInt64) (name : String) (typeInfo : TypeInfo) (globalIdx : UInt32)
      (fieldIdx : UInt16)
  | insertFrameLocals (frameId : FrameId) (frameBase : UInt64) (locals : List LocalVar)
  | removeFrame (frameId : FrameId)
  | finalize (orders : IndexOrders)
  | lookup (orders : IndexOrders) (addr : UInt64)

namespace MruEntry

def lo : MruEntry → UInt64
  | .static lo .. => lo
  | .dynamic lo .. => lo

def hi : MruEntry → UInt64
  | .static _ hi _ => hi
  | .dynamic _ hi .. => hi

theorem contains_eq (e : MruEntry) (addr : UInt64) :
    e.contains addr = (addr ≥ e.lo && addr < e.hi) := by
  cases e <;> rfl

end MruEntry

namespace AddressIndex

/-- `lookup` with `offset_in_var`: of a cache hit from the start that the cache keeps. -/
def lookupResult (orders : IndexOrders) (idx : AddressIndex) (addr : UInt64) :
    AddressIndex × Option (Interval × UInt64) :=
  if !idx.inUniverse addr then (idx, none)
  else
    match idx.mru.dropWhile fun e => !e.contains addr with
    | e :: back =>
        let idx := { idx with mru := e :: (idx.mru.takeWhile (fun e => !e.contains addr) ++ back) }
        (idx, (idx.resolveMru e).map fun iv => (iv, addr - e.lo))
    | [] =>
        match lookupDynamics orders idx addr with
        | some h =>
            (idx.pushMru (.dynamic h.interval.lo h.interval.hi h.frameId h.localIdx),
              some (h.interval, addr - h.interval.lo))
        | none =>
            match idx.lookupStatics addr with
            | some (iv, i) => (idx.pushMru (.static iv.lo iv.hi i), some (iv, addr - iv.lo))
            | none => (idx, none)

def call (idx : AddressIndex) : IndexCall → AddressIndex
  | .insertGlobal addr size name typeInfo gi => idx.insertGlobal addr size name typeInfo gi
  | .insertField addr size name typeInfo gi fi => idx.insertField addr size name typeInfo gi fi
  | .insertFrameLocals fid base locals => idx.insertFrameLocals fid base locals
  | .removeFrame fid => idx.removeFrame fid
  | .finalize orders => idx.finalize orders
  | .lookup orders addr => (idx.lookup orders addr).1

def runCalls (calls : List IndexCall) : AddressIndex := calls.foldl call {}

def held (idx : AddressIndex) : List Interval := idx.statics ++ idx.dynamics.flatMap Prod.snd

theorem mem_held {idx : AddressIndex} {iv : Interval} :
    iv ∈ idx.held ↔ iv ∈ idx.statics ∨ ∃ f ∈ idx.dynamics, iv ∈ f.2 := by
  rw [held, List.mem_append, List.mem_flatMap]

/-- What every call keeps: the order of finalized static intervals, each cache entry that of
a held interval, the bounds around all intervals, and the tiers apart. -/
structure Sound (idx : AddressIndex) : Prop where
  sorted : idx.staticsSorted = true → idx.statics.Pairwise fun a b => a.lo ≤ b.lo
  cached : ∀ e ∈ idx.mru, ∃ iv, idx.resolveMru e = some iv ∧ e.lo = iv.lo ∧ e.hi = iv.hi
  within : ∀ iv ∈ idx.held, idx.universeLo ≤ iv.lo ∧ iv.hi ≤ idx.universeHi
  statics : ∀ iv ∈ idx.statics, iv.nodeId.rank < 2
  frames : ∀ f ∈ idx.dynamics, ∀ iv ∈ f.2, iv.nodeId.rank = 2
  distinct : (idx.dynamics.map Prod.fst).Nodup

section Keeps
variable {idx : AddressIndex}

theorem Sound.start : Sound {} where
  sorted _ := .nil
  cached := by simp
  within := by simp [held]
  statics := by simp
  frames := by simp
  distinct := .nil

theorem universe_widenUniverse (idx : AddressIndex) (lo hi : UInt64) :
    (idx.widenUniverse lo hi).universeLo ≤ idx.universeLo ∧
      idx.universeHi ≤ (idx.widenUniverse lo hi).universeHi ∧
      (idx.widenUniverse lo hi).universeLo ≤ lo ∧ hi ≤ (idx.widenUniverse lo hi).universeHi := by
  simp only [widenUniverse]
  refine ⟨?_, ?_, ?_, ?_⟩ <;> split
  all_goals first | exact le_rfl | exact le_of_lt (by assumption) | exact not_lt.mp (by assumption)

theorem Sound.insertStatic (h : Sound idx) (addr size : UInt64) (name : String)
    (typeInfo : TypeInfo) {nodeId : NodeId} (hrank : nodeId.rank < 2) :
    Sound (idx.insertStatic addr size name typeInfo nodeId) := by
  rw [AddressIndex.insertStatic]
  split
  · exact h
  · set iv : Interval := ⟨addr, addr + size, name, typeInfo, nodeId⟩ with hiv
    obtain ⟨hlo, hhi, hiv_lo, hiv_hi⟩ := universe_widenUniverse
      { idx with statics := idx.statics ++ [iv], staticsSorted := false, mru := [] }
      addr (addr + size)
    refine ⟨fun h => absurd h Bool.false_ne_true, by simp [widenUniverse], fun x hx => ?_,
      fun x hx => ?_, h.frames, h.distinct⟩
    · rcases mem_held.mp hx with hx | hx
      · rcases List.mem_append.mp hx with hx | hx
        · have hold := h.within x (mem_held.mpr (.inl hx))
          exact ⟨hlo.trans hold.1, hold.2.trans hhi⟩
        · rw [List.mem_singleton.mp hx]
          exact ⟨hiv_lo, hiv_hi⟩
      · have hold := h.within x (mem_held.mpr (.inr hx))
        exact ⟨hlo.trans hold.1, hold.2.trans hhi⟩
    · rcases List.mem_append.mp hx with hx | hx
      · exact h.statics x hx
      · rw [List.mem_singleton.mp hx]
        exact hrank

theorem Sound.removeFrame (h : Sound idx) (fid : FrameId) : Sound (idx.removeFrame fid) := by
  have hmem {f : FrameId × List Interval}
      (hf : f ∈ idx.dynamics.filter fun f => f.1 ≠ fid) : f ∈ idx.dynamics :=
    List.mem_of_mem_filter hf
  refine ⟨h.sorted, by simp [AddressIndex.removeFrame], fun x hx => ?_, h.statics,
    fun f hf => h.frames f (hmem hf), h.distinct.sublist (List.filter_sublist.map _)⟩
  apply h.within x
  rw [mem_held] at hx ⊢
  rcases hx with hx | ⟨f, hf, hx⟩
  · exact .inl hx
  · exact .inr ⟨f, hmem hf, hx⟩

theorem rank_frameIntervals {fid : FrameId} {base : UInt64} {locals : List LocalVar}
    {iv : Interval} (h : iv ∈ frameIntervals fid base locals) : iv.nodeId.rank = 2 := by
  obtain ⟨l, -, rfl⟩ := List.mem_map.mp h
  rfl

theorem universe_foldl_widenUniverse (ivs : List Interval) : ∀ idx : AddressIndex,
    (ivs.foldl (fun i iv => i.widenUniverse iv.lo iv.hi) idx).universeLo ≤ idx.universeLo ∧
      idx.universeHi ≤ (ivs.foldl (fun i iv => i.widenUniverse iv.lo iv.hi) idx).universeHi ∧
      ∀ iv ∈ ivs, (ivs.foldl (fun i iv => i.widenUniverse iv.lo iv.hi) idx).universeLo ≤ iv.lo ∧
        iv.hi ≤ (ivs.foldl (fun i iv => i.widenUniverse iv.lo iv.hi) idx).universeHi := by
  induction ivs with
  | nil => exact fun idx => ⟨le_rfl, le_rfl, by simp⟩
  | cons x ivs ih =>
      intro idx
      obtain ⟨hlo, hhi, hx_lo, hx_hi⟩ := universe_widenUniverse idx x.lo x.hi
      obtain ⟨hlo', hhi', hall⟩ := ih (idx.widenUniverse x.lo x.hi)
      rw [List.foldl_cons]
      refine ⟨hlo'.trans hlo, hhi.trans hhi', fun iv hiv => ?_⟩
      rcases List.mem_cons.mp hiv with rfl | hiv
      · exact ⟨hlo'.trans hx_lo, hx_hi.trans hhi'⟩
      · exact hall iv hiv

theorem foldl_widenUniverse_statics (ivs : List Interval) (idx : AddressIndex) :
    (ivs.foldl (fun i iv => i.widenUniverse iv.lo iv.hi) idx).statics = idx.statics ∧
      (ivs.foldl (fun i iv => i.widenUniverse iv.lo iv.hi) idx).staticsSorted =
        idx.staticsSorted := by
  induction ivs generalizing idx with
  | nil => exact ⟨rfl, rfl⟩
  | cons x ivs ih => exact ih (idx.widenUniverse x.lo x.hi)

theorem Sound.insertFrameLocals (h : Sound idx) (fid : FrameId) (base : UInt64)
    (locals : List LocalVar) : Sound (idx.insertFrameLocals fid base locals) := by
  set ivs := frameIntervals fid base locals with hivs
  obtain ⟨hlo, hhi, hall⟩ := universe_foldl_widenUniverse ivs idx
  obtain ⟨hstatics, hsorted⟩ := foldl_widenUniverse_statics ivs idx
  have hdynamics := foldl_widenUniverse_dynamics ivs idx
  set widened := ivs.foldl (fun i iv => i.widenUniverse iv.lo iv.hi) idx with hwidened
  have hold (iv : Interval) (hiv : iv ∈ idx.held) :
      widened.universeLo ≤ iv.lo ∧ iv.hi ≤ widened.universeHi :=
    ⟨hlo.trans (h.within iv hiv).1, (h.within iv hiv).2.trans hhi⟩
  have hcall : idx.insertFrameLocals fid base locals =
      if ivs.isEmpty then { widened with mru := [] }
      else { widened with
        dynamics := (fid, ivs) :: idx.dynamics.filter (fun f => f.1 ≠ fid)
        mru := [] } := rfl
  rw [hcall]
  split
  · refine ⟨?_, by simp, fun iv hiv => hold iv ?_, ?_, ?_, ?_⟩
    · show widened.staticsSorted = true → widened.statics.Pairwise _
      rw [hsorted, hstatics]
      exact h.sorted
    · rw [mem_held] at hiv ⊢
      rw [← hstatics, ← hdynamics]
      exact hiv
    · show ∀ iv ∈ widened.statics, _
      rw [hstatics]
      exact h.statics
    · show ∀ f ∈ widened.dynamics, _
      rw [hdynamics]
      exact h.frames
    · show (widened.dynamics.map Prod.fst).Nodup
      rw [hdynamics]
      exact h.distinct
  · have hmem {f : FrameId × List Interval}
        (hf : f ∈ (fid, ivs) :: idx.dynamics.filter fun f => f.1 ≠ fid) :
        f = (fid, ivs) ∨ f ∈ idx.dynamics :=
      (List.mem_cons.mp hf).imp_right fun hf => List.mem_of_mem_filter hf
    refine ⟨?_, by simp, fun iv hiv => ?_, ?_, fun f hf => ?_, ?_⟩
    · show widened.staticsSorted = true → widened.statics.Pairwise _
      rw [hsorted, hstatics]
      exact h.sorted
    · rcases mem_held.mp hiv with hiv | ⟨f, hf, hiv⟩
      · exact hold iv (mem_held.mpr (.inl (hstatics ▸ hiv)))
      · rcases hmem hf with rfl | hf
        · exact hall iv hiv
        · exact hold iv (mem_held.mpr (.inr ⟨f, hf, hiv⟩))
    · show ∀ iv ∈ widened.statics, _
      rw [hstatics]
      exact h.statics
    · rcases hmem hf with rfl | hf
      · exact fun iv hiv => rank_frameIntervals hiv
      · exact h.frames f hf
    · rw [List.map_cons, List.nodup_cons]
      refine ⟨?_, h.distinct.sublist (List.filter_sublist.map _)⟩
      rw [List.mem_map]
      rintro ⟨f, hf, hfid⟩
      exact absurd hfid (by simpa using List.of_mem_filter hf)

theorem Sound.finalize (h : Sound idx) (orders : IndexOrders) : Sound (idx.finalize orders) := by
  rw [AddressIndex.finalize]
  split
  · exact h
  · have hperm := orders.sortByLo_perm idx.statics
    refine ⟨fun _ => orders.sortByLo_sorted _, by simp, fun iv hiv => ?_, fun iv hiv => ?_,
      h.frames, h.distinct⟩
    · apply h.within iv
      rw [mem_held] at hiv ⊢
      exact hiv.imp_left hperm.mem_iff.mp
    · exact h.statics iv (hperm.mem_iff.mp hiv)

theorem Sound.frame_of_mem (h : Sound idx) {f : FrameId × List Interval} (hf : f ∈ idx.dynamics) :
    idx.frame f.1 = some f.2 := by
  rw [frame]
  cases hfind : idx.dynamics.find? fun g => g.1 = f.1 with
  | none =>
      have hnot := List.find?_eq_none.mp hfind f hf
      simp at hnot
  | some g =>
      have hg : g.1 = f.1 := by simpa using List.find?_some hfind
      rw [List.inj_on_of_nodup_map h.distinct (List.mem_of_find?_eq_some hfind) hf hg]
      rfl

variable {orders : IndexOrders} {addr : UInt64}

/-- What the frames are asked: an interval over the address that none is narrower than. -/
theorem Sound.lookupDynamics_eq_some (h : Sound idx) {x : FrameHit}
    (hx : idx.lookupDynamics orders addr = some x) :
    idx.resolveMru (.dynamic x.interval.lo x.interval.hi x.frameId x.localIdx) = some x.interval ∧
      x.interval.contains addr = true ∧ (∃ f ∈ idx.dynamics, x.interval ∈ f.2) ∧
      ∀ f ∈ idx.dynamics, ∀ iv ∈ f.2, iv.contains addr = true → x.interval.span ≤ iv.span := by
  have hunbeaten := @unbeaten_of_pickBest FrameHit
    (fun a b => decide (a.interval.span < b.interval.span))
    (fun a b hab => decide_eq_false (lt_asymm (of_decide_eq_true hab)))
    (fun a b c hba hcb => decide_eq_false (not_lt.mpr
      ((not_lt.mp (of_decide_eq_false hba)).trans (not_lt.mp (of_decide_eq_false hcb)))))
    _ _ hx
  obtain ⟨f, hf, hhit⟩ := List.mem_flatMap.mp (pickBest_mem hx)
  obtain ⟨⟨iv, i⟩, hiv, rfl⟩ := List.mem_map.mp hhit
  obtain ⟨hmem, hcontains⟩ := List.mem_filter.mp hiv
  have hf := (orders.iterate_perm _).mem_iff.mp hf
  have hat : f.2[i]? = some iv := List.mem_zipIdx_iff_getElem?.mp hmem
  refine ⟨?_, hcontains, ⟨f, hf, List.mem_of_getElem? hat⟩, fun g hg jv hjv hover => ?_⟩
  · show (idx.frame f.1).bind (·[i]?) = some iv
    rw [h.frame_of_mem hf]
    exact hat
  · obtain ⟨j, hj⟩ := List.mem_iff_getElem?.mp hjv
    have hless := hunbeaten ⟨g.1, j, jv⟩ (List.mem_flatMap.mpr ⟨g,
      (orders.iterate_perm _).mem_iff.mpr hg, List.mem_map.mpr ⟨(jv, j), List.mem_filter.mpr
        ⟨List.mem_zipIdx_iff_getElem?.mpr hj, hover⟩, rfl⟩⟩)
    exact not_lt.mp (of_decide_eq_false hless)

theorem lookupDynamics_eq_none : idx.lookupDynamics orders addr = none ↔
    ∀ f ∈ idx.dynamics, ∀ iv ∈ f.2, iv.contains addr = false := by
  rw [lookupDynamics, pickBest_eq_none, List.flatMap_eq_nil_iff]
  constructor
  · intro h f hf iv hiv
    have hnil := h f ((orders.iterate_perm _).mem_iff.mpr hf)
    rw [List.map_eq_nil_iff, List.filter_eq_nil_iff] at hnil
    obtain ⟨i, hi⟩ := List.mem_iff_getElem?.mp hiv
    simpa using hnil (iv, i) (List.mem_zipIdx_iff_getElem?.mpr hi)
  · intro h f hf
    rw [List.map_eq_nil_iff, List.filter_eq_nil_iff]
    intro x hx
    rw [h f ((orders.iterate_perm _).mem_iff.mp hf) x.1
      (List.mem_of_getElem? (List.mem_zipIdx_iff_getElem?.mp hx))]
    exact Bool.false_ne_true

theorem getElem?_of_lookupStatics {x : Interval × ℕ} (hx : idx.lookupStatics addr = some x) :
    idx.statics[x.2]? = some x.1 := by
  rw [lookupStatics] at hx
  dsimp only at hx
  split at hx
  · cases hx
  · have hgroup := (List.takeWhile_sublist _).subset (List.mem_of_mem_filter (pickBest_mem hx))
    have hbelow := (List.takeWhile_sublist _).subset (List.mem_reverse.mp hgroup)
    exact List.mem_zipIdx_iff_getElem?.mp hbelow

/-- The backward walk is over the group of intervals that start last. -/
theorem lookupStatics_eq (idx : AddressIndex) (addr : UInt64) : idx.lookupStatics addr =
    pickBest (fun (a b : Interval × ℕ) => a.1.beats b.1)
      ((lastGroup (fun iv : Interval × ℕ => iv.1.lo) idx.statics.zipIdx addr).filter
        fun iv => addr < iv.1.hi) := by
  rw [lookupStatics, lastGroup]
  dsimp only
  split
  · rename_i hnil
    rw [hnil]
    rfl
  · rename_i hcons
    rw [hcons]
    rfl

theorem mem_lastGroup_zipIdx (hsorted : idx.statics.Pairwise fun a b => a.lo ≤ b.lo)
    {x : Interval × ℕ} :
    x ∈ lastGroup (fun iv : Interval × ℕ => iv.1.lo) idx.statics.zipIdx addr ↔
      idx.statics[x.2]? = some x.1 ∧ StartsLast Interval.lo idx.statics addr x.1 := by
  have hpairs : idx.statics.zipIdx.Pairwise fun a b => a.1.lo ≤ b.1.lo := by
    rw [← List.zipIdx_map_fst 0 idx.statics, List.pairwise_map] at hsorted
    exact hsorted
  rw [mem_lastGroup hpairs]
  constructor
  · intro h
    have hat := List.mem_zipIdx_iff_getElem?.mp h.mem
    refine ⟨hat, List.mem_of_getElem? hat, h.le, fun b hb hbx => ?_⟩
    obtain ⟨j, hj⟩ := List.mem_iff_getElem?.mp hb
    exact h.last (b, j) (List.mem_zipIdx_iff_getElem?.mpr hj) hbx
  · rintro ⟨hat, h⟩
    exact ⟨List.mem_zipIdx_iff_getElem?.mpr hat, h.le, fun b hb hbx =>
      h.last b.1 (List.mem_of_getElem? (List.mem_zipIdx_iff_getElem?.mp hb)) hbx⟩

/-- What the search of the static intervals finds is unbeaten among those that start last. -/
theorem lookupStatics_eq_some (hsorted : idx.statics.Pairwise fun a b => a.lo ≤ b.lo)
    {x : Interval × ℕ} (hx : idx.lookupStatics addr = some x) :
    StartsLast Interval.lo idx.statics addr x.1 ∧ x.1.contains addr = true ∧
      ∀ iv, StartsLast Interval.lo idx.statics addr iv → iv.contains addr = true →
        iv.beats x.1 = false := by
  rw [lookupStatics_eq] at hx
  have hunbeaten := unbeaten_of_pickBest (fun (a b : Interval × ℕ) => Interval.beats_asymm a.1 b.1)
    (fun a b c => Interval.beats_trans a.1 b.1 c.1) hx
  obtain ⟨hgroup, hhi⟩ := List.mem_filter.mp (pickBest_mem hx)
  obtain ⟨-, hlast⟩ := (mem_lastGroup_zipIdx hsorted).mp hgroup
  refine ⟨hlast, ?_, fun iv hiv hover => ?_⟩
  · rw [Interval.contains, Bool.and_eq_true]
    exact ⟨decide_eq_true hlast.le, hhi⟩
  · obtain ⟨j, hj⟩ := List.mem_iff_getElem?.mp hiv.mem
    rw [Interval.contains, Bool.and_eq_true] at hover
    exact hunbeaten (iv, j)
      (List.mem_filter.mpr ⟨(mem_lastGroup_zipIdx hsorted).mpr ⟨hj, hiv⟩, hover.2⟩)

theorem lookupStatics_eq_none (hsorted : idx.statics.Pairwise fun a b => a.lo ≤ b.lo) :
    idx.lookupStatics addr = none ↔
      ∀ iv, StartsLast Interval.lo idx.statics addr iv → iv.contains addr = false := by
  rw [lookupStatics_eq, pickBest_eq_none, List.filter_eq_nil_iff]
  constructor
  · intro h iv hiv
    obtain ⟨j, hj⟩ := List.mem_iff_getElem?.mp hiv.mem
    have hout := h (iv, j) ((mem_lastGroup_zipIdx hsorted).mpr ⟨hj, hiv⟩)
    rw [Interval.contains, Bool.and_eq_false_iff]
    exact .inr (by simpa using hout)
  · intro h x hx hhi
    obtain ⟨-, hlast⟩ := (mem_lastGroup_zipIdx hsorted).mp hx
    have hout := h x.1 hlast
    rw [Interval.contains, Bool.and_eq_false_iff] at hout
    rcases hout with hlo | hout
    · exact of_decide_eq_false hlo hlast.le
    · rw [hout] at hhi
      cases hhi

theorem Sound.withMru (h : Sound idx) {mru : List MruEntry}
    (hmru : ∀ e ∈ mru, ∃ iv, idx.resolveMru e = some iv ∧ e.lo = iv.lo ∧ e.hi = iv.hi) :
    Sound { idx with mru := mru } :=
  ⟨h.sorted, hmru, h.within, h.statics, h.frames, h.distinct⟩

theorem Sound.pushMru (h : Sound idx) {e : MruEntry} {iv : Interval}
    (hiv : idx.resolveMru e = some iv) (hlo : e.lo = iv.lo) (hhi : e.hi = iv.hi) :
    Sound (idx.pushMru e) := by
  refine h.withMru fun d hd => ?_
  rcases List.mem_cons.mp hd with rfl | hd
  · exact ⟨iv, hiv, hlo, hhi⟩
  · exact h.cached d (List.mem_of_mem_take hd)

theorem Sound.lookup (h : Sound idx) (orders : IndexOrders) (addr : UInt64) :
    Sound (idx.lookup orders addr).1 := by
  rw [AddressIndex.lookup]
  split
  · exact h
  · split
    · rename_i e back hmru
      refine h.withMru fun d hd => h.cached d ?_
      rw [← List.takeWhile_append_dropWhile (l := idx.mru) (p := fun e => !e.contains addr), hmru]
      rcases List.mem_cons.mp hd with rfl | hd
      · simp
      · rcases List.mem_append.mp hd with hd | hd
        · exact List.mem_append_left _ hd
        · exact List.mem_append_right _ (List.mem_cons_of_mem _ hd)
    · split
      · rename_i x hx
        exact h.pushMru (h.lookupDynamics_eq_some hx).1 rfl rfl
      · split
        · rename_i iv i hx
          exact h.pushMru (e := .static iv.lo iv.hi i) (getElem?_of_lookupStatics hx) rfl rfl
        · exact h

theorem Sound.call (h : Sound idx) (c : IndexCall) : Sound (idx.call c) := by
  cases c with
  | insertGlobal addr size name typeInfo gi =>
      exact h.insertStatic addr size name typeInfo Nat.zero_lt_two
  | insertField addr size name typeInfo gi fi =>
      exact h.insertStatic addr size name typeInfo Nat.one_lt_two
  | insertFrameLocals fid base locals => exact h.insertFrameLocals fid base locals
  | removeFrame fid => exact h.removeFrame fid
  | finalize orders => exact h.finalize orders
  | lookup orders addr => exact h.lookup orders addr

theorem sound_runCalls (calls : List IndexCall) : Sound (runCalls calls) := by
  have hrun : ∀ idx, Sound idx → Sound (calls.foldl AddressIndex.call idx) := by
    induction calls with
    | nil => exact fun _ h => h
    | cons c calls ih => exact fun idx h => ih _ (h.call c)
  exact hrun {} .start

end Keeps

end AddressIndex

end Rtmap.Engine
