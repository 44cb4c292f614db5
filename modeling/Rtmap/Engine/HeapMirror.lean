import Rtmap.Engine.Bounds

/-!
# The allocator and its mirror

The wrapped functions emit a FREE before and an ALLOC behind the call they wrap. A
realloc so gives up its block before it is known to succeed; and a call around
others gives it up before they run. `HeapRun.Follows` says for which addresses the
tracker still has to agree with the allocator then.
-/
namespace Rtmap.Engine
open Rtmap.Ring Transition

section Wrappers

/-- `user_data` of the calls. -/
def wrapMallocPre (size : UInt64) : UInt64 := size
def wrapCallocPre (nmemb size : UInt64) : UInt64 := nmemb * size

/-- Nothing is pushed for a null pointer. -/
def freed (ptr : UInt64) (tid : UInt16) (seq : UInt32) : Option Op :=
  if ptr = 0 then none else some (.pushExFlags ptr 0 0 EVENT_FREE 0 tid seq)

def allocated (ret size : UInt64) (caller : UInt32) (tid : UInt16) (seq : UInt32) : Option Op :=
  if ret = 0 then none else some (.pushAlloc ret size.toUInt32 size EVENT_ALLOC tid seq caller)

def wrapReallocPre (oldPtr : UInt64) : UInt16 → UInt32 → Option Op := freed oldPtr
def wrapFreePre (ptr : UInt64) : UInt16 → UInt32 → Option Op := freed ptr
def wrapMallocPost (ret size : UInt64) (caller : UInt32) : UInt16 → UInt32 → Option Op :=
  allocated ret size caller
def wrapReallocPost (ret size : UInt64) (caller : UInt32) : UInt16 → UInt32 → Option Op :=
  allocated ret size caller

end Wrappers

/-- A call of a wrapped function. -/
inductive Request where
  | malloc (size : UInt64)
  | calloc (nmemb size : UInt64)
  | realloc (ptr size : UInt64)
  | free (ptr : UInt64)
deriving DecidableEq

namespace Request

def size : Request → UInt64
  | .malloc size => wrapMallocPre size
  | .calloc nmemb size => wrapCallocPre nmemb size
  | .realloc _ size => size
  | .free _ => 0

/-- The block that the call gives up, or null. -/
def old : Request → UInt64
  | .realloc ptr _ | .free ptr => ptr
  | .malloc _ | .calloc .. => 0

def isFree : Request → Bool
  | .free _ => true
  | _ => false

def pre : Request → UInt16 → UInt32 → Option Op
  | .realloc ptr _ => wrapReallocPre ptr
  | .free ptr => wrapFreePre ptr
  | .malloc _ | .calloc .. => fun _ _ => none

def post (r : Request) (ret : UInt64) (caller : UInt32) : UInt16 → UInt32 → Option Op :=
  match r with
  | .malloc _ | .calloc .. => wrapMallocPost ret r.size caller
  | .realloc .. => wrapReallocPost ret r.size caller
  | .free _ => fun _ _ => none

/-- What the allocator can answer: a fresh block or null, a moved or resized block, and
null for a realloc that fails or that gives its block up for the size 0. -/
def Possible (live : UInt64 → Option UInt64) (ret : UInt64) (released : Bool) : Request → Prop
  | .malloc _ => ret = 0 ∨ live ret = none
  | .calloc nmemb size => ret = 0 ∨ live ret = none ∧ nmemb.toNat * size.toNat < 2 ^ 64
  | .realloc ptr size =>
      if ptr = 0 then ret = 0 ∨ live ret = none
      else (live ptr).isSome = true ∧
        if ret = 0 then released = true → size = 0
        else released = true ∧ (ret = ptr ∨ live ret = none)
  | .free ptr => ret = 0 ∧ released = true ∧ (ptr ≠ 0 → (live ptr).isSome = true)

instance (live : UInt64 → Option UInt64) (ret : UInt64) (released : Bool) :
    (r : Request) → Decidable (r.Possible live ret released)
  | .malloc _ => inferInstanceAs (Decidable (_ ∨ _))
  | .calloc .. => inferInstanceAs (Decidable (_ ∨ _))
  | .realloc ptr size => inferInstanceAs (Decidable (if ptr = 0 then ret = 0 ∨ live ret = none
      else (live ptr).isSome = true ∧
        if ret = 0 then released = true → size = 0
        else released = true ∧ (ret = ptr ∨ live ret = none)))
  | .free _ => inferInstanceAs (Decidable (_ ∧ _))

/-- The live blocks behind the call. -/
def done (r : Request) (ret : UInt64) (released : Bool) (live : UInt64 → Option UInt64) :
    UInt64 → Option UInt64 :=
  let live := if r.old ≠ 0 ∧ released = true then Function.update live r.old none else live
  if ret = 0 then live else Function.update live ret (some r.size)

end Request

/-- The engine behind an event that was pushed, if any. -/
def deliver (host : Host) (op : Option Op) (s : State) : State :=
  match op with
  | none => s
  | some op => processEvent host (op.slot 0) s

/-- The blocks that are live in the allocator with their requested sizes, the calls under
way around others, the innermost first, and the engine. -/
structure HeapRun where
  tid : UInt16
  seq : UInt32 := 0
  engine : State := {}
  live : UInt64 → Option UInt64 := fun _ => none
  frames : List Request := []

/-- An input that is neither ALLOC nor FREE. -/
def Input.isOther : Input → Bool
  | .event _ ev => kindOf ev != .alloc && kindOf ev != .free
  | _ => true

/-- A call of the allocator, the beginning and the end of a call around others, and
what else the engine gets. -/
inductive HeapLabel where
  | call (host : Host) (r : Request) (ret : UInt64) (released : Bool) (caller : UInt32)
  | enter (host : Host) (r : Request)
  | exit (host : Host) (ret : UInt64) (caller : UInt32)
  | other (i : Input)

namespace HeapRun

def emit (host : Host) (op : UInt16 → UInt32 → Option Op) (s : HeapRun) : HeapRun :=
  { s with
    engine := deliver host (op s.tid s.seq) s.engine
    seq := if (op s.tid s.seq).isSome then s.seq + 1 else s.seq }

def step : HeapLabel → HeapRun → Option HeapRun
  | .call host r ret released caller, s =>
      if r.Possible s.live ret released then
        some { (s.emit host r.pre).emit host (r.post ret caller) with
          live := r.done ret released s.live }
      else none
  | .enter host r, s => some { s.emit host r.pre with frames := r :: s.frames }
  | .exit host ret caller, s =>
      match s.frames with
      | [] => none
      | r :: rest =>
          if r.isFree = true ∧ ret ≠ 0 then none
          else some { s.emit host (r.post ret caller) with
            frames := rest
            live := if ret ≠ 0 ∧ (s.live ret).isSome then Function.update s.live ret (some r.size)
              else s.live }
  | .other i, s => if i.isOther then some { s with engine := i.apply s.engine } else none

/-- The block is given up by a call under way. -/
def Pending (frames : List Request) (ptr : UInt64) : Prop := ptr ≠ 0 ∧ ptr ∈ frames.map Request.old

/-- The tracker has exactly the live blocks. -/
def Mirrors (s : HeapRun) : Prop := ∀ p, s.engine.world.heapAllocs.allocSize p = s.live p

end HeapRun

/-- The innermost call around others ends with null or a live block, and without the
block it gave up unless it returns this one or a call around it gives it up as well. -/
def Ends (live : UInt64 → Option UInt64) (ret : UInt64) : List Request → Prop
  | [] => True
  | r :: rest => (ret ≠ 0 → (live ret).isSome = true) ∧
      (r.old ≠ 0 → live r.old = none ∨ ret = r.old ∨ r.old ∈ rest.map Request.old)

instance (live : UInt64 → Option UInt64) (ret : UInt64) :
    (frames : List Request) → Decidable (Ends live ret frames)
  | [] => .isTrue trivial
  | _ :: _ => inferInstanceAs (Decidable (_ ∧ _))

/-- A call of the allocator that gives up a block releases it, unless a call around it
gives it up as well. -/
def Fair : HeapLabel → HeapRun → Prop
  | .call _ r _ released _, s =>
      r.old ≠ 0 → released = false → r.old ∈ s.frames.map Request.old
  | .exit _ ret _, s => Ends s.live ret s.frames
  | .enter .., _ | .other _, _ => True

instance : (l : HeapLabel) → (s : HeapRun) → Decidable (Fair l s)
  | .call _ r _ released _, s => inferInstanceAs
      (Decidable (r.old ≠ 0 → released = false → r.old ∈ s.frames.map Request.old))
  | .exit _ ret _, s => inferInstanceAs (Decidable (Ends s.live ret s.frames))
  | .enter .., _ | .other _, _ => .isTrue trivial

/-- Sizes known and sizes live agree at the address, or it is given up and not known. -/
def HeapRun.Agree (frames : List Request) (known live : UInt64 → Option UInt64) (p : UInt64) : Prop :=
  known p = live p ∨ Pending frames p ∧ known p = none

/-- The tracker agrees with the allocator, but may lack blocks given up by calls under way. -/
def HeapRun.Follows (s : HeapRun) : Prop :=
  ∀ p, Agree s.frames s.engine.world.heapAllocs.allocSize s.live p

section Events
variable {host : Host} {s : State} {tid : UInt16} {seq : UInt32}

theorem allocSize_freed (ptr : UInt64) :
    (deliver host (freed ptr tid seq) s).world.heapAllocs.allocSize =
      if ptr = 0 then s.world.heapAllocs.allocSize
      else Function.update s.world.heapAllocs.allocSize ptr none := by
  rw [freed]
  split
  · rfl
  · have hkind : kindOf ((Op.pushExFlags ptr 0 0 EVENT_FREE 0 tid seq).slot 0) = .free := by
      have h : ((Op.pushExFlags ptr 0 0 EVENT_FREE 0 tid seq).slot 0).kind = EVENT_FREE :=
        kind_makeKf ..
      rw [kindOf, h]
      rfl
    rw [deliver, allocSize_processEvent (host, _), liveNext, hkind]
    rfl

theorem allocSize_allocated (ret size : UInt64) (caller : UInt32) :
    (deliver host (allocated ret size caller tid seq) s).world.heapAllocs.allocSize =
      if ret = 0 then s.world.heapAllocs.allocSize
      else Function.update s.world.heapAllocs.allocSize ret (some size) := by
  rw [allocated]
  split
  · rfl
  · have hkind : kindOf ((Op.pushAlloc ret size.toUInt32 size EVENT_ALLOC tid seq caller).slot 0) =
        .alloc := by
      have h : ((Op.pushAlloc ret size.toUInt32 size EVENT_ALLOC tid seq caller).slot 0).kind =
        EVENT_ALLOC := kind_makeKf ..
      rw [kindOf, h]
      rfl
    have hsize : Alloc.size ((Op.pushAlloc ret size.toUInt32 size EVENT_ALLOC tid seq caller).slot 0) =
        size := by
      show (if size ≠ 0 then size else size.toUInt32.toUInt64) = size
      split
      · rfl
      · rename_i hzero
        rw [not_not.mp hzero]
        rfl
    rw [deliver, allocSize_processEvent (host, _), liveNext, hkind]
    dsimp only
    rw [hsize]
    rfl

theorem allocSize_pre (r : Request) :
    (deliver host (r.pre tid seq) s).world.heapAllocs.allocSize =
      if r.old = 0 then s.world.heapAllocs.allocSize
      else Function.update s.world.heapAllocs.allocSize r.old none := by
  cases r with
  | malloc | calloc => rfl
  | realloc ptr size => exact allocSize_freed ptr
  | free ptr => exact allocSize_freed ptr

theorem allocSize_post (r : Request) (ret : UInt64) (caller : UInt32)
    (hfree : r.isFree = true → ret = 0) :
    (deliver host (r.post ret caller tid seq) s).world.heapAllocs.allocSize =
      if ret = 0 then s.world.heapAllocs.allocSize
      else Function.update s.world.heapAllocs.allocSize ret (some r.size) := by
  cases r with
  | malloc | calloc | realloc => exact allocSize_allocated _ _ _
  | free ptr =>
      rw [if_pos (hfree rfl)]
      rfl

theorem allocSize_other {i : Input} (h : i.isOther = true) :
    (i.apply s).world.heapAllocs.allocSize = s.world.heapAllocs.allocSize := by
  cases i with
  | event host ev =>
      simp only [Input.isOther, Bool.and_eq_true, bne_iff_ne] at h
      rw [Input.apply, allocSize_processEvent (host, ev), liveNext]
      cases hk : kindOf ev <;> first | exact absurd hk h.1 | exact absurd hk h.2 | rfl
  | snapshot u => rfl
  | libraries host modtab =>
      have hallocs : Populates fun _ w => w.heapAllocs = s.world.heapAllocs := by
        refine ⟨fun replace idx w addr size name ti id _ h => ?_, fun _ _ _ h => h, fun _ _ _ h => h⟩
        have hcore := (core_ensureNode (if replace then w.removeNode id else w) id name ti addr size)
        refine (of_core World.heapAllocs hcore).trans (Eq.trans ?_ h)
        split <;> rfl
      exact congrArg HeapAllocTracker.allocSize (hallocs.libGlobals host modtab rfl)

end Events

section Steps
variable {s t : HeapRun} {l : HeapLabel}

/-- A call of the allocator, as the tracker sees it. -/
theorem allocSize_call (s : HeapRun) (host : Host) {r : Request} {ret : UInt64} (caller : UInt32)
    (hfree : r.isFree = true → ret = 0) :
    ((s.emit host r.pre).emit host (r.post ret caller)).engine.world.heapAllocs.allocSize =
      let given := if r.old = 0 then s.engine.world.heapAllocs.allocSize
        else Function.update s.engine.world.heapAllocs.allocSize r.old none
      if ret = 0 then given else Function.update given ret (some r.size) := by
  simp only [HeapRun.emit]
  rw [allocSize_post r ret caller hfree, allocSize_pre]

theorem free_of_possible {r : Request} {live : UInt64 → Option UInt64} {ret : UInt64}
    {released : Bool} (h : r.Possible live ret released) : r.isFree = true → ret = 0 := by
  cases r with
  | free ptr => exact fun _ => h.1
  | malloc | calloc | realloc => nofun

/-- A call that keeps the block it was given is a realloc that returns null. -/
theorem null_of_kept {r : Request} {live : UInt64 → Option UInt64} {ret : UInt64}
    (h : r.Possible live ret false) (hold : r.old ≠ 0) :
    ret = 0 ∧ (live r.old).isSome = true := by
  cases r with
  | malloc | calloc => exact absurd rfl hold
  | free ptr => cases h.2.1
  | realloc ptr size =>
      have hptr : ptr ≠ 0 := hold
      simp only [Request.Possible, if_neg hptr] at h
      obtain ⟨hlive, hrest⟩ := h
      refine ⟨?_, hlive⟩
      by_contra hne
      rw [if_neg hne] at hrest
      cases hrest.1

namespace HeapRun
variable {frames : List Request} {known live : UInt64 → Option UInt64}

/-- The block is given up, in the tracker at least. -/
theorem agree_giveUp (h : ∀ p, Agree frames known live p) (r : Request) (p : UInt64) :
    Agree (r :: frames) (if r.old = 0 then known else Function.update known r.old none) live p := by
  have hkeep (hp : Agree frames known live p) : Agree (r :: frames) known live p :=
    hp.imp id fun hp => ⟨⟨hp.1.1, List.mem_cons_of_mem _ hp.1.2⟩, hp.2⟩
  split
  · exact hkeep (h p)
  · rename_i hold
    by_cases hp : p = r.old
    · subst hp
      exact .inr ⟨⟨hold, List.mem_cons_self⟩, Function.update_self ..⟩
    · rw [Agree, Function.update_of_ne hp]
      exact hkeep (h p)

/-- A block that is returned is known and live. -/
theorem agree_returned (h : ∀ p, Agree frames known live p) (ret size : UInt64) (p : UInt64) :
    Agree frames (if ret = 0 then known else Function.update known ret (some size))
      (if ret = 0 then live else Function.update live ret (some size)) p := by
  split
  · exact h p
  · by_cases hp : p = ret
    · subst hp
      exact .inl (by rw [Function.update_self, Function.update_self])
    · rw [Agree, Function.update_of_ne hp, Function.update_of_ne hp]
      exact h p

/-- A block that is given up is released, or a call around gives it up too. -/
theorem agree_released (h : ∀ p, Agree frames known live p) (r : Request) {released : Bool}
    (hok : r.old ≠ 0 → released = false → r.old ∈ frames.map Request.old) (p : UInt64) :
    Agree frames (if r.old = 0 then known else Function.update known r.old none)
      (if r.old ≠ 0 ∧ released = true then Function.update live r.old none else live) p := by
  by_cases hold : r.old = 0
  · rw [if_pos hold, if_neg fun hnot => hnot.1 hold]
    exact h p
  · rw [if_neg hold]
    by_cases hp : p = r.old
    · subst hp
      cases released with
      | true => exact .inl (by rw [if_pos ⟨hold, rfl⟩, Function.update_self, Function.update_self])
      | false => exact .inr ⟨⟨hold, hok hold rfl⟩, Function.update_self ..⟩
    · rw [Agree, Function.update_of_ne hp]
      split
      · rw [Function.update_of_ne hp]
        exact h p
      · exact h p

/-- A call around others ends without the block it gave up, or returns it. -/
theorem agree_exit {r : Request} (h : ∀ p, Agree (r :: frames) known live p) {ret : UInt64}
    (hret : ret ≠ 0 → (live ret).isSome = true)
    (hok : r.old ≠ 0 → live r.old = none ∨ ret = r.old ∨ r.old ∈ frames.map Request.old)
    (p : UInt64) :
    Agree frames (if ret = 0 then known else Function.update known ret (some r.size))
      (if ret ≠ 0 ∧ (live ret).isSome then Function.update live ret (some r.size) else live) p := by
  have hlive : (if ret ≠ 0 ∧ (live ret).isSome then Function.update live ret (some r.size)
      else live) = if ret = 0 then live else Function.update live ret (some r.size) := by
    by_cases hzero : ret = 0
    · rw [if_pos hzero, if_neg fun hnot => hnot.1 hzero]
    · rw [if_neg hzero, if_pos ⟨hzero, hret hzero⟩]
  rw [hlive]
  by_cases hp : ret ≠ 0 ∧ p = ret
  · rw [Agree, if_neg hp.1, if_neg hp.1, hp.2]
    exact .inl (by rw [Function.update_self, Function.update_self])
  · have hsame (f : UInt64 → Option UInt64) :
        (if ret = 0 then f else Function.update f ret (some r.size)) p = f p := by
      split
      · rfl
      · rename_i hzero
        exact Function.update_of_ne (fun heq => hp ⟨hzero, heq⟩) ..
    rw [Agree, hsame, hsame]
    rcases h p with heq | ⟨⟨hne, hmem⟩, hnone⟩
    · exact .inl heq
    · rcases List.mem_cons.mp hmem with rfl | hmem
      · rcases hok hne with hgone | rfl | hmem
        · exact .inl (hnone.trans hgone.symm)
        · exact absurd ⟨hne, rfl⟩ hp
        · exact .inr ⟨⟨hne, hmem⟩, hnone⟩
      · exact .inr ⟨⟨hne, hmem⟩, hnone⟩

theorem Follows.step (h : s.Follows) (hok : Fair l s) (hs : HeapRun.step l s = some t) :
    t.Follows := by
  cases l with
  | call host r ret released caller =>
      simp only [HeapRun.step] at hs
      split at hs
      · rename_i hpossible
        obtain rfl := Option.some.inj hs
        have hknown := allocSize_call s host caller (free_of_possible hpossible)
        intro p
        simp only [hknown]
        exact agree_returned (agree_released h r hok) ret r.size p
      · cases hs
  | enter host r =>
      obtain rfl := Option.some.inj hs
      intro p
      simp only [emit, allocSize_pre]
      exact agree_giveUp h r p
  | exit host ret caller =>
      simp only [HeapRun.step] at hs
      split at hs
      · cases hs
      · rename_i r rest hframes
        split at hs
        · cases hs
        · rename_i hvoid
          obtain rfl := Option.some.inj hs
          have hfree : r.isFree = true → ret = 0 := fun hr => by_contra fun hne => hvoid ⟨hr, hne⟩
          simp only [Fair, hframes, Ends] at hok
          intro p
          simp only [emit, allocSize_post r ret caller hfree]
          exact agree_exit (fun p => hframes ▸ h p) hok.1 hok.2 p
  | other i =>
      simp only [HeapRun.step] at hs
      split at hs
      · rename_i hother
        obtain rfl := Option.some.inj hs
        intro p
        simp only [allocSize_other hother]
        exact h p
      · cases hs

theorem Follows.mirrors (h : s.Follows) (hidle : s.frames = []) : s.Mirrors := by
  intro p
  rcases h p with heq | ⟨⟨-, hmem⟩, -⟩
  · exact heq
  · rw [hidle] at hmem
    cases hmem

theorem Mirrors.follows (h : s.Mirrors) : s.Follows := fun p => .inl (h p)

/-- A call that keeps the block it gave up takes it out of the mirror. -/
theorem Mirrors.fair_iff {host : Host} {r : Request} {ret : UInt64} {released : Bool}
    {caller : UInt32} (h : s.Mirrors) (hidle : s.frames = [])
    (hs : HeapRun.step (.call host r ret released caller) s = some t) :
    t.Mirrors ↔ Fair (.call host r ret released caller) s := by
  constructor
  · intro hnext hold hkept
    exfalso
    simp only [HeapRun.step] at hs
    split at hs
    · rename_i hpossible
      obtain rfl := Option.some.inj hs
      subst hkept
      have hknown := allocSize_call s host caller (free_of_possible hpossible)
      obtain ⟨hnull, hlive⟩ := null_of_kept hpossible hold
      have hlost : (none : Option UInt64) = s.live r.old := by
        have hat := (congrFun hknown r.old).symm.trans (hnext r.old)
        simp only [hnull, if_true] at hat
        rw [if_neg hold] at hat
        simpa [Request.done] using hat
      rw [← hlost] at hlive
      cases hlive
    · cases hs
  · intro hok
    have hframes : t.frames = [] := by
      simp only [HeapRun.step] at hs
      split at hs
      · obtain rfl := Option.some.inj hs
        exact hidle
      · cases hs
    exact (h.follows.step hok hs).mirrors hframes

end HeapRun

end Steps

/-- A block is allocated through a wrapper, resized through another and a third is freed. -/
def wrappedCalls : List HeapLabel :=
  [.call .plain (.malloc 24) 0x1000 true 0, .enter .plain (.malloc 32),
    .call .plain (.malloc 32) 0x2000 true 0, .exit .plain 0x2000 0,
    .enter .plain (.realloc 0x2000 64), .call .plain (.realloc 0x2000 64) 0x3000 true 0,
    .exit .plain 0x3000 0, .call .plain (.free 0x1000) 0 true 0]

/-- A realloc to 2^40 bytes fails. -/
def failingRealloc : List HeapLabel :=
  [.call .plain (.malloc 16) 0x1000 true 0, .call .plain (.realloc 0x1000 0x10000000000) 0 false 0]

end Rtmap.Engine
