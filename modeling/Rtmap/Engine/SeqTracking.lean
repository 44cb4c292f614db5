import Mathlib.Data.UInt
import Rtmap.Engine.Drain
import Rtmap.Lib.Streams

/-!
# Sequence tracking

The tracker of the drain loop sees the leading events of the root's batches, and
its gaps are the breaks in the numbers of each thread and domain. What the slots
of an operation of the tracer look like to it.
-/
namespace Rtmap.Engine
open Rtmap.Ring Streams

/-- A thread and a domain. -/
abbrev SeqKey := UInt16 × UInt8

def Gap.key (g : Gap) : SeqKey := (g.threadId, g.domain)

/-- The thread and the domain that number an event. -/
def seqKey (ev : Event) : SeqKey := (ev.threadId, seqDomain ev.kind)

namespace SeqTracker

/-- Track some events in order. -/
def hear (t : SeqTracker) (evs : List Event) : SeqTracker := evs.foldl (fun t ev => t.track ev) t

/-- The numbers of a key that the events carry. -/
def numbers (k : SeqKey) (evs : List Event) : List UInt32 :=
  (evs.filter fun ev => !ev.isContinuation && seqKey ev == k).map Event.seq32

/-- The gaps of a key, as the number expected and the number met. -/
def gapsOf (t : SeqTracker) (k : SeqKey) : List (UInt32 × UInt32) :=
  (t.gaps.filter fun g => g.key == k).map fun g => (g.expected, g.actual)

theorem hear_append (t : SeqTracker) (xs ys : List Event) :
    t.hear (xs ++ ys) = (t.hear xs).hear ys := by
  simp only [hear, List.foldl_append]

theorem numbers_append (k : SeqKey) (xs ys : List Event) :
    numbers k (xs ++ ys) = numbers k xs ++ numbers k ys := by
  simp only [numbers, List.filter_append, List.map_append]

theorem track_of_continuation {ev : Event} (h : ev.isContinuation = true) (t : SeqTracker) :
    t.track ev = t := by
  rw [track, if_pos h]

theorem expectedSeq_track {ev : Event} (h : ev.isContinuation = false) (t : SeqTracker)
    (k : SeqKey) : (t.track ev).expectedSeq k.1 k.2 =
      if seqKey ev = k then some (ev.seq32 + 1) else t.expectedSeq k.1 k.2 := by
  obtain ⟨tid, dom⟩ := k
  simp only [track, h, Bool.false_eq_true, if_false, seqKey, Prod.mk.injEq]
  by_cases htid : ev.threadId = tid
  · subst htid
    by_cases hdom : seqDomain ev.kind = dom
    · simp [hdom]
    · simp [hdom, Ne.symm hdom]
  · simp [htid, Ne.symm htid]

theorem gaps_track {ev : Event} (h : ev.isContinuation = false) (t : SeqTracker) :
    (t.track ev).gaps = t.gaps ++ (t.gapAt ev.threadId (seqDomain ev.kind) ev.seq32).toList := by
  simp only [track, h, Bool.false_eq_true, if_false]

/-- The gaps of a key are the breaks in its numbers. -/
theorem gapsOf_hear (k : SeqKey) (evs : List Event) (t : SeqTracker) :
    (t.hear evs).gapsOf k =
      t.gapsOf k ++ breaks 1 (t.expectedSeq k.1 k.2) (numbers k evs) := by
  induction evs generalizing t with
  | nil => simp [hear, numbers, breaks]
  | cons ev evs ih =>
      have hnext : t.hear (ev :: evs) = (t.track ev).hear evs := rfl
      rw [hnext, ih]
      cases hcont : ev.isContinuation with
      | true => simp [track_of_continuation hcont, numbers, hcont]
      | false =>
          rw [expectedSeq_track hcont]
          by_cases hkey : seqKey ev = k
          · subst hkey
            have hnumbers : numbers (seqKey ev) (ev :: evs) =
                ev.seq32 :: numbers (seqKey ev) evs := by
              simp [numbers, hcont]
            rw [if_pos rfl, hnumbers, gapsOf, gaps_track hcont, gapAt]
            simp only [seqKey]
            cases hexp : t.expectedSeq ev.threadId (seqDomain ev.kind) with
            | none => simp [breaks, gapsOf]
            | some x =>
                by_cases hx : ev.seq32 = x
                · simp [breaks, gapsOf, hx]
                · simp [breaks, gapsOf, hx, Gap.key, List.filter_append]
          · have hnumbers : numbers k (ev :: evs) = numbers k evs := by
              simp [numbers, hkey]
            have hgaps : (t.track ev).gapsOf k = t.gapsOf k := by
              rw [gapsOf, gaps_track hcont, gapAt]
              split
              · have hother : (seqKey ev == k) = false := by simpa using hkey
                simp only [seqKey] at hother
                simp [gapsOf, List.filter_append, Gap.key, hother]
              · simp [gapsOf]
            rw [if_neg hkey, hnumbers, hgaps]

/-- Gaps are added behind those reported. -/
theorem gaps_prefix_hear (t : SeqTracker) (evs : List Event) : t.gaps <+: (t.hear evs).gaps := by
  induction evs generalizing t with
  | nil => exact List.prefix_refl _
  | cons ev evs ih =>
      have htrack : t.gaps <+: (t.track ev).gaps := by
        cases h : ev.isContinuation with
        | true => rw [track_of_continuation h]
        | false =>
            rw [gaps_track h]
            exact List.prefix_append _ _
      exact htrack.trans (ih _)

/-- No gap is reported when the numbers of every key run on. -/
theorem gaps_hear_eq_iff (t : SeqTracker) (evs : List Event) :
    (t.hear evs).gaps = t.gaps ↔
      ∀ k : SeqKey, breaks 1 (t.expectedSeq k.1 k.2) (numbers k evs) = [] := by
  obtain ⟨new, hnew⟩ := t.gaps_prefix_hear evs
  have hkey (k : SeqKey) : breaks 1 (t.expectedSeq k.1 k.2) (numbers k evs) =
      (new.filter fun g => g.key == k).map fun g => (g.expected, g.actual) := by
    have hgaps := gapsOf_hear k evs t
    rw [gapsOf, ← hnew, List.filter_append, List.map_append] at hgaps
    exact (List.append_cancel_left hgaps).symm
  rw [← hnew, List.append_right_eq_self]
  constructor
  · rintro rfl k
    rw [hkey]
    rfl
  · intro h
    rw [List.eq_nil_iff_forall_not_mem]
    intro g hg
    have hnone := (hkey g.key).symm.trans (h g.key)
    rw [List.map_eq_nil_iff, List.filter_eq_nil_iff] at hnone
    exact hnone g hg (beq_self_eq_true _)

theorem gaps_length_track (t : SeqTracker) (ev : Event) :
    t.gaps.length ≤ (t.track ev).gaps.length := by
  cases h : ev.isContinuation with
  | true => rw [track_of_continuation h]
  | false => simp [gaps_track h]

theorem gaps_length_hear (t : SeqTracker) (evs : List Event) :
    t.gaps.length ≤ (t.hear evs).gaps.length := by
  induction evs generalizing t with
  | nil => exact Nat.le_refl _
  | cons ev evs ih => exact (gaps_length_track t ev).trans (ih _)

/-- A number other than the expected one is a gap. -/
theorem gaps_length_track_of_ne {t : SeqTracker} {ev : Event} {x : UInt32}
    (h : ev.isContinuation = false) (hexp : t.expectedSeq ev.threadId (seqDomain ev.kind) = some x)
    (hne : ev.seq32 ≠ x) : (t.track ev).gaps.length = t.gaps.length + 1 := by
  rw [gaps_track h, gapAt, hexp]
  simp [hne]

end SeqTracker

section Leads

/-- The event whose number the loop tracks for a piece. -/
def Piece.lead : Piece → Event
  | .event _ ev => ev
  | .snapshot header _ => header

/-- The events whose numbers the loop tracks in a buffer. -/
def leads (noBb : Bool) : ℕ → List Event → List Event
  | _, [] => []
  | skip + 1, _ :: rest => leads noBb skip rest
  | 0, x :: rest =>
      if noBb && x.kind == EVENT_BB_ENTRY then leads noBb 0 rest
      else if x.kind = EVENT_REG_SNAPSHOT then
        x :: leads noBb (consumed x (rest.take 6) - 1) rest
      else x :: leads noBb 0 rest

theorem lead_pieces (noBb : Bool) (skip : ℕ) (buf : List Slot) :
    (pieces noBb skip buf).map Piece.lead = leads noBb skip (buf.map Prod.snd) := by
  induction buf generalizing skip with
  | nil => cases skip <;> rfl
  | cons x rest ih =>
      cases skip with
      | succ skip => exact ih skip
      | zero =>
          rw [List.map_cons, pieces, leads]
          split
          · exact ih 0
          · split
            · simp only [List.map_cons, Piece.lead, ← List.map_take, ih]
            · simp only [List.map_cons, Piece.lead, ih]

namespace Session

theorem seq_track (ev : Event) (s : Session) : (s.track ev).seq = s.seq.track ev := by
  simp only [track]
  split <;> rfl

theorem seq_handle (host : Host) (ev : Event) (s : Session) : (s.handle host ev).seq = s.seq := by
  have hfork (s : Session) : (s.fork ev).seq = s.seq := by
    rw [fork]
    split <;> rfl
  have hcross (s : Session) : (s.crossWrite ev).seq = s.seq := by
    rw [crossWrite]
    split
    · split <;> rfl
    · rfl
  simp only [handle, record, hcross, hfork]

theorem seq_applySnapshot (header : Event) (cont : List Event) (s : Session) :
    (s.applySnapshot header cont).seq = s.seq := by
  rw [applySnapshot]
  split <;> rfl

theorem seq_rootPiece (s : Session) (p : Piece) : (s.rootPiece p).seq = s.seq.track p.lead := by
  cases p with
  | event host ev => rw [rootPiece, seq_handle, seq_track]; rfl
  | snapshot header cont =>
      have happly := seq_applySnapshot header cont s
      simp only [rootPiece, count, seq_track, recordSnapshot, record, happly, Piece.lead]

theorem seq_childPiece (s : Session) (p : Piece) : (s.childPiece p).seq = s.seq := by
  cases p with
  | event host ev => rw [childPiece, seq_handle]; rfl
  | snapshot header cont => exact seq_applySnapshot header cont s

theorem seq_drainRoot (noBb : Bool) (s : Session) (buf : List Slot) :
    (s.drainRoot noBb buf).seq = s.seq.hear (leads noBb 0 (buf.map Prod.snd)) := by
  rw [drainRoot, ← lead_pieces]
  induction pieces noBb 0 buf generalizing s with
  | nil => rfl
  | cons p ps ih =>
      rw [List.foldl_cons, ih, seq_rootPiece]
      rfl

theorem seq_drainChildren (noBb : Bool) (s : Session) (buf : List Slot) :
    (s.drainChildren noBb buf).seq = s.seq := by
  rw [drainChildren]
  induction pieces noBb 0 buf generalizing s with
  | nil => rfl
  | cons p ps ih => rw [List.foldl_cons, ih, seq_childPiece]

/-- The ticks of a run. -/
def run (noBb : Bool) (orders : IndexOrders) (ticks : List (List Pass)) (s : Session) : Session :=
  ticks.foldl (fun s passes => s.tick noBb orders passes) s

/-- The root's batches of a run, one for each pass. -/
def batches (ticks : List (List Pass)) : List (List Event) :=
  ticks.flatten.map fun p => p.root.map Prod.snd

/-- The tracker of a run sees the root's batches, whatever the children's hold. -/
theorem seq_run (noBb : Bool) (orders : IndexOrders) (ticks : List (List Pass)) (s : Session) :
    (s.run noBb orders ticks).seq = s.seq.hear ((batches ticks).flatMap (leads noBb 0)) := by
  have hpasses (passes : List Pass) (s : Session) : (passes.foldl (drainPass noBb) s).seq =
      s.seq.hear ((passes.map fun p => p.root.map Prod.snd).flatMap (leads noBb 0)) := by
    induction passes generalizing s with
    | nil => rfl
    | cons p passes ih =>
        rw [List.foldl_cons, ih, drainPass, seq_drainChildren, seq_drainRoot, List.map_cons,
          List.flatMap_cons, SeqTracker.hear_append]
  have htick (passes : List Pass) (s : Session) : (s.tick noBb orders passes).seq =
      s.seq.hear ((passes.map fun p => p.root.map Prod.snd).flatMap (leads noBb 0)) := by
    rw [tick]
    dsimp only
    split <;> exact hpasses passes { s with needFinalize := false }
  rw [run]
  induction ticks generalizing s with
  | nil => rfl
  | cons passes ticks ih =>
      rw [List.foldl_cons, ih, htick, ← SeqTracker.hear_append, batches, batches, List.flatten_cons,
        List.map_append, List.flatMap_append]

end Session

end Leads

end Rtmap.Engine

namespace Rtmap.Ring.Op

def tid : Op → UInt16
  | write _ _ tid .. | wideWrite _ _ tid .. | bbEntry _ tid .. => tid
  | pushExFlags _ _ _ _ _ tid _ => tid
  | pushAlloc _ _ _ _ tid .. => tid
  | pushRegSnapshot _ _ tid _ => tid

/-- The number the operation took from its counter. -/
def seq : Op → UInt32
  | write _ _ _ seq .. | wideWrite _ _ _ seq .. | bbEntry _ _ seq _ => seq
  | pushExFlags _ _ _ _ _ _ seq => seq
  | pushAlloc _ _ _ _ _ seq _ => seq
  | pushRegSnapshot _ _ _ seq => seq

def kind : Op → UInt8
  | write .. | wideWrite .. => EVENT_WRITE
  | bbEntry .. => EVENT_BB_ENTRY
  | pushExFlags _ _ _ kind .. => kind
  | pushAlloc _ _ _ kind .. => kind
  | pushRegSnapshot .. => EVENT_REG_SNAPSHOT

/-- The operation's slots can be told apart: it publishes a whole run, and only
the inline wide write flags continuation slots. -/
def Numbered (op : Op) : Prop :=
  op.Whole ∧ match op with
    | pushExFlags _ _ _ _ flags _ _ => flags &&& FLAG_CONTINUATION = 0
    | _ => True

/-- The first slot, which carries the number. -/
def lead (op : Op) : Event := op.slots.head op.slots_ne_nil

theorem slots_eq (op : Op) : op.slots = op.lead :: op.slots.tail :=
  (List.cons_head_tail op.slots_ne_nil).symm

theorem threadId_lead (op : Op) : op.lead.threadId = op.tid := by
  cases op <;> rfl

theorem kind_lead (op : Op) : op.lead.kind = op.kind := by
  cases op <;> exact kind_makeKf ..

theorem seq32_lead (op : Op) : op.lead.seq32 = op.seq := by
  cases op <;> exact seq32_split ..

theorem isContinuation_lead {op : Op} (h : op.Numbered) : op.lead.isContinuation = false := by
  have hflags (addr : UInt64) (size : UInt32) (tid seq : UInt16) (value : UInt64)
      (kind flags : UInt8) (hi : UInt16) (rip : UInt32) (hf : flags &&& 0x20 = 0) :
      Event.isContinuation ⟨addr, size, tid, seq, value, makeKf kind flags hi, rip⟩ = false := by
    have hf' : Event.flags ⟨addr, size, tid, seq, value, makeKf kind flags hi, rip⟩ = flags :=
      flags_makeKf ..
    rw [Event.isContinuation, hf', hf]
    rfl
  cases op with
  | pushExFlags => exact hflags _ _ _ _ _ _ _ _ _ h.2
  | _ => exact hflags _ _ _ _ _ _ _ _ _ (by decide)

/-- The slots behind the first one of an operation other than a snapshot are
continuations of a WRITE. -/
theorem tail_of_not_snapshot {op : Op} (h : op.isSnapshot = false) {e : Event}
    (he : e ∈ op.slots.tail) : e.isContinuation = true ∧ e.kind = EVENT_WRITE := by
  cases op with
  | wideWrite addr size tid seq value rip chunk =>
      obtain ⟨k, _, rfl⟩ := List.mem_map.mp he
      have hf : (continuation addr size tid chunk k).flags = FLAG_CONTINUATION := flags_makeKf ..
      refine ⟨?_, kind_continuation ..⟩
      rw [Event.isContinuation, hf]
      decide
  | pushRegSnapshot => simp [isSnapshot] at h
  | _ => cases he

/-- The slots behind the header of a snapshot: of its thread and kind, unflagged,
and numbered by the high half of its number only. -/
theorem tail_of_snapshot {op : Op} (h : op.isSnapshot = true) {e : Event}
    (he : e ∈ op.slots.tail) : e.threadId = op.tid ∧ e.kind = EVENT_REG_SNAPSHOT ∧
      e.isContinuation = false ∧ e.seq32.toNat = op.seq.toNat / 65536 * 65536 := by
  cases op with
  | pushRegSnapshot insn regs tid seq =>
      obtain ⟨s, _, rfl⟩ := List.mem_map.mp he
      have hf : (snapshotSlot regs tid seq s).flags = 0 := flags_makeKf ..
      have hnumber : (snapshotSlot regs tid seq s).seq32.toNat =
          (seqHi seq).toNat * 65536 + (0 : UInt16).toNat := toNat_seq32 ..
      refine ⟨rfl, kind_snapshotSlot .., ?_, ?_⟩
      · rw [Event.isContinuation, hf]
        decide
      · rw [hnumber, toNat_seqHi]
        exact Nat.add_zero _
  | _ => simp [isSnapshot] at h

end Rtmap.Ring.Op
