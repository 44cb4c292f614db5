import Rtmap.Lib.Records
import Rtmap.Lib.Streams
import Rtmap.Ring.Event

/-!
# Recordings

`EventRecorder` writes a header and the events of a session one after the other, 32
bytes each, and stores their count into the header at the end. `EventPlayer` reads
whole events until the count or the file is used up.
-/
namespace Rtmap.Engine.Recording
open Rtmap.Ring Records

abbrev Bytes := List UInt8

def RECORD_MAGIC : UInt64 := 0x52544D4150524300
def PROTO_VERSION : UInt32 := 3
def HEADER_SIZE : ℕ := 24
def DISK_EVENT_SIZE : ℕ := 32

/-- No file grows beyond the largest `off_t`; a write that would make it is an error. -/
def MAX_FILE_SIZE : ℕ := 2 ^ 63 - 1

def writeAll (bs file : Bytes) : Option Bytes :=
  if file.length + bs.length ≤ MAX_FILE_SIZE then some (file ++ bs) else none

def encodeEvent (ev : Event) : Bytes :=
  toLe 8 ev.addr.toNat ++ (toLe 4 ev.size.toNat ++ (toLe 2 ev.threadId.toNat ++
    (toLe 2 ev.seq.toNat ++ (toLe 8 ev.value.toNat ++ (toLe 4 ev.kindFlags.toNat ++
      toLe 4 ev.ripLo.toNat)))))

structure EventRecorder where
  writer : Bytes
  count : UInt64

namespace EventRecorder

def create : EventRecorder where
  writer := toLe 8 RECORD_MAGIC.toNat ++ (toLe 4 PROTO_VERSION.toNat ++ (toLe 8 0 ++ toLe 4 0))
  count := 0

def record (ev : Event) (r : EventRecorder) : Option EventRecorder :=
  (writeAll (encodeEvent ev) r.writer).map fun writer => ⟨writer, r.count + 1⟩

def recordAll (evs : List Event) (r : EventRecorder) : Option EventRecorder :=
  evs.foldlM (fun r ev => r.record ev) r

/-- `finish` seeks back to the count. -/
def finish (r : EventRecorder) : Bytes × UInt64 :=
  (overwrite 12 (toLe 8 r.count.toNat) r.writer, r.count)

end EventRecorder

structure EventPlayer where
  reader : Bytes
  remaining : UInt64

/-- `{:X}`. -/
def upperHex (n : ℕ) : String := String.ofList ((Nat.toDigits 16 n).map Char.toUpper)

def decodeEvent (buf : Bytes) : Event where
  addr := UInt64.ofNat (ofLe (slice 0 8 buf))
  size := UInt32.ofNat (ofLe (slice 8 12 buf))
  threadId := UInt16.ofNat (ofLe (slice 12 14 buf))
  seq := UInt16.ofNat (ofLe (slice 14 16 buf))
  value := UInt64.ofNat (ofLe (slice 16 24 buf))
  kindFlags := UInt32.ofNat (ofLe (slice 24 28 buf))
  ripLo := UInt32.ofNat (ofLe (slice 28 32 buf))

namespace EventPlayer

def openFile (file : Bytes) : Except String EventPlayer :=
  match readExact HEADER_SIZE file with
  | none => .error "failed to fill whole buffer"
  | some (hdr, reader) =>
      let magic := UInt64.ofNat (ofLe (slice 0 8 hdr))
      let proto := UInt32.ofNat (ofLe (slice 8 12 hdr))
      if magic ≠ RECORD_MAGIC then
        .error ("bad recording magic: expected 0x" ++ upperHex RECORD_MAGIC.toNat ++
          ", got 0x" ++ upperHex magic.toNat)
      else if proto ≠ PROTO_VERSION then
        .error ("proto version mismatch: expected " ++ toString PROTO_VERSION ++
          ", got " ++ toString proto)
      else .ok ⟨reader, UInt64.ofNat (ofLe (slice 12 20 hdr))⟩

/-- A read that comes to the end of the file leaves nothing to the next one. -/
def nextEvent (p : EventPlayer) : EventPlayer × Option Event :=
  if p.remaining = 0 then (p, none)
  else
    match readExact DISK_EVENT_SIZE p.reader with
    | none => ({ p with reader := [] }, none)
    | some (buf, reader) => (⟨reader, p.remaining - 1⟩, some (decodeEvent buf))

/-- What `read_batch` pushes to the buffer, at most `max` events. -/
def readBatch : ℕ → EventPlayer → EventPlayer × List Event
  | 0, p => (p, [])
  | max + 1, p =>
      match p.nextEvent with
      | (p, none) => (p, [])
      | (p, some ev) =>
          let r := readBatch max p
          (r.1, ev :: r.2)

/-- The batches of successive calls. -/
def readBatches : List ℕ → EventPlayer → List (List Event)
  | [], _ => []
  | max :: rest, p => (p.readBatch max).2 :: readBatches rest (p.readBatch max).1

end EventPlayer

section Events

theorem length_encodeEvent (ev : Event) : (encodeEvent ev).length = DISK_EVENT_SIZE := by
  simp only [encodeEvent, List.length_append, length_toLe]
  rfl

theorem decodeEvent_encodeEvent (ev : Event) : decodeEvent (encodeEvent ev) = ev := by
  have hlast (v : ℕ) : slice 0 4 (toLe 4 v) = toLe 4 v := by
    rw [slice, List.drop_zero, Nat.sub_zero, List.take_of_length_le (Nat.le_of_eq (length_toLe 4 v))]
  have h64 (x : UInt64) : UInt64.ofNat (ofLe (toLe 8 x.toNat)) = x := by
    rw [ofLe_toLe x.toNat_lt, UInt64.ofNat_toNat]
  have h32 (x : UInt32) : UInt32.ofNat (ofLe (toLe 4 x.toNat)) = x := by
    rw [ofLe_toLe x.toNat_lt, UInt32.ofNat_toNat]
  have h16 (x : UInt16) : UInt16.ofNat (ofLe (toLe 2 x.toNat)) = x := by
    rw [ofLe_toLe x.toNat_lt, UInt16.ofNat_toNat]
  rw [decodeEvent, encodeEvent]
  simp only [slice_front (length_toLe _ _), slice_behind (length_toLe _ _), Nat.reduceLeDiff,
    Nat.reduceSub, hlast, h64, h32, h16]

end Events

section Writing
variable {r r' : EventRecorder} {evs : List Event}

/-- What is recorded is appended and counted, and fits the file. -/
theorem recordAll_spec (h : r.recordAll evs = some r') (hfits : r.writer.length ≤ MAX_FILE_SIZE) :
    r'.writer = r.writer ++ evs.flatMap encodeEvent ∧
      r'.count = r.count + UInt64.ofNat evs.length ∧ r'.writer.length ≤ MAX_FILE_SIZE := by
  induction evs generalizing r with
  | nil =>
      obtain rfl := Option.some.inj h
      exact ⟨(List.append_nil _).symm, (UInt64.add_zero _).symm, hfits⟩
  | cons ev evs ih =>
      simp only [EventRecorder.recordAll, List.foldlM_cons, Option.bind_eq_bind] at h
      obtain ⟨mid, hmid, hrest⟩ := Option.bind_eq_some_iff.mp h
      obtain ⟨writer, hwriter, rfl⟩ := Option.map_eq_some_iff.mp hmid
      unfold writeAll at hwriter
      split at hwriter
      · rename_i hroom
        obtain rfl := Option.some.inj hwriter
        obtain ⟨hwritten, hcount, hsize⟩ := ih hrest (by rw [List.length_append]; exact hroom)
        refine ⟨?_, ?_, hsize⟩
        · rw [hwritten, List.append_assoc, List.flatMap_cons]
        · rw [hcount, List.length_cons, UInt64.ofNat_add, UInt64.add_assoc,
            UInt64.add_comm (UInt64.ofNat evs.length)]
          rfl
      · cases hwriter

/-- The header of a finished recording of `count` events. -/
def fileHeader (count : ℕ) : Bytes :=
  toLe 8 RECORD_MAGIC.toNat ++ (toLe 4 PROTO_VERSION.toNat ++ (toLe 8 count ++ toLe 4 0))

/-- A recording that could be written, as it lies on disk. -/
def recordedFile (evs : List Event) : Option Bytes :=
  (EventRecorder.create.recordAll evs).map fun r => r.finish.1

theorem recordedFile_eq {file : Bytes} (h : recordedFile evs = some file) :
    file = fileHeader evs.length ++ evs.flatMap encodeEvent ∧ evs.length < 2 ^ 64 := by
  obtain ⟨r, hr, rfl⟩ := Option.map_eq_some_iff.mp h
  obtain ⟨hwriter, hcount, hsize⟩ := recordAll_spec hr (by decide)
  have hlen : evs.length < 2 ^ 64 := by
    rw [hwriter, List.length_append, length_flatMap_encode length_encodeEvent, DISK_EVENT_SIZE,
      MAX_FILE_SIZE] at hsize
    omega
  have hnat : r.count.toNat = evs.length := by
    rw [hcount, show EventRecorder.create.count = 0 from rfl, UInt64.zero_add, UInt64.toNat_ofNat',
      Nat.mod_eq_of_lt hlen]
  refine ⟨?_, hlen⟩
  rw [EventRecorder.finish, hwriter, hnat, EventRecorder.create, fileHeader]
  simp only [List.append_assoc]
  rw [← List.append_assoc, ← List.append_assoc (toLe 8 RECORD_MAGIC.toNat), overwrite_append]
  · simp
  · simp

end Writing

section Reading
variable {p : EventPlayer} {evs : List Event}

theorem length_fileHeader (count : ℕ) : (fileHeader count).length = HEADER_SIZE := by
  simp only [fileHeader, List.length_append, length_toLe]
  rfl

/-- The player of what is left of a recording behind a cut, `left` bytes of events. -/
theorem openFile_header {count : ℕ} (hcount : count < 2 ^ 64) (rest : Bytes) :
    EventPlayer.openFile (fileHeader count ++ rest) = .ok ⟨rest, UInt64.ofNat count⟩ := by
  have hread : readExact HEADER_SIZE (fileHeader count ++ rest) = some (fileHeader count, rest) := by
    rw [readExact, if_pos (by rw [List.length_append, length_fileHeader]; omega),
      ← length_fileHeader count, List.take_left, List.drop_left]
  have hmagic : UInt64.ofNat (ofLe (slice 0 8 (fileHeader count))) = RECORD_MAGIC := by
    rw [fileHeader, slice_front (length_toLe _ _), ofLe_toLe RECORD_MAGIC.toNat_lt,
      UInt64.ofNat_toNat]
  have hproto : UInt32.ofNat (ofLe (slice 8 12 (fileHeader count))) = PROTO_VERSION := by
    rw [fileHeader, slice_behind (length_toLe _ _) (by decide), slice_front (length_toLe _ _),
      ofLe_toLe PROTO_VERSION.toNat_lt, UInt32.ofNat_toNat]
  have hstored : ofLe (slice 12 20 (fileHeader count)) = count := by
    rw [fileHeader, slice_behind (length_toLe _ _) (by decide),
      slice_behind (length_toLe _ _) (by decide), slice_front (length_toLe _ _), ofLe_toLe hcount]
  simp only [EventPlayer.openFile, hread, hmagic, hproto, hstored, ne_eq, not_true_eq_false, if_false]

/-- The events that the player still finds whole in its file and counts. -/
def Plays (p : EventPlayer) (whole : List Event) : Prop :=
  ∃ (evs : List Event) (k : ℕ), p.reader = (evs.flatMap encodeEvent).take k ∧
    p.remaining.toNat = evs.length ∧ evs.take (k / DISK_EVENT_SIZE) = whole

theorem nextEvent_nil (h : Plays p []) : p.nextEvent.2 = none ∧ Plays p.nextEvent.1 [] := by
  obtain ⟨evs, k, hreader, hremaining, hnone⟩ := h
  cases evs with
  | nil =>
      have hzero : p.remaining = 0 := UInt64.toNat_inj.mp hremaining
      rw [EventPlayer.nextEvent, if_pos hzero]
      exact ⟨rfl, [], k, hreader, hremaining, hnone⟩
  | cons ev evs =>
      have hmore : p.remaining ≠ 0 := by
        intro hzero
        rw [hzero, List.length_cons] at hremaining
        exact absurd hremaining.symm (Nat.succ_ne_zero _)
      have hshort : ¬ DISK_EVENT_SIZE ≤ k := by
        intro hk
        have hpos : 0 < k / DISK_EVENT_SIZE := Nat.div_pos hk (by decide)
        obtain ⟨n, hn⟩ := Nat.exists_eq_add_one.mpr hpos
        rw [hn, List.take_succ_cons] at hnone
        cases hnone
      -- the read comes to the end of the file
      have hread : readExact DISK_EVENT_SIZE p.reader = none := by
        rw [hreader, readExact_cut length_encodeEvent, if_neg hshort]
      rw [EventPlayer.nextEvent, if_neg hmore, hread]
      refine ⟨rfl, ev :: evs, 0, ?_, hremaining, ?_⟩
      · rw [List.take_zero]
      · rw [Nat.zero_div, List.take_zero]

theorem nextEvent_cons {ev : Event} {whole : List Event} (h : Plays p (ev :: whole)) :
    p.nextEvent.2 = some ev ∧ Plays p.nextEvent.1 whole := by
  obtain ⟨evs, k, hreader, hremaining, hwhole⟩ := h
  cases evs with
  | nil =>
      rw [List.take_nil] at hwhole
      cases hwhole
  | cons first evs =>
      have hk : DISK_EVENT_SIZE ≤ k := by
        by_contra hshort
        rw [Nat.div_eq_of_lt (Nat.not_le.mp hshort), List.take_zero] at hwhole
        cases hwhole
      have hdiv : k / DISK_EVENT_SIZE = (k - DISK_EVENT_SIZE) / DISK_EVENT_SIZE + 1 := by
        simp only [DISK_EVENT_SIZE] at hk ⊢
        omega
      rw [hdiv, List.take_succ_cons] at hwhole
      obtain ⟨rfl, hrest⟩ := List.cons.inj hwhole
      have hmore : p.remaining ≠ 0 := by
        intro hzero
        rw [hzero, List.length_cons] at hremaining
        exact absurd hremaining.symm (Nat.succ_ne_zero _)
      have hread : readExact DISK_EVENT_SIZE p.reader = some (encodeEvent first,
          (evs.flatMap encodeEvent).take (k - DISK_EVENT_SIZE)) := by
        rw [hreader, readExact_cut length_encodeEvent, if_pos hk]
      rw [EventPlayer.nextEvent, if_neg hmore, hread]
      refine ⟨congrArg some (decodeEvent_encodeEvent first), evs, _, rfl, ?_, hrest⟩
      have hone : (1 : UInt64) ≤ p.remaining := by
        rw [UInt64.le_iff_toNat_le, hremaining, List.length_cons]
        exact Nat.succ_le_succ (Nat.zero_le _)
      rw [UInt64.toNat_sub_of_le _ _ hone, hremaining, List.length_cons]
      rfl

/-- A batch is the next whole events, as many as asked for. -/
theorem readBatch_spec {whole : List Event} (max : ℕ) (h : Plays p whole) :
    (p.readBatch max).2 = whole.take max ∧ Plays (p.readBatch max).1 (whole.drop max) := by
  induction max generalizing p whole with
  | zero => exact ⟨rfl, h⟩
  | succ max ih =>
      cases whole with
      | nil =>
          obtain ⟨hnone, hplays⟩ := nextEvent_nil h
          have hbatch : p.readBatch (max + 1) = (p.nextEvent.1, []) := by
            rw [EventPlayer.readBatch]
            split
            · rename_i heq
              rw [heq]
            · rename_i heq
              rw [heq] at hnone
              cases hnone
          rw [hbatch]
          exact ⟨rfl, hplays⟩
      | cons ev whole =>
          obtain ⟨hsome, hplays⟩ := nextEvent_cons h
          obtain ⟨hrest, hplays'⟩ := ih hplays
          have hbatch : p.readBatch (max + 1) = ((p.nextEvent.1.readBatch max).1,
              ev :: (p.nextEvent.1.readBatch max).2) := by
            rw [EventPlayer.readBatch]
            split
            · rename_i heq
              rw [heq] at hsome
              cases hsome
            · rename_i heq
              rw [heq] at hsome ⊢
              obtain rfl := Option.some.inj hsome
              rfl
          rw [hbatch, hrest]
          exact ⟨rfl, hplays'⟩

/-- Successive batches cut the whole events. -/
theorem flatten_readBatches {whole : List Event} (maxes : List ℕ) (h : Plays p whole) :
    (p.readBatches maxes).flatten = whole.take maxes.sum := by
  induction maxes generalizing p whole with
  | nil => rfl
  | cons max maxes ih =>
      obtain ⟨hfirst, hplays⟩ := readBatch_spec max h
      rw [EventPlayer.readBatches, List.flatten_cons, hfirst, ih hplays, List.sum_cons,
        List.take_add]

/-- The player of a recording has all of it before it. -/
theorem openFile_recorded {file : Bytes} (h : recordedFile evs = some file) :
    ∃ p, EventPlayer.openFile file = .ok p ∧ p.remaining.toNat = evs.length ∧ Plays p evs := by
  obtain ⟨rfl, hlen⟩ := recordedFile_eq h
  have hcount : (UInt64.ofNat evs.length).toNat = evs.length := by
    rw [UInt64.toNat_ofNat', Nat.mod_eq_of_lt hlen]
  refine ⟨_, openFile_header hlen _, hcount, evs, DISK_EVENT_SIZE * evs.length, ?_, hcount, ?_⟩
  · rw [← length_flatMap_encode length_encodeEvent, List.take_length]
  · rw [Nat.mul_div_cancel_left _ (by decide), List.take_length]

end Reading

section Playing

theorem remaining_nextEvent (p : EventPlayer) : p.nextEvent.1.remaining.toNat ≤ p.remaining.toNat ∧
    (p.nextEvent.2 ≠ none → p.nextEvent.1.remaining.toNat < p.remaining.toNat) := by
  rw [EventPlayer.nextEvent]
  split
  · exact ⟨Nat.le_refl _, fun h => absurd rfl h⟩
  · rename_i hmore
    split
    · exact ⟨Nat.le_refl _, fun h => absurd rfl h⟩
    · have hone : (1 : UInt64) ≤ p.remaining := by
        rw [UInt64.le_iff_toNat_le, UInt64.toNat_one]
        exact Nat.pos_of_ne_zero fun hzero => hmore (UInt64.toNat_inj.mp hzero)
      have hless : (p.remaining - 1).toNat < p.remaining.toNat := by
        rw [UInt64.toNat_sub_of_le _ _ hone]
        rw [UInt64.le_iff_toNat_le, UInt64.toNat_one] at hone
        rw [UInt64.toNat_one]
        omega
      exact ⟨Nat.le_of_lt hless, fun _ => hless⟩

theorem remaining_readBatch (max : ℕ) (p : EventPlayer) :
    (p.readBatch max).1.remaining.toNat ≤ p.remaining.toNat ∧
      ((p.readBatch max).2 ≠ [] → (p.readBatch max).1.remaining.toNat < p.remaining.toNat) := by
  induction max generalizing p with
  | zero => exact ⟨Nat.le_refl _, fun h => absurd rfl h⟩
  | succ max ih =>
      obtain ⟨hle, hlt⟩ := remaining_nextEvent p
      rw [EventPlayer.readBatch]
      split
      · rename_i heq
        rw [heq] at hle
        exact ⟨hle, fun h => absurd rfl h⟩
      · rename_i q ev heq
        rw [heq] at hlt
        have hnext : q.remaining.toNat < p.remaining.toNat := hlt (Option.some_ne_none ev)
        have hrest := (ih q).1
        exact ⟨by dsimp only; omega, fun _ => by dsimp only; omega⟩

/-- The batches that a replay reads: up to an empty one. -/
def EventPlayer.readAll (max : ℕ) (p : EventPlayer) : List (List Event) :=
  if _h : (p.readBatch max).2 = [] then []
  else (p.readBatch max).2 :: readAll max (p.readBatch max).1
termination_by p.remaining.toNat
decreasing_by exact (remaining_readBatch max p).2 _h

/-- They cut the whole events, each batch but the last a full one. -/
theorem readAll_spec {p : EventPlayer} {whole : List Event} {max : ℕ} (hmax : 0 < max)
    (h : Plays p whole) : p.readAll max = Streams.cut max whole := by
  induction hn : whole.length using Nat.strong_induction_on generalizing p whole with
  | _ n ih =>
      obtain ⟨hbatch, hplays⟩ := readBatch_spec max h
      rw [EventPlayer.readAll]
      by_cases hwhole : whole = []
      · rw [dif_pos (by rw [hbatch, hwhole, List.take_nil]), hwhole, Streams.cut_nil]
      · have hpos := List.length_pos_iff.mpr hwhole
        have hsome : (p.readBatch max).2 ≠ [] := by
          rw [hbatch, ne_eq, List.take_eq_nil_iff]
          rintro (hzero | hnil)
          · omega
          · exact hwhole hnil
        rw [dif_neg hsome, hbatch, Streams.cut_of_ne hmax hwhole,
          ih (whole.drop max).length (by rw [List.length_drop]; omega) hplays rfl]

end Playing

/-- A recording plays back what was recorded, however it is read, and a cut one the events
that lie before the cut. -/
theorem recording_round_trip {evs : List Event} {file : Bytes} (h : recordedFile evs = some file) :
    (∃ p, EventPlayer.openFile file = .ok p ∧ p.remaining.toNat = evs.length ∧
      ∀ maxes, (p.readBatches maxes).flatten = evs.take maxes.sum) ∧
    ∀ k, HEADER_SIZE ≤ k → ∃ p, EventPlayer.openFile (file.take k) = .ok p ∧
      ∀ maxes, (p.readBatches maxes).flatten =
        (evs.take ((k - HEADER_SIZE) / DISK_EVENT_SIZE)).take maxes.sum := by
  constructor
  · obtain ⟨p, hopen, hcount, hplays⟩ := openFile_recorded h
    exact ⟨p, hopen, hcount, fun maxes => flatten_readBatches maxes hplays⟩
  · intro k hk
    obtain ⟨rfl, hlen⟩ := recordedFile_eq h
    have hcount : (UInt64.ofNat evs.length).toNat = evs.length := by
      rw [UInt64.toNat_ofNat', Nat.mod_eq_of_lt hlen]
    have hcut : (fileHeader evs.length ++ evs.flatMap encodeEvent).take k =
        fileHeader evs.length ++ (evs.flatMap encodeEvent).take (k - HEADER_SIZE) := by
      rw [List.take_append, length_fileHeader,
        List.take_of_length_le (by rw [length_fileHeader]; exact hk)]
    rw [hcut]
    exact ⟨_, openFile_header hlen _, fun maxes =>
      flatten_readBatches maxes ⟨evs, _, rfl, hcount, rfl⟩⟩

def twoEvents : List Event :=
  [⟨0x7ffd1000, 8, 3, 0xfffe, 0x1122334455667788, 0x10000, 0x40⟩, ⟨1, 2, 3, 4, 5, 6, 7⟩]

/-- The recording is 88 bytes long. Cut behind 60 of them, it plays the first event. -/
theorem two_events_round_trip : ∃ file, recordedFile twoEvents = some file ∧ file.length = 88 ∧
    ∃ p, EventPlayer.openFile (file.take 60) = .ok p ∧
      (p.readBatches [0, 3, 1]).flatten = twoEvents.take 1 := by
  obtain ⟨file, hfile⟩ := Option.isSome_iff_exists.mp
    (show (recordedFile twoEvents).isSome = true by decide)
  obtain ⟨p, hopen, hplays⟩ := (recording_round_trip hfile).2 60 (by decide)
  refine ⟨file, hfile, ?_, p, hopen, hplays [0, 3, 1]⟩
  rw [(recordedFile_eq hfile).1, List.length_append, length_fileHeader,
    length_flatMap_encode length_encodeEvent]
  rfl

end Rtmap.Engine.Recording
