import Rtmap.Engine.EdgeValues
import Rtmap.Lib.LeBytes

/-!
# Node values and memory

A WRITE leaves its word in the node of the variable that it hits, wherever in the variable
it starts and however many bytes it is wide. `values_track_iff` says of which writes the
node then holds what the variable holds.
-/
namespace Rtmap.Engine
open Rtmap.Ring Transition LeBytes

/-- A WRITE with its value, of one to eight bytes inside the variable of `n` bytes at `lo`. -/
structure InVariable (lo n : ℕ) (ev : Event) : Prop where
  kind : kindOf ev = .write
  carries : ev.isTruncated = false
  size : 1 ≤ ev.size.toNat ∧ ev.size.toNat ≤ 8
  inside : lo ≤ ev.addr.toNat ∧ ev.addr.toNat + ev.size.toNat ≤ lo + n

/-- The memory that a WRITE leaves. -/
def storeWrite (mem : ℕ → UInt8) (ev : Event) : ℕ → UInt8 :=
  store mem ev.addr.toNat ev.size.toNat ev.value.toNat

/-- Writes as the engine is fed them. -/
def writeInputs (writes : List (Host × Event)) : List Input :=
  writes.map fun w => .event w.1 w.2

/-- The memory behind the writes. -/
def memoryAfter (mem : ℕ → UInt8) (writes : List (Host × Event)) : ℕ → UInt8 :=
  writes.foldl (fun mem w => storeWrite mem w.2) mem

/-- The node's value is what the bytes of the variable hold. -/
def World.Tracks (w : World) (id : NodeId) (mem : ℕ → UInt8) (lo n : ℕ) : Prop :=
  ∃ node, w.nodes id = some node ∧ node.rawValue.toNat = contents mem lo n

/-- The word is as wide as the variable and has at each place the byte that the variable has
behind the write: the one written there, or the one that was there. -/
structure WordFits (mem : ℕ → UInt8) (lo n : ℕ) (ev : Event) (v : UInt64) : Prop where
  width : v.toNat < 256 ^ n
  written : ∀ k < n, ev.addr.toNat ≤ lo + k ∧ lo + k < ev.addr.toNat + ev.size.toNat →
    byte v.toNat k = byte ev.value.toNat (lo + k - ev.addr.toNat)
  kept : ∀ k < n, ¬ (ev.addr.toNat ≤ lo + k ∧ lo + k < ev.addr.toNat + ev.size.toNat) →
    byte v.toNat k = mem (lo + k)

/-- The write hits the node. -/
def Hits (host : Host) (ev : Event) (s : State) (id : NodeId) : Prop :=
  ∃ h, (s.addrIndex.lookup host.orders ev.addr).2 = some h ∧ h.nodeId = id

/-- The word of a write that hits the node fits it; if the write hits another node or none, the
node has the value already. -/
def WriteTracked (host : Host) (ev : Event) (s : State) (id : NodeId) (mem : ℕ → UInt8)
    (lo n : ℕ) : Prop :=
  (Hits host ev s id → WordFits mem lo n ev ev.value) ∧
    (¬ Hits host ev s id →
      ∃ node, s.world.nodes id = some node ∧ WordFits mem lo n ev node.rawValue)

section Words
variable {mem : ℕ → UInt8} {lo n : ℕ} {ev : Event}

theorem wordFits_iff (v : UInt64) :
    WordFits mem lo n ev v ↔ v.toNat = contents (storeWrite mem ev) lo n := by
  constructor
  · intro h
    refine (eq_contents_iff _ h.width).mpr fun k hk => ?_
    by_cases hin : ev.addr.toNat ≤ lo + k ∧ lo + k < ev.addr.toNat + ev.size.toNat
    · rw [storeWrite, store_of_mem mem _ hin]
      exact h.written k hk hin
    · rw [storeWrite, store_of_not_mem mem _ hin]
      exact h.kept k hk hin
  · intro h
    have hwidth : v.toNat < 256 ^ n := by
      rw [h]
      exact contents_lt ..
    have hbyte := (eq_contents_iff _ hwidth).mp h
    refine ⟨hwidth, fun k hk hin => ?_, fun k hk hout => ?_⟩
    · rw [hbyte k hk, storeWrite, store_of_mem mem _ hin]
    · rw [hbyte k hk, storeWrite, store_of_not_mem mem _ hout]

/-- A write of the whole variable fits it if its word is no wider. -/
theorem wordFits_of_whole (haddr : ev.addr.toNat = lo) (hsize : ev.size.toNat = n) :
    WordFits mem lo n ev ev.value ↔ ev.value.toNat < 256 ^ n := by
  refine ⟨WordFits.width, fun hwidth => ⟨hwidth, fun k _ _ => ?_, fun k hk hout => ?_⟩⟩
  · rw [haddr, Nat.add_sub_cancel_left]
  · exact absurd (by omega) hout

theorem memoryAfter_concat (mem : ℕ → UInt8) (writes : List (Host × Event)) (w : Host × Event) :
    memoryAfter mem (writes ++ [w]) = storeWrite (memoryAfter mem writes) w.2 :=
  List.foldl_concat ..

/-- Behind a write of the whole variable it does not matter what was there. -/
theorem contents_memoryAfter_of_whole {host : Host} (haddr : ev.addr.toNat = lo)
    (hsize : ev.size.toNat = n) (mem' : ℕ → UInt8) (writes : List (Host × Event)) :
    contents (memoryAfter mem ((host, ev) :: writes)) lo n =
      contents (memoryAfter mem' ((host, ev) :: writes)) lo n := by
  have hsame : ∀ x, lo ≤ x ∧ x < lo + n →
      memoryAfter mem ((host, ev) :: writes) x = memoryAfter mem' ((host, ev) :: writes) x := by
    intro x hx
    induction writes using List.reverseRecOn with
    | nil =>
        have hin : ev.addr.toNat ≤ x ∧ x < ev.addr.toNat + ev.size.toNat := by omega
        exact (store_of_mem mem _ hin).trans (store_of_mem mem' _ hin).symm
    | append_singleton writes w ih =>
        have hlast (mem : ℕ → UInt8) : memoryAfter mem ((host, ev) :: (writes ++ [w])) =
            storeWrite (memoryAfter mem ((host, ev) :: writes)) w.2 :=
          memoryAfter_concat mem ((host, ev) :: writes) w
        rw [hlast, hlast, storeWrite, storeWrite, store, store, ih]
  refine (eq_contents_iff _ (contents_lt ..)).mpr fun k hk => ?_
  rw [byte_contents _ _ hk]
  exact hsame _ (by omega)

end Words

section Runs
variable {host : Host} {ev : Event} {s : State} {id : NodeId} {mem : ℕ → UInt8} {lo n : ℕ}

/-- Behind a WRITE the node that it hits has its value, and the others have theirs. -/
theorem rawValue_processEvent (hkind : kindOf ev = .write) :
    (Hits host ev s id → ∃ node, (processEvent host ev s).world.nodes id = some node ∧
      node.rawValue = writeValue ev) ∧
    (¬ Hits host ev s id → (processEvent host ev s).world.nodes id = s.world.nodes id) := by
  obtain ⟨g, m, hs, vs, info, regs, topo, hbefore⟩ := beforeNode_eq host ev s
  have hindex : (beforeNode host ev s).addrIndex = s.addrIndex := by
    rw [hbefore]
    rfl
  have hnodes : (beforeNode host ev s).world.nodes = s.world.nodes := by
    rw [hbefore]
    rfl
  rw [processEvent_write host ev s hkind]
  constructor
  · intro hhits
    obtain ⟨h, hfound, rfl⟩ := hhits
    rw [← hindex] at hfound
    obtain ⟨node, hvalue, hwritten⟩ := Write.nodes_node hfound
    exact ⟨node, by rw [hwritten, Function.update_self], hvalue⟩
  · intro hhits
    cases hfound : (s.addrIndex.lookup host.orders ev.addr).2 with
    | none =>
        rw [← hindex] at hfound
        rw [Write.node_of_none hfound]
        exact congrFun hnodes id
    | some h =>
        have hne : id ≠ h.nodeId := fun heq => hhits ⟨h, hfound, heq.symm⟩
        rw [← hindex] at hfound
        obtain ⟨node, -, hwritten⟩ := Write.nodes_node hfound
        rw [hwritten, Function.update_of_ne hne, hnodes]

/-- Behind one write the node holds what the variable holds exactly if the write is tracked. -/
theorem tracks_processEvent (hin : InVariable lo n ev) :
    (processEvent host ev s).world.Tracks id (storeWrite mem ev) lo n ↔
      WriteTracked host ev s id mem lo n := by
  obtain ⟨hhit, hmiss⟩ : (Hits host ev s id → _) ∧ (¬ Hits host ev s id → _) :=
    rawValue_processEvent hin.kind
  have hvalue : writeValue ev = ev.value := by
    rw [writeValue, if_neg (by rw [hin.carries]; exact Bool.false_ne_true)]
  by_cases hhits : Hits host ev s id
  · obtain ⟨node, hnode, hraw⟩ := hhit hhits
    have htracked : WriteTracked host ev s id mem lo n ↔ WordFits mem lo n ev ev.value :=
      ⟨fun h => h.1 hhits, fun h => ⟨fun _ => h, fun hno => absurd hhits hno⟩⟩
    rw [htracked, wordFits_iff, World.Tracks, hnode, ← hvalue, ← hraw]
    constructor
    · intro h
      obtain ⟨node', heq, h⟩ := h
      obtain rfl := Option.some.inj heq
      exact h
    · exact fun h => ⟨node, rfl, h⟩
  · have htracked : WriteTracked host ev s id mem lo n ↔
        ∃ node, s.world.nodes id = some node ∧ WordFits mem lo n ev node.rawValue :=
      ⟨fun h => h.2 hhits, fun h => ⟨fun hyes => absurd hyes hhits, fun _ => h⟩⟩
    rw [htracked, World.Tracks, hmiss hhits]
    simp only [wordFits_iff]

theorem run_writeInputs_concat (front : List (Host × Event)) (w : Host × Event) (s : State) :
    Input.run (writeInputs (front ++ [w])) s =
      processEvent w.1 w.2 (Input.run (writeInputs front) s) := by
  rw [writeInputs, List.map_append]
  exact Input.run_snoc ..

/-- In every run of writes into a variable its node tracks it behind each of them exactly if
each of them is tracked. -/
theorem values_track_iff (start : State) (id : NodeId) (mem : ℕ → UInt8) (lo n : ℕ)
    (writes : List (Host × Event)) (hin : ∀ w ∈ writes, InVariable lo n w.2) :
    (∀ front w, front ++ [w] <+: writes →
      (Input.run (writeInputs (front ++ [w])) start).world.Tracks id
        (memoryAfter mem (front ++ [w])) lo n) ↔
    ∀ front w, front ++ [w] <+: writes →
      WriteTracked w.1 w.2 (Input.run (writeInputs front) start) id (memoryAfter mem front) lo n := by
  refine forall₃_congr fun front w hfront => ?_
  have hmem : w ∈ writes := hfront.subset (by simp)
  rw [run_writeInputs_concat, memoryAfter_concat]
  exact tracks_processEvent (hin w hmem)

end Runs

/-- A small number is written to the variable at 0x4000, then its lowest byte. -/
def smallThenByte : List (Host × Event) :=
  [(.plain, plainEvent EVENT_WRITE 0x4000 0x11),
    (.plain, { plainEvent EVENT_WRITE 0x4000 0x22 with size := 1 })]

/-- The bytes that the second write leaves are 0, as those of its word are. -/
theorem byte_tracked :
    (Input.run (writeInputs smallThenByte) twoVariables).world.Tracks (.global 0)
      (memoryAfter (fun _ => 0) smallThenByte) 0x4000 8 := by
  have hin : ∀ w ∈ smallThenByte, InVariable 0x4000 8 w.2 := by
    intro w hw
    rcases List.mem_pair.mp hw with rfl | rfl
    · exact ⟨rfl, rfl, by decide, by decide⟩
    · exact ⟨rfl, rfl, by decide, by decide⟩
  refine (values_track_iff twoVariables (.global 0) _ 0x4000 8 smallThenByte hin).mpr ?_
    (smallThenByte.take 1) _ (List.prefix_refl smallThenByte)
  intro front w hfront
  have hcases : front = [] ∧ w = (.plain, plainEvent EVENT_WRITE 0x4000 0x11) ∨
      front = smallThenByte.take 1 ∧
        w = (.plain, { plainEvent EVENT_WRITE 0x4000 0x22 with size := 1 }) := by
    rcases List.prefix_concat_iff.mp (show _ <+: smallThenByte.take 1 ++ [_] from hfront) with
      heq | hfirst
    · obtain ⟨hfront, hw⟩ := List.append_inj' heq rfl
      exact .inr ⟨hfront, List.singleton_inj.mp hw⟩
    · rcases List.prefix_concat_iff.mp (show _ <+: [] ++ [_] from hfirst) with heq | hnil
      · obtain ⟨hfront, hw⟩ := List.append_inj' heq rfl
        exact .inl ⟨hfront, List.singleton_inj.mp hw⟩
      · simp at hnil
  rcases hcases with ⟨rfl, rfl⟩ | ⟨rfl, rfl⟩
  · have hhits : Hits .plain (plainEvent EVENT_WRITE 0x4000 0x11) twoVariables (.global 0) :=
      ⟨_, rfl, rfl⟩
    have hnarrow : (plainEvent EVENT_WRITE 0x4000 0x11).value.toNat < 256 ^ 8 := by decide
    exact ⟨fun _ => (wordFits_of_whole rfl rfl).mpr hnarrow, fun hno => absurd hhits hno⟩
  · have hhits : Hits .plain { plainEvent EVENT_WRITE 0x4000 0x22 with size := 1 }
        (Input.run (writeInputs (smallThenByte.take 1)) twoVariables) (.global 0) :=
      ⟨_, rfl, rfl⟩
    exact ⟨fun _ => ⟨by decide, by decide, by decide⟩, fun hno => absurd hhits hno⟩

/-- A word is written to the variable at 0x4000, then its lowest byte. -/
def wordThenByte : List (Host × Event) :=
  [(.plain, plainEvent EVENT_WRITE 0x4000 0x1122334455667788),
    (.plain, { plainEvent EVENT_WRITE 0x4000 0xaa with size := 1 })]

/-- Behind the second write the node has the byte alone. -/
theorem byte_replaces_word :
    ¬ ∀ (start : State) (id : NodeId) (mem : ℕ → UInt8) (lo n : ℕ) (writes : List (Host × Event)),
      n ≤ 8 →
      (∃ iv ∈ start.addrIndex.statics, iv.nodeId = id ∧ iv.lo.toNat = lo ∧ iv.hi.toNat = lo + n) →
      (∀ w ∈ writes, InVariable lo n w.2) →
      (∀ w ∈ writes.head?, w.2.addr.toNat = lo ∧ w.2.size.toNat = n) →
        ∀ front w, front ++ [w] <+: writes →
          (Input.run (writeInputs (front ++ [w])) start).world.Tracks id
            (memoryAfter mem (front ++ [w])) lo n := by
  intro h
  have hin : ∀ w ∈ wordThenByte, InVariable 0x4000 8 w.2 := by
    intro w hw
    rcases List.mem_pair.mp hw with rfl | rfl
    · exact ⟨rfl, rfl, by decide, by decide⟩
    · exact ⟨rfl, rfl, by decide, by decide⟩
  have htracks := h twoVariables (.global 0) (fun _ => 0) 0x4000 8 wordThenByte (by decide)
    ⟨_, List.mem_cons_self, rfl, rfl, rfl⟩ hin
    (fun w hw => by
      obtain rfl := Option.some.inj hw
      exact ⟨rfl, rfl⟩)
    (wordThenByte.take 1) _ (List.prefix_refl wordThenByte)
  obtain ⟨node, hnode, hraw⟩ := htracks
  have hvalue : ((Input.run (writeInputs wordThenByte) twoVariables).world.valueAndEdge
      (.global 0)).1 = some 0xaa := by decide +kernel
  have hcontents : contents (memoryAfter (fun _ => 0) wordThenByte) 0x4000 8 =
      0x11223344556677aa := by decide +kernel
  have hnode' : (Input.run (writeInputs wordThenByte) twoVariables).world.nodes (.global 0) =
      some node := hnode
  have haa : some node.rawValue = some 0xaa := by
    rw [← hvalue, World.valueAndEdge, hnode']
    rfl
  have hword : node.rawValue.toNat = 0x11223344556677aa := hraw.trans hcontents
  rw [Option.some.inj haa] at hword
  exact absurd hword (by decide)

end Rtmap.Engine
