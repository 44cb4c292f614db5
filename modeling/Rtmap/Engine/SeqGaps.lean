import Rtmap.Engine.SeqTracking

/-!
# Sequence gaps

Streams without loss, or with one block removed, arrive in any batches. The gaps
reported are compared with the block: a batch may cut a register snapshot, and
`--no-bb` skips events before their numbers are seen.
-/
namespace Rtmap.Engine
open Rtmap.Ring Streams

section Units

/-- What a batch should not cut: a snapshot's run. Other slots stand alone. -/
def units (op : Op) : List (List Event) :=
  if op.isSnapshot then [op.slots] else op.slots.map fun e => [e]

inductive IsUnit : List Event → Prop
  | slot {e : Event} (h : e.kind ≠ EVENT_REG_SNAPSHOT) : IsUnit [e]
  | snapshot {op : Op} (h : op.isSnapshot = true) : IsUnit op.slots

theorem flatten_units (op : Op) : (units op).flatten = op.slots := by
  rw [units]
  split
  · simp
  · induction op.slots with
    | nil => rfl
    | cons e es ih => simpa using ih

theorem flatten_flatMap_units (ops : List Op) :
    (ops.flatMap units).flatten = ops.flatMap Op.slots := by
  induction ops with
  | nil => rfl
  | cons op ops ih =>
      rw [List.flatMap_cons, List.flatMap_cons, List.flatten_append, ih, flatten_units]

theorem isUnit_of_mem {op : Op} (hop : op.Numbered) {u : List Event} (hu : u ∈ units op) :
    IsUnit u := by
  rw [units] at hu
  split at hu
  · rename_i hsnap
    rw [List.mem_singleton] at hu
    exact hu ▸ .snapshot hsnap
  · rename_i hsnap
    obtain ⟨e, he, rfl⟩ := List.mem_map.mp hu
    exact .slot (Op.kind_of_not_snapshot hop.1 (by simpa using hsnap) he)

theorem IsUnit.ne_nil {u : List Event} (h : IsUnit u) : u ≠ [] := by
  cases h with
  | slot h => simp
  | @snapshot op h => exact op.slots_ne_nil

variable {noBb : Bool}

/-- The event of a unit whose number is tracked. -/
def unitLeads (noBb : Bool) : List Event → List Event
  | [] => []
  | e :: _ => if noBb && e.kind == EVENT_BB_ENTRY then [] else [e]

theorem leads_skip (skip : ℕ) (front back : List Event) (h : front.length = skip) :
    leads noBb skip (front ++ back) = leads noBb 0 back := by
  induction front generalizing skip with
  | nil =>
      subst h
      rfl
  | cons x front ih =>
      obtain ⟨k, rfl⟩ : ∃ k, skip = k + 1 := ⟨front.length, by simpa using h.symm⟩
      exact ih k (by simpa using h)

theorem leads_unit {u : List Event} (h : IsUnit u) (rest : List Event) :
    leads noBb 0 (u ++ rest) = unitLeads noBb u ++ leads noBb 0 rest := by
  cases h with
  | slot h =>
      rw [List.singleton_append, leads, unitLeads, if_neg h]
      split <;> rfl
  | @snapshot op h =>
      have hkinds : ∀ e ∈ op.slots, e.kind = EVENT_REG_SNAPSHOT := fun _ he =>
        Op.kind_of_snapshot h he
      have hlen : op.slots.length = 7 := Op.slots_length_snapshot h
      rw [op.slots_eq] at hkinds hlen ⊢
      have htail : op.slots.tail.length = 6 := by simpa using hlen
      have hlead : op.lead.kind = EVENT_REG_SNAPSHOT := hkinds _ List.mem_cons_self
      have hbb : (noBb && op.lead.kind == EVENT_BB_ENTRY) = false := by
        rw [hlead]
        cases noBb <;> rfl
      have htake : (op.slots.tail ++ rest).take 6 = op.slots.tail := by
        rw [List.take_append_of_le_length (by omega), List.take_of_length_le (by omega)]
      have hall : op.slots.tail.all (·.kind == EVENT_REG_SNAPSHOT) = true := by
        simp only [List.all_eq_true, beq_iff_eq]
        exact fun e he => hkinds e (List.mem_cons_of_mem _ he)
      have hconsumed : consumed op.lead op.slots.tail = 7 := by
        rw [consumed, applyRegSnapshot, if_neg (by simpa using hlead), if_neg (by omega),
          List.take_of_length_le (by omega), if_pos hall]
        rfl
      rw [List.cons_append, leads, unitLeads, hbb, htake, hconsumed]
      simp only [Bool.false_eq_true, if_false, if_pos hlead, List.singleton_append]
      rw [leads_skip 6 op.slots.tail rest htail]

theorem leads_units {us : List (List Event)} (h : ∀ u ∈ us, IsUnit u) (rest : List Event) :
    leads noBb 0 (us.flatten ++ rest) = us.flatMap (unitLeads noBb) ++ leads noBb 0 rest := by
  induction us with
  | nil => rfl
  | cons u us ih =>
      rw [List.flatten_cons, List.append_assoc, leads_unit (h u List.mem_cons_self),
        ih fun v hv => h v (List.mem_cons_of_mem _ hv), List.flatMap_cons, List.append_assoc]

/-- Batches of whole units: the tracker sees each unit's leading event. -/
theorem leads_whole {us : List (List Event)} (h : ∀ u ∈ us, IsUnit u) {bs : List (List Event)}
    (hwhole : Whole us bs) : bs.flatMap (leads noBb 0) = us.flatMap (unitLeads noBb) := by
  obtain ⟨vs, rfl, rfl⟩ := hwhole
  induction vs with
  | nil => rfl
  | cons v vs ih =>
      have hv : leads noBb 0 (v.flatten ++ []) =
          v.flatMap (unitLeads noBb) ++ leads noBb 0 [] :=
        leads_units (fun u hu => h u (by simp [hu])) []
      rw [List.append_nil] at hv
      rw [List.map_cons, List.flatMap_cons, ih fun u hu => h u (by simp_all), hv]
      simp [leads]

end Units

section Cuts
variable (noBb : Bool)

theorem leads_snapshot {x : Event} (h : x.kind = EVENT_REG_SNAPSHOT) (rest : List Event) :
    leads noBb 0 (x :: rest) = x :: leads noBb (consumed x (rest.take 6) - 1) rest := by
  have hbb : (noBb && x.kind == EVENT_BB_ENTRY) = false := by
    rw [h]
    cases noBb <;> rfl
  rw [leads, hbb, if_neg (by simp), if_pos h]

/-- A snapshot slot takes itself or six more of its kind. -/
theorem consumed_cases {x : Event} (h : x.kind = EVENT_REG_SNAPSHOT) (rest : List Event) :
    consumed x (rest.take 6) = 1 ∨
      consumed x (rest.take 6) = 7 ∧ 6 ≤ rest.length ∧
        ∀ e ∈ rest.take 6, e.kind = EVENT_REG_SNAPSHOT := by
  rw [consumed, applyRegSnapshot, if_neg (by simpa using h)]
  split
  · exact .inl rfl
  · rename_i hlen
    rw [List.length_take] at hlen
    split
    · rename_i hall
      refine .inr ⟨rfl, by omega, fun e he => ?_⟩
      rw [List.take_take, Nat.min_self, List.all_eq_true] at hall
      simpa using hall e he
    · exact .inl rfl

/-- The walk over what is left of a batch and the later batches. -/
def walk (noBb : Bool) (cur : List Event) (later : List (List Event)) : List Event :=
  leads noBb 0 cur ++ later.flatMap (leads noBb 0)

/-- What is left starts with a snapshot slot, in this batch or after empty ones. -/
theorem walk_snapshot {cur : List Event} {later : List (List Event)} {x : Event}
    {rest : List Event} (h : cur ++ later.flatten = x :: rest) (hx : x.kind = EVENT_REG_SNAPSHOT) :
    ∃ (cur' : List Event) (later' : List (List Event)), cur' ++ later'.flatten = rest ∧
      walk noBb cur later = x :: (leads noBb (consumed x (cur'.take 6) - 1) cur' ++
        later'.flatMap (leads noBb 0)) := by
  induction later generalizing cur with
  | nil =>
      obtain rfl : cur = x :: rest := by simpa using h
      refine ⟨rest, [], by simp, ?_⟩
      rw [walk, leads_snapshot noBb hx]
      rfl
  | cons b later ih =>
      cases cur with
      | nil =>
          obtain ⟨cur', later', hflat, hwalk⟩ := ih h
          refine ⟨cur', later', hflat, ?_⟩
          rw [← hwalk]
          simp [walk, leads]
      | cons y cur =>
          obtain ⟨rfl, hrest⟩ := List.cons.inj h
          refine ⟨cur, b :: later, hrest, ?_⟩
          rw [walk, leads_snapshot noBb hx]
          rfl

/-- The slots of a snapshot from the `j`-th one behind the header on. -/
def contFrom (op : Op) (j : ℕ) : List Event := op.slots.tail.drop (j - 1)

theorem contFrom_cons {op : Op} (h : op.isSnapshot = true) {j : ℕ} (hj : 1 ≤ j) (hj' : j ≤ 6) :
    ∃ x ∈ op.slots.tail, contFrom op j = x :: contFrom op (j + 1) := by
  have hlen : op.slots.length = 7 := Op.slots_length_snapshot h
  have hin : j - 1 < op.slots.tail.length := by
    rw [List.length_tail]
    omega
  refine ⟨op.slots.tail[j - 1], List.getElem_mem hin, ?_⟩
  rw [contFrom, contFrom, List.drop_eq_getElem_cons hin]
  congr 2
  omega

/-- The number that the slots behind a header show is not the one after the header's. -/
theorem seq_ne_cont {op : Op} (h : op.isSnapshot = true) {x : Event} (hx : x ∈ op.slots.tail) :
    x.seq32 ≠ op.seq + 1 := by
  intro heq
  have hnumber := (Op.tail_of_snapshot h hx).2.2.2
  have hlt := op.seq.toNat_lt
  rw [heq, UInt32.toNat_add] at hnumber
  have hone : (1 : UInt32).toNat = 1 := rfl
  omega

theorem length_contFrom {op : Op} (h : op.isSnapshot = true) {j : ℕ} (hj : 1 ≤ j) :
    (contFrom op j).length = 7 - j := by
  have hlen : op.slots.length = 7 := Op.slots_length_snapshot h
  rw [contFrom, List.length_drop, List.length_tail]
  omega

/-- Two slots behind one header show the same number, so the second is a gap. -/
theorem gap_after_cont {op : Op} (h : op.isSnapshot = true) {x y : Event}
    (hx : x ∈ op.slots.tail) (hy : y ∈ op.slots.tail) (t : SeqTracker) (es : List Event) :
    (t.track x).gaps.length < ((t.track x).hear (y :: es)).gaps.length := by
  obtain ⟨hxtid, hxkind, hxcont, hxseq⟩ := Op.tail_of_snapshot h hx
  obtain ⟨hytid, hykind, hycont, hyseq⟩ := Op.tail_of_snapshot h hy
  have hexp := SeqTracker.expectedSeq_track hxcont t (seqKey y)
  rw [if_pos (by rw [seqKey, seqKey, hxtid, hxkind, hytid, hykind])] at hexp
  have hne : y.seq32 ≠ x.seq32 + 1 := by
    have hsame : y.seq32 = x.seq32 := UInt32.toNat_inj.mp (hyseq.trans hxseq.symm)
    rw [hsame]
    exact fun heq => absurd (UInt32.left_eq_add.mp heq) (by decide)
  have hgap := SeqTracker.gaps_length_track_of_ne hycont hexp hne
  have hmono := SeqTracker.gaps_length_hear ((t.track x).track y) es
  have hcons : (t.track x).hear (y :: es) = ((t.track x).track y).hear es := rfl
  rw [hcons]
  omega

/-- The first step of a walk that starts behind a header: the next slot of the
snapshot follows, or the walk has moved to the same place of the next snapshot. -/
theorem step_behind_header {op : Op} {ops : List Op} {j : ℕ} (hops : ∀ o ∈ ops, o.Numbered)
    (h : op.isSnapshot = true) (hj : 1 ≤ j) (hj' : j ≤ 5) {cur : List Event}
    {later : List (List Event)}
    (hflat : cur ++ later.flatten = contFrom op j ++ ops.flatMap Op.slots) :
    ∃ x es, x ∈ op.slots.tail ∧ walk noBb cur later = x :: es ∧
      ((∃ y es', y ∈ op.slots.tail ∧ es = y :: es') ∨
        ∃ (o : Op) (ops' : List Op) (cur' : List Event) (later' : List (List Event)),
          ops = o :: ops' ∧ o.isSnapshot = true ∧ es = walk noBb cur' later' ∧
          cur' ++ later'.flatten = contFrom o j ++ ops'.flatMap Op.slots) := by
  obtain ⟨x, hx, hcons⟩ := contFrom_cons h hj (by omega)
  obtain ⟨-, hxkind, -, -⟩ := Op.tail_of_snapshot h hx
  rw [hcons, List.cons_append] at hflat
  obtain ⟨cur', later', hflat', hwalk⟩ := walk_snapshot noBb hflat hxkind
  rcases consumed_cases hxkind cur' with hone | ⟨hseven, hlen, hkinds⟩
  · obtain ⟨y, hy, hnext⟩ := contFrom_cons h (Nat.succ_le_succ (Nat.zero_le j)) (by omega)
    obtain ⟨-, hykind, -, -⟩ := Op.tail_of_snapshot h hy
    rw [hnext, List.cons_append] at hflat'
    obtain ⟨cur'', later'', -, hwalk'⟩ := walk_snapshot noBb hflat' hykind
    rw [hone] at hwalk
    exact ⟨x, _, hx, hwalk, .inl ⟨y, _, hy, hwalk'⟩⟩
  · have hcont := length_contFrom h (Nat.succ_le_succ (Nat.zero_le j))
    have hdrop := congrArg (List.drop 6) hflat'
    have htake := congrArg (List.take 6) hflat'
    rw [List.drop_append_of_le_length hlen] at hdrop
    rw [List.take_append_of_le_length hlen] at htake
    cases ops with
    | nil =>
        have htotal := congrArg List.length hflat'
        simp only [List.length_append, List.flatMap_nil, List.length_nil, hcont] at htotal
        omega
    | cons o ops =>
        have hnumbered := hops o List.mem_cons_self
        have hsnap : o.isSnapshot = true := by
          by_contra hnot
          have hmem : o.lead ∈ cur'.take 6 := by
            rw [htake, List.flatMap_cons, o.slots_eq, List.take_append, hcont]
            refine List.mem_append_right _ ?_
            obtain ⟨n, hn⟩ : ∃ n, 6 - (7 - (j + 1)) = n + 1 := ⟨j - 1, by omega⟩
            rw [hn, List.cons_append, List.take_succ_cons]
            exact List.mem_cons_self
          exact Op.kind_of_not_snapshot hnumbered.1 (by simpa using hnot)
            (o.slots_eq ▸ List.mem_cons_self) (hkinds _ hmem)
        have hslots : o.slots.length = 7 := Op.slots_length_snapshot hsnap
        refine ⟨x, _, hx, hwalk, .inr ⟨o, ops, cur'.drop 6, later', rfl, hsnap, ?_, ?_⟩⟩
        · have hsplit : cur' = cur'.take 6 ++ cur'.drop 6 := (List.take_append_drop 6 cur').symm
          rw [hseven, walk]
          conv_lhs => rw [hsplit]
          rw [leads_skip 6 _ _ (by rw [List.length_take]; omega)]
        · rw [hdrop, List.drop_append, hcont, List.drop_of_length_le (by rw [hcont]; omega),
            List.nil_append, List.flatMap_cons, List.drop_append_of_le_length (by omega), contFrom,
            List.drop_tail]
          congr 2
          omega

/-- A walk that starts behind the header of a snapshot meets a gap after the slot
it starts with. -/
theorem gap_behind_header {op : Op} {ops : List Op} {j : ℕ} (hops : ∀ o ∈ ops, o.Numbered)
    (h : op.isSnapshot = true) (hj : 1 ≤ j) (hj' : j ≤ 5) {cur : List Event}
    {later : List (List Event)}
    (hflat : cur ++ later.flatten = contFrom op j ++ ops.flatMap Op.slots) :
    ∃ x es, x ∈ op.slots.tail ∧ walk noBb cur later = x :: es ∧
      ∀ t : SeqTracker, (t.track x).gaps.length < ((t.track x).hear es).gaps.length := by
  induction ops generalizing op cur later with
  | nil =>
      obtain ⟨x, es, hx, hwalk, ⟨y, es', hy, rfl⟩ | ⟨o, ops', -, -, hnil, -⟩⟩ :=
        step_behind_header noBb hops h hj hj' hflat
      · exact ⟨x, _, hx, hwalk, fun t => gap_after_cont h hx hy t es'⟩
      · cases hnil
  | cons o ops ih =>
      obtain ⟨x, es, hx, hwalk, ⟨y, es', hy, rfl⟩ | ⟨o', ops', cur', later', hcons, hsnap, rfl, hflat'⟩⟩ :=
        step_behind_header noBb hops h hj hj' hflat
      · exact ⟨x, _, hx, hwalk, fun t => gap_after_cont h hx hy t es'⟩
      · obtain ⟨rfl, rfl⟩ := List.cons.inj hcons
        obtain ⟨y, es', -, hwalk', hgap⟩ :=
          ih (fun o ho => hops o (List.mem_cons_of_mem _ ho)) hsnap hflat'
        refine ⟨x, _, hx, hwalk, fun t => ?_⟩
        rw [hwalk']
        exact (SeqTracker.gaps_length_track _ y).trans_lt (hgap _)

/-- A unit of two slots or more is the run of a snapshot. -/
theorem snapshot_of_unit {ops : List Op} {us ws : List (List Event)} {u : List Event}
    (h : ops.flatMap units = us ++ u :: ws) (hu : 2 ≤ u.length) :
    ∃ op ∈ ops, ∃ rest : List Op, (∀ o ∈ rest, o ∈ ops) ∧ op.isSnapshot = true ∧ u = op.slots ∧
      ws = rest.flatMap units := by
  induction ops generalizing us with
  | nil => simp at h
  | cons o ops ih =>
      have hlater (us' : List (List Event)) (h' : ops.flatMap units = us' ++ u :: ws) :
          ∃ op ∈ o :: ops, ∃ rest : List Op, (∀ p ∈ rest, p ∈ o :: ops) ∧ op.isSnapshot = true ∧
            u = op.slots ∧ ws = rest.flatMap units := by
        obtain ⟨op, hop, rest, hrest, hsnap, hslots, hws⟩ := ih h'
        exact ⟨op, List.mem_cons_of_mem _ hop, rest, fun p hp => List.mem_cons_of_mem _ (hrest p hp),
          hsnap, hslots, hws⟩
      rw [List.flatMap_cons] at h
      rcases List.append_eq_append_iff.mp h with ⟨us', -, hrest⟩ | ⟨c, hc, hrest⟩
      · exact hlater us' hrest
      · cases c with
        | nil => exact hlater [] hrest.symm
        | cons v c =>
            obtain ⟨rfl, rfl⟩ := List.cons.inj hrest
            rw [units] at hc
            split at hc
            · rename_i hsnap
              have hsingle := congrArg List.length hc
              simp only [List.length_append, List.length_cons, List.length_nil] at hsingle
              obtain rfl : us = [] := List.length_eq_zero_iff.mp (by omega)
              obtain rfl : c = [] := List.length_eq_zero_iff.mp (by omega)
              obtain rfl : o.slots = u := by simpa using hc
              exact ⟨o, List.mem_cons_self, ops, fun p hp => List.mem_cons_of_mem _ hp, hsnap, rfl,
                rfl⟩
            · have hmem : u ∈ o.slots.map fun e => [e] := by simp [hc]
              obtain ⟨e, -, rfl⟩ := List.mem_map.mp hmem
              simp at hu

/-- A snapshot cut by a batch makes two gaps at least. -/
theorem gaps_of_cut {ops : List Op} (hops : ∀ o ∈ ops, o.Numbered) {bs : List (List Event)}
    (hsplit : bs.flatten = ops.flatMap Op.slots) (hcut : ¬Whole (ops.flatMap units) bs)
    (t : SeqTracker) :
    t.gaps.length + 2 ≤ (t.hear (bs.flatMap (leads noBb 0))).gaps.length := by
  have hunit : ∀ u ∈ ops.flatMap units, IsUnit u := fun u hu => by
    obtain ⟨o, ho, hu⟩ := List.mem_flatMap.mp hu
    exact isUnit_of_mem (hops o ho) hu
  have hnil : [] ∉ ops.flatMap units := fun hmem => (hunit [] hmem).ne_nil rfl
  rw [← flatten_flatMap_units] at hsplit
  rcases whole_or_cut hnil hsplit with hwhole | ⟨us, vs, p, q, ws, later, hunits, hp, hq, rfl, hlater⟩
  · exact absurd hwhole hcut
  obtain ⟨op, hop, rest, hrest, hsnap, hslots, rfl⟩ := snapshot_of_unit hunits (by
    have hp' := List.length_pos_iff.mpr hp
    have hq' := List.length_pos_iff.mpr hq
    rw [List.length_append]
    omega)
  obtain ⟨x, p', rfl⟩ := List.exists_cons_of_ne_nil hp
  rw [op.slots_eq, List.cons_append] at hslots
  obtain ⟨rfl, htail⟩ := List.cons.inj hslots
  have hlen : op.slots.length = 7 := Op.slots_length_snapshot hsnap
  have hshort : p'.length < 6 := by
    have hq' := List.length_pos_iff.mpr hq
    have htotal := congrArg List.length htail
    rw [List.length_append, List.length_tail] at htotal
    omega
  have hleadkind : op.lead.kind = EVENT_REG_SNAPSHOT :=
    Op.kind_of_snapshot hsnap (op.slots_eq ▸ List.mem_cons_self)
  have hconsumed : consumed op.lead (p'.take 6) = 1 := by
    rcases consumed_cases hleadkind p' with hone | ⟨-, hlong, -⟩
    · exact hone
    · omega
  have hheader : leads noBb 0 (vs.flatten ++ op.lead :: p') =
      vs.flatMap (unitLeads noBb) ++ op.lead :: leads noBb 0 p' := by
    rw [leads_units fun u hu => hunit u (by simp [hunits, hu]), leads_snapshot noBb hleadkind,
      hconsumed]
  have hflat : p' ++ later.flatten = contFrom op 1 ++ rest.flatMap Op.slots := by
    rw [hlater, flatten_flatMap_units, ← List.append_assoc, htail]
    rfl
  obtain ⟨x, es, hx, hwalk, hgap⟩ := gap_behind_header noBb (fun o ho => hops o (hrest o ho)) hsnap
    (Nat.le_refl 1) (by omega) hflat
  obtain ⟨hxtid, hxkind, hxcont, -⟩ := Op.tail_of_snapshot hsnap hx
  have hwalk' : leads noBb 0 p' ++ later.flatMap (leads noBb 0) = x :: es := hwalk
  have hall : (us.map List.flatten ++ (vs.flatten ++ op.lead :: p') :: later).flatMap (leads noBb 0) =
      ((us.map List.flatten).flatMap (leads noBb 0) ++ vs.flatMap (unitLeads noBb)) ++
        op.lead :: x :: es := by
    rw [List.flatMap_append, List.flatMap_cons, hheader, ← hwalk']
    simp only [List.append_assoc, List.cons_append]
  rw [hall, SeqTracker.hear_append]
  generalize hfront : t.hear ((us.map List.flatten).flatMap (leads noBb 0) ++
    vs.flatMap (unitLeads noBb)) = t'
  have hmono := SeqTracker.gaps_length_hear t ((us.map List.flatten).flatMap (leads noBb 0) ++
    vs.flatMap (unitLeads noBb))
  rw [hfront] at hmono
  have hexp := SeqTracker.expectedSeq_track (Op.isContinuation_lead (hops op hop)) t' (seqKey x)
  rw [if_pos (by rw [seqKey, seqKey, op.threadId_lead, hleadkind, hxtid, hxkind]),
    op.seq32_lead] at hexp
  have hfirst := SeqTracker.gaps_length_track_of_ne hxcont hexp (seq_ne_cont hsnap hx)
  have hsecond := hgap (t'.track op.lead)
  have hlead := SeqTracker.gaps_length_track t' op.lead
  have hcons : t'.hear (op.lead :: x :: es) = ((t'.track op.lead).track x).hear es := rfl
  rw [hcons]
  omega

end Cuts

section Numbers
variable (noBb : Bool)

/-- `--no-bb` skips the operation's event. -/
def hidden (op : Op) : Bool := noBb && op.kind == EVENT_BB_ENTRY

/-- The thread and the counter that numbered the operation. -/
def opKey (op : Op) : SeqKey := (op.tid, seqDomain op.kind)

/-- The operation's number is tracked under the key. -/
def heard (k : SeqKey) (op : Op) : Bool := !hidden noBb op && opKey op == k

theorem numbers_units {op : Op} (hop : op.Numbered) (k : SeqKey) :
    SeqTracker.numbers k ((units op).flatMap (unitLeads noBb)) =
      if heard noBb k op then [op.seq] else [] := by
  have hlead : SeqTracker.numbers k (unitLeads noBb op.slots) =
      if heard noBb k op then [op.seq] else [] := by
    rw [op.slots_eq, unitLeads, op.kind_lead, heard, hidden]
    split
    · rename_i hbb
      simp [hbb, SeqTracker.numbers]
    · rename_i hbb
      have hkey : seqKey op.lead = opKey op := by rw [seqKey, opKey, op.threadId_lead, op.kind_lead]
      by_cases hk : opKey op = k
      · simp [hbb, SeqTracker.numbers, Op.isContinuation_lead hop, hkey, hk, op.seq32_lead]
      · simp [SeqTracker.numbers, hkey, hk]
  rw [units]
  split
  · simpa using hlead
  · rename_i hsnap
    have hrest : SeqTracker.numbers k ((op.slots.tail.map fun e => [e]).flatMap (unitLeads noBb)) =
        [] := by
      rw [SeqTracker.numbers, List.map_eq_nil_iff, List.filter_eq_nil_iff]
      intro e he
      obtain ⟨u, hu, he⟩ := List.mem_flatMap.mp he
      obtain ⟨x, hx, rfl⟩ := List.mem_map.mp hu
      obtain ⟨hcont, -⟩ := Op.tail_of_not_snapshot (by simpa using hsnap) hx
      rw [unitLeads] at he
      split at he
      · cases he
      · obtain rfl := List.mem_singleton.mp he
        simp [hcont]
    have hfirst : unitLeads noBb op.slots = unitLeads noBb [op.lead] := by
      rw [op.slots_eq]
      rfl
    rw [hfirst] at hlead
    rw [op.slots_eq, List.map_cons, List.flatMap_cons, SeqTracker.numbers_append, hlead, hrest,
      List.append_nil]

/-- The numbers that whole batches bring to the tracker. -/
theorem numbers_flatMap_units {ops : List Op} (hops : ∀ o ∈ ops, o.Numbered) (k : SeqKey) :
    SeqTracker.numbers k ((ops.flatMap units).flatMap (unitLeads noBb)) =
      (ops.filter (heard noBb k)).map Op.seq := by
  induction ops with
  | nil => rfl
  | cons o ops ih =>
      rw [List.flatMap_cons, List.flatMap_append, SeqTracker.numbers_append,
        numbers_units noBb (hops o List.mem_cons_self),
        ih fun p hp => hops p (List.mem_cons_of_mem _ hp), List.filter_cons]
      split <;> rfl

end Numbers

/-- A block of events of one thread and domain: which one it starts with, counted
in that domain, and how many it has. -/
structure Loss where
  key : SeqKey
  first : ℕ
  count : ℕ

/-- The block is not empty, shorter than the counter's range, comes after the
first event of its domain and lies in the stream. -/
structure Loss.Valid (l : Loss) (sent : List Op) : Prop where
  first_pos : 1 ≤ l.first
  count_pos : 0 < l.count
  count_lt : l.count < 2 ^ 32
  inside : l.first + l.count ≤ (sent.filter fun op => opKey op == l.key).length

/-- Leave out `count` operations of a kind after the first `first` ones of it. -/
def dropBlock (p : Op → Bool) : ℕ → ℕ → List Op → List Op
  | _, _, [] => []
  | first + 1, count, op :: ops => op :: dropBlock p (if p op then first else first + 1) count ops
  | 0, count + 1, op :: ops =>
      if p op then dropBlock p 0 count ops else op :: dropBlock p 0 (count + 1) ops
  | 0, 0, op :: ops => op :: ops

/-- What is left of the stream. -/
def received (loss : Option Loss) (sent : List Op) : List Op :=
  match loss with
  | some l => dropBlock (fun op => opKey op == l.key) l.first l.count sent
  | none => sent

/-- Which operations of a kind reach the tracker, when a block of them is left out. -/
def fates (noBb : Bool) (p : Op → Bool) : ℕ → ℕ → List Op → List Bool
  | _, _, [] => []
  | first + 1, count, op :: ops =>
      if p op then (!hidden noBb op) :: fates noBb p first count ops
      else fates noBb p (first + 1) count ops
  | 0, count + 1, op :: ops =>
      if p op then false :: fates noBb p 0 count ops else fates noBb p 0 (count + 1) ops
  | 0, 0, op :: ops =>
      if p op then (!hidden noBb op) :: fates noBb p 0 0 ops else fates noBb p 0 0 ops

/-- Which events of a thread and domain reach the tracker. -/
def fatesOf (noBb : Bool) (loss : Option Loss) (k : SeqKey) (sent : List Op) : List Bool :=
  match loss with
  | some l =>
      if l.key = k then fates noBb (fun op => opKey op == k) l.first l.count sent
      else fates noBb (fun op => opKey op == k) 0 0 sent
  | none => fates noBb (fun op => opKey op == k) 0 0 sent

/-- Between neighbouring events of a thread and domain that reach the tracker, how
many do not, modulo the counter's range; zeros are left out. -/
def missing (noBb : Bool) (loss : Option Loss) (k : SeqKey) (sent : List Op) : List ℕ :=
  ((spacings none (fatesOf noBb loss k sent)).map (· % 2 ^ 32)).filter (· ≠ 0)

/-- The block, where it is of the key. -/
def lost (loss : Option Loss) (k : SeqKey) : List ℕ :=
  match loss with
  | some l => if l.key = k then [l.count] else []
  | none => []

/-- Each counter goes up by one with every event it numbers. -/
def LossFree (sent : List Op) : Prop :=
  ∀ k, ((sent.filter fun op => opKey op == k).map Op.seq).IsChain fun a b => b = a + 1

/-- No gap is reported, or for a block that was left out exactly one of its size. -/
def Reports (loss : Option Loss) (gaps : List Gap) : Prop :=
  match loss with
  | some l => ∃ g, gaps = [g] ∧ g.key = l.key ∧ g.dropped = UInt32.ofNat l.count
  | none => gaps = []

section Streams
variable {noBb : Bool} {sent : List Op}

@[simp] theorem dropBlock_zero (p : Op → Bool) (ops : List Op) : dropBlock p 0 0 ops = ops := by
  cases ops <;> rfl

theorem mem_of_mem_dropBlock {p : Op → Bool} {first count : ℕ} {o : Op}
    (h : o ∈ dropBlock p first count sent) : o ∈ sent := by
  induction sent generalizing first count with
  | nil => simp [dropBlock] at h
  | cons op ops ih =>
      rcases first with _ | first
      · rcases count with _ | count
        · exact h
        · rw [dropBlock] at h
          split at h
          · exact List.mem_cons_of_mem _ (ih h)
          · rcases List.mem_cons.mp h with rfl | h
            · exact List.mem_cons_self
            · exact List.mem_cons_of_mem _ (ih h)
      · rcases List.mem_cons.mp h with rfl | h
        · exact List.mem_cons_self
        · exact List.mem_cons_of_mem _ (ih h)

theorem numbered_received (loss : Option Loss) (h : ∀ o ∈ sent, o.Numbered) :
    ∀ o ∈ received loss sent, o.Numbered := by
  intro o ho
  cases loss with
  | none => exact h o ho
  | some l => exact h o (mem_of_mem_dropBlock ho)

/-- Other kinds lose nothing. -/
theorem filter_dropBlock {p q : Op → Bool} (hpq : ∀ op, p op = true → q op = false)
    (first count : ℕ) : (dropBlock p first count sent).filter q = sent.filter q := by
  induction sent generalizing first count with
  | nil => rw [dropBlock]
  | cons op ops ih =>
      rcases first with _ | first
      · rcases count with _ | count
        · rfl
        · rw [dropBlock]
          split
          · rename_i hp
            rw [ih, List.filter_cons_of_neg (by simp [hpq op hp])]
          · simp only [List.filter_cons, ih]
      · simp only [dropBlock, List.filter_cons, ih]

/-- A stream numbered one by one is seen as its fates say. -/
theorem numbers_dropBlock (noBb : Bool) {p : Op → Bool} (first count : ℕ) (b : UInt32) (n : ℕ)
    (h : (sent.filter p).map Op.seq = seen 1 b (List.replicate n true)) :
    ((dropBlock p first count sent).filter fun op => !hidden noBb op && p op).map Op.seq =
      seen 1 b (fates noBb p first count sent) := by
  induction sent generalizing first count b n with
  | nil => rfl
  | cons op ops ih =>
      cases hp : p op with
      | false =>
          rw [List.filter_cons_of_neg (by simp [hp])] at h
          rcases first with _ | first
          · rcases count with _ | count
            · simpa [dropBlock, fates, hp] using ih 0 0 b n h
            · simpa [dropBlock, fates, hp] using ih 0 (count + 1) b n h
          · simpa [dropBlock, fates, hp] using ih (first + 1) count b n h
      | true =>
          rw [List.filter_cons_of_pos hp, List.map_cons] at h
          rcases n with _ | n
          · simp [seen] at h
          · rw [List.replicate_succ, seen] at h
            obtain ⟨hseq, hrest⟩ := List.cons.inj h
            rcases first with _ | first
            · rcases count with _ | count
              · have hnext := ih 0 0 (b + 1) n hrest
                cases hh : hidden noBb op <;>
                  simpa [dropBlock, fates, hp, hh, seen, hseq] using hnext
              · simpa [dropBlock, fates, hp, seen] using ih 0 count (b + 1) n hrest
            · have hnext := ih first count (b + 1) n hrest
              cases hh : hidden noBb op <;>
                simpa [dropBlock, fates, hp, hh, seen, hseq] using hnext

theorem exists_seen_of_isChain {l : List UInt32} (h : l.IsChain fun a b => b = a + 1) :
    ∃ b n, l = seen 1 b (List.replicate n true) := by
  induction l with
  | nil => exact ⟨0, 0, rfl⟩
  | cons a l ih =>
      obtain ⟨b, n, hl⟩ := ih h.of_cons
      cases n with
      | zero => exact ⟨a, 1, by rw [hl]; rfl⟩
      | succ n =>
          rw [List.replicate_succ, seen] at hl
          subst hl
          obtain rfl : b = a + 1 := (List.isChain_cons_cons.mp h).1
          exact ⟨a, n + 2, rfl⟩

/-- The numbers of a key that reach the tracker. -/
theorem numbers_received (noBb : Bool) (loss : Option Loss) (hfree : LossFree sent) (k : SeqKey) :
    ∃ b, ((received loss sent).filter (heard noBb k)).map Op.seq =
      seen 1 b (fatesOf noBb loss k sent) := by
  obtain ⟨b, n, hall⟩ := exists_seen_of_isChain (hfree k)
  refine ⟨b, ?_⟩
  have hnone : (sent.filter (heard noBb k)).map Op.seq =
      seen 1 b (fates noBb (fun op => opKey op == k) 0 0 sent) := by
    have hwhole := numbers_dropBlock noBb (p := fun op => opKey op == k) 0 0 b n hall
    rw [dropBlock_zero] at hwhole
    exact hwhole
  cases loss with
  | none => exact hnone
  | some l =>
      simp only [received, fatesOf]
      split
      · rename_i hk
        subst hk
        exact numbers_dropBlock noBb _ _ b n hall
      · rename_i hk
        rw [← hnone, filter_dropBlock]
        intro op hp
        have hop : opKey op = l.key := by simpa using hp
        simp [heard, hop, hk]

/-- The sizes of the gaps of a key. -/
def sizesOf (gaps : List Gap) (k : SeqKey) : List UInt32 :=
  (gaps.filter fun g => g.key == k).map Gap.dropped

theorem sizesOf_eq (t : SeqTracker) (k : SeqKey) :
    sizesOf t.gaps k = (t.gapsOf k).map fun p => p.2 - p.1 := by
  simp only [sizesOf, SeqTracker.gapsOf, List.map_map]
  rfl

theorem filter_nsmul_one (l : List ℕ) : (l.map (· • (1 : UInt32))).filter (· ≠ 0) =
    ((l.map (· % 2 ^ 32)).filter (· ≠ 0)).map UInt32.ofNat := by
  have hcast (n : ℕ) : n • (1 : UInt32) = UInt32.ofNat n := by
    apply UInt32.toBitVec_inj.mp
    rw [UInt32.toBitVec_nsmul]
    simp
    rfl
  have hzero (n : ℕ) : UInt32.ofNat n = 0 ↔ n % 2 ^ 32 = 0 := by
    rw [← UInt32.toNat_inj, UInt32.toNat_ofNat']
    rfl
  induction l with
  | nil => rfl
  | cons n l ih =>
      rw [List.map_cons, List.map_cons]
      by_cases hn : n % 2 ^ 32 = 0
      · have hskip : ¬decide (n • (1 : UInt32) ≠ 0) = true := by
          rw [hcast]
          simpa using (hzero n).mpr hn
        have hskip' : ¬decide (n % 2 ^ 32 ≠ 0) = true := by simpa using hn
        rw [List.filter_cons_of_neg (p := fun x => decide (x ≠ 0)) hskip,
          List.filter_cons_of_neg (p := fun x => decide (x ≠ 0)) hskip', ih]
      · have hkeep : decide (n • (1 : UInt32) ≠ 0) = true := by
          rw [hcast]
          simpa using fun h => hn ((hzero n).mp h)
        have hkeep' : decide (n % 2 ^ 32 ≠ 0) = true := by simpa using hn
        have hmod : UInt32.ofNat (n % 2 ^ 32) = UInt32.ofNat n := by
          rw [← UInt32.toNat_inj, UInt32.toNat_ofNat', UInt32.toNat_ofNat', Nat.mod_mod]
        rw [List.filter_cons_of_pos (p := fun x => decide (x ≠ 0)) hkeep,
          List.filter_cons_of_pos (p := fun x => decide (x ≠ 0)) hkeep', List.map_cons, ih, hmod, hcast]

/-- Whole batches: the sizes reported are those of what is missing. -/
theorem sizesOf_hear (loss : Option Loss) (hfree : LossFree sent) (hops : ∀ o ∈ sent, o.Numbered)
    {bs : List (List Event)} (hwhole : Whole ((received loss sent).flatMap units) bs)
    (k : SeqKey) :
    sizesOf (SeqTracker.hear {} (bs.flatMap (leads noBb 0))).gaps k =
      (missing noBb loss k sent).map UInt32.ofNat := by
  have hreceived := numbered_received loss hops
  have hunit : ∀ u ∈ (received loss sent).flatMap units, IsUnit u := fun u hu => by
    obtain ⟨o, ho, hu⟩ := List.mem_flatMap.mp hu
    exact isUnit_of_mem (hreceived o ho) hu
  obtain ⟨b, hnumbers⟩ := numbers_received noBb loss hfree k
  have hsizes := sizes_breaks (1 : UInt32) (fatesOf noBb loss k sent) b none
  rw [sizesOf_eq, SeqTracker.gapsOf_hear, leads_whole hunit hwhole,
    numbers_flatMap_units noBb hreceived, hnumbers, missing, ← filter_nsmul_one, ← hsizes]
  rfl

theorem reports_iff {loss : Option Loss} {gaps : List Gap} :
    Reports loss gaps ↔ ∀ k, sizesOf gaps k = (lost loss k).map UInt32.ofNat := by
  have hnone (k : SeqKey) (h : sizesOf gaps k = []) : ∀ g ∈ gaps, g.key ≠ k := by
    intro g hg hk
    have hmem : g ∈ gaps.filter fun g => g.key == k := by simp [hg, hk]
    rw [List.map_eq_nil_iff.mp h] at hmem
    cases hmem
  cases loss with
  | none =>
      simp only [Reports, lost, List.map_nil]
      constructor
      · rintro rfl k
        rfl
      · intro h
        refine List.eq_nil_iff_forall_not_mem.mpr fun g hg => ?_
        exact hnone g.key (h g.key) g hg rfl
  | some l =>
      simp only [Reports, lost]
      constructor
      · rintro ⟨g, rfl, hkey, hdropped⟩ k
        by_cases hk : l.key = k
        · simp [sizesOf, hkey, hk, hdropped]
        · simp [sizesOf, hkey, hk]
      · intro h
        have hall : ∀ g ∈ gaps, g.key = l.key := fun g hg => by
          by_contra hne
          have hempty := h g.key
          rw [if_neg (Ne.symm hne)] at hempty
          exact hnone g.key hempty g hg rfl
        have hone := h l.key
        rw [if_pos rfl, sizesOf, List.filter_eq_self.mpr (by simpa using hall)] at hone
        obtain ⟨g, rfl, hg⟩ := List.map_eq_singleton_iff.mp hone
        exact ⟨g, rfl, hall g List.mem_cons_self, hg⟩

theorem map_ofNat_inj {xs ys : List ℕ} (hx : ∀ n ∈ xs, n < 2 ^ 32) (hy : ∀ n ∈ ys, n < 2 ^ 32) :
    xs.map UInt32.ofNat = ys.map UInt32.ofNat ↔ xs = ys := by
  have hback (l : List ℕ) (hl : ∀ n ∈ l, n < 2 ^ 32) :
      (l.map UInt32.ofNat).map UInt32.toNat = l := by
    rw [List.map_map]
    refine (List.map_congr_left fun n hn => ?_).trans (List.map_id l)
    exact (UInt32.toNat_ofNat' ..).trans (Nat.mod_eq_of_lt (hl n hn))
  constructor
  · intro h
    rw [← hback xs hx, h, hback ys hy]
  · rintro rfl
    rfl

/-- Where `--no-bb` skips nothing, all events of a kind are seen but the block. -/
theorem fates_eq {p : Op → Bool} (hseen : ∀ op ∈ sent, hidden noBb op = false) {first count m : ℕ}
    (hlen : (sent.filter p).length = first + count + m) :
    fates noBb p first count sent =
      List.replicate first true ++ (List.replicate count false ++ List.replicate m true) := by
  induction sent generalizing first count m with
  | nil =>
      obtain ⟨rfl, rfl, rfl⟩ : first = 0 ∧ count = 0 ∧ m = 0 := by
        simp only [List.filter_nil, List.length_nil] at hlen
        omega
      rfl
  | cons op ops ih =>
      have hop := hseen op List.mem_cons_self
      have hrest : ∀ o ∈ ops, hidden noBb o = false := fun o ho =>
        hseen o (List.mem_cons_of_mem _ ho)
      cases hp : p op with
      | false =>
          rw [List.filter_cons_of_neg (by simp [hp])] at hlen
          rcases first with _ | first
          · rcases count with _ | count
            · simpa [fates, hp] using ih hrest hlen
            · simpa [fates, hp] using ih hrest hlen
          · simpa [fates, hp] using ih hrest hlen
      | true =>
          rw [List.filter_cons_of_pos hp, List.length_cons] at hlen
          rcases first with _ | first
          · rcases count with _ | count
            · obtain ⟨m, rfl⟩ : ∃ m', m = m' + 1 := ⟨m - 1, by omega⟩
              have hnext := ih hrest (show (ops.filter p).length = 0 + 0 + m by omega)
              simpa [fates, hp, hop, List.replicate_succ] using hnext
            · have hnext := ih hrest (show (ops.filter p).length = 0 + count + m by omega)
              simpa [fates, hp, List.replicate_succ] using hnext
          · have hnext := ih hrest (show (ops.filter p).length = first + count + m by omega)
            simpa [fates, hp, hop, List.replicate_succ] using hnext

/-- Where `--no-bb` skips nothing and the block is followed by an event of its
domain, what is missing is the block. -/
theorem missing_of_seen {loss : Option Loss} (hseen : ∀ op ∈ sent, hidden noBb op = false)
    (hloss : ∀ l, loss = some l → l.Valid sent)
    (hnext : ∀ l, loss = some l →
      l.first + l.count < (sent.filter fun op => opKey op == l.key).length) (k : SeqKey) :
    missing noBb loss k sent = lost loss k := by
  have hnone : ((spacings none (fates noBb (fun op => opKey op == k) 0 0 sent)).map
      (· % 2 ^ 32)).filter (· ≠ 0) = [] := by
    have hlen : (sent.filter fun op => opKey op == k).length =
        0 + 0 + (sent.filter fun op => opKey op == k).length := by omega
    rw [fates_eq hseen hlen, List.filter_eq_nil_iff]
    intro n hn
    obtain ⟨j, hj, rfl⟩ := List.mem_map.mp hn
    simp [eq_zero_of_mem_spacings (by simpa using hj)]
  cases loss with
  | none => exact hnone
  | some l =>
      simp only [missing, fatesOf, lost]
      split
      · rename_i hk
        subst hk
        obtain ⟨hfirst, hcount, hlt, -⟩ := hloss l rfl
        have hnext := hnext l rfl
        obtain ⟨i, hi⟩ : ∃ i, l.first = i + 1 := ⟨l.first - 1, by omega⟩
        obtain ⟨m, hm⟩ : ∃ m, (sent.filter fun op => opKey op == l.key).length =
            l.first + l.count + (m + 1) :=
          ⟨(sent.filter fun op => opKey op == l.key).length - (l.first + l.count) - 1, by omega⟩
        have hcount' : l.count % 2 ^ 32 = l.count := Nat.mod_eq_of_lt hlt
        rw [fates_eq hseen hm, hi, spacings_block, List.map_append, List.map_cons,
          List.filter_append, List.map_replicate, List.map_replicate, hcount',
          List.filter_cons_of_pos (by simpa using hcount.ne')]
        simp
      · exact hnone

end Streams

/-- For streams without loss or with one block left out, in any batches, the gaps
reported are exactly the block if and only if no batch cuts a snapshot and the
events that do not reach the tracker between two neighbours that do are the block
alone, up to multiples of the counter's range. -/
theorem gaps_are_losses_iff (noBb : Bool) (orders : IndexOrders) {sent : List Op}
    {loss : Option Loss} {ticks : List (List Session.Pass)} {s : Session}
    (hops : ∀ o ∈ sent, o.Numbered) (hfree : LossFree sent)
    (hloss : ∀ l, loss = some l → l.Valid sent) (hstart : s.seq = {})
    (hsplit : (Session.batches ticks).flatten = (received loss sent).flatMap Op.slots) :
    Reports loss (s.run noBb orders ticks).seq.gaps ↔
      Whole ((received loss sent).flatMap units) (Session.batches ticks) ∧
        ∀ k, missing noBb loss k sent = lost loss k := by
  rw [Session.seq_run, hstart]
  by_cases hwhole : Whole ((received loss sent).flatMap units) (Session.batches ticks)
  · have hmissing (k : SeqKey) : ∀ n ∈ missing noBb loss k sent, n < 2 ^ 32 := by
      intro n hn
      obtain ⟨m, -, rfl⟩ := List.mem_map.mp (List.mem_of_mem_filter hn)
      exact Nat.mod_lt _ (by decide)
    have hlost (k : SeqKey) : ∀ n ∈ lost loss k, n < 2 ^ 32 := by
      intro n hn
      cases loss with
      | none => cases hn
      | some l =>
          rw [lost] at hn
          split at hn
          · rw [List.mem_singleton.mp hn]
            exact (hloss l rfl).count_lt
          · cases hn
    rw [reports_iff]
    simp only [sizesOf_hear loss hfree hops hwhole, map_ofNat_inj (hmissing _) (hlost _), hwhole,
      true_and]
  · have hcut := gaps_of_cut noBb (numbered_received _ hops) hsplit hwhole {}
    refine iff_of_false (fun hreports => ?_) fun h => hwhole h.1
    have hfew : (SeqTracker.hear {}
        ((Session.batches ticks).flatMap (leads noBb 0))).gaps.length ≤ 1 := by
      cases loss with
      | none =>
          rw [show _ = [] from hreports]
          exact Nat.zero_le _
      | some l =>
          obtain ⟨g, hg, -⟩ := hreports
          rw [hg]
          exact Nat.le_refl _
    have hzero : ({} : SeqTracker).gaps.length = 0 := rfl
    omega

section Runs

/-- Thread 1 stores, enters a block and stores again. -/
def blockBetweenStores : List Op :=
  [.write 0x100 8 1 7 0 0, .bbEntry 0x40 1 8 0, .write 0x108 8 1 9 0 0]

/-- A tick that drains the slots in one batch. -/
def oneBatch (ops : List Op) : List (List Session.Pass) :=
  [[{ root := (ops.flatMap Op.slots).map fun ev => (Host.plain, ev) }]]

theorem batches_oneBatch (ops : List Op) :
    Session.batches (oneBatch ops) = [(ops.flatMap units).flatten] := by
  rw [flatten_flatMap_units]
  simp [Session.batches, oneBatch]

theorem whole_oneBatch (ops : List Op) :
    Whole (ops.flatMap units) (Session.batches (oneBatch ops)) :=
  ⟨[ops.flatMap units], by simp, batches_oneBatch ops⟩

theorem numbered_blockBetweenStores : ∀ o ∈ blockBetweenStores, o.Numbered := by
  simp [blockBetweenStores, Op.Numbered, Op.Whole]

theorem lossFree_blockBetweenStores : LossFree blockBetweenStores := by
  intro k
  by_cases hk : ((1, 0) : SeqKey) = k
  · subst hk
    decide
  · have hother : ∀ op ∈ blockBetweenStores, (opKey op == k) = false := by
      have hkey : ∀ op ∈ blockBetweenStores, opKey op = (1, 0) := by decide
      intro op hop
      rw [hkey op hop]
      simpa using hk
    rw [List.filter_eq_nil_iff.mpr (by simpa using hother)]
    exact .nil

/-- The second inline event of thread 1. -/
def secondEvent : Loss := ⟨(1, 0), 1, 1⟩

/-- The block entry is lost: one gap of size one. -/
theorem lost_block_is_reported :
    Reports (some secondEvent)
      (Session.run false IndexOrders.plain
        (oneBatch (received (some secondEvent) blockBetweenStores)) {}).seq.gaps := by
  have hvalid : ∀ l, some secondEvent = some l → l.Valid blockBetweenStores := by
    rintro l ⟨⟩
    exact ⟨by decide, by decide, by decide, by decide⟩
  have hnext : ∀ l, some secondEvent = some l →
      l.first + l.count < (blockBetweenStores.filter fun op => opKey op == l.key).length := by
    rintro l ⟨⟩
    decide
  refine (gaps_are_losses_iff false _ numbered_blockBetweenStores lossFree_blockBetweenStores
    hvalid rfl ?_).mpr ⟨whole_oneBatch _, missing_of_seen (by decide) hvalid hnext⟩
  rw [batches_oneBatch, List.flatten_singleton, flatten_flatMap_units]

/-- Nothing is lost, and `--no-bb` reports a gap. -/
theorem skipped_block_is_reported :
    ¬ ∀ noBb orders sent loss ticks (s : Session), (∀ o ∈ sent, o.Numbered) → LossFree sent →
      (∀ l, loss = some l → l.Valid sent) → s.seq = {} →
      (Session.batches ticks).flatten = (received loss sent).flatMap Op.slots →
      Reports loss (s.run noBb orders ticks).seq.gaps := by
  intro hall
  have hnone := hall true IndexOrders.plain blockBetweenStores none (oneBatch blockBetweenStores) {}
    numbered_blockBetweenStores lossFree_blockBetweenStores (by simp) rfl
    (by rw [batches_oneBatch, List.flatten_singleton, flatten_flatMap_units]; rfl)
  have hgap : (Session.run true IndexOrders.plain (oneBatch blockBetweenStores) {}).seq.gaps.length =
      1 := by decide +kernel
  rw [hnone] at hgap
  cases hgap

end Runs

end Rtmap.Engine
