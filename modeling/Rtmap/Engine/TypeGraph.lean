import Mathlib.Data.Finset.Insert
import Rtmap.Engine.TypeResolution
import Rtmap.Lib.DepthFirst

/-!
# The graph of the types of a unit

Pointers, typedefs, qualifiers and arrays stand for one other type each, a struct has the
types of its members. Both resolvers walk this graph depth first, the deep one without
going through arrays, and mark structs, unions and missing entries: `coe_walkMembers` says
what is marked once some members of a struct were resolved.
-/
namespace Rtmap.Engine

namespace Die

/-- A typedef or a qualifier. -/
def isQualifier (d : Die) : Bool :=
  d.tag = .typedef || d.tag = .constType || d.tag = .volatileType || d.tag = .atomicType ||
    d.tag = .restrictType

/-- The types behind which the deep resolver looks. -/
def isDeepLink (d : Die) : Bool := d.isQualifier || d.tag = .pointerType

/-- The types behind which the resolver looks. -/
def isLink (d : Die) : Bool := d.isDeepLink || d.tag = .arrayType

end Die

def DieUnit.members (unit : DieUnit) (off : UnitOffset) : List Die :=
  (unit.children off).filter fun d => d.tag = .member

/-- What is visited once only: a struct, a union or an offset without an entry. -/
def DieUnit.IsNode (unit : DieUnit) (off : UnitOffset) : Prop :=
  ∀ d, unit.entry off = some d → d.isAggregate

section Walk

/-- Walks what the type attribute refers to. -/
def walkRef (walk : UnitOffset → Finset UnitOffset → Finset UnitOffset) (d : Die)
    (visited : Finset UnitOffset) : Finset UnitOffset :=
  match d.ref .type with
  | some off => walk off visited
  | none => visited

def walkMembers (walk : UnitOffset → Finset UnitOffset → Finset UnitOffset) (ms : List Die)
    (visited : Finset UnitOffset) : Finset UnitOffset :=
  ms.foldl (fun v m => walkRef walk m v) visited

/-- What is visited after a type, if a struct asks for so many levels to get its fields. -/
def walkType (unit : DieUnit) (link : Die → Bool) (floor : ℕ) :
    ℕ → UnitOffset → Finset UnitOffset → Finset UnitOffset
  | 0, _, visited => visited
  | levels + 1, off, visited =>
      if off ∈ visited then visited
      else
        match unit.entry off with
        | none => insert off visited
        | some d =>
            if d.isAggregate then
              if levels < floor then insert off visited
              else walkMembers (walkType unit link floor levels) (unit.members off)
                (insert off visited)
            else if link d then walkRef (walkType unit link floor levels) d visited
            else visited

/-- The members that are walked one after the other all meet the condition. -/
def AllAlong (walk : UnitOffset → Finset UnitOffset → Finset UnitOffset)
    (p : UnitOffset → Finset UnitOffset → Prop) : List Die → Finset UnitOffset → Prop
  | [], _ => True
  | m :: ms, visited =>
      (∀ off, m.ref .type = some off → p off visited) ∧
        AllAlong walk p ms (walkRef walk m visited)

/-- The walk reaches none of the limits on the depth. -/
def InLimits (unit : DieUnit) (link : Die → Bool) (floor : ℕ) :
    ℕ → UnitOffset → Finset UnitOffset → Prop
  | 0, _, _ => False
  | levels + 1, off, visited =>
      off ∈ visited ∨ ∀ d, unit.entry off = some d →
        (d.isAggregate → floor ≤ levels ∧
          AllAlong (walkType unit link floor levels) (InLimits unit link floor levels)
            (unit.members off) (insert off visited)) ∧
        (link d → ∀ next, d.ref .type = some next →
          InLimits unit link floor levels next visited)

variable {unit : DieUnit} {link : Die → Bool} {floor levels : ℕ} {off next : UnitOffset}
  {visited : Finset UnitOffset} {d : Die}

theorem InLimits.leaf (hd : unit.entry off = some d) (hplain : d.isAggregate = false)
    (hlink : link d = false) : InLimits unit link floor (levels + 1) off visited := by
  refine .inr fun d' hd' => ?_
  obtain rfl := Option.some.inj (hd.symm.trans hd')
  exact ⟨fun h => absurd h (by simp [hplain]), fun h => absurd h (by simp [hlink])⟩

theorem InLimits.through (hd : unit.entry off = some d) (hplain : d.isAggregate = false)
    (hnext : d.ref .type = some next) (h : InLimits unit link floor levels next visited) :
    InLimits unit link floor (levels + 1) off visited := by
  refine .inr fun d' hd' => ?_
  obtain rfl := Option.some.inj (hd.symm.trans hd')
  refine ⟨fun h => absurd h (by simp [hplain]), fun _ next' hnext' => ?_⟩
  obtain rfl := Option.some.inj (hnext.symm.trans hnext')
  exact h

theorem InLimits.node (hd : unit.entry off = some d) (hlink : link d = false)
    (hfloor : floor ≤ levels)
    (h : AllAlong (walkType unit link floor levels) (InLimits unit link floor levels)
      (unit.members off) (insert off visited)) :
    InLimits unit link floor (levels + 1) off visited := by
  refine .inr fun d' hd' => ?_
  obtain rfl := Option.some.inj (hd.symm.trans hd')
  exact ⟨fun _ => ⟨hfloor, h⟩, fun h => absurd h (by simp [hlink])⟩

end Walk

section Fields
variable (resolve : UnitOffset → Finset UnitOffset → Resolution)

theorem snd_resolveRef (d : Die) (visited : Finset UnitOffset) :
    (resolveRef resolve d visited).2 = walkRef (fun off v => (resolve off v).2) d visited := by
  unfold resolveRef walkRef
  cases d.ref .type <;> rfl

theorem snd_memberField (d : Die) (visited : Finset UnitOffset) :
    (memberField resolve d visited).2 = walkRef (fun off v => (resolve off v).2) d visited :=
  snd_resolveRef resolve d visited

theorem snd_memberFields (ds : List Die) (visited : Finset UnitOffset) :
    (memberFields resolve ds visited).2 =
      walkMembers (fun off v => (resolve off v).2) (ds.filter fun d => d.tag = .member)
        visited := by
  induction ds generalizing visited with
  | nil => rfl
  | cons d ds ih =>
      rw [memberFields]
      by_cases htag : d.tag = .member
      · rw [if_pos htag, List.filter_cons_of_pos (by simpa using htag)]
        dsimp only
        rw [ih, snd_memberField]
        rfl
      · rw [if_neg htag, List.filter_cons_of_neg (by simpa using htag), ih]

/-- Each member is resolved with what those before it visited. -/
theorem getElem?_memberFields (ds : List Die) (visited : Finset UnitOffset) (i : ℕ) :
    (memberFields resolve ds visited).1[i]? =
      (ds.filter fun d => d.tag = .member)[i]?.map fun m =>
        (memberField resolve m (walkMembers (fun off v => (resolve off v).2)
          ((ds.filter fun d => d.tag = .member).take i) visited)).1 := by
  induction ds generalizing visited i with
  | nil => rfl
  | cons d ds ih =>
      rw [memberFields]
      by_cases htag : d.tag = .member
      · rw [if_pos htag, List.filter_cons_of_pos (by simpa using htag)]
        cases i with
        | zero => rfl
        | succ i =>
            dsimp only
            rw [List.getElem?_cons_succ, List.getElem?_cons_succ, ih, snd_memberField,
              List.take_succ_cons]
            rfl
      · rw [if_neg htag, List.filter_cons_of_neg (by simpa using htag), ih]

end Fields

theorem snd_resolveTypeAt (unit : DieUnit) (levels : ℕ) (off : UnitOffset)
    (visited : Finset UnitOffset) :
    (resolveTypeAt unit levels off visited).2 = walkType unit Die.isLink 9 levels off visited := by
  induction levels generalizing off visited with
  | zero => rfl
  | succ levels ih =>
      have hwalk : (fun off v => (resolveTypeAt unit levels off v).2) =
          walkType unit Die.isLink 9 levels := funext fun off => funext fun v => ih off v
      rw [resolveTypeAt, walkType]
      by_cases hin : off ∈ visited
      · rw [if_pos hin, if_pos hin]
      · rw [if_neg hin, if_neg hin]
        cases hentry : unit.entry off with
        | none => rfl
        | some d =>
            dsimp only
            rw [← hwalk, ← snd_resolveRef, DieUnit.members, ← snd_memberFields]
            unfold Die.isAggregate Die.isLink Die.isDeepLink Die.isQualifier
            cases htag : d.tag <;> simp <;> split <;> rfl

theorem snd_resolveTypeAtDeep (unit : DieUnit) (levels : ℕ) (off : UnitOffset)
    (visited : Finset UnitOffset) :
    (resolveTypeAtDeep unit levels off visited).2 = walkType unit Die.isDeepLink 33 levels off visited := by
  induction levels generalizing off visited with
  | zero => rfl
  | succ levels ih =>
      have hwalk : (fun off v => (resolveTypeAtDeep unit levels off v).2) =
          walkType unit Die.isDeepLink 33 levels := funext fun off => funext fun v => ih off v
      rw [resolveTypeAtDeep, walkType]
      by_cases hin : off ∈ visited
      · rw [if_pos hin, if_pos hin]
      · rw [if_neg hin, if_neg hin]
        cases hentry : unit.entry off with
        | none => rfl
        | some d =>
            dsimp only
            rw [← hwalk, ← snd_resolveRef, DieUnit.members, ← snd_memberFields]
            unfold Die.isAggregate Die.isDeepLink Die.isQualifier
            cases htag : d.tag <;> simp <;> split <;> rfl

section Graph
variable (unit : DieUnit) (link : Die → Bool)

/-- The struct, union or missing entry that a type stands for in the end. -/
inductive StandsFor : UnitOffset → UnitOffset → Prop
  | here {t : UnitOffset} : unit.IsNode t → StandsFor t t
  | link {off next t : UnitOffset} {d : Die} : unit.entry off = some d → ¬d.isAggregate →
      link d → d.ref .type = some next → StandsFor next t → StandsFor off t

/-- A member of the one leads to the other. -/
def Contains (s t : UnitOffset) : Prop :=
  (unit.entry s).isSome ∧ ∃ m ∈ unit.members s, ∃ off, m.ref .type = some off ∧
    StandsFor unit link off t

/-- What is visited once members were resolved: what was before, and what they lead to along
structs that were not. -/
def seenBy (visited : Set UnitOffset) (ms : List Die) : Set UnitOffset :=
  {x | x ∈ visited ∨ ∃ m ∈ ms, ∃ off t, m.ref .type = some off ∧ StandsFor unit link off t ∧
    DepthFirst.Avoiding (Contains unit link) visited t x}

/-- Between the two sets a walk has visited the nodes that it was led to. -/
def Walks (visited after : Finset UnitOffset) (leads : UnitOffset → Prop) : Prop :=
  ∃ ts, (∀ t, t ∈ ts ↔ leads t) ∧
    DepthFirst.Visits (Contains unit link) ts (visited : Set UnitOffset) after

variable {unit link}

theorem mem_seenBy {visited : Set UnitOffset} {ms : List Die} {x : UnitOffset} :
    x ∈ seenBy unit link visited ms ↔ x ∈ visited ∨ ∃ m ∈ ms, ∃ off t, m.ref .type = some off ∧
      StandsFor unit link off t ∧ DepthFirst.Avoiding (Contains unit link) visited t x :=
  Iff.rfl

theorem StandsFor.isNode {off t : UnitOffset} (h : StandsFor unit link off t) : unit.IsNode t := by
  induction h with
  | here ht => exact ht
  | link _ _ _ _ _ ih => exact ih

/-- From a link the way goes on to what it refers to. -/
theorem standsFor_link_iff {off next t : UnitOffset} {d : Die} (hentry : unit.entry off = some d)
    (hagg : ¬d.isAggregate) (hlink : link d) (hnext : d.ref .type = some next) :
    StandsFor unit link off t ↔ StandsFor unit link next t := by
  refine ⟨fun h => ?_, .link hentry hagg hlink hnext⟩
  cases h with
  | here ht => exact absurd (ht d hentry) hagg
  | link hentry' _ _ hnext' hlead =>
      obtain rfl := Option.some.inj (hentry.symm.trans hentry')
      obtain rfl := Option.some.inj (hnext.symm.trans hnext')
      exact hlead

theorem standsFor_node_iff {off t : UnitOffset} (hoff : unit.IsNode off) :
    StandsFor unit link off t ↔ t = off := by
  refine ⟨fun h => ?_, fun h => h.symm ▸ .here hoff⟩
  cases h with
  | here => rfl
  | link hentry hagg => exact absurd (hoff _ hentry) hagg

theorem StandsFor.unique {off t t' : UnitOffset} (h : StandsFor unit link off t)
    (h' : StandsFor unit link off t') : t = t' := by
  induction h with
  | here ht => exact ((standsFor_node_iff ht).mp h').symm
  | link hentry hagg hlink hnext _ ih =>
      exact ih ((standsFor_link_iff hentry hagg hlink hnext).mp h')

variable {visited after : Finset UnitOffset}

/-- A walk marks nodes only. -/
theorem Walks.isNode {leads : UnitOffset → Prop}
    (h : Walks unit link visited after leads) (hleads : ∀ t, leads t → unit.IsNode t)
    (hvisited : ∀ x ∈ visited, unit.IsNode x) : ∀ x ∈ after, unit.IsNode x := by
  intro x hx
  obtain ⟨ts, hts, hwalk⟩ := h
  rcases hwalk.exists_avoiding (Finset.mem_coe.mpr hx) with hv | ⟨a, ha, -, hpath⟩
  · exact hvisited x (Finset.mem_coe.mp hv)
  · cases hpath with
    | refl => exact hleads x ((hts x).mp ha)
    | tail _ hlast =>
        obtain ⟨⟨-, m, -, off, -, hlead⟩, -⟩ := hlast
        exact hlead.isNode

section Steps
variable {walk : UnitOffset → Finset UnitOffset → Finset UnitOffset}
  {inLimits : UnitOffset → Finset UnitOffset → Prop}
  (hstep : ∀ off v, (∀ x ∈ v, unit.IsNode x) → inLimits off v →
    Walks unit link v (walk off v) (StandsFor unit link off))

include hstep in
theorem walks_ref (d : Die) (hvisited : ∀ x ∈ visited, unit.IsNode x)
    (h : ∀ off, d.ref .type = some off → inLimits off visited) :
    Walks unit link visited (walkRef walk d visited) fun t =>
      ∃ off, d.ref .type = some off ∧ StandsFor unit link off t := by
  unfold walkRef
  cases href : d.ref .type with
  | none => exact ⟨[], by simp, .nil⟩
  | some off =>
      obtain ⟨ts, hts, hwalk⟩ := hstep off visited hvisited (h off href)
      exact ⟨ts, by simpa using hts, hwalk⟩

include hstep in
theorem walks_members (ms : List Die) (hvisited : ∀ x ∈ visited, unit.IsNode x)
    (h : AllAlong walk inLimits ms visited) :
    Walks unit link visited (walkMembers walk ms visited) fun t =>
      ∃ m ∈ ms, ∃ off, m.ref .type = some off ∧ StandsFor unit link off t := by
  induction ms generalizing visited with
  | nil => exact ⟨[], by simp, .nil⟩
  | cons m ms ih =>
      obtain ⟨hm, hms⟩ := h
      have hfirst := walks_ref hstep m hvisited hm
      have hnode := hfirst.isNode (fun t ht => ht.choose_spec.2.isNode) hvisited
      obtain ⟨ts, hts, hwalk⟩ := hfirst
      obtain ⟨us, hus, hrest⟩ := ih hnode hms
      refine ⟨ts ++ us, fun t => ?_, hwalk.append hrest⟩
      simp [hts, hus]

end Steps

/-- The walk of a type visits what it stands for. -/
theorem walks_walkType (floor levels : ℕ) (off : UnitOffset) (hvisited : ∀ x ∈ visited, unit.IsNode x)
    (h : InLimits unit link floor levels off visited) :
    Walks unit link visited (walkType unit link floor levels off visited)
      (StandsFor unit link off) := by
  induction levels generalizing off visited with
  | zero => exact h.elim
  | succ levels ih =>
      rw [walkType]
      by_cases hin : off ∈ visited
      · rw [if_pos hin]
        exact ⟨[off], by simp [standsFor_node_iff (hvisited off hin)], .seen (by simpa using hin) .nil⟩
      rw [if_neg hin]
      replace h := h.resolve_left hin
      have hnot : off ∉ (visited : Set UnitOffset) := hin
      cases hentry : unit.entry off with
      | none =>
          have hoff : unit.IsNode off := by simp [DieUnit.IsNode, hentry]
          refine ⟨[off], by simp [standsFor_node_iff hoff], .new hnot ?_ .nil ?_⟩
          · simp [Contains, hentry]
          · rw [Finset.coe_insert]
            exact .nil
      | some d =>
          dsimp only
          obtain ⟨hagg, hlink⟩ := h d hentry
          by_cases hd : d.isAggregate
          · have hoff : unit.IsNode off := by simp [DieUnit.IsNode, hentry, hd]
            obtain ⟨hfloor, hms⟩ := hagg hd
            rw [if_pos hd, if_neg hfloor.not_gt]
            have hinsert : ∀ x ∈ insert off visited, unit.IsNode x := by
              simpa [hoff] using hvisited
            obtain ⟨ts, hts, hwalk⟩ := walks_members (fun off v => ih off) _ hinsert hms
            rw [Finset.coe_insert] at hwalk
            refine ⟨[off], by simp [standsFor_node_iff hoff], .new hnot (fun t => ?_) hwalk .nil⟩
            simp [hts, Contains, hentry]
          · rw [if_neg hd]
            by_cases hl : link d
            · rw [if_pos hl]
              obtain ⟨ts, hts, hwalk⟩ := walks_ref (fun off v => ih off) d hvisited (hlink hl)
              refine ⟨ts, fun t => (hts t).trans ?_, hwalk⟩
              constructor
              · rintro ⟨next, hnext, hlead⟩
                exact .link hentry hd hl hnext hlead
              · intro hlead
                cases hlead with
                | here hnode => exact absurd (hnode d hentry) hd
                | link hentry' _ _ hnext hlead =>
                    obtain rfl := Option.some.inj (hentry.symm.trans hentry')
                    exact ⟨_, hnext, hlead⟩
            · rw [if_neg hl]
              refine ⟨[], fun t => ?_, .nil⟩
              simp only [List.not_mem_nil, false_iff]
              intro hlead
              cases hlead with
              | here hnode => exact hd (hnode d hentry)
              | link hentry' _ hl' =>
                  obtain rfl := Option.some.inj (hentry.symm.trans hentry')
                  exact hl hl'

theorem isNode_walkMembers {floor levels : ℕ} {ms : List Die}
    (hvisited : ∀ x ∈ visited, unit.IsNode x)
    (h : AllAlong (walkType unit link floor levels) (InLimits unit link floor levels) ms visited) :
    ∀ x ∈ walkMembers (walkType unit link floor levels) ms visited, unit.IsNode x := by
  have hwalks := walks_members (fun off v hv => walks_walkType floor levels off hv) ms hvisited h
  refine hwalks.isNode ?_ hvisited
  rintro t ⟨m, -, off, -, hlead⟩
  exact hlead.isNode

/-- After some members just what they lead to past what was visited is visited as well. -/
theorem coe_walkMembers {floor levels : ℕ} {ms : List Die}
    (hvisited : ∀ x ∈ visited, unit.IsNode x)
    (h : AllAlong (walkType unit link floor levels) (InLimits unit link floor levels) ms visited) :
    (walkMembers (walkType unit link floor levels) ms visited : Set UnitOffset) =
      seenBy unit link visited ms := by
  obtain ⟨ts, hts, hwalk⟩ :=
    walks_members (fun off v hv => walks_walkType floor levels off hv) ms hvisited h
  ext x
  rw [hwalk.mem_iff, mem_seenBy]
  refine or_congr_right ⟨?_, ?_⟩
  · rintro ⟨t, ht, hpath⟩
    obtain ⟨m, hm, off, href, hlead⟩ := (hts t).mp ht
    exact ⟨m, hm, off, t, href, hlead, hpath⟩
  · rintro ⟨m, hm, off, t, href, hlead, hpath⟩
    exact ⟨t, (hts t).mpr ⟨m, hm, off, href, hlead⟩, hpath⟩

theorem AllAlong.take {walk : UnitOffset → Finset UnitOffset → Finset UnitOffset}
    {p : UnitOffset → Finset UnitOffset → Prop} {ms : List Die} (h : AllAlong walk p ms visited)
    (i : ℕ) : AllAlong walk p (ms.take i) visited := by
  induction ms generalizing visited i with
  | nil => rw [List.take_nil]; exact h
  | cons m ms ih =>
      cases i with
      | zero => trivial
      | succ i => exact ⟨h.1, ih h.2 i⟩

theorem AllAlong.get {walk : UnitOffset → Finset UnitOffset → Finset UnitOffset}
    {p : UnitOffset → Finset UnitOffset → Prop} {ms : List Die} (h : AllAlong walk p ms visited)
    {i : ℕ} {m : Die} (hm : ms[i]? = some m) {off : UnitOffset} (href : m.ref .type = some off) :
    p off (walkMembers walk (ms.take i) visited) := by
  induction ms generalizing visited i with
  | nil => cases hm
  | cons a ms ih =>
      cases i with
      | zero =>
          obtain rfl := Option.some.inj hm
          exact h.1 off href
      | succ i => exact ih h.2 hm

end Graph

end Rtmap.Engine
