import Mathlib.Logic.Relation
import Rtmap.Engine.TypeGraph

/-!
# The types of sibling members

The members of a struct are resolved with one set of visited structs, so that a struct met
under one member is missing under the next: `independent_iff` says when each member is
called what it is called alone.
-/
namespace Rtmap.Engine

namespace TypeInfo

/-- A type without what is in it. -/
def bare (ti : TypeInfo) : TypeInfo := { ti with shallow := false, fields := [] }

def label (ti : TypeInfo) : String × UInt64 := (ti.name, ti.byteSize)

end TypeInfo

/-- What the resolver makes of an entry by the bare type that it refers to. -/
def spell (d : Die) (children : List Die) (inner : Option TypeInfo) : Option TypeInfo :=
  match d.tag with
  | .baseType | .enumerationType | .structureType | .unionType =>
      some { name := d.attrName.getD "<anon>", byteSize := (d.udata .byteSize).getD 0 }
  | .pointerType => some (pointerType d inner)
  | .typedef | .constType | .volatileType | .atomicType | .restrictType => inner.map (qualify d)
  | .arrayType => some (arrayType d children inner)
  | _ => none

section Outline
variable (unit : DieUnit) (link : Die → Bool)
  (spell : Die → List Die → Option TypeInfo → Option TypeInfo)

/-- The bare type: a struct is not looked into, and one that is hidden does not resolve. -/
def outline (hidden : UnitOffset → Prop) [DecidablePred hidden] : ℕ → UnitOffset → Option TypeInfo
  | 0, _ => none
  | levels + 1, off =>
      if hidden off then none
      else
        (unit.entry off).bind fun d =>
          spell d (unit.children off)
            (if link d then (d.ref .type).bind (outline hidden levels) else none)

variable {unit link spell}

/-- What is hidden matters for the node that the type stands for only. -/
theorem outline_congr {levels levels' floor : ℕ} {off : UnitOffset} {visited : Finset UnitOffset}
    {hidden : UnitOffset → Prop} [DecidablePred hidden] (hle : levels ≤ levels')
    (hlimits : InLimits unit link floor levels off visited)
    (hvisited : ∀ x ∈ visited, unit.IsNode x) (hhidden : ∀ x, hidden x → unit.IsNode x)
    (hagg : ∀ d, link d → ¬d.isAggregate)
    (h : ∀ t, StandsFor unit link off t → (t ∈ visited ↔ hidden t)) :
    outline unit link spell (· ∈ visited) levels off = outline unit link spell hidden levels' off := by
  induction levels generalizing off levels' with
  | zero => exact hlimits.elim
  | succ levels ih =>
      obtain ⟨levels', rfl⟩ : ∃ n, levels' = n + 1 := ⟨levels' - 1, by omega⟩
      rw [outline, outline]
      have hoff : off ∈ visited ↔ hidden off := by
        constructor
        · intro hin
          exact (h off (.here (hvisited off hin))).mp hin
        · intro hh
          exact (h off (.here (hhidden off hh))).mpr hh
      by_cases hin : off ∈ visited
      · rw [if_pos hin, if_pos (hoff.mp hin)]
      rw [if_neg hin, if_neg fun hh => hin (hoff.mpr hh)]
      cases hentry : unit.entry off with
      | none => rfl
      | some d =>
          rw [Option.bind_some, Option.bind_some]
          congr 1
          by_cases hl : link d
          · rw [if_pos hl, if_pos hl]
            cases hnext : d.ref .type with
            | none => rfl
            | some next =>
                refine ih (by omega) ((hlimits.resolve_left hin d hentry).2 hl next hnext) ?_
                intro t ht
                exact h t (.link hentry (hagg d hl) hl hnext ht)
          · rw [if_neg hl, if_neg hl]

/-- If a node that the type stands for was visited, then just this one is hidden. -/
theorem outline_of_standsFor {levels levels' floor : ℕ} {off t : UnitOffset}
    {visited : Finset UnitOffset} (hle : levels ≤ levels')
    (hlimits : InLimits unit link floor levels off visited)
    (hvisited : ∀ x ∈ visited, unit.IsNode x) (hagg : ∀ d, link d → ¬d.isAggregate)
    (hlead : StandsFor unit link off t) (ht : t ∈ visited) :
    outline unit link spell (· ∈ visited) levels off =
      outline unit link spell (· = t) levels' off := by
  refine outline_congr hle hlimits hvisited ?_ hagg fun t' hlead' => ?_
  · rintro x rfl
    exact hlead.isNode
  · exact ⟨fun _ => hlead'.unique hlead, fun h => h ▸ ht⟩

end Outline

section Bare
variable {unit : DieUnit}

theorem bare_pointerType (d : Die) (ti : Option TypeInfo) :
    (pointerType d ti).bare = pointerType d (ti.map TypeInfo.bare) := by
  cases ti <;> rfl

theorem bare_arrayType (d : Die) (children : List Die) (ti : Option TypeInfo) :
    (arrayType d children ti).bare = arrayType d children (ti.map TypeInfo.bare) := by
  cases ti with
  | none => rfl
  | some ti =>
      have hnone (size : UInt64) : elementFields ti.bare size = [] := if_neg fun h => h.2.2 rfl
      unfold arrayType
      simp only [Option.map_some, Option.getD_some, hnone]
      rfl

theorem spell_isLink (d : Die) (children : List Die) (inner : Option TypeInfo) :
    spell d children (if d.isLink then inner else none) = spell d children inner := by
  unfold spell Die.isLink Die.isDeepLink Die.isQualifier
  cases d.tag <;> rfl

theorem not_isAggregate_of_isLink (d : Die) (h : d.isLink) : ¬d.isAggregate := by
  unfold Die.isLink Die.isDeepLink Die.isQualifier at h
  unfold Die.isAggregate
  cases htag : d.tag <;> simp_all

/-- The resolver hides what it has visited. -/
theorem bare_resolveTypeAt (levels : ℕ) (off : UnitOffset) (visited : Finset UnitOffset) :
    (resolveTypeAt unit levels off visited).1.map TypeInfo.bare =
      outline unit Die.isLink spell (· ∈ visited) levels off := by
  induction levels generalizing off visited with
  | zero => rfl
  | succ levels ih =>
      rw [resolveTypeAt, outline]
      by_cases hin : off ∈ visited
      · rw [if_pos hin, if_pos hin]
        rfl
      rw [if_neg hin, if_neg hin]
      cases hentry : unit.entry off with
      | none => rfl
      | some d =>
          have hinner : (resolveRef (resolveTypeAt unit levels) d visited).1.map TypeInfo.bare =
              (d.ref .type).bind (outline unit Die.isLink spell (· ∈ visited) levels) := by
            unfold resolveRef
            cases d.ref .type with
            | none => rfl
            | some next => exact ih next visited
          rw [Option.bind_some, spell_isLink, ← hinner]
          unfold spell
          dsimp only
          cases htag : d.tag <;> try rfl
          case pointerType => exact congrArg some (bare_pointerType d _)
          case arrayType => exact congrArg some (bare_arrayType d _ _)
          all_goals
            rw [Option.map_map, Option.map_map]
            rfl

end Bare

/-- The name and the size of a type that may not resolve. -/
def labelOf (ti : Option TypeInfo) : String × UInt64 := (ti.getD .unknown).label

/-- No member leads to a struct that was visited before the members or on the way of one of
its elder siblings, unless the member is called the same without that struct. -/
def Independent (unit : DieUnit) (off : UnitOffset) (visited : Finset UnitOffset) : Prop :=
  ∀ (i : ℕ) (m : Die) (next t : UnitOffset), (unit.members off)[i]? = some m →
    m.ref .type = some next → StandsFor unit Die.isLink next t →
    t ∈ seenBy unit Die.isLink visited ((unit.members off).take i) →
    labelOf (outline unit Die.isLink spell (· = t) 17 next) =
      labelOf (outline unit Die.isLink spell (fun _ => False) 17 next)

/-- No struct is inside itself by value. -/
def AcyclicByValue (unit : DieUnit) : Prop :=
  ∀ s, ¬Relation.TransGen (Contains unit fun d => d.isQualifier || d.tag = .arrayType) s s

section Members
variable {unit : DieUnit} {off : UnitOffset} {visited : Finset UnitOffset} {levels : ℕ}

theorem labelOf_bare (ti : Option TypeInfo) : labelOf (ti.map TypeInfo.bare) = labelOf ti := by
  cases ti <;> rfl

theorem label_resolveTypeAt (levels : ℕ) (off : UnitOffset) (visited : Finset UnitOffset) :
    labelOf (resolveTypeAt unit levels off visited).1 =
      labelOf (outline unit Die.isLink spell (· ∈ visited) levels off) := by
  rw [← bare_resolveTypeAt, labelOf_bare]

theorem walk_isLink (levels : ℕ) :
    (fun off v => (resolveTypeAt unit levels off v).2) = walkType unit Die.isLink 9 levels :=
  funext fun off => funext fun v => snd_resolveTypeAt unit levels off v

/-- The fields have the labels that the members have if each is resolved after those before. -/
theorem labels_extractStructFields_iff (hlevels : 9 ≤ levels) (label : Die → String × UInt64) :
    (extractStructFields unit (levels + 1) off visited).1.map
        (fun f => (f.typeInfo.name, f.byteSize)) = (unit.members off).map label ↔
      ∀ (i : ℕ) (m : Die), (unit.members off)[i]? = some m →
        labelOf ((m.ref .type).bind fun next => (resolveTypeAt unit levels next (walkMembers
          (walkType unit Die.isLink 9 levels) ((unit.members off).take i) visited)).1) = label m := by
  have hfield (m : Die) (v : Finset UnitOffset) :
      ((memberField (resolveTypeAt unit levels) m v).1.typeInfo.name,
          (memberField (resolveTypeAt unit levels) m v).1.byteSize) =
        labelOf ((m.ref .type).bind fun next => (resolveTypeAt unit levels next v).1) := by
    unfold memberField labelOf TypeInfo.label
    cases m.ref .type <;> rfl
  rw [extractStructFields, if_neg (by omega), Nat.add_sub_cancel, List.ext_getElem?_iff]
  refine forall_congr' fun i => ?_
  rw [List.getElem?_map, List.getElem?_map, getElem?_memberFields, walk_isLink, ← DieUnit.members]
  cases hm : (unit.members off)[i]? with
  | none => simp
  | some m => simp [hfield]

/-- A type is called the same with the visited structs hidden if none of them matters. -/
theorem label_outline_iff {next : UnitOffset} {seen : Finset UnitOffset} {v : Set UnitOffset}
    (hcoe : (seen : Set UnitOffset) = v) (hle : levels ≤ 17)
    (hlimits : InLimits unit Die.isLink 9 levels next seen)
    (hseen : ∀ x ∈ seen, unit.IsNode x) :
    labelOf (outline unit Die.isLink spell (· ∈ seen) levels next) =
        labelOf (outline unit Die.isLink spell (fun _ => False) 17 next) ↔
      ∀ t, StandsFor unit Die.isLink next t → t ∈ v →
        labelOf (outline unit Die.isLink spell (· = t) 17 next) =
          labelOf (outline unit Die.isLink spell (fun _ => False) 17 next) := by
  constructor
  · intro h t hlead ht
    rw [← hcoe, Finset.mem_coe] at ht
    rw [← outline_of_standsFor hle hlimits hseen not_isAggregate_of_isLink hlead ht]
    exact h
  · intro h
    by_cases hex : ∃ t, StandsFor unit Die.isLink next t ∧ t ∈ seen
    · obtain ⟨t, hlead, ht⟩ := hex
      rw [outline_of_standsFor hle hlimits hseen not_isAggregate_of_isLink hlead ht]
      exact h t hlead (hcoe ▸ Finset.mem_coe.mpr ht)
    · refine congrArg labelOf (outline_congr hle hlimits hseen ?_ not_isAggregate_of_isLink ?_)
      · exact fun x hx => hx.elim
      · exact fun t hlead => iff_of_false (fun ht => hex ⟨t, hlead, ht⟩) id

theorem label_resolveType {m : Die} {next : UnitOffset} (href : m.ref .type = some next) :
    labelOf (resolveType unit m) =
      labelOf (outline unit Die.isLink spell (fun _ => False) 17 next) := by
  rw [resolveType, href, Option.bind_some, label_resolveTypeAt]
  congr 2
  funext x
  exact eq_false (Finset.notMem_empty x)

/-- Within the limits the members of a struct are called what each is called alone exactly
if they are independent. -/
theorem independent_iff (unit : DieUnit) (levels : ℕ) (off : UnitOffset)
    (visited : Finset UnitOffset) (hle : levels ≤ 16) (hlevels : 9 ≤ levels)
    (hvisited : ∀ x ∈ visited, unit.IsNode x)
    (hlimits : AllAlong (walkType unit Die.isLink 9 levels) (InLimits unit Die.isLink 9 levels)
      (unit.members off) visited) :
    (extractStructFields unit (levels + 1) off visited).1.map
        (fun f => (f.typeInfo.name, f.byteSize)) =
      (unit.members off).map (fun m => labelOf (resolveType unit m)) ↔
      Independent unit off visited := by
  rw [labels_extractStructFields_iff hlevels]
  refine forall₂_congr fun i m => ?_
  cases href : m.ref .type with
  | none =>
      refine ⟨fun _ next t _ hnext => ?_, fun _ _ => ?_⟩
      · cases hnext
      · rw [resolveType, href]
        rfl
  | some next =>
      have hiff (hm : (unit.members off)[i]? = some m) :=
        label_outline_iff (coe_walkMembers hvisited (hlimits.take i)) (by omega)
          (hlimits.get hm href) (isNode_walkMembers hvisited (hlimits.take i))
      rw [label_resolveType href, Option.bind_some, label_resolveTypeAt]
      constructor
      · intro h next' t hm hnext
        obtain rfl := Option.some.inj hnext
        exact (hiff hm).mp (h hm) t
      · intro h hm
        exact (hiff hm).mpr fun t => h next t hm rfl

end Members

namespace ListNode

def int : Die := .ofList .baseType [(.name, .string "int"), (.byteSize, .udata 4)]

def pointer : Die := .ofList .pointerType [(.byteSize, .udata 8), (.type, .unitRef 2)]

def value : Die := .ofList .member [(.name, .string "value"), (.type, .unitRef 1)]

/-- A list node of a number and a pointer to the next node. -/
def unit : DieUnit where
  entry off :=
    if off = 1 then some int
    else if off = 2 then
      some (.ofList .structureType [(.name, .string "node"), (.byteSize, .udata 16)])
    else if off = 3 then some pointer
    else none
  children off :=
    if off = 2 then
      [value, .ofList .member [(.name, .string "next"), (.type, .unitRef 3),
        (.dataMemberLocation, .udata 8)]]
    else []

/-- A pair of numbers, a handle, which points to a pair, and a holder of one of each. -/
def holder : DieUnit where
  entry off :=
    if off = 1 then some int
    else if off = 2 then
      some (.ofList .structureType [(.name, .string "pair"), (.byteSize, .udata 8)])
    else if off = 3 then some pointer
    else if off = 4 then
      some (.ofList .structureType [(.name, .string "handle"), (.byteSize, .udata 8)])
    else if off = 5 then
      some (.ofList .structureType [(.name, .string "holder"), (.byteSize, .udata 16)])
    else none
  children off :=
    if off = 2 then [value, value]
    else if off = 4 then [.ofList .member [(.name, .string "target"), (.type, .unitRef 3)]]
    else if off = 5 then
      [.ofList .member [(.name, .string "first"), (.type, .unitRef 2)],
        .ofList .member [(.name, .string "second"), (.type, .unitRef 4),
          (.dataMemberLocation, .udata 8)]]
    else []

theorem inLimits_pair (levels : ℕ) (hlevels : 10 ≤ levels) (visited : Finset UnitOffset) :
    InLimits holder Die.isLink 9 (levels + 1) 2 visited := by
  obtain ⟨levels, rfl⟩ := Nat.exists_eq_add_of_le' hlevels
  refine .node rfl rfl (by omega) ⟨fun off hoff => ?_, fun off hoff => ?_, trivial⟩ <;>
  · obtain rfl := Option.some.inj hoff
    exact .leaf rfl rfl rfl

/-- Both members lead to the pair, the second from inside a handle of its own. -/
theorem holder_independent : (extractStructFields holder 17 5 {5}).1.map
      (fun f => (f.typeInfo.name, f.byteSize)) =
    (holder.members 5).map fun m => labelOf (resolveType holder m) := by
  have hnode : ∀ x ∈ ({5} : Finset UnitOffset), holder.IsNode x := by
    intro x hx d hd
    obtain rfl := Finset.mem_singleton.mp hx
    obtain rfl := Option.some.inj hd
    rfl
  have hlimits : AllAlong (walkType holder Die.isLink 9 16) (InLimits holder Die.isLink 9 16)
      (holder.members 5) {5} := by
    refine ⟨fun off hoff => ?_, fun off hoff => ?_, trivial⟩
    · obtain rfl := Option.some.inj hoff
      exact inLimits_pair 15 (by decide) _
    · obtain rfl := Option.some.inj hoff
      refine .node rfl rfl (by decide) ⟨fun off hoff => ?_, trivial⟩
      obtain rfl := Option.some.inj hoff
      exact .through rfl rfl rfl (inLimits_pair 13 (by decide) _)
  refine (independent_iff holder 16 5 {5} (by decide) (by decide) hnode hlimits).mpr ?_
  intro i m next t hm hnext hlead hseen
  rw [← coe_walkMembers hnode (hlimits.take i), Finset.mem_coe] at hseen
  rcases i with - | - | i
  · obtain rfl := Option.some.inj hm
    obtain rfl := Option.some.inj hnext
    cases hlead with
    | here => exact absurd hseen (by decide)
    | link hentry hplain =>
        obtain rfl := Option.some.inj hentry
        exact absurd rfl hplain
  · obtain rfl := Option.some.inj hm
    obtain rfl := Option.some.inj hnext
    cases hlead with
    | here => exact absurd hseen (by decide +kernel)
    | link hentry hplain =>
        obtain rfl := Option.some.inj hentry
        exact absurd rfl hplain
  · cases hm

theorem acyclicByValue : AcyclicByValue unit := by
  have hnot (s t : UnitOffset) :
      ¬Contains unit (fun d => d.isQualifier || d.tag = .arrayType) s t := by
    rintro ⟨-, m, hm, off, href, hlead⟩
    have hoff : off = 1 ∨ off = 3 := by
      have hchild := (List.mem_filter.mp hm).1
      unfold unit at hchild
      dsimp only at hchild
      split at hchild
      · rcases List.mem_pair.mp hchild with rfl | rfl
        · exact .inl (Option.some.inj href).symm
        · exact .inr (Option.some.inj href).symm
      · cases hchild
    rcases hoff with rfl | rfl <;> cases hlead with
    | here hnode => exact absurd (hnode _ rfl) (by decide)
    | link hentry _ hlink =>
        obtain rfl := Option.some.inj hentry
        exact absurd hlink (by decide)
  intro s h
  cases h with
  | single h => exact hnot _ _ h
  | tail _ h => exact hnot _ _ h

/-- The pointer to the next node points to nothing. -/
theorem not_independent : ¬∀ (unit : DieUnit) (levels : ℕ) (off : UnitOffset)
    (visited : Finset UnitOffset), AcyclicByValue unit → levels ≤ 16 → 9 ≤ levels →
    (∀ x ∈ visited, unit.IsNode x) →
    AllAlong (walkType unit Die.isLink 9 levels) (InLimits unit Die.isLink 9 levels)
      (unit.members off) visited →
    (extractStructFields unit (levels + 1) off visited).1.map
        (fun f => (f.typeInfo.name, f.byteSize)) =
      (unit.members off).map (fun m => labelOf (resolveType unit m)) := by
  intro h
  have hnode : ∀ x ∈ ({2} : Finset UnitOffset), unit.IsNode x := by
    intro x hx d hd
    obtain rfl := Finset.mem_singleton.mp hx
    obtain rfl := Option.some.inj hd
    rfl
  have hlimits : AllAlong (walkType unit Die.isLink 9 16) (InLimits unit Die.isLink 9 16)
      (unit.members 2) {2} := by
    refine ⟨fun off hoff => ?_, fun off hoff => ?_, trivial⟩
    · obtain rfl := Option.some.inj hoff
      exact .leaf rfl rfl rfl
    · obtain rfl := Option.some.inj hoff
      exact .through rfl rfl rfl (.inl (by decide))
  have hlist := congrArg (fun l => l.map Prod.fst)
    (h unit 16 2 {2} acyclicByValue (by decide) (by decide) hnode hlimits)
  have hvoid : ["int", "*void"] = ["int", "*node"] := hlist
  exact absurd hvoid (by decide)

end ListNode

end Rtmap.Engine
