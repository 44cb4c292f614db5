import Rtmap.Engine.MemberTypes

/-!
# The two resolvers

`ensure_type` puts the fields that the deep resolver finds in the place of those of the
normal one. Both walk the types of the members, but the deep one stops at arrays, drops
what typedefs and qualifiers add and calls a base type without a name otherwise:
`agree_iff` says for which units their fields are the same.
-/
namespace Rtmap.Engine

mutual

/-- A type for the comparison: the fields of pointers and the shallow mark do not count. -/
def TypeInfo.layout : TypeInfo → TypeInfo
  | ⟨name, byteSize, isPointer, isVolatile, isAtomic, _, fields⟩ =>
      { name, byteSize, isPointer, isVolatile, isAtomic,
        fields := if isPointer then [] else layouts fields }

def FieldOf.layout : FieldOf TypeInfo → FieldOf TypeInfo
  | ⟨name, byteOffset, byteSize, typeInfo, alignment⟩ =>
      ⟨name, byteOffset, byteSize, typeInfo.layout, alignment⟩

def layouts : List (FieldOf TypeInfo) → List (FieldOf TypeInfo)
  | [] => []
  | f :: fs => f.layout :: layouts fs

end

theorem layouts_eq_map (fs : List FieldInfo) : layouts fs = fs.map FieldOf.layout := by
  induction fs with
  | nil => rfl
  | cons f fs ih => rw [layouts, ih, List.map_cons]

theorem TypeInfo.fields_layout (ti : TypeInfo) :
    ti.layout.fields = if ti.isPointer then [] else ti.fields.map FieldOf.layout := by
  rw [← layouts_eq_map]
  cases ti
  rfl

/-- Two types compare equal if they do so without their fields and their fields do. -/
theorem TypeInfo.layout_eq_iff (ti ti' : TypeInfo) :
    ti.layout = ti'.layout ↔ ti.bare = ti'.bare ∧ ti.layout.fields = ti'.layout.fields := by
  cases ti
  cases ti'
  simp only [layout, bare, mk.injEq]
  tauto

/-- What the deep resolver makes of an entry by the bare type that it refers to. -/
def spellDeep (d : Die) (_children : List Die) (inner : Option TypeInfo) : Option TypeInfo :=
  match d.tag with
  | .baseType | .enumerationType =>
      some { name := d.attrName.getD "<prim>", byteSize := (d.udata .byteSize).getD 0 }
  | .structureType | .unionType =>
      some { name := d.attrName.getD "<anon>", byteSize := (d.udata .byteSize).getD 0 }
  | .pointerType => some (pointerType d inner)
  | .typedef | .constType | .volatileType | .atomicType | .restrictType => inner
  | _ => none

section Bare
variable {unit : DieUnit}

theorem spellDeep_isDeepLink (d : Die) (children : List Die) (inner : Option TypeInfo) :
    spellDeep d children (if d.isDeepLink then inner else none) = spellDeep d children inner := by
  unfold spellDeep Die.isDeepLink Die.isQualifier
  cases d.tag <;> rfl

theorem bare_resolveTypeAtDeep (levels : ℕ) (off : UnitOffset) (visited : Finset UnitOffset) :
    (resolveTypeAtDeep unit levels off visited).1.map TypeInfo.bare =
      outline unit Die.isDeepLink spellDeep (· ∈ visited) levels off := by
  induction levels generalizing off visited with
  | zero => rfl
  | succ levels ih =>
      rw [resolveTypeAtDeep, outline]
      by_cases hin : off ∈ visited
      · rw [if_pos hin, if_pos hin]
        rfl
      rw [if_neg hin, if_neg hin]
      cases hentry : unit.entry off with
      | none => rfl
      | some d =>
          have hinner : (resolveRef (resolveTypeAtDeep unit levels) d visited).1.map TypeInfo.bare =
              (d.ref .type).bind (outline unit Die.isDeepLink spellDeep (· ∈ visited) levels) := by
            unfold resolveRef
            cases d.ref .type with
            | none => rfl
            | some next => exact ih next visited
          rw [Option.bind_some, spellDeep_isDeepLink, ← hinner]
          unfold spellDeep
          dsimp only
          cases htag : d.tag <;> try rfl
          case pointerType => exact congrArg some (bare_pointerType d _)

end Bare

/-- How both resolvers come to the fields of a type: a struct that is not visited has its
members, a typedef or a qualifier what is behind it. -/
structure Descends (unit : DieUnit) (floor : ℕ)
    (resolve : ℕ → UnitOffset → Finset UnitOffset → Resolution) : Prop where
  exhausted (off : UnitOffset) (v : Finset UnitOffset) : (resolve 0 off v).1 = none
  hidden (levels : ℕ) (off : UnitOffset) (v : Finset UnitOffset)
    (h : off ∈ v ∨ unit.entry off = none) : (resolve levels off v).1 = none
  aggregate (levels : ℕ) (off : UnitOffset) (v : Finset UnitOffset) (d : Die) (hoff : off ∉ v)
    (hentry : unit.entry off = some d) (hagg : d.isAggregate) (hfloor : floor ≤ levels) :
    ∃ ti, (resolve (levels + 1) off v).1 = some ti ∧ ti.isPointer = false ∧
      ti.fields = (memberFields (resolve levels) (unit.children off) (insert off v)).1
  qualifier (levels : ℕ) (off : UnitOffset) (v : Finset UnitOffset) (d : Die) (hoff : off ∉ v)
    (hentry : unit.entry off = some d) (hqual : d.isQualifier) :
    ∃ f : TypeInfo → TypeInfo, (∀ ti, (f ti).layout.fields = ti.layout.fields) ∧
      (resolve (levels + 1) off v).1 = ((d.ref .type).bind fun next => (resolve levels next v).1).map f

theorem fst_resolveRef (resolve : UnitOffset → Finset UnitOffset → Resolution) (d : Die)
    (visited : Finset UnitOffset) : (resolveRef resolve d visited).1 =
      (d.ref .type).bind fun next => (resolve next visited).1 := by
  unfold resolveRef
  cases d.ref .type <;> rfl

theorem Die.isAggregate_iff {d : Die} :
    d.isAggregate ↔ d.tag = .structureType ∨ d.tag = .unionType := by
  simp [isAggregate]

theorem Die.isQualifier_iff {d : Die} :
    d.isQualifier ↔ d.tag = .typedef ∨ d.tag = .constType ∨ d.tag = .volatileType ∨
      d.tag = .atomicType ∨ d.tag = .restrictType := by
  simp [isQualifier, or_assoc]

theorem resolveTypeAt_qualifier {unit : DieUnit} (levels : ℕ) {off : UnitOffset}
    {v : Finset UnitOffset} {d : Die} (hoff : off ∉ v) (hentry : unit.entry off = some d)
    (hqual : d.isQualifier) : (resolveTypeAt unit (levels + 1) off v).1 =
      ((d.ref .type).bind fun next => (resolveTypeAt unit levels next v).1).map (qualify d) := by
  rw [resolveTypeAt, if_neg hoff, hentry, ← fst_resolveRef]
  dsimp only
  rcases Die.isQualifier_iff.mp hqual with htag | htag | htag | htag | htag <;> rw [htag]

theorem resolveTypeAtDeep_qualifier {unit : DieUnit} (levels : ℕ) {off : UnitOffset}
    {v : Finset UnitOffset} {d : Die} (hoff : off ∉ v) (hentry : unit.entry off = some d)
    (hqual : d.isQualifier) : (resolveTypeAtDeep unit (levels + 1) off v).1 =
      (d.ref .type).bind fun next => (resolveTypeAtDeep unit levels next v).1 := by
  rw [resolveTypeAtDeep, if_neg hoff, hentry, ← fst_resolveRef]
  dsimp only
  rcases Die.isQualifier_iff.mp hqual with htag | htag | htag | htag | htag <;> rw [htag]

theorem layoutFields_qualify (d : Die) (ti : TypeInfo) :
    (qualify d ti).layout.fields = ti.layout.fields := by
  rw [TypeInfo.fields_layout, TypeInfo.fields_layout]
  rfl

theorem descends_resolveTypeAt (unit : DieUnit) : Descends unit 9 (resolveTypeAt unit) where
  exhausted off v := rfl
  hidden levels off v h := by
    cases levels with
    | zero => rfl
    | succ levels =>
        rw [resolveTypeAt]
        by_cases hin : off ∈ v
        · rw [if_pos hin]
        · rw [if_neg hin, h.resolve_left hin]
  aggregate levels off v d hoff hentry hagg hfloor := by
    rw [resolveTypeAt, if_neg hoff, hentry]
    dsimp only
    rw [if_neg hfloor.not_gt]
    rcases Die.isAggregate_iff.mp hagg with htag | htag <;>
      rw [htag] <;> exact ⟨_, rfl, rfl, rfl⟩
  qualifier levels off v d hoff hentry hqual := by
    exact ⟨qualify d, layoutFields_qualify d, resolveTypeAt_qualifier levels hoff hentry hqual⟩

theorem descends_resolveTypeAtDeep (unit : DieUnit) :
    Descends unit 33 (resolveTypeAtDeep unit) where
  exhausted off v := rfl
  hidden levels off v h := by
    cases levels with
    | zero => rfl
    | succ levels =>
        rw [resolveTypeAtDeep]
        by_cases hin : off ∈ v
        · rw [if_pos hin]
        · rw [if_neg hin, h.resolve_left hin]
  aggregate levels off v d hoff hentry hagg hfloor := by
    rw [resolveTypeAtDeep, if_neg hoff, hentry]
    dsimp only
    rw [if_neg hfloor.not_gt]
    rcases Die.isAggregate_iff.mp hagg with htag | htag <;>
      rw [htag] <;> exact ⟨_, rfl, rfl, rfl⟩
  qualifier levels off v d hoff hentry hqual := by
    refine ⟨id, fun ti => rfl, ?_⟩
    rw [resolveTypeAtDeep_qualifier levels hoff hentry hqual, Option.map_id]
    rfl

section Fields
variable {unit : DieUnit} {floor : ℕ}
  {resolve : ℕ → UnitOffset → Finset UnitOffset → Resolution} {link : Die → Bool}
  {off t : UnitOffset} {v : Finset UnitOffset} {levels : ℕ}

/-- The fields of a type that may not resolve, as they count for the comparison. -/
def layoutFields (ti : Option TypeInfo) : List FieldInfo := (ti.getD .unknown).layout.fields

theorem layoutFields_map {f : TypeInfo → TypeInfo}
    (hf : ∀ ti, (f ti).layout.fields = ti.layout.fields) (ti : Option TypeInfo) :
    layoutFields (ti.map f) = layoutFields ti := by
  cases ti with
  | none => rfl
  | some ti => exact hf ti

theorem notMem_of_isQualifier {d : Die} (hv : ∀ x ∈ v, unit.IsNode x)
    (hentry : unit.entry off = some d) (hagg : ¬d.isAggregate) : off ∉ v :=
  fun hin => hagg (hv off hin d hentry)

/-- Behind a typedef or a qualifier there are the fields of the struct that it stands for. -/
theorem Descends.exists_fields (hdesc : Descends unit floor resolve)
    (hlink : ∀ d, d.isQualifier → link d) {d : Die}
    (hlead : StandsFor unit Die.isQualifier off t) (hentry : unit.entry t = some d) (ht : t ∉ v)
    (hv : ∀ x ∈ v, unit.IsNode x) (hlimits : InLimits unit link floor levels off v) :
    ∃ n < levels, layoutFields (resolve levels off v).1 =
        (memberFields (resolve n) (unit.children t) (insert t v)).1.map FieldOf.layout ∧
      AllAlong (walkType unit link floor n) (InLimits unit link floor n) (unit.members t)
        (insert t v) := by
  induction hlead generalizing levels with
  | @here t hnode =>
      cases levels with
      | zero => exact hlimits.elim
      | succ n =>
          obtain ⟨hfloor, hall⟩ := (hlimits.resolve_left ht d hentry).1 (hnode d hentry)
          obtain ⟨ti, hti, hpointer, hfields⟩ :=
            hdesc.aggregate n t v d ht hentry (hnode d hentry) hfloor
          refine ⟨n, n.lt_succ_self, ?_, hall⟩
          rw [layoutFields, hti, Option.getD_some, TypeInfo.fields_layout, hpointer, hfields]
          rfl
  | @link off next t e hentry' hagg hqual hnext hlead ih =>
      cases levels with
      | zero => exact hlimits.elim
      | succ n =>
          have hoff : off ∉ v := notMem_of_isQualifier hv hentry' hagg
          obtain ⟨f, hf, hresolve⟩ := hdesc.qualifier n off v e hoff hentry' hqual
          have hnextLimits := (hlimits.resolve_left hoff e hentry').2 (hlink e hqual) next hnext
          obtain ⟨k, hk, hfields, hall⟩ := ih hentry ht hnextLimits
          refine ⟨k, by omega, ?_, hall⟩
          rw [hresolve, layoutFields_map hf, hnext, Option.bind_some, hfields]

theorem Descends.eq_none (hdesc : Descends unit floor resolve)
    (hlead : StandsFor unit Die.isQualifier off t) (ht : t ∈ v ∨ unit.entry t = none)
    (hv : ∀ x ∈ v, unit.IsNode x) : (resolve levels off v).1 = none := by
  induction hlead generalizing levels with
  | here => exact hdesc.hidden levels _ v ht
  | @link off next t e hentry hagg hqual hnext hlead ih =>
      cases levels with
      | zero => exact hdesc.exhausted off v
      | succ n =>
          have hoff : off ∉ v := notMem_of_isQualifier hv hentry hagg
          obtain ⟨f, -, hresolve⟩ := hdesc.qualifier n off v e hoff hentry hqual
          rw [hresolve, hnext, Option.bind_some, ih ht]
          rfl

end Fields

section Arrays

theorem append_bracket_ne (p : String) {s : String} (h : s.toList.getLast? ≠ some ']') :
    p ++ "]" ≠ s := by
  rintro rfl
  exact h (by simp)

theorem exists_name_arrayType (d : Die) (children : List Die) (element : Option TypeInfo) :
    ∃ p, (arrayType d children element).name = p ++ "]" := by
  unfold arrayType
  dsimp only
  split
  · exact ⟨_, rfl⟩
  · refine ⟨(element.map TypeInfo.name).getD "?" ++ "[", ?_⟩
    rw [String.append_assoc]
    rfl

theorem name_qualify_of_bracket (d : Die) {ti : TypeInfo} {p : String} (h : ti.name = p ++ "]") :
    (qualify d ti).name = p ++ "]" := by
  have hanon : ti.name ≠ "<anon>" := h ▸ append_bracket_ne p (by simp)
  have hempty : ti.name ≠ "" := h ▸ append_bracket_ne p (by simp)
  unfold qualify
  cases d.attrName with
  | none => exact h
  | some name => simpa [hanon, hempty] using h

/-- Behind a type that stands for no struct by value there are no fields, except that the one
resolver finds an array where the other finds nothing. -/
theorem no_fields {unit : DieUnit} {off : UnitOffset} {vn vd : Finset UnitOffset} {n m : ℕ}
    (hlead : ∀ t, ¬StandsFor unit Die.isQualifier off t)
    (hn : InLimits unit Die.isLink 9 n off vn) (hd : InLimits unit Die.isDeepLink 33 m off vd)
    (hvn : ∀ x ∈ vn, unit.IsNode x) (hvd : ∀ x ∈ vd, unit.IsNode x) :
    layoutFields (resolveTypeAt unit n off vn).1 = [] ∧
        layoutFields (resolveTypeAtDeep unit m off vd).1 = [] ∨
      (resolveTypeAtDeep unit m off vd).1 = none ∧
        ∃ ti p, (resolveTypeAt unit n off vn).1 = some ti ∧ ti.name = p ++ "]" := by
  induction n generalizing m off with
  | zero => exact hn.elim
  | succ n ih =>
      cases m with
      | zero => exact hd.elim
      | succ m =>
      have hnode : ¬unit.IsNode off := fun h => hlead off (.here h)
      obtain ⟨d, hentry, hagg⟩ : ∃ d, unit.entry off = some d ∧ ¬d.isAggregate := by
        simpa [DieUnit.IsNode] using hnode
      have hoffn : off ∉ vn := fun h => hnode (hvn off h)
      have hoffd : off ∉ vd := fun h => hnode (hvd off h)
      by_cases hqual : d.isQualifier
      · rw [resolveTypeAt_qualifier n hoffn hentry hqual,
          resolveTypeAtDeep_qualifier m hoffd hentry hqual]
        cases hnext : d.ref .type with
        | none => exact .inl ⟨rfl, rfl⟩
        | some next =>
            rw [Option.bind_some, Option.bind_some, layoutFields_map (layoutFields_qualify d)]
            have hlink := (hn.resolve_left hoffn d hentry).2
              (by simp [Die.isLink, Die.isDeepLink, hqual]) next hnext
            have hdeep := (hd.resolve_left hoffd d hentry).2
              (by simp [Die.isDeepLink, hqual]) next hnext
            rcases ih (fun t ht => hlead t (.link hentry hagg hqual hnext ht)) hlink hdeep with
              h | ⟨hnone, ti, p, hti, hname⟩
            · exact .inl h
            · exact .inr ⟨hnone, qualify d ti, p, by rw [hti]; rfl, name_qualify_of_bracket d hname⟩
      · rw [resolveTypeAt, resolveTypeAtDeep, if_neg hoffn, if_neg hoffd, hentry]
        dsimp only
        rw [Die.isAggregate_iff] at hagg
        rw [Die.isQualifier_iff] at hqual
        cases htag : d.tag
        case arrayType =>
          obtain ⟨p, hp⟩ := exists_name_arrayType d (unit.children off)
            (resolveRef (resolveTypeAt unit n) d vn).1
          exact .inr ⟨rfl, _, p, rfl, hp⟩
        case pointerType =>
          left
          rw [layoutFields, layoutFields, Option.getD_some, Option.getD_some,
            TypeInfo.fields_layout, TypeInfo.fields_layout]
          exact ⟨rfl, rfl⟩
        all_goals first
          | exact .inl ⟨rfl, rfl⟩
          | simp [htag] at hagg hqual

end Arrays

section Agreement
variable (unit : DieUnit)

/-- A member of the struct has the type, and by then the two resolvers have visited these. -/
def MetWith (s : UnitOffset) (vn vd : Set UnitOffset) (off : UnitOffset)
    (hn hd : Set UnitOffset) : Prop :=
  ∃ (i : ℕ) (m : Die), (unit.members s)[i]? = some m ∧ m.ref .type = some off ∧
    hn = seenBy unit Die.isLink vn ((unit.members s).take i) ∧
    hd = seenBy unit Die.isDeepLink vd ((unit.members s).take i)

open Classical in
/-- What the type goes through on its way to a struct or to the end makes the same of it by the
rules of both resolvers. -/
def SpelledAlike (off : UnitOffset) (hn hd : Set UnitOffset) : Prop :=
  (outline unit Die.isLink spell (· ∈ hn) 17 off).getD .unknown =
    (outline unit Die.isDeepLink spellDeep (· ∈ hd) 65 off).getD .unknown

/-- The structs that both find inside the struct by value have members that are spelled alike,
and a struct with members that one of them has visited the other has visited as well. -/
inductive Agrees : UnitOffset → Set UnitOffset → Set UnitOffset → Prop
  | intro {s : UnitOffset} {vn vd : Set UnitOffset} :
      (∀ off hn hd, MetWith unit s vn vd off hn hd → SpelledAlike unit off hn hd) →
      (∀ off hn hd t, MetWith unit s vn vd off hn hd → StandsFor unit Die.isQualifier off t →
        (unit.entry t).isSome → unit.members t ≠ [] → (t ∈ hn ↔ t ∈ hd)) →
      (∀ off hn hd t, MetWith unit s vn vd off hn hd → StandsFor unit Die.isQualifier off t →
        (unit.entry t).isSome → t ∉ hn → t ∉ hd → Agrees t (insert t hn) (insert t hd)) →
      Agrees s vn vd

/-- The two resolvers come to the same for a type if they have visited these. -/
def TypeAgrees (off : UnitOffset) (hn hd : Set UnitOffset) : Prop :=
  SpelledAlike unit off hn hd ∧
    (∀ t, StandsFor unit Die.isQualifier off t → (unit.entry t).isSome → unit.members t ≠ [] →
      (t ∈ hn ↔ t ∈ hd)) ∧
    ∀ t, StandsFor unit Die.isQualifier off t → (unit.entry t).isSome → t ∉ hn → t ∉ hd →
      Agrees unit t (insert t hn) (insert t hd)

variable {unit} {n m : ℕ} {off s : UnitOffset} {vn vd : Finset UnitOffset}

theorem bare_getD (ti : Option TypeInfo) :
    (ti.getD .unknown).bare = (ti.map TypeInfo.bare).getD .unknown := by
  cases ti <;> rfl

theorem not_isAggregate_of_isDeepLink (d : Die) (h : d.isDeepLink) : ¬d.isAggregate :=
  not_isAggregate_of_isLink d (by simp [Die.isLink, h])

theorem spelledAlike_iff {hn hd : Set UnitOffset} (hvn : hn = vn) (hvd : hd = vd) (hle : n ≤ 17)
    (hledeep : m ≤ 65) (hlimits : InLimits unit Die.isLink 9 n off vn)
    (hdeep : InLimits unit Die.isDeepLink 33 m off vd)
    (hnode : ∀ x ∈ vn, unit.IsNode x) (hnodeDeep : ∀ x ∈ vd, unit.IsNode x) :
    SpelledAlike unit off hn hd ↔
      ((resolveTypeAt unit n off vn).1.getD .unknown).bare =
        ((resolveTypeAtDeep unit m off vd).1.getD .unknown).bare := by
  have hmem (x : UnitOffset) : x ∈ vn ↔ x ∈ hn := by rw [hvn, Finset.mem_coe]
  have hmemDeep (x : UnitOffset) : x ∈ vd ↔ x ∈ hd := by rw [hvd, Finset.mem_coe]
  rw [bare_getD, bare_getD, bare_resolveTypeAt, bare_resolveTypeAtDeep, SpelledAlike]
  classical
  rw [outline_congr hle hlimits hnode (fun x hx => hnode x ((hmem x).mpr hx))
      not_isAggregate_of_isLink fun t _ => hmem t,
    outline_congr hledeep hdeep hnodeDeep (fun x hx => hnodeDeep x ((hmemDeep x).mpr hx))
      not_isAggregate_of_isDeepLink fun t _ => hmemDeep t]

/-- The type of a member, if it resolves. -/
def memberType (resolve : UnitOffset → Finset UnitOffset → Resolution) (m : Die)
    (visited : Finset UnitOffset) : Option TypeInfo :=
  (m.ref .type).bind fun off => (resolve off visited).1

theorem layout_memberField (resolve : UnitOffset → Finset UnitOffset → Resolution) (m : Die)
    (visited : Finset UnitOffset) : (memberField resolve m visited).1.layout =
      { name := m.attrName.getD "<anon>"
        byteOffset := (m.udata .dataMemberLocation).getD 0
        byteSize := ((memberType resolve m visited).getD .unknown).layout.byteSize
        typeInfo := ((memberType resolve m visited).getD .unknown).layout
        alignment := (m.udata .alignment).getD 0 } := by
  unfold memberField memberType
  have hsize (ti : TypeInfo) : ti.layout.byteSize = ti.byteSize := by cases ti; rfl
  cases m.ref .type <;> simp [FieldOf.layout, hsize]

/-- The fields are the same if the types of the members are, one after the other. -/
theorem layouts_eq_iff (resolve resolve' : UnitOffset → Finset UnitOffset → Resolution)
    (s : UnitOffset) (v v' : Finset UnitOffset) :
    (memberFields resolve (unit.children s) v).1.map FieldOf.layout =
        (memberFields resolve' (unit.children s) v').1.map FieldOf.layout ↔
      ∀ (i : ℕ) (m : Die), (unit.members s)[i]? = some m →
        ((memberType resolve m (walkMembers (fun off v => (resolve off v).2)
            ((unit.members s).take i) v)).getD .unknown).layout =
          ((memberType resolve' m (walkMembers (fun off v => (resolve' off v).2)
            ((unit.members s).take i) v')).getD .unknown).layout := by
  rw [List.ext_getElem?_iff]
  refine forall_congr' fun i => ?_
  rw [List.getElem?_map, List.getElem?_map, getElem?_memberFields, getElem?_memberFields,
    ← DieUnit.members]
  cases hm : (unit.members s)[i]? with
  | none => simp
  | some m =>
      simp only [Option.map_some, Option.some.injEq, forall_eq', layout_memberField,
        FieldOf.mk.injEq, true_and, and_true]
      exact ⟨fun h => h.2, fun h => ⟨congrArg TypeInfo.byteSize h, h⟩⟩

theorem memberFields_eq_nil_iff (resolve : UnitOffset → Finset UnitOffset → Resolution)
    (s : UnitOffset) (v : Finset UnitOffset) :
    (memberFields resolve (unit.children s) v).1 = [] ↔ unit.members s = [] := by
  rw [← List.head?_eq_none_iff, List.head?_eq_getElem?, getElem?_memberFields,
    Option.map_eq_none_iff, ← List.head?_eq_getElem?, List.head?_eq_none_iff, DieUnit.members]

theorem walk_isDeepLink (levels : ℕ) :
    (fun off v => (resolveTypeAtDeep unit levels off v).2) = walkType unit Die.isDeepLink 33 levels :=
  funext fun off => funext fun v => snd_resolveTypeAtDeep unit levels off v

/-- Behind a type that stands for no struct and is spelled alike both find nothing. -/
theorem layoutFields_eq_of_no_struct
    (hno : ¬∃ t, StandsFor unit Die.isQualifier off t ∧ (unit.entry t).isSome)
    (hlimits : InLimits unit Die.isLink 9 n off vn)
    (hdeep : InLimits unit Die.isDeepLink 33 m off vd)
    (hnode : ∀ x ∈ vn, unit.IsNode x) (hnodeDeep : ∀ x ∈ vd, unit.IsNode x)
    (hbare : ((resolveTypeAt unit n off vn).1.getD .unknown).bare =
      ((resolveTypeAtDeep unit m off vd).1.getD .unknown).bare) :
    layoutFields (resolveTypeAt unit n off vn).1 =
      layoutFields (resolveTypeAtDeep unit m off vd).1 := by
  by_cases hmiss : ∃ t, StandsFor unit Die.isQualifier off t
  · obtain ⟨t, hlead⟩ := hmiss
    have hentry : unit.entry t = none := by
      by_contra h
      exact hno ⟨t, hlead, Option.isSome_iff_ne_none.mpr h⟩
    rw [(descends_resolveTypeAt unit).eq_none hlead (.inr hentry) hnode,
      (descends_resolveTypeAtDeep unit).eq_none hlead (.inr hentry) hnodeDeep]
  · rcases no_fields (fun t h => hmiss ⟨t, h⟩) hlimits hdeep hnode hnodeDeep with
      ⟨h, h'⟩ | ⟨hnone, ti, p, hti, hname⟩
    · rw [h, h']
    · rw [hti, hnone] at hbare
      have hunknown : p ++ "]" = "<unknown>" := hname ▸ congrArg TypeInfo.name hbare
      exact absurd hunknown (append_bracket_ne p (by simp))

/-- The fields that the two resolvers find below a type that is spelled alike. -/
theorem layoutFields_eq_iff {hn hd : Set UnitOffset} (hvn : hn = vn) (hvd : hd = vd)
    (hlimits : InLimits unit Die.isLink 9 n off vn)
    (hdeep : InLimits unit Die.isDeepLink 33 m off vd)
    (hnode : ∀ x ∈ vn, unit.IsNode x) (hnodeDeep : ∀ x ∈ vd, unit.IsNode x)
    (hbare : ((resolveTypeAt unit n off vn).1.getD .unknown).bare =
      ((resolveTypeAtDeep unit m off vd).1.getD .unknown).bare)
    (ih : ∀ n' < n, ∀ m' < m, ∀ (t : UnitOffset) (wn wd : Finset UnitOffset),
      (∀ x ∈ wn, unit.IsNode x) → (∀ x ∈ wd, unit.IsNode x) →
      AllAlong (walkType unit Die.isLink 9 n') (InLimits unit Die.isLink 9 n') (unit.members t) wn →
      AllAlong (walkType unit Die.isDeepLink 33 m') (InLimits unit Die.isDeepLink 33 m')
        (unit.members t) wd →
      ((memberFields (resolveTypeAt unit n') (unit.children t) wn).1.map FieldOf.layout =
        (memberFields (resolveTypeAtDeep unit m') (unit.children t) wd).1.map FieldOf.layout ↔
          Agrees unit t wn wd)) :
    layoutFields (resolveTypeAt unit n off vn).1 = layoutFields (resolveTypeAtDeep unit m off vd).1 ↔
      (∀ t, StandsFor unit Die.isQualifier off t → (unit.entry t).isSome → unit.members t ≠ [] →
        (t ∈ hn ↔ t ∈ hd)) ∧
      ∀ t, StandsFor unit Die.isQualifier off t → (unit.entry t).isSome → t ∉ hn → t ∉ hd →
        Agrees unit t (insert t hn) (insert t hd) := by
  have hmem (x : UnitOffset) : x ∈ hn ↔ x ∈ vn := by rw [hvn, Finset.mem_coe]
  have hmemDeep (x : UnitOffset) : x ∈ hd ↔ x ∈ vd := by rw [hvd, Finset.mem_coe]
  by_cases hex : ∃ t, StandsFor unit Die.isQualifier off t ∧ (unit.entry t).isSome
  · obtain ⟨t, hlead, hsome⟩ := hex
    obtain ⟨d, hentry⟩ := Option.isSome_iff_exists.mp hsome
    have honly (P : UnitOffset → Prop) :
        (∀ t', StandsFor unit Die.isQualifier off t' → (unit.entry t').isSome → P t') ↔ P t := by
      refine ⟨fun h => h t hlead hsome, fun h t' hlead' _ => ?_⟩
      exact hlead'.unique hlead ▸ h
    rw [honly, honly, hmem, hmemDeep]
    have hnone (h : t ∈ vn) : layoutFields (resolveTypeAt unit n off vn).1 = [] := by
      rw [(descends_resolveTypeAt unit).eq_none hlead (.inl h) hnode]
      rfl
    have hnoneDeep (h : t ∈ vd) : layoutFields (resolveTypeAtDeep unit m off vd).1 = [] := by
      rw [(descends_resolveTypeAtDeep unit).eq_none hlead (.inl h) hnodeDeep]
      rfl
    have hfields (h : t ∉ vn) := (descends_resolveTypeAt unit).exists_fields
      (fun d hd => by simp [Die.isLink, Die.isDeepLink, hd]) hlead hentry h hnode hlimits
    have hfieldsDeep (h : t ∉ vd) := (descends_resolveTypeAtDeep unit).exists_fields
      (fun d hd => by simp [Die.isDeepLink, hd]) hlead hentry h hnodeDeep hdeep
    by_cases ht : t ∈ vn <;> by_cases ht' : t ∈ vd
    · rw [hnone ht, hnoneDeep ht']
      exact iff_of_true rfl ⟨fun _ => iff_of_true ht ht', fun h => absurd ht h⟩
    · obtain ⟨k, -, hk, -⟩ := hfieldsDeep ht'
      rw [hnone ht, hk, eq_comm, List.map_eq_nil_iff, memberFields_eq_nil_iff]
      constructor
      · exact fun hnil => ⟨fun h => absurd hnil h, fun h => absurd ht h⟩
      · intro h
        by_contra hne
        exact ht' ((h.1 hne).mp ht)
    · obtain ⟨k, -, hk, -⟩ := hfields ht
      rw [hnoneDeep ht', hk, List.map_eq_nil_iff, memberFields_eq_nil_iff]
      constructor
      · exact fun hnil => ⟨fun h => absurd hnil h, fun _ h => absurd ht' h⟩
      · intro h
        by_contra hne
        exact ht ((h.1 hne).mpr ht')
    · obtain ⟨k, hk, hfields, hall⟩ := hfields ht
      obtain ⟨l, hl, hfieldsDeep, hallDeep⟩ := hfieldsDeep ht'
      have hstruct : unit.IsNode t := hlead.isNode
      have hinsert : ∀ x ∈ insert t vn, unit.IsNode x := by simpa [hstruct] using hnode
      have hinsertDeep : ∀ x ∈ insert t vd, unit.IsNode x := by simpa [hstruct] using hnodeDeep
      rw [hfields, hfieldsDeep, ih k hk l hl t _ _ hinsert hinsertDeep hall hallDeep,
        Finset.coe_insert, Finset.coe_insert, ← hvn, ← hvd]
      exact ⟨fun h => ⟨fun _ => iff_of_false ht ht', fun _ _ => h⟩, fun h => h.2 ht ht'⟩
  · refine iff_of_true (layoutFields_eq_of_no_struct hex hlimits hdeep hnode hnodeDeep hbare)
      ⟨fun t hlead hsome => ?_, fun t hlead hsome => ?_⟩ <;>
    exact absurd ⟨t, hlead, hsome⟩ hex

theorem agrees_iff_types {vn vd : Set UnitOffset} : Agrees unit s vn vd ↔
    ∀ off hn hd, MetWith unit s vn vd off hn hd → TypeAgrees unit off hn hd := by
  constructor
  · rintro ⟨halike, hboth, hinside⟩ off hn hd hmet
    exact ⟨halike off hn hd hmet, fun t => hboth off hn hd t hmet,
      fun t => hinside off hn hd t hmet⟩
  · intro h
    exact .intro (fun off hn hd hmet => (h off hn hd hmet).1)
      (fun off hn hd t hmet => (h off hn hd hmet).2.1 t)
      fun off hn hd t hmet => (h off hn hd hmet).2.2 t

/-- The fields of a struct are the same by both resolvers exactly if its members agree. -/
theorem agrees_iff (hle : n ≤ 17) (hledeep : m ≤ 65) (hnode : ∀ x ∈ vn, unit.IsNode x)
    (hnodeDeep : ∀ x ∈ vd, unit.IsNode x)
    (hall : AllAlong (walkType unit Die.isLink 9 n) (InLimits unit Die.isLink 9 n)
      (unit.members s) vn)
    (hallDeep : AllAlong (walkType unit Die.isDeepLink 33 m) (InLimits unit Die.isDeepLink 33 m)
      (unit.members s) vd) :
    (memberFields (resolveTypeAt unit n) (unit.children s) vn).1.map FieldOf.layout =
        (memberFields (resolveTypeAtDeep unit m) (unit.children s) vd).1.map FieldOf.layout ↔
      Agrees unit s vn vd := by
  induction n using Nat.strong_induction_on generalizing m s vn vd with
  | _ n ih =>
  -- one member, by the structs inside its type
  have hmember {i : ℕ} {m' : Die} {off : UnitOffset} (hm : (unit.members s)[i]? = some m')
      (href : m'.ref .type = some off) :
      ((memberType (resolveTypeAt unit n) m' (walkMembers (walkType unit Die.isLink 9 n)
            ((unit.members s).take i) vn)).getD .unknown).layout =
          ((memberType (resolveTypeAtDeep unit m) m' (walkMembers
            (walkType unit Die.isDeepLink 33 m) ((unit.members s).take i) vd)).getD
              .unknown).layout ↔
        TypeAgrees unit off (seenBy unit Die.isLink vn ((unit.members s).take i))
          (seenBy unit Die.isDeepLink vd ((unit.members s).take i)) := by
    have hcoe := (coe_walkMembers hnode (hall.take i)).symm
    have hcoeDeep := (coe_walkMembers hnodeDeep (hallDeep.take i)).symm
    have hseen := isNode_walkMembers hnode (hall.take i)
    have hseenDeep := isNode_walkMembers hnodeDeep (hallDeep.take i)
    have hlimits := hall.get hm href
    have hdeep := hallDeep.get hm href
    have halike := spelledAlike_iff hcoe hcoeDeep hle hledeep hlimits hdeep hseen hseenDeep
    rw [memberType, memberType, href, Option.bind_some, Option.bind_some, TypeInfo.layout_eq_iff,
      ← halike, TypeAgrees]
    refine and_congr_right fun hspelled => ?_
    refine layoutFields_eq_iff hcoe hcoeDeep hlimits hdeep hseen hseenDeep (halike.mp hspelled) ?_
    intro n' hn' m'' hm'' t wn wd hwn hwd h h'
    exact ih n' hn' (by omega) (by omega) hwn hwd h h'
  rw [layouts_eq_iff, walk_isLink, walk_isDeepLink, agrees_iff_types]
  constructor
  · rintro h off hn hd ⟨i, m', hm, href, rfl, rfl⟩
    exact (hmember hm href).mp (h i m' hm)
  · intro h i m' hm
    cases href : m'.ref .type with
    | none => rw [memberType, memberType, href]; rfl
    | some off => exact (hmember hm href).mpr (h off _ _ ⟨i, m', hm, href, rfl, rfl⟩)

end Agreement

/-- Within the limits of both the deep resolver finds the fields of the normal one exactly if
the members of the struct agree, whatever each of them has visited before. -/
theorem resolversAgree_iff (unit : DieUnit) (n m : ℕ) (s : UnitOffset) (vn vd : Finset UnitOffset)
    (hn : 9 ≤ n) (hle : n ≤ 16) (hm : 33 ≤ m) (hledeep : m ≤ 64)
    (hnode : ∀ x ∈ vn, unit.IsNode x) (hnodeDeep : ∀ x ∈ vd, unit.IsNode x)
    (hall : AllAlong (walkType unit Die.isLink 9 n) (InLimits unit Die.isLink 9 n)
      (unit.members s) vn)
    (hallDeep : AllAlong (walkType unit Die.isDeepLink 33 m) (InLimits unit Die.isDeepLink 33 m)
      (unit.members s) vd) :
    (extractStructFields unit (n + 1) s vn).1.map FieldOf.layout =
        (extractStructFieldsDeep unit (m + 1) s vd).1.map FieldOf.layout ↔
      Agrees unit s vn vd := by
  rw [extractStructFields, extractStructFieldsDeep, if_neg (by omega), if_neg (by omega)]
  exact agrees_iff (by omega) (by omega) hnode hnodeDeep hall hallDeep

namespace IntBuffer

def int : Die := .ofList .baseType [(.name, .string "int"), (.byteSize, .udata 4)]

def array : Die := .ofList .arrayType [(.type, .unitRef 1)]

/-- A struct of a number and an array of three numbers; and a box: a number by a typedef, a pair
of numbers and a pointer to a number. -/
def unit : DieUnit where
  entry off :=
    if off = 1 then some int
    else if off = 2 then
      some (.ofList .structureType [(.name, .string "buffer"), (.byteSize, .udata 16)])
    else if off = 3 then some array
    else if off = 4 then
      some (.ofList .structureType [(.name, .string "box"), (.byteSize, .udata 24)])
    else if off = 5 then
      some (.ofList .structureType [(.name, .string "pair"), (.byteSize, .udata 8)])
    else if off = 6 then some (.ofList .pointerType [(.byteSize, .udata 8), (.type, .unitRef 7)])
    else if off = 7 then
      some (.ofList .typedef [(.name, .string "count"), (.type, .unitRef 1)])
    else none
  children off :=
    if off = 2 then
      [.ofList .member [(.name, .string "length"), (.type, .unitRef 1)],
        .ofList .member [(.name, .string "data"), (.type, .unitRef 3),
          (.dataMemberLocation, .udata 4)]]
    else if off = 3 then [.ofList .subrangeType [(.count, .udata 3)]]
    else if off = 4 then
      [.ofList .member [(.name, .string "length"), (.type, .unitRef 7)],
        .ofList .member [(.name, .string "ends"), (.type, .unitRef 5),
          (.dataMemberLocation, .udata 4)],
        .ofList .member [(.name, .string "total"), (.type, .unitRef 6),
          (.dataMemberLocation, .udata 16)]]
    else if off = 5 then
      [.ofList .member [(.name, .string "low"), (.type, .unitRef 1)],
        .ofList .member [(.name, .string "high"), (.type, .unitRef 1),
          (.dataMemberLocation, .udata 4)]]
    else []

theorem inLimits_int {link : Die → Bool} (hlink : link int = false) (floor levels : ℕ)
    (visited : Finset UnitOffset) : InLimits unit link floor (levels + 1) 1 visited :=
  .leaf rfl rfl hlink

/-- The walks of both resolvers over the members of the box stay within their limits. -/
theorem inLimits_box {link : Die → Bool}
    (hlink : ∀ d : Die, d.isDeepLink = false → d.tag ≠ .arrayType → link d = false)
    {floor levels : ℕ} (hfloor : floor ≤ levels + 2) (visited : Finset UnitOffset) :
    AllAlong (walkType unit link floor (levels + 3)) (InLimits unit link floor (levels + 3))
      (unit.members 4) visited := by
  have hint : link int = false := hlink int rfl (by decide)
  refine ⟨fun off hoff => ?_, fun off hoff => ?_, fun off hoff => ?_, trivial⟩
  · obtain rfl := Option.some.inj hoff
    exact .through rfl rfl rfl (inLimits_int hint ..)
  · obtain rfl := Option.some.inj hoff
    refine .node rfl (hlink _ rfl (by decide)) hfloor
      ⟨fun off hoff => ?_, fun off hoff => ?_, trivial⟩
    · obtain rfl := Option.some.inj hoff
      exact inLimits_int hint ..
    · obtain rfl := Option.some.inj hoff
      exact inLimits_int hint ..
  · obtain rfl := Option.some.inj hoff
    exact .through rfl rfl rfl (.through rfl rfl rfl (inLimits_int hint ..))

/-- The typedef, the pair and the pointer are the same to both. -/
theorem box_agrees : (extractStructFields unit 17 4 {4}).1.map FieldOf.layout =
      (extractStructFieldsDeep unit 65 4 ∅).1.map FieldOf.layout ∧
    Agrees unit 4 (({4} : Finset UnitOffset) : Set UnitOffset) ((∅ : Finset UnitOffset) : Set _) := by
  have hnode : ∀ x ∈ ({4} : Finset UnitOffset), unit.IsNode x := by
    intro x hx d hd
    obtain rfl := Finset.mem_singleton.mp hx
    obtain rfl := Option.some.inj hd
    rfl
  have hall : AllAlong (walkType unit Die.isLink 9 16) (InLimits unit Die.isLink 9 16)
      (unit.members 4) {4} :=
    inLimits_box (fun d hdeep harray => by simp [Die.isLink, hdeep, harray])
      (by decide) _
  have hallDeep : AllAlong (walkType unit Die.isDeepLink 33 64) (InLimits unit Die.isDeepLink 33 64)
      (unit.members 4) ∅ :=
    inLimits_box (fun d hdeep _ => hdeep) (by decide) _
  have heq : (extractStructFields unit 17 4 {4}).1.map FieldOf.layout =
      (extractStructFieldsDeep unit 65 4 ∅).1.map FieldOf.layout := rfl
  exact ⟨heq, (resolversAgree_iff unit 16 64 4 {4} ∅ (by decide) (by decide) (by decide)
    (by decide) hnode (by simp) hall hallDeep).mp heq⟩

/-- To the deep resolver an array has no type. -/
theorem not_resolversAgree : ¬∀ (unit : DieUnit) (n m : ℕ) (s : UnitOffset)
    (visited : Finset UnitOffset), 9 ≤ n → n ≤ 16 → 33 ≤ m → m ≤ 64 →
    (∀ x ∈ visited, unit.IsNode x) →
    AllAlong (walkType unit Die.isLink 9 n) (InLimits unit Die.isLink 9 n)
      (unit.members s) visited →
    AllAlong (walkType unit Die.isDeepLink 33 m) (InLimits unit Die.isDeepLink 33 m)
      (unit.members s) visited →
    (extractStructFields unit (n + 1) s visited).1.map FieldOf.layout =
      (extractStructFieldsDeep unit (m + 1) s visited).1.map FieldOf.layout := by
  intro h
  have hall : AllAlong (walkType unit Die.isLink 9 16) (InLimits unit Die.isLink 9 16)
      (unit.members 2) ∅ := by
    refine ⟨fun off hoff => ?_, fun off hoff => ?_, trivial⟩
    · obtain rfl := Option.some.inj hoff
      exact inLimits_int rfl 9 15 _
    · obtain rfl := Option.some.inj hoff
      refine .inr fun d hd => ?_
      obtain rfl := Option.some.inj hd
      refine ⟨fun h => absurd h (by decide), fun _ next hnext => ?_⟩
      obtain rfl := Option.some.inj hnext
      exact inLimits_int rfl 9 14 _
  have hallDeep : AllAlong (walkType unit Die.isDeepLink 33 64) (InLimits unit Die.isDeepLink 33 64)
      (unit.members 2) ∅ := by
    refine ⟨fun off hoff => ?_, fun off hoff => ?_, trivial⟩
    · obtain rfl := Option.some.inj hoff
      exact inLimits_int rfl 33 63 _
    · obtain rfl := Option.some.inj hoff
      refine .inr fun d hd => ?_
      obtain rfl := Option.some.inj hd
      exact ⟨fun h => absurd h (by decide), fun h => absurd h (by decide)⟩
  have hlist := congrArg (fun l => l.map FieldOf.byteSize) (h unit 16 64 2 ∅ (by decide)
    (by decide) (by decide) (by decide) (by simp) hall hallDeep)
  have hsizes : [(4 : UInt64), 12] = [4, 0] := hlist
  exact absurd hsizes (by decide)

end IntBuffer

end Rtmap.Engine
