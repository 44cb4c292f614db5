import Rtmap.Engine.Types
import Rtmap.Lib.Grouping

/-!
# The allocation-site oracle

`AllocSiteOracle::build` groups the types of the registry by their size, and for the sizes that
several types have, the pointer locals of each function. Both go through hash maps, whose order
the answers of `resolve` do not depend on.
-/
namespace Rtmap.Engine
open Grouping

/-- The registry as a hash map: its entries in some order, each name once. -/
structure TypeTable where
  entries : List (String × TypeInfo)
  nodup : (entries.map Prod.fst).Nodup

namespace TypeTable

/-- `registry.get`. -/
def get (table : TypeTable) (name : String) : Option TypeInfo :=
  (table.entries.find? fun e => e.1 = name).map Prod.snd

end TypeTable

/-- The orders in which hash maps are walked. -/
structure AllocOrders where
  values : List TypeInfo → List TypeInfo
  values_perm : ∀ l, (values l).Perm l
  bySize : List (UInt64 × List TypeInfo) → List (UInt64 × List TypeInfo)
  bySize_perm : ∀ l, (bySize l).Perm l
  localTypes : FunctionMeta → List (UInt64 × List TypeInfo) → List (UInt64 × List TypeInfo)
  localTypes_perm : ∀ f l, (localTypes f l).Perm l

/-- A type that an allocation may have: not a pointer, with a size, a name and fields. -/
def TypeInfo.eligible (ti : TypeInfo) : Bool :=
  !(ti.isPointer || ti.byteSize == 0 || ti.name.isEmpty || ti.fields.isEmpty)

/-- The types of one size: a single one is the type of the size, several make it ambiguous. -/
def AllocSiteOracle.addSize (o : AllocSiteOracle) (g : UInt64 × List TypeInfo) :
    AllocSiteOracle :=
  match g.2 with
  | [ti] => { o with unique := Function.update o.unique g.1 (some ti) }
  | types => { o with ambiguous := Function.update o.ambiguous g.1 (some types) }

/-- The type at the end of one or two levels of pointers. -/
def LocalVar.pointee (table : TypeTable) (l : LocalVar) : Option TypeInfo :=
  if !l.typeInfo.isPointer then none
  else
    let raw := (stripPointer l.typeInfo.name).getD ""
    let name := (stripPointer raw).getD raw
    if name.isEmpty then none
    else (table.get name).filter fun ti => ti.byteSize > 0 && !ti.isPointer

/-- The first of each name. -/
def dedupNames : List String → List TypeInfo → List TypeInfo
  | _, [] => []
  | seen, ti :: types =>
      if ti.name ∈ seen then dedupNames seen types
      else ti :: dedupNames (ti.name :: seen) types

/-- The call sites of a function: the ambiguous sizes of which its locals point to one type. -/
def callSites (orders : AllocOrders) (table : TypeTable)
    (ambiguous : UInt64 → Option (List TypeInfo)) (f : FunctionMeta) : List CallSite :=
  let localTypes := group TypeInfo.byteSize (f.locals.filterMap (LocalVar.pointee table))
  (orders.localTypes f localTypes).filterMap fun g =>
    if (ambiguous g.1).isNone then none
    else
      match dedupNames [] g.2 with
      | [ti] => some ⟨f.lowPc, f.highPc, g.1, ti⟩
      | _ => none

/-- The functions in the order of their starts. -/
def FunctionMap.values (m : FunctionMap) : List FunctionMeta := m.entries.map Prod.snd

/-- `AllocSiteOracle::build`. -/
def AllocSiteOracle.build (orders : AllocOrders) (table : TypeTable) (functions : FunctionMap) :
    AllocSiteOracle :=
  let types := (orders.values (table.entries.map Prod.snd)).filter TypeInfo.eligible
  let tiers := (orders.bySize (group TypeInfo.byteSize types)).foldl AllocSiteOracle.addSize {}
  { tiers with callsite := functions.values.flatMap (callSites orders table tiers.ambiguous) }

/-- The eligible types of a size. -/
def TypeTable.ofSize (table : TypeTable) (size : UInt64) : List TypeInfo :=
  (table.entries.map Prod.snd).filter fun ti => ti.eligible && ti.byteSize == size

/-- The locals of the function point to types of the size, all of one name, and to this one. -/
structure Narrows (table : TypeTable) (f : FunctionMeta) (size : UInt64) (ti : TypeInfo) : Prop where
  sized : ti.byteSize = size
  pointee : ∃ l ∈ f.locals, l.pointee table = some ti
  single (l : LocalVar) (hl : l ∈ f.locals) (t : TypeInfo) (ht : l.pointee table = some t)
    (hsize : t.byteSize = size) : t.name = ti.name

/-- The type of the size that a function's locals come down to. -/
def narrow (table : TypeTable) (f : FunctionMeta) (size : UInt64) : Option TypeInfo :=
  match dedupNames [] ((f.locals.filterMap (LocalVar.pointee table)).filter fun ti =>
      ti.byteSize = size) with
  | [ti] => some ti
  | _ => none

theorem dedupNames_eq_nil {seen : List String} {types : List TypeInfo} :
    dedupNames seen types = [] ↔ ∀ t ∈ types, t.name ∈ seen := by
  induction types with
  | nil => simp [dedupNames]
  | cons t types ih =>
      rw [dedupNames, List.forall_mem_cons]
      split
      · rename_i hin
        rw [ih, and_iff_right hin]
      · rename_i hnot
        constructor
        · intro h
          cases h
        · exact fun h => absurd h.1 hnot

/-- One type is left if all have its name; it is the first. -/
theorem dedupNames_eq_singleton {types : List TypeInfo} {ti : TypeInfo} :
    dedupNames [] types = [ti] ↔ types.head? = some ti ∧ ∀ t ∈ types, t.name = ti.name := by
  cases types with
  | nil => simp [dedupNames]
  | cons t types =>
      rw [dedupNames, if_neg List.not_mem_nil, List.cons.injEq, dedupNames_eq_nil,
        List.forall_mem_cons, List.head?_cons, Option.some.injEq]
      simp only [List.mem_singleton]
      constructor
      · rintro ⟨rfl, h⟩
        exact ⟨rfl, rfl, h⟩
      · rintro ⟨rfl, -, h⟩
        exact ⟨rfl, h⟩

theorem narrow_eq_some {table : TypeTable} {f : FunctionMeta} {size : UInt64} {ti : TypeInfo} :
    narrow table f size = some ti ↔
      dedupNames [] ((f.locals.filterMap (LocalVar.pointee table)).filter fun ti =>
        ti.byteSize = size) = [ti] := by
  unfold narrow
  constructor
  · intro h
    split at h
    · rename_i heq
      rw [heq, Option.some.inj h]
    · cases h
  · intro h
    rw [h]

theorem mem_pointees {table : TypeTable} {f : FunctionMeta} {size : UInt64} {t : TypeInfo} :
    t ∈ ((f.locals.filterMap (LocalVar.pointee table)).filter fun ti => ti.byteSize = size) ↔
      (∃ l ∈ f.locals, l.pointee table = some t) ∧ t.byteSize = size := by
  rw [List.mem_filter, List.mem_filterMap, decide_eq_true_eq]

theorem narrows_of_narrow {table : TypeTable} {f : FunctionMeta} {size : UInt64} {ti : TypeInfo}
    (h : narrow table f size = some ti) : Narrows table f size ti := by
  obtain ⟨hhead, hname⟩ := dedupNames_eq_singleton.mp (narrow_eq_some.mp h)
  obtain ⟨hpointee, hsize⟩ := mem_pointees.mp (List.mem_of_mem_head? hhead)
  exact ⟨hsize, hpointee, fun l hl t ht hsize => hname t (mem_pointees.mpr ⟨⟨l, hl, ht⟩, hsize⟩)⟩

/-- A function that narrows the size comes down to some type of it. -/
theorem narrow_isSome {table : TypeTable} {f : FunctionMeta} {size : UInt64} {ti : TypeInfo}
    (h : Narrows table f size ti) : (narrow table f size).isSome := by
  obtain ⟨l, hl, hti⟩ := h.pointee
  have hmem := mem_pointees.mpr ⟨⟨l, hl, hti⟩, h.sized⟩
  obtain ⟨first, hfirst⟩ := Option.isSome_iff_exists.mp
    (List.isSome_head?.mpr (List.ne_nil_of_mem hmem))
  have hnames : ∀ t ∈ (f.locals.filterMap (LocalVar.pointee table)).filter
      (fun ti => ti.byteSize = size), t.name = first.name := by
    have hname (t : TypeInfo) (ht : t ∈ (f.locals.filterMap (LocalVar.pointee table)).filter
        (fun ti => ti.byteSize = size)) : t.name = ti.name := by
      obtain ⟨⟨l, hl, hpointee⟩, hsize⟩ := mem_pointees.mp ht
      exact h.single l hl t hpointee hsize
    exact fun t ht => (hname t ht).trans (hname first (List.mem_of_mem_head? hfirst)).symm
  rw [narrow_eq_some.mpr (dedupNames_eq_singleton.mpr ⟨hfirst, hnames⟩)]
  rfl

/-- The tiers hold the groups of their sizes, in whatever order they came. -/
theorem foldl_addSize {gs : List (UInt64 × List TypeInfo)} (hnodup : (gs.map Prod.fst).Nodup)
    (size : UInt64) :
    (∀ ti, (gs.foldl AllocSiteOracle.addSize {}).unique size = some ti ↔ (size, [ti]) ∈ gs) ∧
      (((gs.foldl AllocSiteOracle.addSize {}).ambiguous size).isSome = true ↔
        ∃ types, (size, types) ∈ gs ∧ types.length ≠ 1) := by
  induction gs using List.reverseRecOn with
  | nil => simp
  | append_singleton gs g ih =>
      rw [List.map_append, List.nodup_append] at hnodup
      obtain ⟨hgs, -, hdisjoint⟩ := hnodup
      obtain ⟨hunique, hambiguous⟩ := ih hgs
      obtain ⟨k, types⟩ := g
      have hnew (ts : List TypeInfo) : (k, ts) ∉ gs := fun hin =>
        hdisjoint k (List.mem_map.mpr ⟨_, hin, rfl⟩) k List.mem_cons_self rfl
      rw [List.foldl_append, List.foldl_cons, List.foldl_nil]
      simp only [List.mem_append, List.mem_singleton, Prod.mk.injEq]
      generalize gs.foldl AllocSiteOracle.addSize {} = o at hunique hambiguous ⊢
      unfold AllocSiteOracle.addSize
      split
      · rename_i t htypes
        have htypes : types = [t] := htypes
        subst htypes
        constructor
        · intro ti
          by_cases hk : size = k
          · subst hk
            simp [hnew, eq_comm]
          · simp [hunique, hk]
        · dsimp only
          rw [hambiguous]
          refine exists_congr fun ts => and_congr_left fun hlength => (or_iff_left ?_).symm
          rintro ⟨-, rfl⟩
          exact hlength rfl
      · rename_i hmany
        have hmany : ∀ t, types ≠ [t] := fun t h => hmany t h
        constructor
        · intro ti
          dsimp only
          rw [hunique]
          refine (or_iff_left ?_).symm
          rintro ⟨-, h⟩
          exact hmany ti h.symm
        · by_cases hk : size = k
          · subst hk
            have hlength : types.length ≠ 1 := fun h => by
              obtain ⟨t, ht⟩ := List.length_eq_one_iff.mp h
              exact hmany t ht
            dsimp only
            rw [Function.update_self]
            exact ⟨fun _ => ⟨types, .inr ⟨rfl, rfl⟩, hlength⟩, fun _ => rfl⟩
          · dsimp only
            rw [Function.update_of_ne hk, hambiguous]
            refine exists_congr fun ts => and_congr_left fun _ => (or_iff_left ?_).symm
            exact fun h => hk h.1

theorem two_le_length {α : Type*} {l : List α} (hempty : l ≠ []) (hone : ∀ a, l ≠ [a]) :
    2 ≤ l.length := by
  have hpos := List.length_pos_iff.mpr hempty
  have hnot : l.length ≠ 1 := fun h => by
    obtain ⟨a, ha⟩ := List.length_eq_one_iff.mp h
    exact hone a ha
  omega

/-- Where every type is under its own name, types of one name are one type. -/
theorem Narrows.eq_of_keyed {table : TypeTable} {f : FunctionMeta} {size : UInt64}
    {ti t : TypeInfo} (h : Narrows table f size ti)
    (hkeyed : ∀ e ∈ table.entries, e.2.name = e.1) {l : LocalVar} (hl : l ∈ f.locals)
    (ht : l.pointee table = some t) (hsize : t.byteSize = size) : t = ti := by
  have hget (l : LocalVar) (t : TypeInfo) (ht : l.pointee table = some t) :
      table.get t.name = some t := by
    unfold LocalVar.pointee at ht
    dsimp only at ht
    split at ht
    · cases ht
    · split at ht
      · cases ht
      · have hin := (Option.filter_eq_some_iff.mp ht).1
        obtain ⟨e, he, rfl⟩ := Option.map_eq_some_iff.mp hin
        have hname := List.find?_some he
        rw [hkeyed e (List.mem_of_find?_eq_some he), of_decide_eq_true hname]
        exact hin
  obtain ⟨l', hl', hti⟩ := h.pointee
  have hsame : table.get t.name = some ti := h.single l hl t ht hsize ▸ hget l' ti hti
  exact Option.some.inj ((hget l t ht).symm.trans hsame)

section Build
variable {orders : AllocOrders} {table : TypeTable} {functions : FunctionMap} {size : UInt64}

/-- The groups by size are those of the registry's eligible types, up to their order. -/
theorem mem_bySize {types : List TypeInfo} :
    (size, types) ∈ orders.bySize (group TypeInfo.byteSize
        ((orders.values (table.entries.map Prod.snd)).filter TypeInfo.eligible)) ↔
      types = (orders.values (table.entries.map Prod.snd)).filter
        (fun ti => ti.eligible && ti.byteSize == size) ∧ types ≠ [] := by
  rw [(orders.bySize_perm _).mem_iff, mem_group, List.filter_filter]
  simp only [Bool.and_comm, beq_eq_decide]

theorem perm_ofSize (orders : AllocOrders) (table : TypeTable) (size : UInt64) :
    ((orders.values (table.entries.map Prod.snd)).filter
    fun ti => ti.eligible && ti.byteSize == size).Perm (table.ofSize size) :=
  (orders.values_perm _).filter _

/-- A type is the unique one of its size if no other eligible type has the size. -/
theorem unique_build (ti : TypeInfo) :
    (AllocSiteOracle.build orders table functions).unique size = some ti ↔
      table.ofSize size = [ti] := by
  have hnodup := ((orders.bySize_perm _).map Prod.fst).nodup_iff.mpr
    (nodup_group TypeInfo.byteSize
      ((orders.values (table.entries.map Prod.snd)).filter TypeInfo.eligible))
  refine ((foldl_addSize hnodup size).1 ti).trans (mem_bySize.trans ?_)
  constructor
  · rintro ⟨heq, -⟩
    exact List.perm_singleton.mp (heq ▸ perm_ofSize orders table size).symm
  · intro h
    have hperm := perm_ofSize orders table size
    rw [h] at hperm
    exact ⟨(List.perm_singleton.mp hperm).symm, List.cons_ne_nil _ _⟩

/-- A size is ambiguous if several eligible types have it. -/
theorem ambiguous_build :
    ((AllocSiteOracle.build orders table functions).ambiguous size).isSome = true ↔
      2 ≤ (table.ofSize size).length := by
  have hnodup := ((orders.bySize_perm _).map Prod.fst).nodup_iff.mpr
    (nodup_group TypeInfo.byteSize
      ((orders.values (table.entries.map Prod.snd)).filter TypeInfo.eligible))
  refine (foldl_addSize hnodup size).2.trans ?_
  have hlength := (perm_ofSize orders table size).length_eq
  constructor
  · rintro ⟨types, hin, hmany⟩
    obtain ⟨heq, hne⟩ := mem_bySize.mp hin
    have hpos := List.length_pos_iff.mpr hne
    rw [← hlength, ← heq]
    omega
  · intro h
    refine ⟨_, mem_bySize.mpr ⟨rfl, List.ne_nil_of_length_pos (by omega)⟩, by omega⟩

/-- A function has one call site for each ambiguous size that its locals narrow. -/
theorem mem_callSites {ambiguous : UInt64 → Option (List TypeInfo)} {f : FunctionMeta}
    {c : CallSite} :
    c ∈ callSites orders table ambiguous f ↔
      c.lowPc = f.lowPc ∧ c.highPc = f.highPc ∧ (ambiguous c.allocSize).isSome = true ∧
        narrow table f c.allocSize = some c.typeInfo := by
  unfold callSites
  dsimp only
  rw [List.mem_filterMap]
  constructor
  · rintro ⟨⟨size, types⟩, hin, hsite⟩
    rw [(orders.localTypes_perm _ _).mem_iff] at hin
    obtain ⟨htypes, -⟩ := mem_group.mp hin
    split at hsite
    · cases hsite
    · rename_i hsome
      split at hsite
      · rename_i ti hone
        obtain rfl := Option.some.inj hsite
        refine ⟨rfl, rfl, Option.isSome_iff_ne_none.mpr fun h => hsome (by rw [h]; rfl), ?_⟩
        exact narrow_eq_some.mpr (htypes ▸ hone)
      · cases hsite
  · rintro ⟨hlow, hhigh, hsome, hnarrow⟩
    have hone := narrow_eq_some.mp hnarrow
    refine ⟨(c.allocSize, _), (orders.localTypes_perm _ _).mem_iff.mpr
      (mem_group.mpr ⟨rfl, fun hempty => ?_⟩), ?_⟩
    · rw [hempty] at hone
      cases hone
    · rw [if_neg (by rw [Option.isNone_iff_eq_none]; exact Option.isSome_iff_ne_none.mp hsome),
        hone, ← hlow, ← hhigh]

/-- The search of a function's call sites finds what its locals come down to. -/
theorem find?_callSites {ambiguous : UInt64 → Option (List TypeInfo)}
    (hsome : (ambiguous size).isSome = true) (f : FunctionMeta) (pc : UInt64) :
    ((callSites orders table ambiguous f).find? fun c =>
        c.allocSize == size && pc ≥ c.lowPc && pc < c.highPc).map CallSite.typeInfo =
      if f.lowPc ≤ pc ∧ pc < f.highPc then narrow table f size else none := by
  have hmatch (c : CallSite) (hc : c ∈ callSites orders table ambiguous f) :
      (c.allocSize == size && pc ≥ c.lowPc && pc < c.highPc) = true ↔
        c.allocSize = size ∧ f.lowPc ≤ pc ∧ pc < f.highPc := by
    obtain ⟨hlow, hhigh, -, -⟩ := mem_callSites.mp hc
    rw [Bool.and_eq_true, Bool.and_eq_true, beq_iff_eq, decide_eq_true_eq, decide_eq_true_eq,
      hlow, hhigh, and_assoc]
  cases hfind : (callSites orders table ambiguous f).find? fun c =>
      c.allocSize == size && pc ≥ c.lowPc && pc < c.highPc with
  | some c =>
      have hmem := List.mem_of_find?_eq_some hfind
      have hok := List.find?_some hfind
      obtain ⟨hsize, hin⟩ := (hmatch c hmem).mp hok
      obtain ⟨-, -, -, hnarrow⟩ := mem_callSites.mp hmem
      rw [if_pos hin, ← hsize, hnarrow]
      rfl
  | none =>
      split
      · rename_i hin
        cases hnarrow : narrow table f size with
        | none => rfl
        | some ti =>
            have hmem : ⟨f.lowPc, f.highPc, size, ti⟩ ∈ callSites orders table ambiguous f :=
              mem_callSites.mpr ⟨rfl, rfl, hsome, hnarrow⟩
            exact absurd ((hmatch _ hmem).mpr ⟨rfl, hin⟩) (List.find?_eq_none.mp hfind _ hmem)
      · rfl

/-- What the oracle comes to, without any order of a hash map. -/
def siteAnswer (table : TypeTable) (functions : FunctionMap) (size : UInt64)
    (callerPcs : List UInt64) : Option TypeInfo :=
  match table.ofSize size with
  | [] => none
  | [ti] => some ti
  | _ =>
      callerPcs.findSome? fun pc => functions.values.findSome? fun f =>
        if f.lowPc ≤ pc ∧ pc < f.highPc then narrow table f size else none

theorem resolve_build (callerPcs : List UInt64) :
    (AllocSiteOracle.build orders table functions).resolve size callerPcs =
      siteAnswer table functions size callerPcs := by
  have hunique (ti : TypeInfo) :
      (AllocSiteOracle.build orders table functions).unique size = some ti ↔
        table.ofSize size = [ti] := unique_build ti
  have hambiguous : ((AllocSiteOracle.build orders table functions).ambiguous size).isSome = true ↔
      2 ≤ (table.ofSize size).length := ambiguous_build
  unfold AllocSiteOracle.resolve siteAnswer
  cases hti : (AllocSiteOracle.build orders table functions).unique size with
  | some ti =>
      rw [(hunique ti).mp hti]
  | none =>
      dsimp only
      have hnot (ti : TypeInfo) : table.ofSize size ≠ [ti] := fun h => by
        rw [(hunique ti).mpr h] at hti
        cases hti
      by_cases hmany : 2 ≤ (table.ofSize size).length
      · have hsome := hambiguous.mpr hmany
        rw [if_neg (by rw [Option.isNone_iff_eq_none]; exact Option.isSome_iff_ne_none.mp hsome)]
        have hpc (pc : UInt64) :
            ((AllocSiteOracle.build orders table functions).callsite.find? fun c =>
              c.allocSize == size && pc ≥ c.lowPc && pc < c.highPc).map CallSite.typeInfo =
            functions.values.findSome? fun f =>
              if f.lowPc ≤ pc ∧ pc < f.highPc then narrow table f size else none := by
          have hsites : (AllocSiteOracle.build orders table functions).callsite =
              functions.values.flatMap (callSites orders table
                (AllocSiteOracle.build orders table functions).ambiguous) := rfl
          rw [hsites, List.find?_flatMap, List.map_findSome?]
          congr 1
          funext f
          exact find?_callSites hsome f pc
        simp only [hpc]
        split
        · rename_i hempty
          rw [hempty] at hmany
          exact absurd hmany (by decide)
        · rename_i ti hone
          exact absurd hone (hnot ti)
        · rfl
      · have hnone : (AllocSiteOracle.build orders table functions).ambiguous size = none := by
          rw [← Option.not_isSome_iff_eq_none, hambiguous]
          exact hmany
        rw [if_pos (by rw [hnone]; rfl)]
        split
        · rfl
        · rename_i ti hone
          exact absurd hone (hnot ti)
        · rename_i hempty hone
          exact absurd (two_le_length hempty hone) hmany

/-- Whatever orders the hash maps have, the oracle gives the same answer, `siteAnswer`. A type
that it returns has the allocation's size and is the only eligible one, or else the one that the
pointer locals of a function around a caller come down to, for the first caller around which
there is such a function. Types of one name count as one; they are where each is under its own
name. -/
theorem resolve_exact (table : TypeTable) (functions : FunctionMap) (size : UInt64)
    (callerPcs : List UInt64) :
    (∀ orders orders', (AllocSiteOracle.build orders table functions).resolve size callerPcs =
      (AllocSiteOracle.build orders' table functions).resolve size callerPcs) ∧
    (∀ orders, (AllocSiteOracle.build orders table functions).resolve size callerPcs =
      siteAnswer table functions size callerPcs) ∧
    ∀ orders ti, (AllocSiteOracle.build orders table functions).resolve size callerPcs = some ti →
      ti.byteSize = size ∧
        (table.ofSize size = [ti] ∨
          2 ≤ (table.ofSize size).length ∧
          ∃ before pc after, callerPcs = before ++ pc :: after ∧
            (∃ f ∈ functions.values, (f.lowPc ≤ pc ∧ pc < f.highPc) ∧ Narrows table f size ti ∧
              ((∀ e ∈ table.entries, e.2.name = e.1) → ∀ l ∈ f.locals, ∀ t,
                l.pointee table = some t → t.byteSize = size → t = ti)) ∧
            ∀ q ∈ before, ∀ f ∈ functions.values, f.lowPc ≤ q → q < f.highPc →
              ∀ t, ¬Narrows table f size t) := by
  refine ⟨fun orders orders' => ?_, fun orders => resolve_build callerPcs,
    fun orders ti h => ?_⟩
  · rw [resolve_build, resolve_build]
  · rw [resolve_build, siteAnswer] at h
    split at h
    · cases h
    · rename_i t hone
      obtain rfl := Option.some.inj h
      have hmem : t ∈ table.ofSize size := by
        rw [hone]
        exact List.mem_cons_self
      have hok := (List.mem_filter.mp hmem).2
      rw [Bool.and_eq_true, beq_iff_eq] at hok
      exact ⟨hok.2, .inl hone⟩
    · rename_i hempty hone
      obtain ⟨before, pc, after, hsplit, hpc, hbefore⟩ := List.findSome?_eq_some_iff.mp h
      obtain ⟨f, hf, hnarrow⟩ := List.exists_of_findSome?_eq_some hpc
      split at hnarrow
      · rename_i hin
        have hnarrows := narrows_of_narrow hnarrow
        refine ⟨hnarrows.sized, .inr ⟨?_, before, pc, after, hsplit, ⟨f, hf, hin, hnarrows,
          fun hkeyed l hl t ht hsize => hnarrows.eq_of_keyed hkeyed hl ht hsize⟩, ?_⟩⟩
        · exact two_le_length hempty hone
        · intro q hq g hg hlow hhigh t ht
          have hnone := List.findSome?_eq_none_iff.mp (hbefore q hq) g hg
          rw [if_pos ⟨hlow, hhigh⟩] at hnone
          have hsome := narrow_isSome ht
          rw [hnone] at hsome
          cases hsome
      · cases hnarrow

end Build

namespace TwoOfASize

/-- Every hash map is walked as it was filled. -/
def orders : AllocOrders where
  values l := l
  values_perm := .refl
  bySize l := l
  bySize_perm := .refl
  localTypes _ l := l
  localTypes_perm _ := .refl

/-- A struct of one field, which fills it. -/
def struct (name : String) (size : UInt64) : TypeInfo where
  name := name
  byteSize := size
  fields := [{
    name := "next"
    byteOffset := 0
    byteSize := size
    typeInfo := { name := "*void", byteSize := 8, isPointer := true } }]

/-- Two types of 16 bytes and one of 24. -/
def table : TypeTable where
  entries := [("node", struct "node" 16), ("edge", struct "edge" 16), ("head", struct "head" 24)]
  nodup := by decide

def edgeLocal : LocalVar where
  frameOffset := -8
  name := "out"
  size := 8
  typeInfo := { name := "**edge", byteSize := 8, isPointer := true }

/-- An allocator's wrapper without typed locals, and a function with an edge. -/
def functions : FunctionMap :=
  (FunctionMap.empty.add { name := "zmalloc", lowPc := 0x400, highPc := 0x480 }).add
    { name := "connect", lowPc := 0x1000, highPc := 0x1100, locals := [edgeLocal] }

/-- The size of one type decides for it, the second caller for one of two; a caller outside
both functions for none. -/
theorem edge_resolved :
    (AllocSiteOracle.build orders table functions).resolve 24 [] = some (struct "head" 24) ∧
      (AllocSiteOracle.build orders table functions).resolve 16 [0x410, 0x1010] =
        some (struct "edge" 16) ∧
      (AllocSiteOracle.build orders table functions).resolve 16 [0x2000] = none :=
  ⟨(resolve_exact table functions 24 []).2.1 orders,
    (resolve_exact table functions 16 [0x410, 0x1010]).2.1 orders,
    (resolve_exact table functions 16 [0x2000]).2.1 orders⟩

end TwoOfASize

end Rtmap.Engine
