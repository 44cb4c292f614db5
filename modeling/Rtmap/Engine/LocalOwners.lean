import Rtmap.Engine.FunctionRanges
import Rtmap.Lib.Scopes

/-!
# The owners of locals

`extract_locals` remembers one function while it walks a unit. `attributed_iff` says of which
locals that is the function they belong to.
-/
namespace Rtmap.Engine

/-- An entry of a function that starts somewhere. -/
def Entry.isFunction (e : Entry) : Bool :=
  (e.die.tag = .subprogram || e.die.tag = .inlinedSubroutine) && e.die.startPc.isSome

def Entry.isLocal (e : Entry) : Bool := e.die.tag = .variable || e.die.tag = .formalParameter

/-- A local that is extracted of an entry, with the entry's depth and the entries before it,
the closest first. -/
structure FoundLocal where
  before : List Entry
  depth : ℕ
  var : LocalVar

namespace FoundLocal

/-- The nearest function around it that starts somewhere, with its place. -/
def owner (x : FoundLocal) : Option (ℕ × Entry) :=
  Scopes.owner Entry.depth Entry.isFunction x.depth x.before

/-- The last function before it that starts somewhere. -/
def lastFunction (x : FoundLocal) : Option (ℕ × Entry) :=
  Scopes.lastOpen Entry.isFunction x.before

/-- The function at the place owns it. -/
def ownedBy (place : ℕ) (x : FoundLocal) : Bool := x.owner.any fun o => o.1 = place

/-- The walk is in a function that starts there. -/
def walkedAt (pc : UInt64) (x : FoundLocal) : Bool :=
  (Scopes.walked Entry.depth Entry.isFunction x.depth x.before).any fun p =>
    p.2.die.startPc = some pc

end FoundLocal

/-- The local of an entry, `before` being the entries before it. -/
def foundLocal (unit : DieUnit) (before : List Entry) (e : Entry) : Option FoundLocal :=
  (if e.isLocal then extractLocal unit e.die else none).map fun l => ⟨before, e.depth, l⟩

/-- The locals of the entries. -/
def foundLocals (unit : DieUnit) : List Entry → List Entry → List FoundLocal
  | _, [] => []
  | before, e :: rest =>
      (foundLocal unit before e).toList ++ foundLocals unit (e :: before) rest

/-- The locals that the function at the place owns, in order. -/
def ownLocals (unit : DieUnit) (entries : List Entry) (place : ℕ) : List LocalVar :=
  ((foundLocals unit [] entries).filter (FoundLocal.ownedBy place)).map FoundLocal.var

/-- Every local is attached to the function that owns it, and to nothing else. -/
structure Attributed (unit : DieUnit) (entries : List Entry) (functions : FunctionMap) : Prop where
  owned (x : FoundLocal) (hx : x ∈ foundLocals unit [] entries) (o : ℕ × Entry)
    (ho : x.owner = some o) :
    ∃ f, tryExtract unit o.2.die = some f ∧
      (extractLocals unit entries (extractFunctions unit entries functions)).get? f.lowPc =
        some { f with locals := ownLocals unit entries o.1 }
  apart (x y : FoundLocal) (hx : x ∈ foundLocals unit [] entries)
    (hy : y ∈ foundLocals unit [] entries) (o p : ℕ × Entry) (ho : x.owner = some o)
    (hp : y.owner = some p) (hsame : o.2.die.startPc = p.2.die.startPc) : o.1 = p.1
  others (pc : UInt64) (hpc : ∀ x ∈ foundLocals unit [] entries, ∀ o, x.owner = some o →
      o.2.die.startPc ≠ some pc) :
    (extractLocals unit entries (extractFunctions unit entries functions)).get? pc =
      (extractFunctions unit entries functions).get? pc

/-- Between a local and the function that owns it no other function starts; the function is
what is filed last at its start, and the only one there that owns locals. -/
structure LocalsReached (unit : DieUnit) (entries : List Entry) : Prop where
  last (x : FoundLocal) (hx : x ∈ foundLocals unit [] entries) (o : ℕ × Entry)
    (ho : x.owner = some o) : x.lastFunction = some o
  filed (x : FoundLocal) (hx : x ∈ foundLocals unit [] entries) (o : ℕ × Entry)
    (ho : x.owner = some o) :
    ∃ f, tryExtract unit o.2.die = some f ∧
      ∀ t, FiledLast (filedOf unit entries) t → t.2.lowPc = f.lowPc → t.2 = f
  apart (x y : FoundLocal) (hx : x ∈ foundLocals unit [] entries)
    (hy : y ∈ foundLocals unit [] entries) (o p : ℕ × Entry) (ho : x.owner = some o)
    (hp : y.owner = some p) (hsame : o.2.die.startPc = p.2.die.startPc) : o.1 = p.1

/-- A function with more locals. -/
def FunctionMeta.addLocals (ls : List LocalVar) (f : FunctionMeta) : FunctionMeta :=
  { f with locals := f.locals ++ ls }

@[simp] theorem FunctionMeta.addLocals_nil : FunctionMeta.addLocals [] = id := by
  funext f
  exact congrArg (fun ls => { f with locals := ls }) (List.append_nil f.locals)

theorem FunctionMeta.addLocals_comp (ls ls' : List LocalVar) :
    FunctionMeta.addLocals ls' ∘ FunctionMeta.addLocals ls =
      FunctionMeta.addLocals (ls ++ ls') := by
  funext f
  exact congrArg (fun ls => { f with locals := ls }) (List.append_assoc f.locals ls ls')

theorem FunctionMap.get?_pushLocal (m : FunctionMap) (pc k : UInt64) (l : LocalVar) :
    (m.pushLocal pc l).get? k =
      (m.get? k).map (FunctionMeta.addLocals (if pc = k then [l] else [])) := by
  unfold pushLocal
  by_cases hk : pc = k
  · subst hk
    rw [if_pos rfl]
    cases hf : m.get? pc with
    | none => exact hf
    | some f =>
        have hkey : f.lowPc = pc := m.keyed pc f hf
        dsimp only
        rw [get?_add, if_pos hkey.symm]
        rfl
  · rw [if_neg hk, FunctionMeta.addLocals_nil, Option.map_id_fun, id]
    cases hf : m.get? pc with
    | none => rfl
    | some f =>
        have hkey : f.lowPc = pc := m.keyed pc f hf
        dsimp only
        rw [get?_add, if_neg fun h => hk (h.trans hkey).symm]

/-- The walk remembers the function that it is in after the entries. -/
def LocalsWalk.At (w : LocalsWalk) (before : List Entry) : Prop :=
  ∀ d, (w.current.filter fun c => c.2 < d) =
    (Scopes.walked Entry.depth Entry.isFunction d before).bind fun p =>
      p.2.die.startPc.map fun pc => (pc, p.2.depth)

namespace LocalsWalk
variable {unit : DieUnit} {w : LocalsWalk} {before : List Entry} {e : Entry}

theorem step_current (unit : DieUnit) (w : LocalsWalk) (e : Entry) :
    (w.step unit e).current =
      if e.isFunction then e.die.startPc.map fun pc => (pc, e.depth)
      else w.current.filter fun c => c.2 < e.depth := by
  unfold step Entry.isFunction
  cases e.die.tag <;> dsimp only <;> first | (cases e.die.startPc <;> rfl) | (split <;> rfl)

theorem At.step (h : w.At before) : (w.step unit e).At (e :: before) := by
  intro d
  rw [step_current, Scopes.walked]
  by_cases hf : e.isFunction = true
  · rw [if_pos hf, if_pos hf]
    cases hpc : e.die.startPc with
    | none => split <;> simp [hpc]
    | some pc =>
        split
        · rename_i hd
          simp [hpc, hd]
        · rename_i hd
          simpa using hd
  · rw [if_neg hf, if_neg hf, Option.filter_filter, ← h (min d e.depth)]
    congr 1
    funext c
    rw [← Bool.decide_and]
    exact decide_eq_decide.mpr (and_comm.trans lt_min_iff.symm)

theorem step_push (unit : DieUnit) (w : LocalsWalk) (e : Entry) :
    (w.step unit e).functions =
      (((w.current.filter fun c => c.2 < e.depth).bind fun c =>
        (if e.isLocal then extractLocal unit e.die else none).map fun l =>
          w.functions.pushLocal c.1 l).getD w.functions) := by
  unfold step Entry.isLocal
  cases w.current.filter fun c => c.2 < e.depth with
  | none =>
      cases e.die.tag <;> dsimp only <;> first | rfl | (cases e.die.startPc <;> rfl)
  | some c =>
      cases e.die.tag <;> dsimp only <;>
        first | rfl | (cases extractLocal unit e.die <;> rfl) | (cases e.die.startPc <;> rfl)

/-- One entry: its local goes to the function that the walk is in. -/
theorem step_functions (h : w.At before) (pc : UInt64) :
    (w.step unit e).functions.get? pc =
      (w.functions.get? pc).map (FunctionMeta.addLocals
        (((foundLocal unit before e).toList.filter (FoundLocal.walkedAt pc)).map
          FoundLocal.var)) := by
  have hnone : (w.functions.get? pc).map (FunctionMeta.addLocals []) = w.functions.get? pc := by
    rw [FunctionMeta.addLocals_nil, Option.map_id_fun, id]
  rw [step_push, foundLocal]
  cases if e.isLocal then extractLocal unit e.die else none with
  | none =>
      cases w.current.filter fun c => c.2 < e.depth with
      | none => exact hnone.symm
      | some c => exact hnone.symm
  | some l =>
      have hwalked : FoundLocal.walkedAt pc ⟨before, e.depth, l⟩ =
          (w.current.filter fun c => c.2 < e.depth).any fun c => c.1 = pc := by
        rw [FoundLocal.walkedAt, h e.depth]
        cases Scopes.walked Entry.depth Entry.isFunction e.depth before with
        | none => rfl
        | some p => cases hpc : p.2.die.startPc <;> simp [hpc]
      simp only [Option.map_some, Option.toList_some, List.filter_cons, hwalked, List.filter_nil]
      cases w.current.filter fun c => c.2 < e.depth with
      | none => exact hnone.symm
      | some c =>
          dsimp only [Option.bind_some, Option.getD_some, Option.any_some]
          rw [FunctionMap.get?_pushLocal]
          by_cases hc : c.1 = pc
          · rw [if_pos hc, if_pos (decide_eq_true hc)]
            rfl
          · rw [if_neg hc, if_neg (by simpa using hc)]
            rfl

/-- The walk adds to each function the locals that it meets in it. -/
theorem functions_foldl (unit : DieUnit) (entries : List Entry) (h : w.At before)
    (pc : UInt64) :
    (entries.foldl (LocalsWalk.step unit) w).functions.get? pc =
      (w.functions.get? pc).map (FunctionMeta.addLocals
        (((foundLocals unit before entries).filter (FoundLocal.walkedAt pc)).map
          FoundLocal.var)) := by
  induction entries generalizing w before with
  | nil => exact (by rw [foundLocals, List.filter_nil, List.map_nil, FunctionMeta.addLocals_nil,
      Option.map_id_fun, id, List.foldl_nil])
  | cons e entries ih =>
      rw [List.foldl_cons, ih h.step, step_functions h, Option.map_map,
        FunctionMeta.addLocals_comp, foundLocals, List.filter_append, List.map_append]

end LocalsWalk

/-- The locals that the walk attaches to what is filed at the start. -/
theorem get?_extractLocals (unit : DieUnit) (entries : List Entry) (m : FunctionMap)
    (pc : UInt64) :
    (extractLocals unit entries m).get? pc =
      (m.get? pc).map (FunctionMeta.addLocals
        (((foundLocals unit [] entries).filter (FoundLocal.walkedAt pc)).map
          FoundLocal.var)) :=
  LocalsWalk.functions_foldl unit entries (fun _ => rfl) pc

/-- The entries before a local are entries of the unit. -/
theorem before_of_mem_foundLocals {unit : DieUnit} {before entries : List Entry}
    {x : FoundLocal} (hx : x ∈ foundLocals unit before entries) :
    x.before.reverse <+: before.reverse ++ entries := by
  induction entries generalizing before with
  | nil => cases hx
  | cons e entries ih =>
      rw [foundLocals, List.mem_append] at hx
      rcases hx with hx | hx
      · obtain ⟨l, -, hl⟩ := Option.map_eq_some_iff.mp (Option.mem_toList.mp hx)
        rw [← hl]
        exact List.prefix_append _ _
      · have hrest := ih hx
        rw [List.reverse_cons, List.append_assoc, List.singleton_append] at hrest
        exact hrest

/-- A tighter test that keeps as many of a list keeps the same. -/
theorem filter_of_length {α : Type*} {p q : α → Bool} {l : List α}
    (hle : ∀ a ∈ l, p a = true → q a = true)
    (hlength : (l.filter p).length = (l.filter q).length) : l.filter p = l.filter q := by
  have hsub : (l.filter p).Sublist (l.filter q) := by
    have htwice : (l.filter q).filter p = l.filter p := by
      rw [List.filter_filter]
      apply List.filter_congr
      intro a ha
      cases hp : p a with
      | false => rfl
      | true => exact hle a ha hp
    rw [← htwice]
    exact List.filter_sublist
  exact hsub.eq_of_length hlength

section Attribution
variable {unit : DieUnit} {entries : List Entry} {functions : FunctionMap}

/-- The owner of a local is an entry of the unit. -/
theorem getElem?_of_owner {x : FoundLocal} (hx : x ∈ foundLocals unit [] entries)
    {o : ℕ × Entry} (ho : x.owner = some o) : entries[o.1]? = some o.2 := by
  have hget := Scopes.getElem?_owner ho
  obtain ⟨after, hafter⟩ := before_of_mem_foundLocals hx
  rw [List.reverse_nil, List.nil_append] at hafter
  rw [← hafter, List.getElem?_append_left (List.getElem?_eq_some_iff.mp hget).choose]
  exact hget

/-- The walk is in a function that starts there: in the owner, and nothing else started since. -/
theorem walkedAt_iff {x : FoundLocal} {pc : UInt64} :
    x.walkedAt pc = true ↔
      ∃ o, x.owner = some o ∧ x.lastFunction = some o ∧ o.2.die.startPc = some pc := by
  rw [FoundLocal.walkedAt, Option.any_eq_true]
  constructor
  · rintro ⟨o, ho, hpc⟩
    obtain ⟨howner, hlast⟩ := Scopes.walked_eq_some.mp ho
    exact ⟨o, howner, hlast, of_decide_eq_true hpc⟩
  · rintro ⟨o, howner, hlast, hpc⟩
    exact ⟨o, Scopes.walked_eq_some.mpr ⟨howner, hlast⟩, decide_eq_true hpc⟩

theorem ownedBy_iff {x : FoundLocal} {place : ℕ} :
    x.ownedBy place = true ↔ ∃ o, x.owner = some o ∧ o.1 = place := by
  simp [FoundLocal.ownedBy, Option.any_eq_true]

/-- What is extracted of the owner of a local is filed. -/
theorem exists_filedLast_of_owner {x : FoundLocal} (hx : x ∈ foundLocals unit [] entries)
    {o : ℕ × Entry} (ho : x.owner = some o) {f : FunctionMeta}
    (hf : tryExtract unit o.2.die = some f) :
    ∃ t, FiledLast (filedOf unit entries) t ∧ t.2.lowPc = f.lowPc := by
  have hentry := List.mem_of_getElem? (getElem?_of_owner hx ho)
  have hfiled : (o.2.die.tag, f) ∈ filedOf unit entries :=
    List.mem_filterMap.mpr ⟨o.2, hentry, by rw [hf]; rfl⟩
  exact exists_filedLast hfiled

/-- What is filed last where the owner of a local starts; it has no locals yet. -/
theorem get?_extractFunctions_of_owner {x : FoundLocal} (hx : x ∈ foundLocals unit [] entries)
    {o : ℕ × Entry} (ho : x.owner = some o) {f : FunctionMeta}
    (hf : tryExtract unit o.2.die = some f)
    (hfiled : ∀ t, FiledLast (filedOf unit entries) t → t.2.lowPc = f.lowPc → t.2 = f) :
    (extractFunctions unit entries functions).get? f.lowPc = some f := by
  obtain ⟨t, ht, hpc⟩ := exists_filedLast_of_owner hx ho hf
  rw [← hfiled t ht hpc]
  exact get?_extractFunctions ht functions

theorem addLocals_of_tryExtract {d : Die} {f : FunctionMeta} (hf : tryExtract unit d = some f)
    (ls : List LocalVar) : f.addLocals ls = { f with locals := ls } := by
  have hempty : f.locals = [] := by
    rw [← bare_of_tryExtract hf]
    rfl
  rw [FunctionMeta.addLocals, hempty, List.nil_append]

/-- Extracting locals changes nothing else of what is filed. -/
theorem eq_of_filedLast {d : Die} {f : FunctionMeta} (hf : tryExtract unit d = some f)
    {ls : List LocalVar}
    (hget : (extractLocals unit entries (extractFunctions unit entries functions)).get? f.lowPc =
      some { f with locals := ls })
    {t : Tag × FunctionMeta} (ht : FiledLast (filedOf unit entries) t)
    (hpc : t.2.lowPc = f.lowPc) : t.2 = f := by
  have hkept := extractLocals_bare unit entries (extractFunctions unit entries functions) f.lowPc
  have hheld : (extractFunctions unit entries functions).get? f.lowPc = some t.2 :=
    hpc ▸ get?_extractFunctions ht functions
  rw [hget, hheld] at hkept
  have hbare : f.bare = t.2.bare := Option.some.inj hkept
  rw [bare_of_mem_filedOf ht.mem, bare_of_tryExtract hf] at hbare
  exact hbare.symm

/-- A local that the walk files with the owner's function is one of the owner's. -/
theorem ownedBy_of_walkedAt {y : FoundLocal} {o : ℕ × Entry} {f : FunctionMeta}
    (hf : tryExtract unit o.2.die = some f)
    (hapart : ∀ p : ℕ × Entry, y.owner = some p → o.2.die.startPc = p.2.die.startPc → o.1 = p.1)
    (hwalked : y.walkedAt f.lowPc = true) : y.ownedBy o.1 = true := by
  obtain ⟨p, hp, -, hstart⟩ := walkedAt_iff.mp hwalked
  refine ownedBy_iff.mpr ⟨p, hp, (hapart p hp ?_).symm⟩
  rw [startPc_of_tryExtract hf, hstart]

theorem localsReached_of_attributed (h : Attributed unit entries functions) :
    LocalsReached unit entries := by
  refine ⟨fun x hx o ho => ?_, fun x hx o ho => ?_, h.apart⟩
  · obtain ⟨f, hf, hget⟩ := h.owned x hx o ho
    have hheld : (extractFunctions unit entries functions).get? f.lowPc = some f :=
      get?_extractFunctions_of_owner hx ho hf fun t ht hpc => eq_of_filedLast hf hget ht hpc
    rw [get?_extractLocals, hheld, Option.map_some, addLocals_of_tryExtract hf] at hget
    have hlocals := congrArg FunctionMeta.locals (Option.some.inj hget)
    have hlength : (((foundLocals unit [] entries).filter (FoundLocal.walkedAt f.lowPc)).map
        FoundLocal.var).length = _ := congrArg List.length hlocals
    rw [ownLocals, List.length_map, List.length_map] at hlength
    have heq := filter_of_length (fun y hy hwalked =>
      ownedBy_of_walkedAt hf (fun p hp => h.apart x y hx hy o p ho hp) hwalked) hlength
    -- the local is one of the owner's, so the walk filed it there
    have hin : x ∈ (foundLocals unit [] entries).filter (FoundLocal.ownedBy o.1) :=
      List.mem_filter.mpr ⟨hx, ownedBy_iff.mpr ⟨o, ho, rfl⟩⟩
    rw [← heq] at hin
    obtain ⟨p, hp, hlast, -⟩ := walkedAt_iff.mp (List.mem_filter.mp hin).2
    rw [hlast, ← hp, ho]
  · obtain ⟨f, hf, hget⟩ := h.owned x hx o ho
    exact ⟨f, hf, fun t ht hpc => eq_of_filedLast hf hget ht hpc⟩

theorem attributed_of_localsReached (h : LocalsReached unit entries) :
    Attributed unit entries functions := by
  refine ⟨fun x hx o ho => ?_, h.apart, fun pc hpc => ?_⟩
  · obtain ⟨f, hf, hfiled⟩ := h.filed x hx o ho
    refine ⟨f, hf, ?_⟩
    have hwalked : (foundLocals unit [] entries).filter (FoundLocal.walkedAt f.lowPc) =
        (foundLocals unit [] entries).filter (FoundLocal.ownedBy o.1) := by
      refine List.filter_congr fun y hy => Bool.eq_iff_iff.mpr ⟨fun hwalked => ?_, fun howned => ?_⟩
      · exact ownedBy_of_walkedAt hf (fun p hp => h.apart x y hx hy o p ho hp) hwalked
      · obtain ⟨p, hp, hplace⟩ := ownedBy_iff.mp howned
        have hentry : p.2 = o.2 := Option.some.inj
          ((getElem?_of_owner hy hp).symm.trans (hplace ▸ getElem?_of_owner hx ho))
        exact walkedAt_iff.mpr ⟨p, hp, h.last y hy p hp, hentry ▸ startPc_of_tryExtract hf⟩
    rw [get?_extractLocals, get?_extractFunctions_of_owner hx ho hf hfiled, hwalked,
      Option.map_some, addLocals_of_tryExtract hf]
    rfl
  · have hnone : (foundLocals unit [] entries).filter (FoundLocal.walkedAt pc) = [] := by
      refine List.filter_eq_nil_iff.mpr fun y hy hwalked => ?_
      obtain ⟨p, hp, -, hstart⟩ := walkedAt_iff.mp hwalked
      exact hpc y hy p hp hstart
    rw [get?_extractLocals, hnone, List.map_nil, FunctionMeta.addLocals_nil,
      Option.map_id_fun, id]

/-- Every local is attached to the nearest function around it that starts somewhere, and to
nothing else, exactly if that function is the last one before it and is what is filed at its
start. -/
theorem attributed_iff (unit : DieUnit) (entries : List Entry) (functions : FunctionMap) :
    Attributed unit entries functions ↔ LocalsReached unit entries :=
  ⟨localsReached_of_attributed, attributed_of_localsReached⟩

end Attribution

namespace NestedRange

/-- A variable at a fixed distance from the frame base. -/
def x : Die := .ofList .variable
  [(.name, .string "x"), (.location, .exprloc ⟨[⟨0, -1, .frameBaseOffset (-8)⟩]⟩ false)]

/-- The function declares it after the inlined call. -/
def entries : List Entry := [⟨1, main⟩, ⟨2, inlined⟩, ⟨2, x⟩]

def found : FoundLocal where
  before := [⟨2, inlined⟩, ⟨1, main⟩]
  depth := 2
  var := ⟨-8, "x", 0, .unknown, ⟨[⟨0, -1, .frameBaseOffset (-8)⟩]⟩⟩

/-- The variable belongs to the function, which gets no locals. -/
theorem not_attributed :
    ¬∀ unit entries functions, Attributed unit entries functions := by
  intro h
  have hmem : found ∈ foundLocals unit [] entries := List.mem_singleton.mpr rfl
  have howner : found.owner = some (0, ⟨1, main⟩) := rfl
  obtain ⟨f, hf, hget⟩ := (h unit entries FunctionMap.empty).owned found hmem _ howner
  have hmain : some ⟨"main", 0x1000, 0x1100, false, []⟩ = some f := hf
  obtain rfl := Option.some.inj hmain
  have hlength := congrArg (Option.map fun f => f.locals.length) hget
  have hnone : ((extractLocals unit entries (extractFunctions unit entries FunctionMap.empty)).get?
      0x1000).map (fun f => f.locals.length) = some 0 := rfl
  rw [hnone] at hlength
  have hone : (ownLocals unit entries 0).length = 1 := rfl
  have habsurd : 0 = (ownLocals unit entries 0).length := Option.some.inj hlength
  rw [hone] at habsurd
  exact absurd habsurd Nat.zero_ne_one

end NestedRange

end Rtmap.Engine
