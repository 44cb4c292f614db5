import Rtmap.Engine.DeepResolution
import Rtmap.Lib.DepthFirst

/-!
# The closure of the type graph

`ensure_type` goes on from a type to what its pointer fields point to, as far as the registry
does not hold these names, and at most seven types deep. `closed_iff` says when every type
that can be reached through pointer fields is there in the end.
-/
namespace Rtmap.Engine

/-- What `resolve_deep` finds for a name that has this entry. It is never shallow. -/
structure DeepResolver where
  find : Option TypeInfo → String → Option TypeInfo
  deep (entry : Option TypeInfo) (n : String) (ti : TypeInfo) (h : find entry n = some ti) :
    ti.shallow = false

/-- The resolver as `ensure_type` calls it. -/
def DeepResolver.ask (R : DeepResolver) (r : Registry) (n : String) : Option TypeInfo :=
  R.find (r n) n

theorem scanDeep_deep {typeName : String} {existing ti : TypeInfo} {best : Option TypeInfo}
    {ds : List Definition} (hbest : ∀ b ∈ best, b.shallow = false)
    (h : scanDeep typeName existing best ds = some ti) : ti.shallow = false := by
  induction ds generalizing best with
  | nil => exact hbest ti h
  | cons d ds ih =>
      by_cases hd : d.Usable typeName (best.getD existing).fields.length
      · rw [scanDeep_of_usable hd] at h
        split at h
        · obtain rfl := Option.some.inj h
          rfl
        · refine ih (fun b hb => ?_) h
          obtain rfl := Option.some.inj hb
          rfl
      · rw [scanDeep_of_not hd] at h
        exact ih hbest h

/-- The resolver of a file that can be read. -/
def DeepFile.resolver (file : DeepFile) : DeepResolver where
  find entry n := file.find n (entry.getD { name := n, byteSize := 0, shallow := true })
  deep entry n ti h := by
    rw [DeepFile.find] at h
    cases haccel : file.findAccel n (entry.getD { name := n, byteSize := 0, shallow := true }) with
    | some ti' =>
        rw [haccel] at h
        obtain ⟨a, -, ha⟩ := findAccel_eq_some.mp haccel
        obtain rfl := Option.some.inj h
        rw [ha]
        rfl
    | none =>
        rw [haccel] at h
        exact scanDeep_deep (fun b hb => by cases hb) h

/-- The names at the end of the pointer fields. -/
def pointees (ti : TypeInfo) : List String :=
  ((ti.fields.filter fun f => f.typeInfo.isPointer).map fun f =>
    stripPointers f.typeInfo.name).filter fun n => !(n.isEmpty || n == "void")

namespace Registry
variable (R : DeepResolver) (r : Registry)

/-- A pointer field of the one type's entry points to the other. -/
def PointsTo (a b : String) : Prop := ∃ ti, r a = some ti ∧ b ∈ pointees ti

/-- Whatever can be reached from the type is there, unless it cannot be resolved. -/
def Closed (typeName : String) : Prop :=
  ∀ n, Relation.ReflTransGen r.PointsTo typeName n → (R.ask r n).isSome → r.Deep n

/-- The entry of a name once it was asked for. -/
def settled (n : String) : Option TypeInfo :=
  match r n with
  | some ti => if ti.shallow then R.find (some ti) n else some ti
  | none => R.find none n

/-- The name is not registered, but can be resolved. -/
def fresh (n : String) : Bool := (r n).isNone && (R.find none n).isSome

def freshTargets (n : String) : List String :=
  ((r.settled R n).map fun ti => (pointees ti).filter (r.fresh R)).getD []

/-- The registry once these names were asked for. -/
def withSettled (v : Finset String) : Registry := fun n => if n ∈ v then r.settled R n else r n

/-- The registry with all that it can be given: the type has its entry, and so has each name
that was not registered. -/
def filled (typeName : String) : Registry := fun n =>
  if n = typeName then r.settled R n else (r n).orElse fun _ => R.find none n

/-- A name is reached from the type through names that are not registered. -/
def FreshlyReaches (typeName n : String) : Prop :=
  Relation.ReflTransGen (fun a b => b ∈ r.freshTargets R a) typeName n

/-- The search of seven types in depth is not cut short, no other entry on the way is shallow
unless it stays so, and what such an entry points to is reached without it. -/
structure Fillable (typeName : String) : Prop where
  searched (n : String) (h : r.FreshlyReaches R typeName n) :
    n ∈ DepthFirst.search (r.freshTargets R) 7 typeName ∅
  registered (p : String) (ti : TypeInfo)
    (h : Relation.ReflTransGen (r.filled R typeName).PointsTo typeName p) (hp : p ≠ typeName)
    (hentry : r p = some ti) (hshallow : ti.shallow) : R.find (some ti) p = none
  behind (p : String) (ti : TypeInfo) (b : String)
    (h : Relation.ReflTransGen (r.filled R typeName).PointsTo typeName p) (hp : p ≠ typeName)
    (hentry : r p = some ti) (hb : b ∈ pointees ti) (hfresh : r.fresh R b) :
    r.FreshlyReaches R typeName b

variable {R r} {n t : String} {ti : TypeInfo} {v : Finset String}

theorem pointerTargets_eq (r : Registry) (ti : TypeInfo) :
    DwarfInfo.pointerTargets r ti = (pointees ti).filter fun n => (r n).isNone := by
  unfold DwarfInfo.pointerTargets pointees
  induction ti.fields.filter fun f => f.typeInfo.isPointer with
  | nil => rfl
  | cons f fs ih =>
      rw [List.filterMap_cons, ih, List.map_cons, List.filter_cons]
      dsimp only
      set name := stripPointers f.typeInfo.name
      cases hname : name.isEmpty || name == "void" with
      | true => rfl
      | false =>
          rw [Bool.false_or, Bool.not_false, if_pos rfl, List.filter_cons]
          cases r name <;> rfl

theorem fresh_iff : r.fresh R n ↔ r n = none ∧ (R.find none n).isSome := by
  rw [fresh, Bool.and_eq_true, Option.isNone_iff_eq_none]

theorem isSome_settled_of_fresh (h : r.fresh R n) : (r.settled R n).isSome := by
  obtain ⟨hnone, hsome⟩ := fresh_iff.mp h
  rwa [settled, hnone]

theorem settled_deep (h : r.settled R n = some ti) : ti.shallow = false := by
  unfold settled at h
  split at h
  · split at h
    · exact R.deep _ n ti h
    · rename_i hdeep
      obtain rfl := Option.some.inj h
      simpa using hdeep
  · exact R.deep _ n ti h

theorem mem_freshTargets : t ∈ r.freshTargets R n ↔
    ∃ ti, r.settled R n = some ti ∧ t ∈ pointees ti ∧ r.fresh R t := by
  unfold freshTargets
  cases r.settled R n with
  | none => simp
  | some ti => simp

theorem withSettled_of_notMem (h : n ∉ v) : r.withSettled R v n = r n := if_neg h

theorem withSettled_of_mem (h : n ∈ v) : r.withSettled R v n = r.settled R n := if_pos h

theorem withSettled_insert (hti : r.settled R t = some ti) :
    r.withSettled R (insert t v) = Function.update (r.withSettled R v) t (some ti) := by
  funext n
  by_cases hn : n = t
  · rw [hn, Function.update_self, withSettled_of_mem (Finset.mem_insert_self t v), hti]
  · simp only [Function.update_of_ne hn, withSettled, Finset.mem_insert, hn, false_or]

/-- A name that is asked for has its entry, and its targets are asked for one by one. -/
theorem ensureTypeInner_of_settled (fuel : ℕ) (hti : r.settled R t = some ti) :
    DwarfInfo.ensureTypeInner R.ask (fuel + 1) (r.withSettled R v) t =
      ((DwarfInfo.pointerTargets (r.withSettled R (insert t v)) ti).foldl
        (fun r' b => (DwarfInfo.ensureTypeInner R.ask fuel r' b).1)
        (r.withSettled R (insert t v)), true) := by
  have hdeep := settled_deep hti
  have hsame (h : r.withSettled R v t = some ti) :
      r.withSettled R (insert t v) = r.withSettled R v := by
    rw [withSettled_insert hti, ← h, Function.update_eq_self]
  rw [DwarfInfo.ensureTypeInner]
  dsimp only
  by_cases ht : t ∈ v
  · have hentry : r.withSettled R v t = some ti := (withSettled_of_mem ht).trans hti
    rw [hsame hentry, hentry]
    dsimp only
    rw [hdeep]
    rfl
  · have hentry : r.withSettled R v t = r t := withSettled_of_notMem ht
    cases hr : r t with
    | none =>
        have hfind : R.ask (r.withSettled R v) t = some ti := by
          rw [DeepResolver.ask, hentry, hr]
          rwa [settled, hr] at hti
        rw [hentry, hr, hfind, withSettled_insert hti]
    | some entry =>
        have hti' := hti
        rw [settled, hr] at hti
        dsimp only at hti
        by_cases hshallow : entry.shallow
        · have hfind : R.ask (r.withSettled R v) t = some ti := by
            rw [DeepResolver.ask, hentry, hr]
            simpa [hshallow] using hti
          rw [hentry, hr]
          dsimp only
          rw [if_pos hshallow, hfind, withSettled_insert hti']
        · rw [if_neg hshallow] at hti
          obtain rfl := Option.some.inj hti
          have hentry : r.withSettled R v t = some entry := hentry.trans hr
          rw [hsame hentry, hentry]
          dsimp only
          rw [if_neg hshallow]

/-- Nothing comes of a name that cannot be resolved. -/
theorem ensureTypeInner_of_unresolved (fuel : ℕ) (ht : t ∉ v) (hnone : r t = none)
    (hfind : R.find none t = none) :
    (DwarfInfo.ensureTypeInner R.ask fuel (r.withSettled R v) t).1 = r.withSettled R v := by
  cases fuel with
  | zero => rfl
  | succ fuel =>
      have hentry : r.withSettled R v t = none := (withSettled_of_notMem ht).trans hnone
      rw [DwarfInfo.ensureTypeInner, hentry]
      dsimp only
      rw [DeepResolver.ask, hentry, hfind]

theorem isSome_of_mem_search (hv : ∀ x ∈ v, (r.settled R x).isSome)
    (ht : (r.settled R t).isSome) (fuel : ℕ) (x : String)
    (hx : x ∈ DepthFirst.search (r.freshTargets R) fuel t v) : (r.settled R x).isSome := by
  rcases DepthFirst.exists_of_mem_search hx with h | h
  · exact hv x h
  · cases h with
    | refl => exact ht
    | tail _ hlast =>
        obtain ⟨ti, -, -, hfresh⟩ := mem_freshTargets.mp hlast
        exact isSome_settled_of_fresh hfresh

theorem eq_none_of_withSettled (hv : ∀ x ∈ v, (r.settled R x).isSome)
    (hn : r.withSettled R v n = none) : n ∉ v ∧ r n = none := by
  by_cases hin : n ∈ v
  · have hsome := hv n hin
    rw [← withSettled_of_mem hin, hn] at hsome
    cases hsome
  · exact ⟨hin, (withSettled_of_notMem hin).symm.trans hn⟩

/-- The targets that can be resolved are the fresh ones that were not asked for. -/
theorem filter_pointerTargets (hv : ∀ x ∈ v, (r.settled R x).isSome) (ti : TypeInfo) :
    (DwarfInfo.pointerTargets (r.withSettled R v) ti).filter (r.fresh R) =
      ((pointees ti).filter (r.fresh R)).filter (· ∉ v) := by
  rw [pointerTargets_eq, List.filter_filter, List.filter_filter]
  refine List.filter_congr fun b _ => ?_
  by_cases hin : b ∈ v
  · obtain ⟨e, he⟩ := Option.isSome_iff_exists.mp (hv b hin)
    rw [withSettled_of_mem hin, he, decide_eq_false (not_not.mpr hin)]
    exact Bool.and_false _
  · rw [withSettled_of_notMem hin, decide_eq_true hin, Bool.true_and]
    cases hr : r b <;> simp [fresh, hr]

/-- Asking for names one by one searches from the fresh ones among them. -/
theorem foldl_ensureTypeInner {fuel : ℕ}
    (hone : ∀ (b : String) (w : Finset String), (r.settled R b).isSome →
      (∀ x ∈ w, (r.settled R x).isSome) →
      (DwarfInfo.ensureTypeInner R.ask fuel (r.withSettled R w) b).1 =
        r.withSettled R (DepthFirst.search (r.freshTargets R) fuel b w))
    (l : List String) (hl : ∀ b ∈ l, r b = none) (hv : ∀ x ∈ v, (r.settled R x).isSome) :
    l.foldl (fun r' b => (DwarfInfo.ensureTypeInner R.ask fuel r' b).1) (r.withSettled R v) =
      r.withSettled R ((l.filter (r.fresh R)).foldl
        (fun w b => DepthFirst.search (r.freshTargets R) fuel b w) v) := by
  induction l generalizing v with
  | nil => rfl
  | cons b l ih =>
      have hb := hl b List.mem_cons_self
      have hrest := fun c hc => hl c (List.mem_cons_of_mem _ hc)
      rw [List.foldl_cons]
      by_cases hfresh : r.fresh R b
      · have hsome := isSome_settled_of_fresh hfresh
        rw [List.filter_cons_of_pos hfresh, List.foldl_cons, hone b v hsome hv]
        exact ih hrest (isSome_of_mem_search hv hsome fuel)
      · have hnone : R.find none b = none := by
          by_contra h
          exact hfresh (fresh_iff.mpr ⟨hb, Option.isSome_iff_ne_none.mpr h⟩)
        have hbv : b ∉ v := by
          intro h
          have hsome := hv b h
          rw [settled, hb, hnone] at hsome
          cases hsome
        rw [List.filter_cons_of_neg hfresh, ensureTypeInner_of_unresolved fuel hbv hb hnone]
        exact ih hrest hv

/-- A search through the names that are not registered: what it marks gets its entry. -/
theorem ensureTypeInner_eq (fuel : ℕ) (ht : (r.settled R t).isSome)
    (hv : ∀ x ∈ v, (r.settled R x).isSome) :
    (DwarfInfo.ensureTypeInner R.ask fuel (r.withSettled R v) t).1 =
      r.withSettled R (DepthFirst.search (r.freshTargets R) fuel t v) := by
  induction fuel generalizing t v with
  | zero => rfl
  | succ fuel ih =>
      obtain ⟨ti, hti⟩ := Option.isSome_iff_exists.mp ht
      have hinsert : ∀ x ∈ insert t v, (r.settled R x).isSome := by
        intro x hx
        rcases Finset.mem_insert.mp hx with rfl | hx
        · exact ht
        · exact hv x hx
      have hnone : ∀ b ∈ DwarfInfo.pointerTargets (r.withSettled R (insert t v)) ti,
          r b = none := by
        intro b hb
        rw [pointerTargets_eq, List.mem_filter, Option.isNone_iff_eq_none] at hb
        exact (eq_none_of_withSettled hinsert hb.2).2
      rw [ensureTypeInner_of_settled fuel hti, DepthFirst.search]
      dsimp only
      rw [foldl_ensureTypeInner (fun b w hb hw => ih hb hw) _ hnone hinsert,
        filter_pointerTargets hinsert, freshTargets, hti]
      rfl

theorem isSome_settled_of_true {fuel : ℕ}
    (h : (DwarfInfo.ensureTypeInner R.ask fuel r t).2 = true) : (r.settled R t).isSome := by
  cases fuel with
  | zero => cases h
  | succ fuel =>
      rw [settled]
      rw [DwarfInfo.ensureTypeInner] at h
      dsimp only at h
      unfold DeepResolver.ask at h
      cases hr : r t with
      | none =>
          rw [hr] at h
          cases hfind : R.find none t with
          | none => rw [hfind] at h; cases h
          | some ti => rfl
      | some entry =>
          rw [hr] at h
          by_cases hshallow : entry.shallow
          · dsimp only at h ⊢
            rw [if_pos hshallow] at h ⊢
            cases hfind : R.find (some entry) t with
            | none => rw [hfind] at h; cases h
            | some ti => rfl
          · dsimp only
            rw [if_neg hshallow]
            rfl

/-- What the search marks is the type itself or a name that was not registered. -/
theorem eq_or_fresh_of_freshlyReaches (h : r.FreshlyReaches R t n) : n = t ∨ r.fresh R n := by
  cases h with
  | refl => exact .inl rfl
  | tail _ hlast =>
      obtain ⟨ti, -, -, hfresh⟩ := mem_freshTargets.mp hlast
      exact .inr hfresh

theorem filled_of_fresh (h : n = t ∨ r.fresh R n) : r.filled R t n = r.settled R n := by
  unfold filled
  split
  · rfl
  · obtain ⟨hnone, -⟩ := fresh_iff.mp (h.resolve_left (by assumption))
    rw [hnone, settled, hnone]
    rfl

theorem filled_of_registered (hn : n ≠ t) (hentry : r n = some ti) :
    r.filled R t n = some ti := by
  rw [filled, if_neg hn, hentry]
  rfl

/-- The search is not cut short if no path through names that are not registered is. -/
theorem searched_of_short (h : ¬DepthFirst.HasPath (r.freshTargets R) 7 t)
    (hn : r.FreshlyReaches R t n) : n ∈ DepthFirst.search (r.freshTargets R) 7 t ∅ :=
  DepthFirst.mem_search h hn

/-- In a closed registry the names on the way that were not registered are among the marked. -/
theorem mem_of_closed (h : (r.withSettled R v).Closed R t)
    (hreach : Relation.ReflTransGen (r.withSettled R v).PointsTo t n) (hfresh : r.fresh R n) :
    n ∈ v := by
  by_contra hn
  obtain ⟨hnone, hsome⟩ := fresh_iff.mp hfresh
  have hentry : r.withSettled R v n = none := (withSettled_of_notMem hn).trans hnone
  obtain ⟨ti, hti, -⟩ := h n hreach (by rwa [DeepResolver.ask, hentry])
  rw [hentry] at hti
  cases hti

theorem mem_of_closed_of_freshlyReaches (ht : t ∈ v) (h : (r.withSettled R v).Closed R t)
    (hn : r.FreshlyReaches R t n) : n ∈ v := by
  suffices hboth : n ∈ v ∧ Relation.ReflTransGen (r.withSettled R v).PointsTo t n from hboth.1
  induction hn with
  | refl => exact ⟨ht, .refl⟩
  | tail _ hlast ih =>
      obtain ⟨ti, hti, hb, hfresh⟩ := mem_freshTargets.mp hlast
      have hreach := ih.2.tail ⟨ti, (withSettled_of_mem ih.1).trans hti, hb⟩
      exact ⟨mem_of_closed h hreach hfresh, hreach⟩

section Closure
variable (hsearch : ∀ x ∈ v, r.FreshlyReaches R t x) (ht : t ∈ v)
include hsearch ht

/-- Where the search got, and beyond it, the registry has what it could be given. -/
theorem pointsTo_filled {a b : String} (h : (r.withSettled R v).PointsTo a b) :
    (r.filled R t).PointsTo a b := by
  obtain ⟨ti, hti, hb⟩ := h
  refine ⟨ti, ?_, hb⟩
  by_cases ha : a ∈ v
  · rw [filled_of_fresh (eq_or_fresh_of_freshlyReaches (hsearch a ha)), ← withSettled_of_mem ha, hti]
  · rw [withSettled_of_notMem ha] at hti
    exact filled_of_registered (fun h => ha (h ▸ ht)) hti

theorem notMem_of_registered {p : String} (hp : p ≠ t) (hentry : r p = some ti) : p ∉ v := by
  intro h
  rcases eq_or_fresh_of_freshlyReaches (hsearch p h) with rfl | hfresh
  · exact hp rfl
  · rw [(fresh_iff.mp hfresh).1] at hentry
    cases hentry

theorem closed_of_fillable (hti : (r.settled R t).isSome) (h : r.Fillable R t)
    (hall : ∀ n, r.FreshlyReaches R t n → n ∈ v) : (r.withSettled R v).Closed R t := by
  intro n hreach hsome
  have hfilled {a : String} (ha : Relation.ReflTransGen (r.withSettled R v).PointsTo t a) :
      Relation.ReflTransGen (r.filled R t).PointsTo t a :=
    Relation.ReflTransGen.mono (fun _ _ => pointsTo_filled hsearch ht) _ _ ha
  by_cases hn : n ∈ v
  · have hdone : (r.settled R n).isSome := by
      rcases eq_or_fresh_of_freshlyReaches (hsearch n hn) with rfl | hfresh
      · exact hti
      · exact isSome_settled_of_fresh hfresh
    obtain ⟨ti, hentry⟩ := Option.isSome_iff_exists.mp hdone
    exact ⟨ti, (withSettled_of_mem hn).trans hentry, settled_deep hentry⟩
  have hnt : n ≠ t := fun hnt => hn (hnt ▸ ht)
  rw [DeepResolver.ask, withSettled_of_notMem hn] at hsome
  cases hr : r n with
  | some ti =>
      refine ⟨ti, (withSettled_of_notMem hn).trans hr, ?_⟩
      by_contra hshallow
      rw [hr, h.registered n ti (hfilled hreach) hnt hr (by simpa using hshallow)] at hsome
      cases hsome
  | none =>
      rw [hr] at hsome
      have hfresh : r.fresh R n := fresh_iff.mpr ⟨hr, hsome⟩
      refine absurd (hall n ?_) hn
      cases hreach with
      | refl => exact absurd rfl hnt
      | @tail p _ hp hlast =>
          obtain ⟨ti, hentry, hpoints⟩ := hlast
          by_cases hpv : p ∈ v
          · rw [withSettled_of_mem hpv] at hentry
            exact (hsearch p hpv).tail (mem_freshTargets.mpr ⟨ti, hentry, hpoints, hfresh⟩)
          · rw [withSettled_of_notMem hpv] at hentry
            exact h.behind p ti n (hfilled hp) (fun hpt => hpv (hpt ▸ ht)) hentry hpoints hfresh

/-- In a closed registry what is reached when all is filled is reached in it. -/
theorem reaches_of_filled (h : (r.withSettled R v).Closed R t) {p : String}
    (hp : Relation.ReflTransGen (r.filled R t).PointsTo t p) :
    Relation.ReflTransGen (r.withSettled R v).PointsTo t p := by
  induction hp with
  | refl => exact .refl
  | @tail a b _ hab ih =>
      obtain ⟨ti, hti, hb⟩ := hab
      refine ih.tail ⟨ti, ?_, hb⟩
      by_cases ha : a ∈ v
      · rwa [withSettled_of_mem ha,
          ← filled_of_fresh (eq_or_fresh_of_freshlyReaches (hsearch a ha))]
      · rw [withSettled_of_notMem ha]
        rw [filled, if_neg fun hat : a = t => ha (hat ▸ ht)] at hti
        cases hr : r a with
        | some e => rwa [hr] at hti
        | none =>
            rw [hr] at hti
            have hsome : (R.find none a).isSome := Option.isSome_iff_exists.mpr ⟨ti, hti⟩
            exact absurd (mem_of_closed h ih (fresh_iff.mpr ⟨hr, hsome⟩)) ha

theorem fillable_of_closed (h : (r.withSettled R v).Closed R t)
    (hv : v = DepthFirst.search (r.freshTargets R) 7 t ∅) : r.Fillable R t := by
  have hsame {p : String} {ti : TypeInfo} (hpt : p ≠ t) (hentry : r p = some ti) :
      r.withSettled R v p = some ti :=
    (withSettled_of_notMem (notMem_of_registered hsearch ht hpt hentry)).trans hentry
  constructor
  · intro n hn
    exact hv ▸ mem_of_closed_of_freshlyReaches ht h hn
  · intro p ti hp hpt hentry hshallow
    by_contra hne
    obtain ⟨ti', hti', hdeep⟩ := h p (reaches_of_filled hsearch ht h hp) (by
      rw [DeepResolver.ask, hsame hpt hentry]
      exact Option.isSome_iff_ne_none.mpr hne)
    obtain rfl := Option.some.inj ((hsame hpt hentry).symm.trans hti')
    rw [hshallow] at hdeep
    cases hdeep
  · intro p ti b hp hpt hentry hb hfresh
    have hreach := (reaches_of_filled hsearch ht h hp).tail ⟨ti, hsame hpt hentry, hb⟩
    exact hsearch b (mem_of_closed h hreach hfresh)

end Closure

end Registry

/-- When `ensure_type` returns true, then all that can be reached from the type through pointer
fields is in the registry exactly if the registry was fillable. -/
theorem closed_iff (R : DeepResolver) (info : DwarfInfo) (typeName : String)
    (h : (DwarfInfo.ensureTypeInner R.ask 7 info.typeRegistry typeName).2 = true) :
    (info.ensureType R.ask typeName).typeRegistry.Closed R typeName ↔
      info.typeRegistry.Fillable R typeName := by
  have hti := Registry.isSome_settled_of_true h
  have hempty : info.typeRegistry.withSettled R ∅ = info.typeRegistry := by
    funext n
    exact Registry.withSettled_of_notMem (Finset.notMem_empty n)
  have hresult := Registry.ensureTypeInner_eq (R := R) (v := ∅) 7 hti (by simp)
  rw [hempty] at hresult
  have hsearch (x : String)
      (hx : x ∈ DepthFirst.search (info.typeRegistry.freshTargets R) 7 typeName ∅) :
      info.typeRegistry.FreshlyReaches R typeName x :=
    (DepthFirst.exists_of_mem_search hx).resolve_left (Finset.notMem_empty x)
  have ht : typeName ∈ DepthFirst.search (info.typeRegistry.freshTargets R) 7 typeName ∅ :=
    DepthFirst.self_mem_search 6 typeName ∅
  rw [DwarfInfo.ensureType, hresult]
  constructor
  · exact fun hclosed => Registry.fillable_of_closed hsearch ht hclosed rfl
  · exact fun hfill => Registry.closed_of_fillable hsearch ht hti hfill hfill.searched

namespace RegisteredBetween

def pointer (target : String) : FieldInfo where
  name := "next"
  byteOffset := 0
  byteSize := 8
  typeInfo := { name := "*" ++ target, byteSize := 8, isPointer := true }

def number : FieldInfo where
  name := "value"
  byteOffset := 0
  byteSize := 8
  typeInfo := { name := "long", byteSize := 8 }

def definition (name : String) (field : FieldInfo) : Definition where
  tag := .structureType
  name := some name
  byteSize := 8
  fields := [field]

/-- A file that defines a list of nodes with leaves. -/
def file : DeepFile where
  entries :=
    [definition "list" (pointer "node"), definition "node" (pointer "leaf"),
      definition "leaf" number]

/-- The node is registered already. -/
def info : DwarfInfo where
  typeRegistry n :=
    if n = "node" then some { name := "node", byteSize := 8, fields := [pointer "leaf"] } else none

/-- With nothing registered the whole list comes in. -/
theorem empty_closed :
    (DwarfInfo.ensureType file.resolver.ask {} "list").typeRegistry.Closed file.resolver "list" := by
  refine (closed_iff file.resolver {} "list" rfl).mpr ⟨fun n hn => ?_, fun p ti _ _ hentry => ?_,
    fun p ti b _ _ hentry => ?_⟩
  · refine Registry.searched_of_short (fun hpath => ?_) hn
    have hlist : Registry.freshTargets file.resolver (fun _ => none) "list" = ["node"] := rfl
    have hnode : Registry.freshTargets file.resolver (fun _ => none) "node" = ["leaf"] := rfl
    have hleaf : Registry.freshTargets file.resolver (fun _ => none) "leaf" = [] := rfl
    cases hpath with | cons hb hpath =>
    obtain rfl := List.mem_singleton.mp (hlist ▸ hb)
    cases hpath with | cons hb hpath =>
    obtain rfl := List.mem_singleton.mp (hnode ▸ hb)
    cases hpath with | cons hb hpath =>
    exact absurd (hleaf ▸ hb) List.not_mem_nil
  · cases hentry
  · cases hentry

/-- Nobody looks behind a node that is registered. -/
theorem not_closed : ¬∀ (R : DeepResolver) (info : DwarfInfo) (typeName : String),
    (DwarfInfo.ensureTypeInner R.ask 7 info.typeRegistry typeName).2 = true →
    (info.ensureType R.ask typeName).typeRegistry.Closed R typeName := by
  intro h
  have hlist : (info.ensureType file.resolver.ask "list").typeRegistry.PointsTo "list" "node" :=
    ⟨{ name := "list", byteSize := 8, fields := [pointer "node"] }, rfl, by decide⟩
  have hnode : (info.ensureType file.resolver.ask "list").typeRegistry.PointsTo "node" "leaf" :=
    ⟨{ name := "node", byteSize := 8, fields := [pointer "leaf"] }, rfl, by decide⟩
  have hleaf : (info.ensureType file.resolver.ask "list").typeRegistry "leaf" = none := rfl
  obtain ⟨ti, hti, -⟩ := h file.resolver info "list" rfl "leaf" (.tail (.single hlist) hnode) rfl
  rw [hleaf] at hti
  cases hti

end RegisteredBetween

end Rtmap.Engine
