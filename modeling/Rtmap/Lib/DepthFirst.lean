import Mathlib.Data.Finset.Insert
import Mathlib.Data.Set.Insert
import Mathlib.Logic.Relation

/-!
# Depth-first visits

A visit goes through the nodes of a list in their order. A node that was visited is left
out; a new one is marked, its successors are visited, and then the rest of the list. What
is marked in the end was marked before or lies on a path whose nodes all were not,
`mem_iff`: the order of the visits does not matter for it. A search that is cut at a depth
may miss nodes, and its order does matter; it misses none if no path is longer than that,
`mem_search`.
-/
namespace Rtmap.DepthFirst

variable {α : Type*} (next : α → α → Prop)

/-- The visit of the nodes takes the first set of marked nodes to the second. -/
inductive Visits : List α → Set α → Set α → Prop
  | nil {v : Set α} : Visits [] v v
  | seen {a : α} {as : List α} {v w : Set α} : a ∈ v → Visits as v w → Visits (a :: as) v w
  | new {a : α} {as bs : List α} {v u w : Set α} : a ∉ v → (∀ b, b ∈ bs ↔ next a b) →
      Visits bs (insert a v) u → Visits as u w → Visits (a :: as) v w

/-- A path from the one node to the other on which no node is marked. -/
def Avoiding (v : Set α) (a x : α) : Prop :=
  a ∉ v ∧ Relation.ReflTransGen (fun y z => next y z ∧ z ∉ v) a x

variable {next} {as bs : List α} {u v w : Set α} {a x : α}

namespace Avoiding

/-- With more nodes marked there are fewer paths. -/
theorem anti (hvw : v ⊆ w) (h : Avoiding next w a x) : Avoiding next v a x :=
  ⟨fun ha => h.1 (hvw ha),
    Relation.ReflTransGen.mono (fun _ _ hyz => ⟨hyz.1, fun hz => hyz.2 (hvw hz)⟩) _ _ h.2⟩

theorem head {b : α} (ha : a ∉ v) (hab : next a b) (h : Avoiding next v b x) :
    Avoiding next v a x :=
  ⟨ha, .head ⟨hab, h.1⟩ h.2⟩

end Avoiding

namespace Visits

theorem append (h : Visits next as v u) (h' : Visits next bs u w) :
    Visits next (as ++ bs) v w := by
  induction h with
  | nil => exact h'
  | seen ha _ ih => exact .seen ha (ih h')
  | new ha hbs hin _ _ ih => exact .new ha hbs hin (ih h')

theorem subset (h : Visits next as v w) : v ⊆ w := by
  induction h with
  | nil => exact subset_rfl
  | seen _ _ ih => exact ih
  | new _ _ _ _ ih ih' => exact (Set.subset_insert _ _).trans (ih.trans ih')

theorem mem_of_mem (h : Visits next as v w) (ha : a ∈ as) : a ∈ w := by
  induction h with
  | nil => cases ha
  | seen hb hrest ih =>
      rcases List.mem_cons.mp ha with rfl | ha
      · exact hrest.subset hb
      · exact ih ha
  | new _ _ hin hrest _ ih =>
      rcases List.mem_cons.mp ha with rfl | ha
      · exact hrest.subset (hin.subset (Set.mem_insert _ _))
      · exact ih ha

/-- The successors of what the visit marks are marked as well. -/
theorem closed {y z : α} (h : Visits next as v w) (hy : y ∈ w) (hv : y ∉ v)
    (hyz : next y z) : z ∈ w := by
  induction h with
  | nil => exact absurd hy hv
  | seen _ _ ih => exact ih hy hv
  | @new a as bs v u w _ hbs hin hrest ih ih' =>
      by_cases hu : y ∈ u
      · apply hrest.subset
        by_cases hya : y = a
        · exact hin.mem_of_mem ((hbs z).mpr (hya ▸ hyz))
        · exact ih hu fun h => (Set.mem_insert_iff.mp h).elim hya hv
      · exact ih' hy hu

/-- What the visit marks lies on a path of unmarked nodes. -/
theorem exists_avoiding (h : Visits next as v w) (hx : x ∈ w) :
    x ∈ v ∨ ∃ a ∈ as, Avoiding next v a x := by
  induction h with
  | nil => exact .inl hx
  | seen _ _ ih =>
      rcases ih hx with hv | ⟨b, hb, hpath⟩
      · exact .inl hv
      · exact .inr ⟨b, List.mem_cons_of_mem _ hb, hpath⟩
  | @new a as bs v u w ha hbs hin _ ih ih' =>
      have hsub : v ⊆ u := (Set.subset_insert _ _).trans hin.subset
      rcases ih' hx with hu | ⟨b, hb, hpath⟩
      · rcases ih hu with hins | ⟨b, hb, hpath⟩
        · rcases Set.mem_insert_iff.mp hins with rfl | hv
          · exact .inr ⟨x, List.mem_cons_self, ha, .refl⟩
          · exact .inl hv
        · have hpath := hpath.anti (Set.subset_insert _ _)
          exact .inr ⟨a, List.mem_cons_self, hpath.head ha ((hbs b).mp hb)⟩
      · exact .inr ⟨b, List.mem_cons_of_mem _ hb, hpath.anti hsub⟩

/-- The marked nodes are those marked before and those on a path of unmarked nodes. -/
theorem mem_iff (h : Visits next as v w) :
    x ∈ w ↔ x ∈ v ∨ ∃ a ∈ as, Avoiding next v a x := by
  refine ⟨h.exists_avoiding, ?_⟩
  rintro (hv | ⟨a, ha, hnot, hpath⟩)
  · exact h.subset hv
  · suffices hboth : x ∈ w ∧ x ∉ v from hboth.1
    induction hpath with
    | refl => exact ⟨h.mem_of_mem ha, hnot⟩
    | tail _ hyz ih => exact ⟨h.closed ih.1 ih.2 hyz.1, hyz.2⟩

end Visits

section Search

theorem subset_foldl {β : Type*} {f : Finset α → β → Finset α} (hf : ∀ w b, w ⊆ f w b)
    (l : List β) (v : Finset α) : v ⊆ l.foldl f v := by
  induction l generalizing v with
  | nil => exact subset_rfl
  | cons b l ih => exact (hf v b).trans (ih _)

variable [DecidableEq α] (targets : α → List α)

/-- A search for so many nodes in depth: it marks the node and goes on to the targets that are
not marked by then. -/
def search : ℕ → α → Finset α → Finset α
  | 0, _, v => v
  | n + 1, a, v =>
      ((targets a).filter (· ∉ insert a v)).foldl (fun w b => search n b w) (insert a v)

/-- A path of so many steps starts at the node. -/
inductive HasPath : ℕ → α → Prop
  | nil {a : α} : HasPath 0 a
  | cons {n : ℕ} {a b : α} : b ∈ targets a → HasPath n b → HasPath (n + 1) a

variable {targets} {n : ℕ} {v : Finset α}

theorem subset_search (n : ℕ) (a : α) (v : Finset α) : v ⊆ search targets n a v := by
  induction n generalizing a v with
  | zero => exact subset_rfl
  | succ n ih => exact (Finset.subset_insert a v).trans (subset_foldl (fun w b => ih b w) _ _)

theorem subset_searches (n : ℕ) (l : List α) (v : Finset α) :
    v ⊆ l.foldl (fun w b => search targets n b w) v :=
  subset_foldl (fun w b => subset_search n b w) l v

theorem self_mem_search (n : ℕ) (a : α) (v : Finset α) : a ∈ search targets (n + 1) a v :=
  subset_searches n _ _ (Finset.mem_insert_self a v)

/-- What a search marks can be reached. -/
theorem exists_of_mem_search (hx : x ∈ search targets n a v) :
    x ∈ v ∨ Relation.ReflTransGen (fun y z => z ∈ targets y) a x := by
  induction n generalizing a v with
  | zero => exact .inl hx
  | succ n ih =>
      have hfold (l : List α) (hl : ∀ b ∈ l, b ∈ targets a) (w : Finset α)
          (h : x ∈ l.foldl (fun w b => search targets n b w) w) :
          x ∈ w ∨ Relation.ReflTransGen (fun y z => z ∈ targets y) a x := by
        induction l generalizing w with
        | nil => exact .inl h
        | cons b l ihl =>
            rcases ihl (fun c hc => hl c (List.mem_cons_of_mem _ hc)) _ h with h | h
            · refine (ih h).imp id fun hpath => .head ?_ hpath
              exact hl b List.mem_cons_self
            · exact .inr h
      rcases hfold _ (fun b hb => List.mem_of_mem_filter hb) _ hx with h | h
      · rcases Finset.mem_insert.mp h with rfl | h
        · exact .inr .refl
        · exact .inl h
      · exact .inr h

theorem mem_searches {l : List α} (h : ∀ b ∈ l, ∀ w, b ∈ search targets n b w) (ha : a ∈ l) :
    a ∈ l.foldl (fun w b => search targets n b w) v := by
  induction l generalizing v with
  | nil => cases ha
  | cons b l ih =>
      rcases List.mem_cons.mp ha with rfl | ha
      · exact subset_searches n l _ (h a List.mem_cons_self v)
      · exact ih (fun c hc => h c (List.mem_cons_of_mem _ hc)) ha

theorem closed_searches {l : List α} {y z : α}
    (h : ∀ b ∈ l, ∀ w, y ∈ search targets n b w → y ∉ w → z ∈ search targets n b w)
    (hy : y ∈ l.foldl (fun w b => search targets n b w) v) (hv : y ∉ v) :
    z ∈ l.foldl (fun w b => search targets n b w) v := by
  induction l generalizing v with
  | nil => exact absurd hy hv
  | cons b l ih =>
      by_cases hin : y ∈ search targets n b v
      · exact subset_searches n l _ (h b List.mem_cons_self v hin hv)
      · exact ih (fun c hc => h c (List.mem_cons_of_mem _ hc)) hy hin

/-- A search that is not cut marks the targets of what it marks. -/
theorem closed_search {y z : α} (hpath : ¬HasPath targets n a)
    (hy : y = a ∨ y ∈ search targets n a v ∧ y ∉ v) (hz : z ∈ targets y) :
    z ∈ search targets n a v := by
  induction n generalizing a v with
  | zero => exact absurd .nil hpath
  | succ n ih =>
      have hshort (b : α) (hb : b ∈ (targets a).filter (· ∉ insert a v)) : ¬HasPath targets n b :=
        fun h => hpath (.cons (List.mem_of_mem_filter hb) h)
      rw [search]
      by_cases hya : y = a
      · subst hya
        by_cases hz' : z ∈ insert y v
        · exact subset_searches n _ _ hz'
        · refine mem_searches (fun b hb w => ?_) (List.mem_filter.mpr ⟨hz, by simpa using hz'⟩)
          cases n with
          | zero => exact absurd .nil (hshort b hb)
          | succ n => exact self_mem_search n b w
      · obtain ⟨hy, hv⟩ := hy.resolve_left hya
        refine closed_searches (fun b hb w hin hw => ih (hshort b hb) (.inr ⟨hin, hw⟩)) hy ?_
        exact fun h => (Finset.mem_insert.mp h).elim hya hv

/-- A search marks all that can be reached if no path is longer than it is deep. -/
theorem mem_search (hpath : ¬HasPath targets n a)
    (hx : Relation.ReflTransGen (fun y z => z ∈ targets y) a x) : x ∈ search targets n a ∅ := by
  cases n with
  | zero => exact absurd .nil hpath
  | succ n =>
      induction hx with
      | refl => exact self_mem_search n a ∅
      | tail _ hz ih => exact closed_search hpath (.inr ⟨ih, Finset.notMem_empty _⟩) hz

end Search

end Rtmap.DepthFirst
