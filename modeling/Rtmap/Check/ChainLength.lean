import Rtmap.Check.Assertions
import Rtmap.Check.RoundTrip
import Rtmap.Lib.SimplePath

/-!
# Chain lengths

What `chain_length` computes on the graph of any stream: it ends by itself, with the
number of nodes on the longest path that starts at an address ever stamped with the type,
follows the last link of the field from each, and visits none twice.
-/
namespace Rtmap.Check
open Rtmap.SimplePath Rtmap.Engine

namespace TopoGraph

/-- Where the last link of the field leads, unless to null. -/
def follow (g : TopoGraph) (field : String) (x : UInt64) : Option UInt64 :=
  (g.edges (x, field)).filter fun y => y ≠ 0

theorem chainFrom_eq (next : UInt64 → Option UInt64) (fuel : ℕ) (visited : List UInt64)
    (cur : UInt64) : chainFrom next fuel visited cur =
      (walk (fun x => (next x).filter fun y => y ≠ 0) fuel visited cur).length := by
  induction fuel generalizing visited cur with
  | zero => rfl
  | succ fuel ih =>
      rw [chainFrom, walk]
      split
      · rfl
      · cases next cur with
        | none => rfl
        | some target =>
            by_cases h : target = 0
            · simp [h, Option.filter]
            · simp [h, ih, Option.filter]

section Books
variable (rs : List Record)

/-- Every edge is a link's. -/
theorem mem_links_of_edges {k : UInt64 × String} {y : UInt64}
    (h : (ofRecords rs).edges k = some y) : y ∈ (ofRecords rs).links.map LinkEvent.toAddr := by
  induction rs using List.reverseRecOn with
  | nil => cases h
  | append_singleton rs r ih =>
      rw [ofRecords, List.foldl_append] at h ⊢
      cases r with
      | link l =>
          simp only [List.foldl_cons, List.foldl_nil, add, List.map_append, List.map_cons,
            List.map_nil, List.mem_append, List.mem_singleton] at h ⊢
          rw [Function.update_apply] at h
          split at h
          · exact .inr (Option.some.inj h).symm
          · exact .inl (ih h)
      | _ => exact ih h

theorem follow_mem {field : String} {x y : UInt64} (h : (ofRecords rs).follow field x = some y) :
    y ∈ ((ofRecords rs).links.map LinkEvent.toAddr).toFinset := by
  have hedge := (Option.filter_eq_some_iff.mp h).1
  exact List.mem_toFinset.mpr (mem_links_of_edges rs hedge)

theorem card_targets_le :
    ((ofRecords rs).links.map LinkEvent.toAddr).toFinset.card + 1 ≤
      (ofRecords rs).links.length + 2 := by
  have hcard := List.toFinset_card_le ((ofRecords rs).links.map LinkEvent.toAddr)
  rw [List.length_map] at hcard
  omega

/-- The loop of `chain_length` ends by itself. -/
theorem chainFrom_ends (field : String) (x : UInt64) {fuel : ℕ}
    (hfuel : (ofRecords rs).links.length + 2 ≤ fuel) :
    chainFrom (fun cur => (ofRecords rs).edges (cur, field)) fuel [] x =
      chainFrom (fun cur => (ofRecords rs).edges (cur, field))
        ((ofRecords rs).links.length + 2) [] x := by
  have hcard := card_targets_le rs
  have htargets (x y : UInt64) (h : (ofRecords rs).follow field x = some y) := follow_mem rs h
  have hends {rounds : ℕ} (h : (ofRecords rs).links.length + 2 ≤ rounds) :=
    walk_of_le htargets (hcard.trans h) x
  rw [chainFrom_eq, chainFrom_eq]
  exact congrArg List.length ((hends hfuel).trans (hends le_rfl).symm)

/-- `chain_length` is the length of the longest path. -/
theorem chainLength_isGreatest (typeName field : String) :
    IsGreatest
      (insert 0 (lengths ((ofRecords rs).follow field) ((ofRecords rs).typeAddrs typeName)))
      ((ofRecords rs).chainLength typeName field) := by
  have hwalks : (ofRecords rs).chainLength typeName field =
      ((ofRecords rs).typeAddrs typeName).sup fun x =>
        (walk ((ofRecords rs).follow field) ((ofRecords rs).links.length + 2) [] x).length := by
    rw [chainLength]
    exact Finset.sup_congr rfl fun x _ => chainFrom_eq _ _ _ x
  rw [hwalks]
  exact isGreatest_walk (fun _ _ => follow_mem rs) (card_targets_le rs) _

end Books

section Lines
variable {g : TopoGraph} {rs : List Record}

/-- What `chain_length` and `resolve_base` read. -/
def chains (g : TopoGraph) : TopoGraph :=
  { typeAddrs := g.typeAddrs, edges := g.edges, stamps := g.stamps, links := g.links }

theorem chains_add {g g' : TopoGraph} (h : g.chains = g'.chains) (r : Record) :
    (g.add r).chains = (g'.add r).chains := by
  have htypes := congrArg typeAddrs h
  have hedges := congrArg edges h
  have hstamps := congrArg stamps h
  have hlinks := congrArg links h
  simp only [chains] at htypes hedges hstamps hlinks
  cases r <;> simp only [add, chains, resolveBase, htypes, hedges, hstamps, hlinks]

theorem chains_foldl_add {g g' : TopoGraph} (h : g.chains = g'.chains) (rs : List Record) :
    (rs.foldl add g).chains = (rs.foldl add g').chains := by
  induction rs generalizing g g' with
  | nil => exact h
  | cons r rs ih => exact ih (chains_add h r)

/-- Only stamps and links count. -/
theorem chains_ofRecords_filter (f : String → String) (num : ℕ → ℕ) (ls : List Line)
    (p : Line → Bool) (hp : ∀ l : Line, p l = false →
      (recordOf f num l).stamp? = none ∧ (recordOf f num l).link? = none) :
    (ofRecords ((ls.filter p).map (recordOf f num))).chains =
      (ofRecords (ls.map (recordOf f num))).chains := by
  induction ls using List.reverseRecOn with
  | nil => rfl
  | append_singleton ls l ih =>
      rw [List.filter_append, List.map_append, List.map_append, ofRecords, ofRecords,
        List.foldl_append, List.foldl_append]
      by_cases hl : p l = true
      · rw [List.filter_cons_of_pos hl]
        exact chains_add ih _
      · rw [List.filter_cons_of_neg hl]
        obtain ⟨hstamp, hlink⟩ := hp l (by simpa using hl)
        refine ih.trans ?_
        cases l with
        | stamp => cases hstamp
        | link => cases hlink
        | _ => rfl

theorem mem_typeAddrs_foldl_add {typeName : String} {b : UInt64} :
    b ∈ (rs.foldl add g).typeAddrs typeName ↔ b ∈ g.typeAddrs typeName ∨
      ∃ s, Record.stamp s ∈ rs ∧ s.typeName = typeName ∧ s.addr = b := by
  induction rs generalizing g with
  | nil => simp
  | cons r rs ih =>
      rw [List.foldl_cons, ih]
      cases r with
      | stamp s =>
          have hinsert : b ∈ (g.add (.stamp s)).typeAddrs typeName ↔
              b ∈ g.typeAddrs typeName ∨ s.typeName = typeName ∧ s.addr = b := by
            by_cases h : s.typeName = typeName
            · subst h
              simp [add, or_comm, eq_comm]
            · simp [add, Function.update_of_ne (Ne.symm h), h]
          rw [hinsert]
          simp [or_and_right, exists_or, or_assoc]
      | _ => simp [add]

/-- Links of other fields leave the field's edges. -/
theorem edges_foldl_add {field : String} (h : ∀ l, Record.link l ∈ rs → l.edge ≠ field)
    (b : UInt64) : (rs.foldl add g).edges (b, field) = g.edges (b, field) := by
  induction rs generalizing g with
  | nil => rfl
  | cons r rs ih =>
      rw [List.foldl_cons, ih fun l hl => h l (List.mem_cons_of_mem _ hl)]
      cases r with
      | link l =>
          have hne := h l List.mem_cons_self
          simp only [add]
          rw [Function.update_of_ne]
          simp [Ne.symm hne]
      | _ => rfl

end Lines

end TopoGraph

end Rtmap.Check
