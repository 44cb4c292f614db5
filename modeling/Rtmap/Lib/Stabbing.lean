import Mathlib.Data.List.TakeWhile
import Mathlib.Order.MinMax
import Rtmap.Lib.SortedMap

/-!
# Stabbing queries

Which intervals of a family hold a point. A search that starts from the point and walks
down sees the intervals that start last at or below it; where the family is disjoint, one of
these holds the point if any does.
-/
namespace Rtmap.Stabbing
variable {ι K : Type*} [LinearOrder K]

/-- It starts at or below the point, and none does after it. -/
structure StartsLast (lo : ι → K) (l : List ι) (x : K) (a : ι) : Prop where
  mem : a ∈ l
  le : lo a ≤ x
  last : ∀ b ∈ l, lo b ≤ x → lo b ≤ lo a

/-- What starts at the same point starts last too. -/
theorem StartsLast.of_eq {lo : ι → K} {l : List ι} {x : K} {a b : ι} (h : StartsLast lo l x a)
    (hb : b ∈ l) (heq : lo b = lo a) : StartsLast lo l x b where
  mem := hb
  le := heq ▸ h.le
  last c hc hcx := heq ▸ h.last c hc hcx

/-- Where something starts at or below the point, something starts last. -/
theorem exists_startsLast (lo : ι → K) {l : List ι} {x : K} {r : ι} (hr : r ∈ l)
    (hle : lo r ≤ x) : ∃ a, StartsLast lo l x a := by
  induction l generalizing r with
  | nil => cases hr
  | cons b l ih =>
      by_cases hrest : ∃ c ∈ l, lo c ≤ x
      · obtain ⟨c, hc, hcx⟩ := hrest
        obtain ⟨a, ha⟩ := ih hc hcx
        -- the later of the first entry and the last of the others
        by_cases hb : lo b ≤ x ∧ lo a ≤ lo b
        · refine ⟨b, List.mem_cons_self, hb.1, fun d hd hdx => ?_⟩
          rcases List.mem_cons.mp hd with rfl | hd
          · exact le_rfl
          · exact (ha.last d hd hdx).trans hb.2
        · refine ⟨a, List.mem_cons_of_mem _ ha.mem, ha.le, fun d hd hdx => ?_⟩
          rcases List.mem_cons.mp hd with rfl | hd
          · exact le_of_not_ge fun hab => hb ⟨hdx, hab⟩
          · exact ha.last d hd hdx
      · have hrb : r = b := by
          rcases List.mem_cons.mp hr with rfl | hr
          · rfl
          · exact absurd ⟨r, hr, hle⟩ hrest
        subst hrb
        refine ⟨r, List.mem_cons_self, hle, fun d hd hdx => ?_⟩
        rcases List.mem_cons.mp hd with rfl | hd
        · exact le_rfl
        · exact absurd ⟨d, hd, hdx⟩ hrest

/-- In a list sorted by start, walked down from the point: as long as the start stays. -/
def lastGroup (lo : ι → K) (l : List ι) (x : K) : List ι :=
  let below := (l.takeWhile fun a => lo a ≤ x).reverse
  match below with
  | [] => []
  | last :: _ => below.takeWhile fun a => lo a = lo last

/-- A test that fails for good takes as much as a filter. -/
theorem takeWhile_eq_filter {p : ι → Bool} {l : List ι}
    (h : l.Pairwise fun a b => p b = true → p a = true) : l.takeWhile p = l.filter p := by
  induction l with
  | nil => rfl
  | cons a l ih =>
      obtain ⟨hhead, htail⟩ := List.pairwise_cons.mp h
      by_cases ha : p a = true
      · rw [List.takeWhile_cons_of_pos ha, List.filter_cons_of_pos ha, ih htail]
      · rw [List.takeWhile_cons_of_neg ha, List.filter_cons_of_neg ha, eq_comm,
          List.filter_eq_nil_iff]
        exact fun b hb hpb => ha (hhead b hb hpb)

/-- What starts up to the point is a list's front where it is sorted by start. -/
theorem takeWhile_le {lo : ι → K} {l : List ι} (hsorted : l.Pairwise fun a b => lo a ≤ lo b)
    (x : K) : (l.takeWhile fun a => lo a ≤ x) = l.filter fun a => lo a ≤ x :=
  takeWhile_eq_filter (hsorted.imp fun hab hb => decide_eq_true (hab.trans (of_decide_eq_true hb)))

theorem mem_lastGroup {lo : ι → K} {l : List ι} (hsorted : l.Pairwise fun a b => lo a ≤ lo b)
    {x : K} {a : ι} : a ∈ lastGroup lo l x ↔ StartsLast lo l x a := by
  have hbelow := takeWhile_le hsorted x
  have hmem (b : ι) : b ∈ (l.takeWhile fun a => lo a ≤ x).reverse ↔ b ∈ l ∧ lo b ≤ x := by
    rw [List.mem_reverse, hbelow, List.mem_filter, decide_eq_true_eq]
  have hdown : (l.takeWhile fun a => lo a ≤ x).reverse.Pairwise fun a b => lo b ≤ lo a := by
    rw [List.pairwise_reverse, hbelow]
    exact hsorted.filter _
  unfold lastGroup
  dsimp only
  cases hrev : (l.takeWhile fun a => lo a ≤ x).reverse with
  | nil =>
      rw [hrev] at hmem
      constructor
      · intro h
        cases h
      · exact fun h => absurd ((hmem a).mpr ⟨h.mem, h.le⟩) List.not_mem_nil
  | cons last rest =>
      rw [hrev] at hmem hdown
      obtain ⟨hmax, hrest⟩ := List.pairwise_cons.mp hdown
      have hle : ∀ b ∈ last :: rest, lo b ≤ lo last := by
        intro b hb
        rcases List.mem_cons.mp hb with rfl | hb
        · exact le_rfl
        · exact hmax b hb
      have hgroup : ((last :: rest).takeWhile fun a => lo a = lo last) =
          (last :: rest).filter fun a => lo a = lo last := by
        apply takeWhile_eq_filter
        refine List.Pairwise.imp_of_mem (fun {b c} hb _ hcb hc => ?_) hdown
        have hc : lo c = lo last := of_decide_eq_true hc
        exact decide_eq_true (le_antisymm (hle b hb) (hc ▸ hcb))
      dsimp only
      rw [hgroup, List.mem_filter, decide_eq_true_eq]
      constructor
      · rintro ⟨ha, heq⟩
        obtain ⟨hal, hax⟩ := (hmem a).mp ha
        exact ⟨hal, hax, fun b hb hbx => heq ▸ hle b ((hmem b).mpr ⟨hb, hbx⟩)⟩
      · intro h
        have ha := (hmem a).mpr ⟨h.mem, h.le⟩
        obtain ⟨hlast, hlastx⟩ := (hmem last).mp List.mem_cons_self
        exact ⟨ha, le_antisymm (hle a ha) (h.last last hlast hlastx)⟩

/-- In a list sorted by start the last one up to the point starts last. -/
theorem startsLast_of_getLast? {lo : ι → K} {l : List ι}
    (hsorted : l.Pairwise fun a b => lo a ≤ lo b) {x : K} {a : ι}
    (h : (l.takeWhile fun a => lo a ≤ x).getLast? = some a) : StartsLast lo l x a := by
  apply (mem_lastGroup hsorted).mp
  have hhead : (l.takeWhile fun a => lo a ≤ x).reverse.head? = some a := by
    rw [List.head?_reverse, h]
  obtain ⟨rest, hrest⟩ := List.head?_eq_some_iff.mp hhead
  unfold lastGroup
  dsimp only
  rw [hrest]
  dsimp only
  rw [List.takeWhile_cons_of_pos (by simp)]
  exact List.mem_cons_self

/-- In a disjoint family what holds the point starts last. -/
theorem StartsLast.of_disjoint {lo hi : ι → K} {l : List ι}
    (hdisjoint : ∀ a ∈ l, ∀ b ∈ l, lo a < lo b → hi a ≤ lo b) {x : K} {a : ι} (ha : a ∈ l)
    (hlo : lo a ≤ x) (hhi : x < hi a) : StartsLast lo l x a where
  mem := ha
  le := hlo
  last b hb hbx := not_lt.mp fun hab =>
    absurd hhi (not_lt.mpr ((hdisjoint a ha b hb hab).trans hbx))

/-- Where some members answer for all, and of each start one does, the member that starts last
holds every point that any member holds, exactly if whatever starts inside another either
reaches to its end or to a later start. -/
theorem answers_iff (lo hi : ι → K) {l : List ι} {answers : ι → Prop}
    (hl : ∀ a, answers a → a ∈ l) :
    (∀ x, ∀ r ∈ l, lo r ≤ x → x < hi r → ∀ a, answers a → StartsLast lo l x a → x < hi a) ↔
      ∀ r ∈ l, ∀ a, answers a → lo r ≤ lo a → lo a < hi r →
        hi r ≤ hi a ∨ ∃ u ∈ l, lo a < lo u ∧ lo u ≤ hi a := by
  constructor
  · intro h r hr a ha hle hlt
    by_contra hnot
    rw [not_or, not_le] at hnot
    obtain ⟨hend, hgap⟩ := hnot
    -- the first point that the member leaves free
    have hlast : StartsLast lo l (max (lo a) (hi a)) a := by
      refine ⟨hl a ha, le_max_left _ _, fun b hb hbx => not_lt.mp fun hab => ?_⟩
      rcases le_max_iff.mp hbx with hba | hba
      · exact absurd hab (not_lt.mpr hba)
      · exact hgap ⟨b, hb, hab, hba⟩
    have hin := h _ r hr (hle.trans (le_max_left _ _)) (max_lt hlt hend) a ha hlast
    exact absurd (le_max_right (lo a) (hi a)) (not_le.mpr hin)
  · intro h x r hr hle hlt a ha hlast
    rcases h r hr a ha (hlast.last r hr hle) (hlast.le.trans_lt hlt) with hend | hstart
    · exact hlt.trans_le hend
    · obtain ⟨u, hu, hau, huend⟩ := hstart
      refine lt_of_lt_of_le (not_le.mp fun hux => ?_) huend
      exact absurd (hlast.last u hu hux) (not_le.mpr hau)

/-- The floor entry of a sorted map starts last. -/
theorem floor_iff_startsLast {V : Type*} {m : SortedMap K V} {x : K} {e : K × V} :
    m.floor x = some e ↔ StartsLast Prod.fst m.entries x e := by
  rw [SortedMap.floor_eq_some]
  exact ⟨fun h => ⟨h.1, h.2.1, h.2.2⟩, fun h => ⟨h.mem, h.le, h.last⟩⟩

end Rtmap.Stabbing
