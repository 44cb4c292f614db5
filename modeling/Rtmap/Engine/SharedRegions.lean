import Mathlib.Data.Finset.Card
import Mathlib.Data.List.Dedup
import Rtmap.Engine.Types
import Rtmap.Lib.Grouping
import Rtmap.Lib.Stabbing
import Rtmap.Lib.Str

/-!
# Regions shared between processes

`detect_shared_regions` groups the lines of `/proc/<pid>/maps` by device and inode and keeps
what two processes map; a list sorted by address finds the region of an address.
`detectionExact_iff` says for which maps that comes to the shared mappings.
-/
namespace Rtmap.Engine
open Str Grouping Stabbing

/-- `splitn`: at most so many pieces, the last one with the rest. -/
def splitN (p : Char → Bool) : ℕ → Text → List Text
  | 0, _ => []
  | 1, s => [s]
  | n + 2, s =>
      match s.span fun c => !p c with
      | (piece, _ :: rest) => piece :: splitN p (n + 1) rest
      | (piece, []) => [piece]

/-- `split_once`. -/
def splitOnce (sep : Char) (s : Text) : Option (Text × Text) :=
  match s.span fun c => c ≠ sep with
  | (front, _ :: rest) => some (front, rest)
  | (_, []) => none

structure DevInode where
  devMajor : UInt32
  devMinor : UInt32
  inode : UInt64
deriving DecidableEq, Repr

structure MapEntry where
  start : UInt64
  «end» : UInt64
  perms : List UInt8
  offset : UInt64
  devInode : DevInode
  path : Text

/-- `is_shared`. -/
def MapEntry.isShared (e : MapEntry) : Bool := e.perms[3]? = some 's'.toUInt8

/-- `u64::from_str_radix(s, 16)`. -/
def hex64 (s : Text) : Option UInt64 := (fromStrRadix 16 s).map UInt64.ofNat

/-- `u32::from_str_radix(s, 16)`. -/
def hex32 (s : Text) : Option UInt32 :=
  ((fromStrRadix 16 s).filter fun n => n < 2 ^ 32).map UInt32.ofNat

/-- `parse_map_line`. -/
def parseMapLine (line : Text) : Option MapEntry := do
  let parts := splitN isWhitespace 6 line
  let range ← parts[0]?
  let (startS, endS) ← splitOnce '-' range
  let start ← hex64 startS
  let «end» ← hex64 endS
  let permsS ← parts[1]?
  let bytes := permsS.flatMap String.utf8EncodeChar
  if bytes.length < 4 then none
  else
    let offset ← (parts[2]?).bind hex64
    let devS ← parts[3]?
    let (majS, minS) ← splitOnce ':' devS
    let devMajor ← hex32 majS
    let devMinor ← hex32 minS
    let inode ← (parts[4]?).bind fun s => parse (trim s)
    some {
      start, «end», offset
      perms := bytes.take 4
      devInode := ⟨devMajor, devMinor, UInt64.ofNat inode⟩
      path := trim (parts[5]?.getD []) }

/-- The contents of the maps files; none where the file cannot be read. -/
abbrev Maps := UInt32 → Option Text

/-- `read_maps`. -/
def readMaps (maps : Maps) (pid : UInt32) : Option (List MapEntry) :=
  (maps pid).map fun content => (lines content).filterMap parseMapLine

/-- A region found in two or more processes, with process, start and end of each mapping. -/
structure SharedRegion where
  devInode : DevInode
  path : Text
  mappings : List (UInt32 × UInt64 × UInt64)

/-- The order in which the hash map is walked, and an unstable sort by start. -/
structure DetectionOrders where
  index : List (DevInode × List (UInt32 × MapEntry)) → List (DevInode × List (UInt32 × MapEntry))
  index_perm : ∀ l, (index l).Perm l
  sort : List (UInt64 × UInt64 × ℕ) → List (UInt64 × UInt64 × ℕ)
  sort_perm : ∀ l, (sort l).Perm l
  sort_sorted : ∀ l, (sort l).Pairwise fun a b => a.1 ≤ b.1

/-- The mappings of files, process by process. -/
def fileMappings (maps : Maps) (pids : List UInt32) : List (UInt32 × MapEntry) :=
  pids.flatMap fun pid =>
    (((readMaps maps pid).getD []).filter fun e => e.devInode.inode ≠ 0).map fun e => (pid, e)

/-- `detect_shared_regions`: the path of a region is the one of its first mapping. -/
def detectSharedRegions (orders : DetectionOrders) (maps : Maps) (pids : List UInt32) :
    List SharedRegion :=
  (orders.index (group (fun m => m.2.devInode) (fileMappings maps pids))).filterMap fun g =>
    if (g.2.map Prod.fst).dedup.length ≥ 2 then
      some {
        devInode := g.1
        path := (g.2.head?.map fun m => m.2.path).getD []
        mappings := g.2.map fun m => (m.1, m.2.start, m.2.end) }
    else none

/-- `SharedIntervalMap`: the intervals by their start, each with the place of its region. -/
structure SharedIntervalMap where
  intervals : List (UInt64 × UInt64 × ℕ) := []

namespace SharedIntervalMap

/-- `rebuild`. -/
def rebuild (orders : DetectionOrders) (regions : List SharedRegion) : SharedIntervalMap where
  intervals := orders.sort (regions.zipIdx.flatMap fun r =>
    r.1.mappings.map fun m => (m.2.1, m.2.2, r.2))

/-- `lookup`: the last interval that starts up to the address, if it holds the address. -/
def lookup (map : SharedIntervalMap) (addr : UInt64) : Option ℕ :=
  match (map.intervals.takeWhile fun i => i.1 ≤ addr).getLast? with
  | none => none
  | some i => if addr ≥ i.1 && addr < i.2.1 then some i.2.2 else none

end SharedIntervalMap

/-- The process has the mapping of a file. -/
def MapsFile (maps : Maps) (pids : List UInt32) (pid : UInt32) (e : MapEntry) : Prop :=
  pid ∈ pids ∧ (∃ es, readMaps maps pid = some es ∧ e ∈ es) ∧ e.devInode.inode ≠ 0

/-- The regions are the files that two processes map shared, with all these mappings, and an
address has a region exactly if some mapping listed holds it. -/
structure DetectionExact (orders : DetectionOrders) (maps : Maps) (pids : List UInt32) : Prop where
  regions (di : DevInode) :
    (∃ r ∈ detectSharedRegions orders maps pids, r.devInode = di) ↔
      ∃ p q, p ≠ q ∧ (∃ e, MapsFile maps pids p e ∧ e.devInode = di ∧ e.isShared) ∧
        ∃ e, MapsFile maps pids q e ∧ e.devInode = di ∧ e.isShared
  mappings (r : SharedRegion) (hr : r ∈ detectSharedRegions orders maps pids)
    (m : UInt32 × UInt64 × UInt64) :
    m ∈ r.mappings ↔ ∃ p e, MapsFile maps pids p e ∧ e.devInode = r.devInode ∧ e.isShared ∧
      m = (p, e.start, e.end)
  lookup (addr : UInt64) :
    ((SharedIntervalMap.rebuild orders (detectSharedRegions orders maps pids)).lookup addr).isSome
      ↔ ∃ r ∈ detectSharedRegions orders maps pids, ∃ m ∈ r.mappings,
        m.2.1 ≤ addr ∧ addr < m.2.2

/-- The process maps a file that another one maps as well, shared or not. -/
def MapsCommon (maps : Maps) (pids : List UInt32) (pid : UInt32) (e : MapEntry) : Prop :=
  MapsFile maps pids pid e ∧
    ∃ q f, q ≠ pid ∧ MapsFile maps pids q f ∧ f.devInode = e.devInode

/-- Of the mappings of files that several processes map each is shared (or the process has the
range shared as well), and one that starts inside another reaches to its end or to the start of
a later one. -/
structure SharedApart (maps : Maps) (pids : List UInt32) : Prop where
  shared (p : UInt32) (e : MapEntry) (h : MapsCommon maps pids p e) :
    ∃ f, MapsFile maps pids p f ∧ f.devInode = e.devInode ∧ f.isShared ∧ f.start = e.start ∧
      f.end = e.end
  reaches (p q : UInt32) (e f : MapEntry) (he : MapsCommon maps pids p e)
    (hf : MapsCommon maps pids q f) (hle : e.start ≤ f.start) (hlt : f.start < e.end) :
    e.end ≤ f.end ∨ ∃ s g, MapsCommon maps pids s g ∧ f.start < g.start ∧ g.start ≤ f.end

section Detection
variable {orders : DetectionOrders} {maps : Maps} {pids : List UInt32}

theorem mem_fileMappings {pid : UInt32} {e : MapEntry} :
    (pid, e) ∈ fileMappings maps pids ↔ MapsFile maps pids pid e := by
  unfold fileMappings MapsFile
  rw [List.mem_flatMap]
  constructor
  · rintro ⟨q, hq, hin⟩
    obtain ⟨f, hf, heq⟩ := List.mem_map.mp hin
    obtain ⟨rfl, rfl⟩ := Prod.mk.inj heq
    obtain ⟨hmem, hinode⟩ := List.mem_filter.mp hf
    refine ⟨hq, ?_, of_decide_eq_true hinode⟩
    cases hread : readMaps maps q with
    | none =>
        rw [hread] at hmem
        cases hmem
    | some es =>
        rw [hread] at hmem
        exact ⟨es, rfl, hmem⟩
  · rintro ⟨hq, ⟨es, hread, hmem⟩, hinode⟩
    refine ⟨pid, hq, List.mem_map.mpr ⟨e, List.mem_filter.mpr ⟨?_, decide_eq_true hinode⟩, rfl⟩⟩
    rw [hread]
    exact hmem

/-- A list has two members without repetitions if two of its members differ. -/
theorem two_le_dedup {α : Type*} [DecidableEq α] {l : List α} :
    2 ≤ l.dedup.length ↔ ∃ a ∈ l, ∃ b ∈ l, a ≠ b := by
  have hcard : 2 ≤ l.dedup.length ↔ 1 < l.toFinset.card := by
    rw [List.card_toFinset]
    exact Iff.rfl
  rw [hcard, Finset.one_lt_card_iff]
  simp only [List.mem_toFinset]
  constructor
  · rintro ⟨a, b, ha, hb, hab⟩
    exact ⟨a, ha, b, hb, hab⟩
  · rintro ⟨a, ha, b, hb, hab⟩
    exact ⟨a, b, ha, hb, hab⟩

/-- The group of a file has a mapping of two processes. -/
theorem two_le_pids {di : DevInode} {ms : List (UInt32 × MapEntry)}
    (hms : ms = (fileMappings maps pids).filter fun m => m.2.devInode = di) :
    2 ≤ (ms.map Prod.fst).dedup.length ↔
      ∃ p e q f, p ≠ q ∧ MapsFile maps pids p e ∧ e.devInode = di ∧ MapsFile maps pids q f ∧
        f.devInode = di := by
  have hmem (p : UInt32) (e : MapEntry) :
      (p, e) ∈ ms ↔ MapsFile maps pids p e ∧ e.devInode = di := by
    rw [hms, List.mem_filter, mem_fileMappings, decide_eq_true_eq]
  rw [two_le_dedup]
  constructor
  · rintro ⟨p, hp, q, hq, hne⟩
    obtain ⟨⟨p, e⟩, he, rfl⟩ := List.mem_map.mp hp
    obtain ⟨⟨q, f⟩, hf, rfl⟩ := List.mem_map.mp hq
    obtain ⟨he, hdi⟩ := (hmem p e).mp he
    obtain ⟨hf, hdi'⟩ := (hmem q f).mp hf
    exact ⟨p, e, q, f, hne, he, hdi, hf, hdi'⟩
  · rintro ⟨p, e, q, f, hne, he, hdi, hf, hdi'⟩
    exact ⟨p, List.mem_map.mpr ⟨_, (hmem p e).mpr ⟨he, hdi⟩, rfl⟩, q,
      List.mem_map.mpr ⟨_, (hmem q f).mpr ⟨hf, hdi'⟩, rfl⟩, hne⟩

/-- The regions are the files that two processes map, whatever the order of the hash map. -/
theorem mem_detectSharedRegions {r : SharedRegion} :
    r ∈ detectSharedRegions orders maps pids ↔
      ∃ ms, ms = (fileMappings maps pids).filter (fun m => m.2.devInode = r.devInode) ∧
        2 ≤ (ms.map Prod.fst).dedup.length ∧
        r.path = (ms.head?.map fun m => m.2.path).getD [] ∧
        r.mappings = ms.map fun m => (m.1, m.2.start, m.2.end) := by
  unfold detectSharedRegions
  rw [List.mem_filterMap]
  constructor
  · rintro ⟨⟨di, ms⟩, hg, hr⟩
    rw [(orders.index_perm _).mem_iff, mem_group] at hg
    split at hr
    · rename_i htwo
      obtain rfl := Option.some.inj hr
      exact ⟨ms, hg.1, htwo, rfl, rfl⟩
    · cases hr
  · rintro ⟨ms, hms, htwo, hpath, hmappings⟩
    refine ⟨(r.devInode, ms), ?_, ?_⟩
    · rw [(orders.index_perm _).mem_iff, mem_group]
      refine ⟨hms, fun hempty => ?_⟩
      rw [hempty] at htwo
      exact absurd htwo (by decide)
    · rw [if_pos htwo, ← hpath, ← hmappings]

theorem exists_region_iff (orders : DetectionOrders) {di : DevInode} :
    (∃ r ∈ detectSharedRegions orders maps pids, r.devInode = di) ↔
      ∃ p e, MapsCommon maps pids p e ∧ e.devInode = di := by
  constructor
  · rintro ⟨r, hr, rfl⟩
    obtain ⟨ms, hms, htwo, -⟩ := mem_detectSharedRegions.mp hr
    obtain ⟨p, e, q, f, hne, he, hdi, hf, hdi'⟩ := (two_le_pids hms).mp htwo
    exact ⟨p, e, ⟨he, q, f, hne.symm, hf, hdi'.trans hdi.symm⟩, hdi⟩
  · rintro ⟨p, e, ⟨he, q, f, hne, hf, hdi⟩, rfl⟩
    let ms := (fileMappings maps pids).filter fun m => m.2.devInode = e.devInode
    let r : SharedRegion := {
      devInode := e.devInode
      path := (ms.head?.map fun m => m.2.path).getD []
      mappings := ms.map fun m => (m.1, m.2.start, m.2.end) }
    refine ⟨r, mem_detectSharedRegions.mpr ⟨ms, rfl, ?_, rfl, rfl⟩, rfl⟩
    exact (two_le_pids rfl).mpr ⟨p, e, q, f, hne.symm, he, rfl, hf, hdi⟩

/-- A region lists all mappings of its file. -/
theorem mem_mappings {r : SharedRegion} (hr : r ∈ detectSharedRegions orders maps pids)
    {m : UInt32 × UInt64 × UInt64} :
    m ∈ r.mappings ↔ ∃ p e, MapsFile maps pids p e ∧ e.devInode = r.devInode ∧
      m = (p, e.start, e.end) := by
  obtain ⟨ms, hms, -, -, hmappings⟩ := mem_detectSharedRegions.mp hr
  rw [hmappings, hms, List.mem_map]
  constructor
  · rintro ⟨⟨p, e⟩, hin, rfl⟩
    obtain ⟨hin, hdi⟩ := List.mem_filter.mp hin
    exact ⟨p, e, mem_fileMappings.mp hin, of_decide_eq_true hdi, rfl⟩
  · rintro ⟨p, e, he, hdi, rfl⟩
    exact ⟨(p, e), List.mem_filter.mpr ⟨mem_fileMappings.mpr he, decide_eq_true hdi⟩, rfl⟩

/-- What maps the file of a region maps a file that another process maps. -/
theorem mapsCommon_of_region {r : SharedRegion}
    (hr : r ∈ detectSharedRegions orders maps pids) {p : UInt32} {e : MapEntry}
    (he : MapsFile maps pids p e) (hdi : e.devInode = r.devInode) : MapsCommon maps pids p e := by
  obtain ⟨q, f, ⟨hf, s, g, hne, hg, hsame⟩, hdi'⟩ := (exists_region_iff _).mp ⟨r, hr, rfl⟩
  refine ⟨he, ?_⟩
  -- one of the two processes is another one
  by_cases hp : q = p
  · exact ⟨s, g, hp ▸ hne, hg, hsame.trans (hdi'.trans hdi.symm)⟩
  · exact ⟨q, f, hp, hf, hdi'.trans hdi.symm⟩

/-- The intervals are those of the mappings of files that two processes map. -/
theorem mem_intervals (orders : DetectionOrders) {lo hi : UInt64} :
    (∃ i, (lo, hi, i) ∈
        (SharedIntervalMap.rebuild orders (detectSharedRegions orders maps pids)).intervals) ↔
      ∃ p e, MapsCommon maps pids p e ∧ e.start = lo ∧ e.end = hi := by
  unfold SharedIntervalMap.rebuild
  dsimp only
  simp only [(orders.sort_perm _).mem_iff, List.mem_flatMap, List.mem_map]
  constructor
  · rintro ⟨i, ⟨r, j⟩, hr, m, hm, heq⟩
    have hr : r ∈ detectSharedRegions orders maps pids := List.fst_mem_of_mem_zipIdx hr
    obtain ⟨p, e, he, hdi, rfl⟩ := (mem_mappings hr).mp hm
    obtain ⟨rfl, rest⟩ := Prod.mk.inj heq
    obtain ⟨rfl, -⟩ := Prod.mk.inj rest
    exact ⟨p, e, mapsCommon_of_region hr he hdi, rfl, rfl⟩
  · rintro ⟨p, e, he, rfl, rfl⟩
    obtain ⟨r, hr, hdi⟩ := (exists_region_iff _).mpr ⟨p, e, he, rfl⟩
    obtain ⟨i, hi, hget⟩ := List.getElem_of_mem hr
    refine ⟨i, (r, i), ?_, (p, e.start, e.end), ?_, rfl⟩
    · rw [List.mem_zipIdx_iff_getElem?, List.getElem?_eq_getElem hi, hget]
    · exact (mem_mappings hr).mpr ⟨p, e, he.1, hdi.symm, rfl⟩

theorem isSome_lookup {map : SharedIntervalMap} {addr : UInt64} :
    (map.lookup addr).isSome ↔
      ∃ i, (map.intervals.takeWhile fun i => i.1 ≤ addr).getLast? = some i ∧ addr < i.2.1 := by
  unfold SharedIntervalMap.lookup
  cases hlast : (map.intervals.takeWhile fun i => i.1 ≤ addr).getLast? with
  | none => simp
  | some i =>
      have hle : i.1 ≤ addr := by
        have hin := List.mem_of_getLast? hlast
        simpa using List.mem_takeWhile_imp hin
      simp [hle]

/-- Some listed mapping holds the address if some interval does. -/
theorem exists_listed_iff {addr : UInt64} :
    (∃ r ∈ detectSharedRegions orders maps pids, ∃ m ∈ r.mappings,
        m.2.1 ≤ addr ∧ addr < m.2.2) ↔
      ∃ i ∈ (SharedIntervalMap.rebuild orders (detectSharedRegions orders maps pids)).intervals,
        i.1 ≤ addr ∧ addr < i.2.1 := by
  constructor
  · rintro ⟨r, hr, m, hm, hin⟩
    obtain ⟨p, e, he, hdi, rfl⟩ := (mem_mappings hr).mp hm
    obtain ⟨i, hi⟩ := (mem_intervals _).mpr ⟨p, e, mapsCommon_of_region hr he hdi, rfl, rfl⟩
    exact ⟨_, hi, hin⟩
  · rintro ⟨⟨lo, hi, i⟩, hmem, hin⟩
    obtain ⟨p, e, he, rfl, rfl⟩ := (mem_intervals _).mp ⟨i, hmem⟩
    obtain ⟨r, hr, hdi⟩ := (exists_region_iff _).mpr ⟨p, e, he, rfl⟩
    exact ⟨r, hr, _, (mem_mappings hr).mpr ⟨p, e, he.1, hdi.symm, rfl⟩, hin⟩

end Detection

/-- By start, and of those with one start this one last. -/
def keepLast (a x y : UInt64 × UInt64 × ℕ) : Bool :=
  x.1 < y.1 || (x.1 = y.1 && (y = a || x ≠ a))

theorem keepLast_iff {a x y : UInt64 × UInt64 × ℕ} :
    keepLast a x y = true ↔ x.1 < y.1 ∨ x.1 = y.1 ∧ (y = a ∨ x ≠ a) := by
  simp [keepLast]

theorem pairwise_keepLast (a : UInt64 × UInt64 × ℕ) (l : List (UInt64 × UInt64 × ℕ)) :
    (l.mergeSort (keepLast a)).Pairwise fun x y => keepLast a x y = true := by
  apply List.pairwise_mergeSort
  · intro x y z hxy hyz
    rw [keepLast_iff] at *
    rcases hxy with hxy | ⟨hxy, hkeep⟩
    · rcases hyz with hyz | ⟨hyz, -⟩
      · exact .inl (hxy.trans hyz)
      · exact .inl (hyz ▸ hxy)
    · rcases hyz with hyz | ⟨hyz, hkeep'⟩
      · exact .inl (hxy ▸ hyz)
      · refine .inr ⟨hxy.trans hyz, ?_⟩
        rcases hkeep' with hz | hy
        · exact .inl hz
        · exact .inr (hkeep.resolve_left hy)
  · intro x y
    rw [Bool.or_eq_true, keepLast_iff, keepLast_iff]
    rcases lt_trichotomy x.1 y.1 with hlt | heq | hlt
    · exact .inl (.inl hlt)
    · by_cases hx : x = a
      · exact .inr (.inr ⟨heq.symm, .inl hx⟩)
      · exact .inl (.inr ⟨heq, .inr hx⟩)
    · exact .inr (.inl hlt)

/-- Orders that sort an interval behind all with its start. -/
def ordersKeeping (a : UInt64 × UInt64 × ℕ) : DetectionOrders where
  index := id
  index_perm l := .refl l
  sort l := l.mergeSort (keepLast a)
  sort_perm l := List.mergeSort_perm l (keepLast a)
  sort_sorted l := (pairwise_keepLast a l).imp fun h => by
    rcases keepLast_iff.mp h with hlt | ⟨heq, -⟩
    · exact hlt.le
    · exact heq.le

section Exact
variable {orders : DetectionOrders} {maps : Maps} {pids : List UInt32}

/-- Sorted so, the interval is the one that the lookup sees wherever it starts last. -/
theorem getLast?_keepLast {a i : UInt64 × UInt64 × ℕ} {l : List (UInt64 × UInt64 × ℕ)}
    {x : UInt64} (hsorted : l.Pairwise fun x y => keepLast a x y = true)
    (ha : StartsLast Prod.fst l x a)
    (h : (l.takeWhile fun i => i.1 ≤ x).getLast? = some i) : i = a := by
  have hstarts : l.Pairwise fun a b => a.1 ≤ b.1 := hsorted.imp fun h => by
    rcases keepLast_iff.mp h with hlt | ⟨heq, -⟩
    · exact hlt.le
    · exact heq.le
  have hi : StartsLast Prod.fst l x i := startsLast_of_getLast? hstarts h
  have hfilter := takeWhile_le hstarts x
  obtain ⟨front, hfront⟩ := List.getLast?_eq_some_iff.mp h
  have hpair : (front ++ [i]).Pairwise fun x y => keepLast a x y = true := by
    rw [← hfront, hfilter]
    exact hsorted.filter _
  have hmem : a ∈ front ++ [i] := by
    rw [← hfront, hfilter]
    exact List.mem_filter.mpr ⟨ha.mem, decide_eq_true ha.le⟩
  rcases List.mem_append.mp hmem with hfirst | hlast
  · have hkeep := (List.pairwise_append.mp hpair).2.2 a hfirst i List.mem_cons_self
    rcases keepLast_iff.mp hkeep with hlt | ⟨-, hia | hne⟩
    · exact absurd (ha.last i hi.mem hi.le) (not_le.mpr hlt)
    · exact hia
    · exact absurd rfl hne
  · exact (List.mem_singleton.mp hlast).symm

/-- What is listed is shared, if the mappings listed are the shared ones. -/
theorem shared_of_exact (h : DetectionExact orders maps pids) {p : UInt32} {e : MapEntry}
    (he : MapsCommon maps pids p e) :
    ∃ f, MapsFile maps pids p f ∧ f.devInode = e.devInode ∧ f.isShared ∧ f.start = e.start ∧
      f.end = e.end := by
  obtain ⟨r, hr, hdi⟩ := (exists_region_iff orders).mpr ⟨p, e, he, rfl⟩
  have hmem := (mem_mappings hr).mpr ⟨p, e, he.1, hdi.symm, rfl⟩
  obtain ⟨q, f, hf, hfdi, hshared, heq⟩ := (h.mappings r hr _).mp hmem
  obtain ⟨rfl, hrange⟩ := Prod.mk.inj heq
  obtain ⟨hstart, hend⟩ := Prod.mk.inj hrange
  exact ⟨f, hf, hfdi.trans hdi, hshared, hstart.symm, hend.symm⟩

/-- If every lookup is right, also with the second mapping sorted behind those that start with
it, then it does not hide the rest of the first. -/
theorem reaches_of_exact (h : ∀ orders, DetectionExact orders maps pids) {p q : UInt32}
    {e f : MapEntry} (he : MapsCommon maps pids p e) (hf : MapsCommon maps pids q f)
    (hle : e.start ≤ f.start) (hlt : f.start < e.end) :
    e.end ≤ f.end ∨ ∃ s g, MapsCommon maps pids s g ∧ f.start < g.start ∧ g.start ≤ f.end := by
  obtain ⟨k, hk⟩ := (mem_intervals (ordersKeeping (0, 0, 0))).mpr ⟨q, f, hf, rfl, rfl⟩
  let a : UInt64 × UInt64 × ℕ := (f.start, f.end, k)
  have hexact := h (ordersKeeping a)
  set map := SharedIntervalMap.rebuild (ordersKeeping a)
    (detectSharedRegions (ordersKeeping a) maps pids)
  have ha : a ∈ map.intervals := by
    have hsame := ((ordersKeeping (0, 0, 0)).sort_perm _).mem_iff.mp hk
    exact ((ordersKeeping a).sort_perm _).mem_iff.mpr hsame
  obtain ⟨j, hj⟩ := (mem_intervals (ordersKeeping a)).mpr ⟨p, e, he, rfl, rfl⟩
  have hthis : ∀ i, i = a → i ∈ map.intervals := fun i hi => hi ▸ ha
  have hanswers := (answers_iff (fun i => i.1) (fun i => i.2.1) hthis).mp ?_ _ hj a rfl hle hlt
  · refine hanswers.imp id fun hlater => ?_
    obtain ⟨⟨lo, hi, i⟩, hu, hbetween⟩ := hlater
    obtain ⟨s, g, hg, rfl, -⟩ := (mem_intervals _).mp ⟨i, hu⟩
    exact ⟨s, g, hg, hbetween⟩
  · rintro x r hr hrx hxr i rfl hlast
    have hlisted := exists_listed_iff.mpr ⟨r, hr, hrx, hxr⟩
    obtain ⟨i, hi, hin⟩ := isSome_lookup.mp ((hexact.lookup x).mpr hlisted)
    rw [← getLast?_keepLast (pairwise_keepLast a _) hlast hi]
    exact hin

namespace SharedApart

theorem regions (h : SharedApart maps pids) (di : DevInode) :
    (∃ r ∈ detectSharedRegions orders maps pids, r.devInode = di) ↔
      ∃ p q, p ≠ q ∧ (∃ e, MapsFile maps pids p e ∧ e.devInode = di ∧ e.isShared) ∧
        ∃ e, MapsFile maps pids q e ∧ e.devInode = di ∧ e.isShared := by
  rw [exists_region_iff]
  constructor
  · rintro ⟨p, e, he, rfl⟩
    obtain ⟨q, f, hne, hf, hdi⟩ := he.2
    obtain ⟨e', he', hdi', hs, -⟩ := h.shared p e he
    obtain ⟨f', hf', hdi'', hs', -⟩ := h.shared q f ⟨hf, p, e, hne.symm, he.1, hdi.symm⟩
    exact ⟨p, q, hne.symm, ⟨e', he', hdi', hs⟩, f', hf', hdi''.trans hdi, hs'⟩
  · rintro ⟨p, q, hne, ⟨e, he, hdi, -⟩, f, hf, hdi', -⟩
    exact ⟨p, e, ⟨he, q, f, hne.symm, hf, hdi'.trans hdi.symm⟩, hdi⟩

theorem mappings (h : SharedApart maps pids) {r : SharedRegion}
    (hr : r ∈ detectSharedRegions orders maps pids) (m : UInt32 × UInt64 × UInt64) :
    m ∈ r.mappings ↔ ∃ p e, MapsFile maps pids p e ∧ e.devInode = r.devInode ∧ e.isShared ∧
      m = (p, e.start, e.end) := by
  rw [mem_mappings hr]
  constructor
  · rintro ⟨p, e, he, hdi, rfl⟩
    obtain ⟨f, hf, hfdi, hs, hstart, hend⟩ := h.shared p e (mapsCommon_of_region hr he hdi)
    exact ⟨p, f, hf, hfdi.trans hdi, hs, by rw [hstart, hend]⟩
  · rintro ⟨p, e, he, hdi, -, rfl⟩
    exact ⟨p, e, he, hdi, rfl⟩

theorem lookup (h : SharedApart maps pids) (addr : UInt64) :
    ((SharedIntervalMap.rebuild orders (detectSharedRegions orders maps pids)).lookup addr).isSome
      ↔ ∃ r ∈ detectSharedRegions orders maps pids, ∃ m ∈ r.mappings,
        m.2.1 ≤ addr ∧ addr < m.2.2 := by
  rw [exists_listed_iff]
  set map := SharedIntervalMap.rebuild orders (detectSharedRegions orders maps pids)
  have hsorted : map.intervals.Pairwise fun a b => a.1 ≤ b.1 := orders.sort_sorted _
  constructor
  · intro hsome
    obtain ⟨i, hi, hin⟩ := isSome_lookup.mp hsome
    have hlast := startsLast_of_getLast? hsorted hi
    exact ⟨i, hlast.mem, hlast.le, hin⟩
  · rintro ⟨r, hr, hrx, hxr⟩
    have hne : (map.intervals.takeWhile fun i => i.1 ≤ addr) ≠ [] := by
      rw [takeWhile_le hsorted addr]
      exact List.ne_nil_of_mem (List.mem_filter.mpr ⟨hr, decide_eq_true hrx⟩)
    obtain ⟨i, hi⟩ := Option.isSome_iff_exists.mp (List.getLast?_isSome.mpr hne)
    refine isSome_lookup.mpr ⟨i, hi, ?_⟩
    have hall : ∀ i, i ∈ map.intervals → i ∈ map.intervals := fun i hi => hi
    refine (answers_iff (fun i => i.1) (fun i => i.2.1) hall).mpr ?_ addr r hr hrx hxr i
      (startsLast_of_getLast? hsorted hi).mem (startsLast_of_getLast? hsorted hi)
    rintro ⟨lo, hi, i⟩ hr ⟨lo', hi', j⟩ ha hle hlt
    obtain ⟨p, e, he, rfl, rfl⟩ := (mem_intervals _).mp ⟨i, hr⟩
    obtain ⟨q, f, hf, rfl, rfl⟩ := (mem_intervals _).mp ⟨j, ha⟩
    refine (h.reaches p q e f he hf hle hlt).imp id fun hlater => ?_
    obtain ⟨s, g, hg, hbetween⟩ := hlater
    obtain ⟨k, hk⟩ := (mem_intervals _).mpr ⟨s, g, hg, rfl, rfl⟩
    exact ⟨_, hk, hbetween⟩

end SharedApart

/-- The detection is exact, whatever the orders, if and only if of the files that several
processes map every mapping is shared, and the mappings listed do not hide one another. -/
theorem detectionExact_iff (maps : Maps) (pids : List UInt32) :
    (∀ orders, DetectionExact orders maps pids) ↔ SharedApart maps pids := by
  constructor
  · intro h
    constructor
    · intro p e he
      exact shared_of_exact (h (ordersKeeping (0, 0, 0))) he
    · intro p q e f he hf hle hlt
      exact reaches_of_exact h he hf hle hlt
  · intro h orders
    exact ⟨h.regions, fun _ hr => h.mappings hr, h.lookup⟩

end Exact

namespace PrivateLibrary

/-- A private mapping of a file. -/
def line : Text :=
  ['1', '0', '-', '2', '0', ' ', 'r', '-', 'x', 'p', ' ', '0', ' ', '8', ':', '1', ' ', '5']

/-- Every process has the one mapping. -/
def maps : Maps := fun _ => some line

def entry : MapEntry where
  start := 0x10
  «end» := 0x20
  perms := [114, 45, 120, 112]
  offset := 0
  devInode := ⟨8, 1, 5⟩
  path := []

theorem readMaps_eq (pid : UInt32) : readMaps maps pid = some [entry] := by
  have hlines : (lines line).filterMap parseMapLine = [entry] := by rfl
  rw [readMaps, maps, Option.map_some, hlines]

/-- Two processes map the file privately: it is reported, and no mapping of it is shared. -/
theorem not_detectionExact : ¬∀ orders maps pids, DetectionExact orders maps pids := by
  intro h
  have hfile (pid : UInt32) (hpid : pid ∈ [1, 2]) : MapsFile maps [1, 2] pid entry :=
    ⟨hpid, ⟨[entry], readMaps_eq pid, List.mem_cons_self⟩, by decide⟩
  have hreported := (exists_region_iff (ordersKeeping (0, 0, 0))).mpr ⟨1, entry,
    ⟨hfile 1 (by decide), 2, entry, by decide, hfile 2 (by decide), rfl⟩, rfl⟩
  obtain ⟨p, q, -, ⟨e, he, -, hshared⟩, -⟩ :=
    ((h (ordersKeeping (0, 0, 0)) maps [1, 2]).regions entry.devInode).mp hreported
  obtain ⟨-, ⟨es, hread, hmem⟩, -⟩ := he
  rw [readMaps_eq] at hread
  obtain rfl := Option.some.inj hread
  rw [List.mem_singleton.mp hmem] at hshared
  exact absurd hshared (by decide)

end PrivateLibrary

end Rtmap.Engine
