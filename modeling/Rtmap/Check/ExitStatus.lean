import Rtmap.Check.Assertions
import Rtmap.Check.RoundTrip

/-!
# The exit status of the checker

The checker exits with status 0 exactly if it can read both files and every assertion
that it parsed holds. A line that it could not parse is only warned about.
-/
namespace Rtmap.Check
open Rtmap.Str

/-- The lines of the content with their numbers. -/
def numberedLines (content : Text) : List (ℕ × Text) :=
  (lines content).zipIdx.map fun x => (x.2 + 1, x.1)

/-- The line was parsed, and its assertion holds. -/
def Holds (g : TopoGraph) (x : ℕ × Text) : Prop :=
  ∃ a, readAssertion x.1 x.2 = .parsed x.1 a ∧ evalOne g a = true

/-- The line was left out with a warning. -/
def Warned (content : Text) (x : ℕ × Text) : Prop :=
  ∃ w ∈ warningsOf content, readAssertion x.1 x.2 = .warned w

/-- What the checker is given: a topology and assertions, in files that it can read. -/
def Given (args : List String) (files : String → Option Text.Bytes) (g : TopoGraph)
    (content : String) : Prop :=
  ∃ program topoPath assertPath more, args = program :: topoPath :: assertPath :: more ∧
    (files topoPath).bind TopoGraph.build = some g ∧
    (files assertPath).bind Text.decode = some content

section Status
variable {g : TopoGraph} {content : Text}

theorem readings_eq (content : Text) :
    readings content = (numberedLines content).map fun x => readAssertion x.1 x.2 := by
  rw [readings, numberedLines, List.map_map]
  rfl

theorem foldl_evaluate (g : TopoGraph) (assertions : List (ℕ × Assertion)) (r : ℕ × ℕ) :
    (assertions.foldl (fun r a => if evalOne g a.2 then (r.1 + 1, r.2) else (r.1, r.2 + 1)) r).2 =
      r.2 + (assertions.filter fun a => !evalOne g a.2).length := by
  induction assertions generalizing r with
  | nil => rfl
  | cons a as ih =>
      rw [List.foldl_cons, ih, List.filter_cons]
      cases evalOne g a.2 <;> simp
      omega

/-- Nothing fails exactly if every assertion holds. -/
theorem evaluate_snd_eq_zero_iff (assertions : List (ℕ × Assertion)) :
    (evaluate g assertions).2 = 0 ↔ ∀ a ∈ assertions, evalOne g a.2 = true := by
  rw [evaluate, foldl_evaluate, Nat.zero_add, List.length_eq_zero_iff, List.filter_eq_nil_iff]
  simp

/-- A line is skipped, parsed under its number or warned about. -/
theorem readAssertion_cases (lineno : ℕ) (line : Text) :
    (isBlankOrComment line = true ∧ readAssertion lineno line = .skipped) ∨
      isBlankOrComment line = false ∧ ((∃ a, readAssertion lineno line = .parsed lineno a) ∨
        ∃ w, readAssertion lineno line = .warned w) := by
  unfold readAssertion
  cases h : isBlankOrComment line with
  | true => exact .inl ⟨rfl, rfl⟩
  | false =>
      refine .inr ⟨rfl, ?_⟩
      rw [if_neg Bool.false_ne_true]
      split
      · dsimp only
        split
        · exact .inl ⟨_, rfl⟩
        · exact .inr ⟨_, rfl⟩
      · exact .inr ⟨_, rfl⟩

theorem mem_assertionsOf {n : ℕ} {a : Assertion} : (n, a) ∈ assertionsOf content ↔
    ∃ x ∈ numberedLines content, readAssertion x.1 x.2 = .parsed n a := by
  rw [assertionsOf, readings_eq, List.mem_filterMap]
  constructor
  · rintro ⟨r, hr, hsome⟩
    obtain ⟨x, hx, rfl⟩ := List.mem_map.mp hr
    refine ⟨x, hx, ?_⟩
    cases hread : readAssertion x.1 x.2 with
    | parsed m b =>
        rw [hread] at hsome
        obtain ⟨rfl, rfl⟩ := Prod.mk.inj (Option.some.inj hsome)
        rfl
    | skipped =>
        rw [hread] at hsome
        cases hsome
    | warned w =>
        rw [hread] at hsome
        cases hsome
  · rintro ⟨x, hx, hread⟩
    exact ⟨_, List.mem_map.mpr ⟨x, hx, hread⟩, rfl⟩

theorem mem_warningsOf {x : ℕ × Text} {w : Warning} (hx : x ∈ numberedLines content)
    (hw : readAssertion x.1 x.2 = .warned w) : w ∈ warningsOf content := by
  rw [warningsOf, readings_eq, List.mem_filterMap]
  exact ⟨_, List.mem_map.mpr ⟨x, hx, hw⟩, rfl⟩

/-- Every assertion holds exactly if each line that is not skipped holds or is warned about. -/
theorem forall_assertionsOf_iff : (∀ a ∈ assertionsOf content, evalOne g a.2 = true) ↔
    ∀ x ∈ numberedLines content, isBlankOrComment x.2 = false → Holds g x ∨ Warned content x := by
  constructor
  · intro h x hx hline
    rcases readAssertion_cases x.1 x.2 with ⟨hskip, -⟩ | ⟨-, ⟨a, ha⟩ | ⟨w, hw⟩⟩
    · rw [hline] at hskip
      cases hskip
    · exact .inl ⟨a, ha, h (x.1, a) (mem_assertionsOf.mpr ⟨x, hx, ha⟩)⟩
    · exact .inr ⟨w, mem_warningsOf hx hw, hw⟩
  · rintro h ⟨n, a⟩ hmem
    obtain ⟨x, hx, hread⟩ := mem_assertionsOf.mp hmem
    rcases readAssertion_cases x.1 x.2 with ⟨-, hskip⟩ | ⟨hline, -⟩
    · rw [hskip] at hread
      cases hread
    · rcases h x hx hline with ⟨b, hb, heval⟩ | ⟨w, -, hw⟩
      · rw [hread] at hb
        obtain ⟨-, rfl⟩ := Reading.parsed.inj hb
        exact heval
      · rw [hread] at hw
        cases hw

/-- The status, once both files are read. -/
theorem main_of_given {program topoPath assertPath : String} {more : List String}
    {files : String → Option Text.Bytes} {content : String}
    (hg : (files topoPath).bind TopoGraph.build = some g)
    (hcontent : (files assertPath).bind Text.decode = some content) :
    main (program :: topoPath :: assertPath :: more) files =
      if (evaluate g (assertionsOf content.toList)).2 > 0 then 1 else 0 := by
  obtain ⟨file, hfile, hdecode⟩ := Option.bind_eq_some_iff.mp hcontent
  have hparse : (files assertPath).bind parseAssertions =
      some (assertionsOf content.toList, warningsOf content.toList) := by
    rw [hfile, Option.bind_some, parseAssertions, hdecode]
    rfl
  rw [main, hg, hparse]

end Status

/-- The checker exits with status 0 exactly if it is given a topology and assertions of
which every line that is neither blank nor a comment holds or is warned about. -/
theorem main_eq_zero_iff (args : List String) (files : String → Option Text.Bytes) :
    main args files = 0 ↔ ∃ g content, Given args files g content ∧
      ∀ x ∈ numberedLines content.toList, isBlankOrComment x.2 = false →
        Holds g x ∨ Warned content.toList x := by
  constructor
  · intro h
    unfold main at h
    split at h
    · rename_i program topoPath assertPath more
      split at h
      · cases h
      · rename_i g hg
        split at h
        · cases h
        · rename_i assertions warnings hparse
          obtain ⟨file, hfile, hfile'⟩ := Option.bind_eq_some_iff.mp hparse
          obtain ⟨content, hdecode, hboth⟩ := Option.map_eq_some_iff.mp hfile'
          obtain ⟨rfl, -⟩ := Prod.mk.inj hboth
          have hcontent : (files assertPath).bind Text.decode = some content := by
            rw [hfile]
            exact hdecode
          refine ⟨g, content, ⟨program, topoPath, assertPath, more, rfl, hg, hcontent⟩, ?_⟩
          apply forall_assertionsOf_iff.mp
          apply (evaluate_snd_eq_zero_iff _).mp
          split at h
          · cases h
          · omega
    · cases h
  · rintro ⟨g, content, ⟨program, topoPath, assertPath, more, rfl, hg, hcontent⟩, hlines⟩
    have hnone := (evaluate_snd_eq_zero_iff _).mpr (forall_assertionsOf_iff.mpr hlines)
    rw [main_of_given hg hcontent, hnone]
    rfl

/-- A run with a hazard passes a gate whose one line is misspelt. -/
theorem main_eq_zero_misspelt :
    ¬ ∀ (args : List String) (files : String → Option Text.Bytes), main args files = 0 →
      ∃ g content, Given args files g content ∧ ∀ x ∈ numberedLines content.toList,
        isBlankOrComment x.2 = false → Holds g x := by
  intro h
  let files (path : String) : Option Text.Bytes :=
    if path = "topo.jsonl" then
      some (Engine.topologyFile [.hazard 5 .outOfBounds 0x10008 16 0x10000 16 8 "node" "next"])
    else some (Text.encode "assert no_hazard")
  have hfile : files "topo.jsonl" = some (Engine.topologyFile
      [.hazard 5 .outOfBounds 0x10008 16 0x10000 16 8 "node" "next"]) := if_pos rfl
  have hg := congrArg (fun file => Option.bind file TopoGraph.build) hfile
  rw [Option.bind_some, build_topologyFile] at hg
  have hcontent : (files "gate.assertions").bind Text.decode = some "assert no_hazard" := by
    simp only [files, if_neg (show "gate.assertions" ≠ "topo.jsonl" by decide), Option.bind_some,
      Text.decode_encode]
  have hnone : assertionsOf "assert no_hazard".toList = [] := by decide
  have hpass : main ["rtmap-check", "topo.jsonl", "gate.assertions"] files = 0 := by
    rw [main_of_given hg hcontent, hnone]
    rfl
  obtain ⟨g', content, ⟨program, topoPath, assertPath, more, hargs, -, hread⟩, hlines⟩ :=
    h _ files hpass
  obtain ⟨-, -, rfl, -⟩ : "rtmap-check" = program ∧ "topo.jsonl" = topoPath ∧
      "gate.assertions" = assertPath ∧ [] = more := by simpa using hargs
  obtain rfl := Option.some.inj (hcontent.symm.trans hread)
  obtain ⟨a, ha, -⟩ := hlines (1, "assert no_hazard".toList) (by decide) (by decide)
  have hwarned : readAssertion 1 "assert no_hazard".toList =
      .warned (.couldNotParse 1 "no_hazard".toList) := by decide
  rw [hwarned] at ha
  cases ha

end Rtmap.Check
