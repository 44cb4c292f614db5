import Mathlib.Data.List.Nodup
import Rtmap.Cli.Arguments

/-!
# The configuration files

`resolve_config`: the global file with the one it includes, the project's file with the profiles
of its targets, and what is left of them when the project's is laid over the global one.
-/
namespace Rtmap.Cli
open Rtmap.Str

/-- The settings of a file; of the others, those that only `launch` reads are in `Config`. -/
structure ConfigFile extends Config where
  tracerPath : Option String := none
  defaultCoverage : Option Bool := none
  defaultNoBb : Option Bool := none
  includePath : Option String := none
deriving DecidableEq, Repr

/-- A target's section of the project's file. -/
structure Profile extends TargetProfile where
  noBb : Option Bool := none
deriving DecidableEq, Repr

/-- The pairs of a file, each key once. -/
structure FlatConfig where
  entries : List (String × String)
  nodup : (entries.map Prod.fst).Nodup

namespace FlatConfig

def empty : FlatConfig := ⟨[], List.nodup_nil⟩

def get (m : FlatConfig) (key : String) : Option String := m.entries.lookup key

/-- A later value of a key replaces an earlier one. -/
def insert (m : FlatConfig) (key val : String) : FlatConfig where
  entries := m.entries.filter (fun e => e.1 ≠ key) ++ [(key, val)]
  nodup := by
    rw [List.map_append, List.nodup_append]
    refine ⟨(List.filter_sublist.map Prod.fst).nodup m.nodup, List.nodup_singleton key, ?_⟩
    intro k hk k' hk' heq
    obtain ⟨e, he, rfl⟩ := List.mem_map.mp hk
    exact of_decide_eq_true (List.mem_filter.mp he).2 (heq.trans (List.mem_singleton.mp hk'))

end FlatConfig

/-- A line that assigns a value to a key. -/
def assignment (line : Text) : Option (String × String) :=
  let line := trim line
  if line = [] ∨ line.head? = some '#' then none
  else
    (splitOnce '=' line).map fun r => (String.ofList (trim r.1), String.ofList (trim r.2))

/-- `parse_flat_config`. -/
def parseFlatConfig (contents : Text) : FlatConfig :=
  ((lines contents).filterMap assignment).foldl (fun m e => m.insert e.1 e.2) FlatConfig.empty

/-- `parse_bool`; no other letters than ASCII ones have these in lower case. -/
def parseBool (s : String) : Option Bool :=
  let lower := String.ofList (s.toList.map Char.toLower)
  if lower ∈ ["true", "1", "yes", "on"] then some true
  else if lower ∈ ["false", "0", "no", "off"] then some false
  else none

/-- `config_from_map`. -/
def configFromMap (m : FlatConfig) : ConfigFile where
  dynamorioHome := m.get "paths.dynamorio_home"
  tracerPath := m.get "paths.tracer"
  drrunPath := m.get "paths.drrun"
  defaultTopology := (m.get "defaults.topology").bind parseBool
  defaultHeatmap := (m.get "defaults.heatmap").bind parseBool
  defaultCoverage := (m.get "defaults.coverage").bind parseBool
  defaultNoBb := (m.get "defaults.no_bb").bind parseBool
  defaultMinEvents := (m.get "defaults.min_events").bind fun v => parse v.toList
  includePath := m.get "include"

section Split

/-- The words of a line so far, and what of the next one is read. -/
structure Splitter where
  args : List String := []
  current : Text := []
  inSingle : Bool := false
  inDouble : Bool := false
  escapeNext : Bool := false

/-- The word that is being read ends, if it has a letter. -/
def Splitter.flush (s : Splitter) : Splitter :=
  if s.current = [] then s else { s with args := s.args ++ [String.ofList s.current], current := [] }

def Splitter.step (s : Splitter) (ch : Char) : Splitter :=
  if s.escapeNext then { s with current := s.current ++ [ch], escapeNext := false }
  else if ch = '\\' ∧ !s.inSingle then { s with escapeNext := true }
  else if ch = '\'' ∧ !s.inDouble then { s with inSingle := !s.inSingle }
  else if ch = '"' ∧ !s.inSingle then { s with inDouble := !s.inDouble }
  else if (ch = ' ' ∨ ch = '\t') ∧ !s.inSingle ∧ !s.inDouble then s.flush
  else { s with current := s.current ++ [ch] }

/-- `shell_split`. -/
def shellSplit (s : String) : List String := (s.toList.foldl Splitter.step {}).flush.args

end Split

section Profiles

/-- The name and the field of a key `target.name.field`. -/
def targetKey (key : String) : Option (String × String) := do
  let rest ← key.toList.dropPrefix? "target.".toList
  let (name, field) ← rsplitOnce '.' rest
  return (String.ofList name, String.ofList field)

/-- A field of a profile is set. -/
def Profile.set (p : Profile) (field val : String) : Profile :=
  match field with
  | "tripwire" => { p with tripwire := some val }
  | "args" => { p with args := shellSplit val }
  | "topology" => { p with topology := some val }
  | "heatmap" => { p with heatmap := some val }
  | "coverage" => { p with coverage := some val }
  | "no_bb" => { p with noBb := parseBool val }
  | "min_events" => { p with minEvents := parse val.toList }
  | _ => p

/-- The field of the target that a key names. -/
def fieldOf (name key : String) : Option String :=
  (targetKey key).bind fun k => if k.1 = name then some k.2 else none

/-- The fields that a file has for a target, with their values. -/
def fieldsFor (m : FlatConfig) (name : String) : List (String × String) :=
  m.entries.filterMap fun e => (fieldOf name e.1).map fun field => (field, e.2)

/-- `project_config_from_map`. -/
def projectConfigFromMap (m : FlatConfig) (name : String) : Option Profile :=
  match fieldsFor m name with
  | [] => none
  | fields => some (fields.foldl (fun p f => p.set f.1 f.2) {})

end Profiles

/-- `merge_config`. -/
def mergeConfig (base overlay : ConfigFile) : ConfigFile where
  dynamorioHome := overlay.dynamorioHome.or base.dynamorioHome
  tracerPath := overlay.tracerPath.or base.tracerPath
  drrunPath := overlay.drrunPath.or base.drrunPath
  defaultTopology := overlay.defaultTopology.or base.defaultTopology
  defaultHeatmap := overlay.defaultHeatmap.or base.defaultHeatmap
  defaultCoverage := overlay.defaultCoverage.or base.defaultCoverage
  defaultNoBb := overlay.defaultNoBb.or base.defaultNoBb
  defaultMinEvents := overlay.defaultMinEvents.or base.defaultMinEvents
  includePath := overlay.includePath.or base.includePath

/-- The files that are there and can be read: the global one, the project's, and any other under
its path. -/
structure Files where
  global : Option Text
  project : Option Text
  read : String → Option Text

namespace Files
variable (files : Files)

/-- The file that the global one includes. -/
def included : Option Text :=
  files.global.bind fun contents => (configFromMap (parseFlatConfig contents)).includePath.bind files.read

/-- `load_config_from_path` at the global file. -/
def loadGlobalConfig : ConfigFile :=
  match files.global with
  | none => {}
  | some contents =>
      let cfg := configFromMap (parseFlatConfig contents)
      match cfg.includePath.bind files.read with
      | none => cfg
      | some inc => mergeConfig (configFromMap (parseFlatConfig inc)) cfg

/-- `load_project_config`. -/
def loadProjectConfig : ConfigFile × (String → Option Profile) :=
  match files.project with
  | none => ({}, fun _ => none)
  | some contents =>
      let map := parseFlatConfig contents
      (configFromMap map, projectConfigFromMap map)

/-- `resolve_config`. -/
def resolveConfig : ConfigFile × (String → Option Profile) :=
  (mergeConfig files.loadGlobalConfig files.loadProjectConfig.1, files.loadProjectConfig.2)

/-- What the commands take of it. -/
def env : Env where
  config := files.resolveConfig.1.toConfig
  targets := fun name => (files.resolveConfig.2 name).map Profile.toTargetProfile

end Files

section Given
variable {m : FlatConfig} {name field key : String}

/-- The key of a target's field. -/
def fieldKey (name field : String) : String := "target." ++ name ++ "." ++ field

/-- What a file says of a target. -/
def given (m : FlatConfig) (name : String) : Profile where
  tripwire := m.get (fieldKey name "tripwire")
  args := ((m.get (fieldKey name "args")).map shellSplit).getD []
  topology := m.get (fieldKey name "topology")
  heatmap := m.get (fieldKey name "heatmap")
  coverage := m.get (fieldKey name "coverage")
  noBb := (m.get (fieldKey name "no_bb")).bind parseBool
  minEvents := (m.get (fieldKey name "min_events")).bind fun v => parse v.toList

theorem toList_fieldKey (name field : String) : (fieldKey name field).toList =
    "target.".toList ++ (name.toList ++ '.' :: field.toList) := by
  simp [fieldKey]

theorem targetKey_eq_some :
    targetKey key = some (name, field) ↔ key = fieldKey name field ∧ '.' ∉ field.toList := by
  rw [targetKey]
  simp only [Option.bind_eq_bind, Option.pure_def, Option.bind_eq_some_iff,
    dropPrefix?_eq_some_iff_append]
  constructor
  · rintro ⟨rest, hkey, ⟨xs, ys⟩, hsplit, heq⟩
    obtain ⟨rfl, hys⟩ := rsplitOnce_eq_some.mp hsplit
    obtain ⟨rfl, rfl⟩ := Prod.mk.inj (Option.some.inj heq)
    refine ⟨String.toList_injective ?_, by rwa [String.toList_ofList]⟩
    simp only [hkey, toList_fieldKey, String.toList_ofList]
  · rintro ⟨rfl, hfield⟩
    refine ⟨_, toList_fieldKey name field, (name.toList, field.toList),
      rsplitOnce_eq_some.mpr ⟨rfl, hfield⟩, ?_⟩
    rw [String.ofList_toList, String.ofList_toList]

theorem fieldOf_eq_some :
    fieldOf name key = some field ↔ key = fieldKey name field ∧ '.' ∉ field.toList := by
  rw [fieldOf, ← targetKey_eq_some, Option.bind_eq_some_iff]
  constructor
  · rintro ⟨⟨name', field'⟩, htarget, hname⟩
    split_ifs at hname with heq
    obtain rfl : field' = field := Option.some.inj hname
    obtain rfl : name' = name := heq
    exact htarget
  · exact fun htarget => ⟨(name, field), htarget, if_pos rfl⟩

/-- What is renamed is found under its new name, if nothing else comes under it. -/
theorem lookup_filterMap {K K' V : Type} [DecidableEq K] [DecidableEq K'] {f : K → Option K'}
    {k : K} {k' : K'} (hf : ∀ j, f j = some k' ↔ j = k) (l : List (K × V)) :
    (l.filterMap fun e => (f e.1).map fun j => (j, e.2)).lookup k' = l.lookup k := by
  induction l with
  | nil => rfl
  | cons e es ih =>
      rw [List.filterMap_cons, List.lookup_cons]
      by_cases hk : e.1 = k
      · rw [(hf e.1).mpr hk, hk]
        simp
      · have hother : f e.1 ≠ some k' := fun h => hk ((hf e.1).mp h)
        have hne : (k == e.1) = false := beq_false_of_ne (Ne.symm hk)
        rw [hne]
        cases hnew : f e.1 with
        | none => exact ih
        | some j =>
            have hj : (k' == j) = false := beq_false_of_ne fun h => hother (h ▸ hnew)
            rw [Option.map_some]
            dsimp only
            rw [List.lookup_cons, hj]
            exact ih

theorem lookup_fieldsFor (m : FlatConfig) (name : String) (hfield : '.' ∉ field.toList) :
    (fieldsFor m name).lookup field = m.get (fieldKey name field) :=
  lookup_filterMap (fun _ => fieldOf_eq_some.trans (and_iff_left hfield)) m.entries

theorem nodup_fieldsFor (m : FlatConfig) (name : String) :
    ((fieldsFor m name).map Prod.fst).Nodup := by
  have hkeys : (fieldsFor m name).map Prod.fst =
      (m.entries.map Prod.fst).filterMap (fieldOf name) := by
    rw [fieldsFor, List.map_filterMap, List.filterMap_map]
    simp [Function.comp_def]
  rw [hkeys]
  refine m.nodup.filterMap fun key key' field hkey hkey' => ?_
  exact (fieldOf_eq_some.mp hkey).1.trans (fieldOf_eq_some.mp hkey').1.symm

/-- Each field is set by its own name only. -/
theorem Profile.set_frame (p : Profile) (f val : String) :
    (f ≠ "tripwire" → (p.set f val).tripwire = p.tripwire) ∧
    (f ≠ "args" → (p.set f val).args = p.args) ∧
    (f ≠ "topology" → (p.set f val).topology = p.topology) ∧
    (f ≠ "heatmap" → (p.set f val).heatmap = p.heatmap) ∧
    (f ≠ "coverage" → (p.set f val).coverage = p.coverage) ∧
    (f ≠ "no_bb" → (p.set f val).noBb = p.noBb) ∧
    (f ≠ "min_events" → (p.set f val).minEvents = p.minEvents) := by
  unfold Profile.set
  split <;> simp

/-- A field of a profile is what was set last, if each is set once at most. -/
theorem foldl_set {β : Type} (field : String) (proj : Profile → β) (value : String → β)
    (hset : ∀ (p : Profile) val, proj (p.set field val) = value val)
    (hother : ∀ (p : Profile) f val, f ≠ field → proj (p.set f val) = proj p)
    {fields : List (String × String)} (hnodup : (fields.map Prod.fst).Nodup) (p : Profile) :
    proj (fields.foldl (fun p f => p.set f.1 f.2) p) =
      ((fields.lookup field).map value).getD (proj p) := by
  induction fields generalizing p with
  | nil => rfl
  | cons f fs ih =>
      obtain ⟨hfirst, hrest⟩ := List.nodup_cons.mp hnodup
      rw [List.foldl_cons, ih hrest, List.lookup_cons]
      by_cases hf : f.1 = field
      · have hnone : fs.lookup field = none := by
          rw [List.lookup_eq_none_iff]
          intro g hg
          rw [bne_iff_ne]
          exact fun heq => hfirst (List.mem_map.mpr ⟨g, hg, (hf.trans heq).symm⟩)
        rw [hnone, ← hf, beq_self_eq_true, hf]
        exact hset p f.2
      · rw [beq_false_of_ne (Ne.symm hf), hother p f.1 f.2 hf]

/-- The profile of a target is what the file has under its keys. -/
theorem projectConfigFromMap_eq (m : FlatConfig) (name : String) :
    (projectConfigFromMap m name).getD {} = given m name := by
  have hfold : (projectConfigFromMap m name).getD {} =
      (fieldsFor m name).foldl (fun p f => p.set f.1 f.2) {} := by
    rw [projectConfigFromMap]
    cases fieldsFor m name <;> rfl
  have hlookup (field : String) (hfield : '.' ∉ field.toList) {β : Type} (proj : Profile → β)
      (value : String → β) (hset : ∀ (p : Profile) val, proj (p.set field val) = value val)
      (hother : ∀ (p : Profile) f val, f ≠ field → proj (p.set f val) = proj p) :
      proj ((projectConfigFromMap m name).getD {}) =
        ((m.get (fieldKey name field)).map value).getD (proj {}) := by
    rw [hfold, foldl_set field proj value hset hother (nodup_fieldsFor m name),
      lookup_fieldsFor m name hfield]
  have hframe := Profile.set_frame
  have htripwire := hlookup "tripwire" (by decide) (fun p => p.tripwire) some (fun _ _ => rfl)
    fun p f val => (hframe p f val).1
  have hargs := hlookup "args" (by decide) (fun p => p.args) shellSplit (fun _ _ => rfl)
    fun p f val => (hframe p f val).2.1
  have htopology := hlookup "topology" (by decide) (fun p => p.topology) some (fun _ _ => rfl)
    fun p f val => (hframe p f val).2.2.1
  have hheatmap := hlookup "heatmap" (by decide) (fun p => p.heatmap) some (fun _ _ => rfl)
    fun p f val => (hframe p f val).2.2.2.1
  have hcoverage := hlookup "coverage" (by decide) (fun p => p.coverage) some (fun _ _ => rfl)
    fun p f val => (hframe p f val).2.2.2.2.1
  have hnoBb := hlookup "no_bb" (by decide) (fun p => p.noBb) parseBool (fun _ _ => rfl)
    fun p f val => (hframe p f val).2.2.2.2.2.1
  have hminEvents := hlookup "min_events" (by decide) (fun p => p.minEvents)
    (fun val => parse val.toList) (fun _ _ => rfl) fun p f val => (hframe p f val).2.2.2.2.2.2
  have hsome (o : Option String) : (o.map some).getD none = o := by
    cases o <;> rfl
  have hbind {β : Type} (o : Option String) (f : String → Option β) :
      (o.map f).getD none = o.bind f := by
    cases o <;> rfl
  generalize (projectConfigFromMap m name).getD {} = p at *
  obtain ⟨⟨tripwire, args, topology, heatmap, coverage, minEvents⟩, noBb⟩ := p
  rw [hsome] at htripwire htopology hheatmap hcoverage
  rw [hbind] at hnoBb hminEvents
  dsimp only at htripwire hargs htopology hheatmap hcoverage hnoBb hminEvents
  rw [given, htripwire, hargs, htopology, hheatmap, hcoverage, hnoBb, hminEvents]

end Given

end Rtmap.Cli
