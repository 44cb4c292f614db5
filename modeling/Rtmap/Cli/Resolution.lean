import Rtmap.Cli.ConfigFiles

/-!
# The settings in effect

What the command line, a target's profile and the configuration files set, in the order in which
they are to be heard, and what of it `cmd_run` launches the target with.
-/
namespace Rtmap.Cli
open Rtmap.FlagScan Rtmap.Str

namespace Files
variable (files : Files) {α : Type}

/-- The files with settings, those of higher rank first. -/
def ranked : List ConfigFile :=
  ([files.project, files.global, files.included].filterMap id).map fun contents =>
    configFromMap (parseFlatConfig contents)

/-- A setting of the first file that has it. -/
def setting (get : ConfigFile → Option α) : Option α := files.ranked.findSome? get

/-- What the project's file says of a target, under its path or else under its file name. -/
def profileOf (target : String) : Profile :=
  match files.project with
  | none => {}
  | some contents =>
      let m := parseFlatConfig contents
      given m (if fieldsFor m target ≠ [] then target else (fileName target).getD target)

variable {files}

/-- Laid over each other, the files have the settings of the first that has them. -/
theorem resolveConfig_setting {get : ConfigFile → Option α} (hempty : get {} = none)
    (hmerge : ∀ base overlay, get (mergeConfig base overlay) = (get overlay).or (get base)) :
    get files.resolveConfig.1 = files.setting get := by
  have hglobal : get files.loadGlobalConfig = (files.global.bind fun contents =>
      get (configFromMap (parseFlatConfig contents))).or
        (files.included.bind fun contents => get (configFromMap (parseFlatConfig contents))) := by
    rw [loadGlobalConfig, included]
    cases files.global with
    | none => exact hempty
    | some contents =>
        dsimp only
        rw [Option.bind_some, Option.bind_some]
        cases (configFromMap (parseFlatConfig contents)).includePath.bind files.read with
        | none => exact Option.or_none.symm
        | some inc => exact hmerge _ _
  have hproject : get files.loadProjectConfig.1 = files.project.bind fun contents =>
      get (configFromMap (parseFlatConfig contents)) := by
    rw [loadProjectConfig]
    cases files.project with
    | none => exact hempty
    | some contents => rfl
  have hfirst (l : List (Option Text)) : ((l.filterMap id).map fun contents =>
      configFromMap (parseFlatConfig contents)).findSome? get = l.foldr (fun file settings =>
        (file.bind fun contents => get (configFromMap (parseFlatConfig contents))).or settings)
          none := by
    induction l with
    | nil => rfl
    | cons file l ih =>
        rw [List.foldr_cons, ← ih]
        cases file with
        | none => rfl
        | some contents =>
            have hcons : (some contents :: l).filterMap id = contents :: l.filterMap id := rfl
            rw [hcons, List.map_cons, List.findSome?_cons, Option.bind_some]
            cases get (configFromMap (parseFlatConfig contents)) <;> rfl
  rw [resolveConfig, hmerge, hglobal, hproject, setting, ranked, hfirst, List.foldr_cons,
    List.foldr_cons, List.foldr_cons, List.foldr_nil, Option.or_none]

theorem resolveTargetProfile_env (target : String) :
    (resolveTargetProfile files.env target).getD {} = (files.profileOf target).toTargetProfile := by
  have hsection (m : FlatConfig) (name : String) :
      (((projectConfigFromMap m name).map Profile.toTargetProfile).getD {}) =
        (given m name).toTargetProfile := by
    rw [← projectConfigFromMap_eq]
    cases projectConfigFromMap m name <;> rfl
  rw [resolveTargetProfile, env, resolveConfig, loadProjectConfig, profileOf]
  cases files.project with
  | none => rfl
  | some contents =>
      dsimp only
      rw [← hsection]
      have hempty (name : String) : projectConfigFromMap (parseFlatConfig contents) name = none ↔
          fieldsFor (parseFlatConfig contents) name = [] := by
        rw [projectConfigFromMap]
        cases fieldsFor (parseFlatConfig contents) name <;> simp
      by_cases hfields : fieldsFor (parseFlatConfig contents) target = []
      · rw [if_neg (not_not_intro hfields), (hempty target).mpr hfields]
        rfl
      · obtain ⟨p, hp⟩ := Option.ne_none_iff_exists'.mp fun h => hfields ((hempty target).mp h)
        rw [if_pos hfields, hp]
        rfl

end Files

/-- A path that is set is in effect, and otherwise there is one if it is on by default. -/
def PathInEffect (set : Option String) (on : Option Bool) (path : Option String) : Prop :=
  match set with
  | some p => path = some p
  | none => path.isSome = decide (on = some true)

/-- The command line, or else the profile, or else the first file that has a setting decides;
behind a separator are the target's arguments. -/
structure InEffect (files : Files) (target : String) (rest : List String) (cli : RunConfig)
    (l : Launch) : Prop where
  tripwire : l.cfg.tripwireSymbol = cli.tripwireSymbol.or (files.profileOf target).tripwire
  server : l.cfg.serverMode = l.cfg.tripwireSymbol.isSome
  topology : PathInEffect (cli.topoPath.or (files.profileOf target).topology)
    (files.setting fun c => c.defaultTopology) l.cfg.topoPath
  heatmap : PathInEffect (cli.heatmapPath.or (files.profileOf target).heatmap)
    (files.setting fun c => c.defaultHeatmap) l.cfg.heatmapPath
  coverage : PathInEffect (cli.coveragePath.or (files.profileOf target).coverage)
    (files.setting fun c => c.defaultCoverage) l.cfg.coveragePath
  noBb : l.cfg.noBb = (cli.noBb || ((files.profileOf target).noBb.or
    (files.setting fun c => c.defaultNoBb)).getD false)
  minEvents : l.cfg.minEvents = (cli.minEvents.or (files.profileOf target).minEvents).or
    (files.setting fun c => c.defaultMinEvents)
  others : l.cfg.once = cli.once ∧ l.cfg.recordPath = cli.recordPath ∧
    l.cfg.allocFns = cli.allocFns
  args : l.targetArgs = (behindSeparator rest).getD
    (if (files.profileOf target).args ≠ [] then (files.profileOf target).args else rest)

/-- The profile need not be heard: it has no such setting, or the command line has one, or it is
what there is without it. -/
def Unneeded {α : Type} (cli profile otherwise : Option α) : Prop :=
  profile = none ∨ cli ≠ none ∨ profile = otherwise

/-- No default for coverage or basic blocks, and behind a separator no profile, has to be heard. -/
structure Heard (files : Files) (target : String) (rest : List String) (cli : RunConfig) : Prop where
  noBb : cli.noBb = true ∨ (files.profileOf target).noBb.or
    (files.setting fun c => c.defaultNoBb) ≠ some true
  coverage : cli.coveragePath.or (files.profileOf target).coverage ≠ none ∨
    files.setting (fun c => c.defaultCoverage) ≠ some true
  tripwire : behindSeparator rest ≠ none →
    Unneeded cli.tripwireSymbol (files.profileOf target).tripwire none
  profileCoverage : behindSeparator rest ≠ none →
    Unneeded cli.coveragePath (files.profileOf target).coverage none
  topology : behindSeparator rest ≠ none → Unneeded cli.topoPath (files.profileOf target).topology
    (if files.setting (fun c => c.defaultTopology) = some true then
      some ((fileStem target).getD "rtmap" ++ ".topo.jsonl") else none)
  heatmap : behindSeparator rest ≠ none → Unneeded cli.heatmapPath (files.profileOf target).heatmap
    (if files.setting (fun c => c.defaultHeatmap) = some true then
      some ((fileStem target).getD "rtmap" ++ ".heatmap.tsv") else none)
  minEvents : behindSeparator rest ≠ none →
    Unneeded cli.minEvents (files.profileOf target).minEvents
      (files.setting fun c => c.defaultMinEvents)

section Settings
variable {α : Type} {cli profile otherwise : Option α} {set : Option String}
  {on : Option Bool} {p : String}

theorem unneeded_iff : cli.or otherwise = (cli.or profile).or otherwise ↔
    Unneeded cli profile otherwise := by
  rw [Unneeded]
  cases cli <;> cases profile <;> cases otherwise <;> simp [eq_comm]

theorem unneeded_none_iff : cli = cli.or profile ↔ Unneeded cli profile none := by
  rw [← unneeded_iff, Option.or_none, Option.or_none]

theorem pathInEffect_default :
    PathInEffect set on (set.or (if on = some true then some p else none)) := by
  cases set with
  | some q => rfl
  | none =>
      rw [PathInEffect, Option.none_or]
      split <;> simp [*]

theorem pathInEffect_separated {cli profile : Option String} :
    PathInEffect (cli.or profile) on (cli.or (if on = some true then some p else none)) ↔
      Unneeded cli profile (if on = some true then some p else none) := by
  rw [← unneeded_iff]
  constructor
  · intro h
    cases hset : cli.or profile with
    | some q =>
        rw [hset] at h
        exact h
    | none =>
        obtain ⟨rfl, -⟩ := Option.or_eq_none_iff.mp hset
        rfl
  · intro h
    rw [h]
    exact pathInEffect_default

theorem pathInEffect_self : PathInEffect set on set ↔ set ≠ none ∨ on ≠ some true := by
  cases set <;> simp [PathInEffect, eq_comm]

theorem pathInEffect_cli {cli profile : Option String} : PathInEffect (cli.or profile) on cli ↔
    Unneeded cli profile none ∧ (cli.or profile ≠ none ∨ on ≠ some true) := by
  rw [← unneeded_none_iff]
  constructor
  · intro h
    have hcli : cli = cli.or profile := by
      cases cli with
      | some q => rfl
      | none =>
          cases profile with
          | none => rfl
          | some q => cases h
    refine ⟨hcli, pathInEffect_self.mp ?_⟩
    rw [← hcli] at h ⊢
    exact h
  · rintro ⟨hcli, hset⟩
    have heffect := pathInEffect_self.mpr hset
    rwa [← hcli] at heffect ⊢

theorem noBb_iff {cli : Bool} : cli = (cli || on.getD false) ↔ cli = true ∨ on ≠ some true := by
  cases cli <;> cases on <;> simp

end Settings

section Launches
variable {files : Files} {args args' rest : List String} {drHome : Option String} {cli : RunConfig}
  {target : String}

theorem serverMode_eq (hflags : runFlags.run requiresValue args = .ok ((drHome, cli), args')) :
    cli.serverMode = cli.tripwireSymbol.isSome := by
  have hcommon : parseCommonFlags.Returns fun cfg => cfg.serverMode = cfg.tripwireSymbol.isSome := by
    unfold parseCommonFlags
    iterate 10 refine Scan.returns_bind_any fun _ => ?_
    exact rfl
  have hreturns : runFlags.Returns fun r => r.2.serverMode = r.2.tripwireSymbol.isSome :=
    Scan.returns_bind_any fun _ => Scan.returns_bind hcommon fun _ hcfg => hcfg
  exact Scan.returns_run hreturns hflags

/-- An empty profile is none. -/
theorem targetArgs_eq (env : Env) : targetArgs env target rest cli =
    match behindSeparator rest with
    | some args => (args, cli)
    | none =>
        (if ((resolveTargetProfile env target).getD {}).args ≠ [] then
          ((resolveTargetProfile env target).getD {}).args else rest,
          applyProfile ((resolveTargetProfile env target).getD {}) cli) := by
  rw [targetArgs]
  cases behindSeparator rest with
  | some args => rfl
  | none =>
      cases resolveTargetProfile env target with
      | some prof => rfl
      | none =>
          simp [applyProfile]

theorem cmdRun_eq (env : Env) (hflags : runFlags.run requiresValue args = .ok ((drHome, cli), args'))
    (htarget : selectTarget args' = some (target, rest)) : cmdRun env args =
      .launch ⟨.run, target, (targetArgs env target rest cli).1,
        applyDefaults (withDrHome drHome env.config) target (targetArgs env target rest cli).2,
        withDrHome drHome env.config⟩ := by
  rw [cmdRun, scanning, hflags]
  dsimp only
  rw [htarget]

/-- The launched configuration has the defaults of the files, wherever the tracer is. -/
theorem config_setting {α : Type} {get : Config → Option α}
    (hhome : ∀ c, get (withDrHome drHome c) = get c) (hempty : get {} = none)
    (hmerge : ∀ base overlay : ConfigFile, get (mergeConfig base overlay).toConfig =
      (get overlay.toConfig).or (get base.toConfig)) :
    get (withDrHome drHome files.env.config) = files.setting fun c => get c.toConfig := by
  let getFile (c : ConfigFile) : Option α := get c.toConfig
  have hfiles : getFile files.resolveConfig.1 = files.setting getFile :=
    Files.resolveConfig_setting hempty hmerge
  rw [hhome]
  exact hfiles

theorem defaultTopology_eq : (withDrHome drHome files.env.config).defaultTopology =
    files.setting fun c => c.defaultTopology :=
  config_setting (fun c => by cases drHome <;> rfl) rfl fun _ _ => rfl

theorem defaultHeatmap_eq : (withDrHome drHome files.env.config).defaultHeatmap =
    files.setting fun c => c.defaultHeatmap :=
  config_setting (fun c => by cases drHome <;> rfl) rfl fun _ _ => rfl

theorem defaultMinEvents_eq : (withDrHome drHome files.env.config).defaultMinEvents =
    files.setting fun c => c.defaultMinEvents :=
  config_setting (fun c => by cases drHome <;> rfl) rfl fun _ _ => rfl

/-- Without a separator the profile is heard, and of the defaults not those for coverage and
basic blocks. -/
theorem inEffect_profile_iff (hserver : cli.serverMode = cli.tripwireSymbol.isSome)
    (hsep : behindSeparator rest = none) :
    InEffect files target rest cli ⟨.run, target,
      if (files.profileOf target).args ≠ [] then (files.profileOf target).args else rest,
      applyDefaults (withDrHome drHome files.env.config) target
        (applyProfile (files.profileOf target).toTargetProfile cli),
      withDrHome drHome files.env.config⟩ ↔ Heard files target rest cli := by
  constructor
  · intro h
    exact {
      noBb := noBb_iff.mp h.noBb
      coverage := pathInEffect_self.mp h.coverage
      tripwire := fun hno => absurd hsep hno
      profileCoverage := fun hno => absurd hsep hno
      topology := fun hno => absurd hsep hno
      heatmap := fun hno => absurd hsep hno
      minEvents := fun hno => absurd hsep hno }
  · intro h
    refine ⟨rfl, ?_, ?_, ?_, pathInEffect_self.mpr h.coverage, noBb_iff.mpr h.noBb, ?_,
      ⟨rfl, rfl, rfl⟩, ?_⟩
    · simp only [applyDefaults, applyProfile, hserver]
      cases cli.tripwireSymbol <;> simp
    · simp only [applyDefaults, applyProfile, defaultTopology_eq]
      exact pathInEffect_default
    · simp only [applyDefaults, applyProfile, defaultHeatmap_eq]
      exact pathInEffect_default
    · simp only [applyDefaults, applyProfile, defaultMinEvents_eq]
    · rw [hsep]
      rfl

/-- Behind a separator the profile is not heard. -/
theorem inEffect_separated_iff (hserver : cli.serverMode = cli.tripwireSymbol.isSome)
    {behind : List String} (hsep : behindSeparator rest = some behind) :
    InEffect files target rest cli ⟨.run, target, behind,
      applyDefaults (withDrHome drHome files.env.config) target cli,
      withDrHome drHome files.env.config⟩ ↔ Heard files target rest cli := by
  have hbehind : behindSeparator rest ≠ none := by
    rw [hsep]
    exact Option.some_ne_none behind
  constructor
  · intro h
    have hprofile := pathInEffect_cli.mp h.coverage
    have htopo := h.topology
    have hheat := h.heatmap
    have hmin := h.minEvents
    simp only [applyDefaults, defaultTopology_eq] at htopo
    simp only [applyDefaults, defaultHeatmap_eq] at hheat
    simp only [applyDefaults, defaultMinEvents_eq] at hmin
    exact {
      noBb := noBb_iff.mp h.noBb
      coverage := hprofile.2
      tripwire := fun _ => unneeded_none_iff.mp h.tripwire
      profileCoverage := fun _ => hprofile.1
      topology := fun _ => pathInEffect_separated.mp htopo
      heatmap := fun _ => pathInEffect_separated.mp hheat
      minEvents := fun _ => unneeded_iff.mp hmin }
  · intro h
    refine ⟨unneeded_none_iff.mpr (h.tripwire hbehind), hserver, ?_, ?_,
      pathInEffect_cli.mpr ⟨h.profileCoverage hbehind, h.coverage⟩, noBb_iff.mpr h.noBb, ?_,
      ⟨rfl, rfl, rfl⟩, ?_⟩
    · simp only [applyDefaults, defaultTopology_eq]
      exact pathInEffect_separated.mpr (h.topology hbehind)
    · simp only [applyDefaults, defaultHeatmap_eq]
      exact pathInEffect_separated.mpr (h.heatmap hbehind)
    · simp only [applyDefaults, defaultMinEvents_eq]
      exact unneeded_iff.mpr (h.minEvents hbehind)
    · rw [hsep]
      rfl

/-- What `cmd_run` launches is in effect exactly when nothing has to be heard that it passes
over. -/
theorem inEffect_iff (hflags : runFlags.run requiresValue args = .ok ((drHome, cli), args'))
    (htarget : selectTarget args' = some (target, rest)) :
    (∃ l, cmdRun files.env args = .launch l ∧ l.target = target ∧
      InEffect files target rest cli l) ↔ Heard files target rest cli := by
  have hserver := serverMode_eq hflags
  simp only [cmdRun_eq files.env hflags htarget, Outcome.launch.injEq, exists_eq_left', true_and,
    targetArgs_eq, Files.resolveTargetProfile_env]
  cases hsep : behindSeparator rest with
  | none => exact inEffect_profile_iff hserver hsep
  | some behind => exact inEffect_separated_iff hserver hsep

/-- A project's file and no other. -/
def projectOnly (contents : String) : Files := ⟨none, some contents.toList, fun _ => none⟩

/-- A profile is in effect where there is no separator. -/
theorem tripwire_inEffect : ∃ l, cmdRun (projectOnly "target.s.tripwire=m").env ["--live", "s"] =
    .launch l ∧ l.target = "s" ∧ InEffect (projectOnly "target.s.tripwire=m") "s" []
      ⟨false, false, none, none, none, none, false, none, [], none⟩ l := by
  refine (inEffect_iff rfl rfl).mpr ⟨.inr (by decide), .inr (by decide), ?_, ?_, ?_, ?_, ?_⟩ <;>
    exact fun hno => absurd rfl hno

/-- Behind a separator the target's tripwire is not set. -/
theorem separator_drops_tripwire : ¬ ∀ (files : Files) (args args' rest : List String)
    (drHome : Option String) (cli : RunConfig) (target : String),
    runFlags.run requiresValue args = .ok ((drHome, cli), args') →
      selectTarget args' = some (target, rest) →
        ∃ l, cmdRun files.env args = .launch l ∧ l.target = target ∧
          InEffect files target rest cli l := by
  intro hall
  obtain ⟨l, hl, -, heffect⟩ := hall (projectOnly "target.s.tripwire=m") ["s", "--", "x"]
    ["s", "--", "x"] ["--", "x"] none ⟨true, false, none, none, none, none, false, none, [], none⟩
    "s" rfl rfl
  have hset := heffect.tripwire
  have hprofile : ((projectOnly "target.s.tripwire=m").profileOf "s").tripwire = some "m" := by
    decide
  have hlaunch : cmdRun (projectOnly "target.s.tripwire=m").env ["s", "--", "x"] =
      .launch ⟨.run, "s", ["x"], ⟨true, false, none, none, none, none, false, none, [], none⟩,
        {}⟩ := by decide
  rw [hlaunch] at hl
  cases hl
  rw [hprofile] at hset
  cases hset

end Launches

end Rtmap.Cli
