import Rtmap.Lib.FlagScan
import Rtmap.Lib.Str

/-!
# The command line of the engine

`main` of `rtmap` and the sub-commands that read arguments, up to what they start: a launch
of the target under the tracer, a replay, a consumer. What `resolve_config` reads from files
and the environment is given.
-/
namespace Rtmap.Cli
open Rtmap.FlagScan

/-- How the program ends before it starts anything. -/
inductive Exit where
  | help (status : ℕ)
  | helpAdvanced
  | version
  | failed (msg : String)
  | panicked
deriving DecidableEq, Repr

abbrev Args := Scan String Exit

def takeFlag (f : String) : Args Bool := .flag f .done

def takeFlagValue (f : String) : Args (Option String) := .value f .done

/-- `while let Some(v) = take_flag_value(args, f)`. -/
def takeFlagValues (f : String) : Args (List String) := .values f .done

/-- A flag at the end of the vector. -/
def requiresValue (f : String) : Exit := .failed (f ++ " requires a value")

structure RunConfig where
  once : Bool
  serverMode : Bool
  recordPath : Option String
  topoPath : Option String
  heatmapPath : Option String
  coveragePath : Option String
  noBb : Bool
  tripwireSymbol : Option String
  allocFns : List (String × ℕ)
  minEvents : Option ℕ
deriving DecidableEq, Repr

structure Config where
  dynamorioHome : Option String := none
  drrunPath : Option String := none
  defaultTopology : Option Bool := none
  defaultHeatmap : Option Bool := none
  defaultMinEvents : Option ℕ := none
deriving DecidableEq, Repr

structure TargetProfile where
  tripwire : Option String := none
  args : List String := []
  topology : Option String := none
  heatmap : Option String := none
  coverage : Option String := none
  minEvents : Option ℕ := none
deriving DecidableEq, Repr

/-- What `resolve_config` returns. -/
structure Env where
  config : Config := {}
  targets : String → Option TargetProfile := fun _ => none

/-- `Path::file_name`. -/
def fileName (path : String) : Option String :=
  match ((path.toList.splitOn '/').filter fun c => c ≠ [] ∧ c ≠ ['.']).getLast? with
  | none => none
  | some c => if c = ['.', '.'] then none else some (String.ofList c)

/-- `Path::file_stem`: the name to its last dot, if that is not its first letter. -/
def fileStem (path : String) : Option String :=
  (fileName path).map fun name =>
    match name.toList.reverse.dropWhile (· ≠ '.') with
    | [] | [_] => name
    | _ :: stem => String.ofList stem.reverse

/-- `resolve_target_profile`. -/
def resolveTargetProfile (env : Env) (target : String) : Option TargetProfile :=
  (env.targets target).orElse fun _ => env.targets ((fileName target).getD target)

/-- A function and the number of its size argument, of `--alloc-fn`. -/
def allocFn (spec : String) : String × ℕ :=
  match spec.toList.dropWhile (· ≠ ':') with
  | [] => (spec, 0)
  | _ :: arg => (String.ofList (spec.toList.takeWhile (· ≠ ':')),
      ((Str.parse arg).filter fun n => n < 2 ^ 32).getD 0)

/-- `take_flag_value` of flags one after the other, until one is there. -/
def firstOf : List String → Args (Option String)
  | [] => pure none
  | f :: fs => do
      match ← takeFlagValue f with
      | some v => pure (some v)
      | none => firstOf fs

def parseCommonFlags : Args RunConfig := do
  let live ← takeFlag "--live"
  let _ ← takeFlag "--once"
  let noBb ← takeFlag "--no-bb"
  let tripwireSymbol ← takeFlagValue "--tripwire"
  let specs ← takeFlagValues "--alloc-fn"
  let recordPath ← firstOf ["--record", "-o", "--output"]
  let topoPath ← firstOf ["--topology", "--export-topology"]
  let heatmapPath ← firstOf ["--heatmap", "--export-heatmap"]
  let coveragePath ← takeFlagValue "--coverage"
  let minEvents ← takeFlagValue "--min-events"
  return {
    once := !live
    serverMode := tripwireSymbol.isSome
    recordPath
    topoPath
    heatmapPath
    coveragePath
    noBb
    tripwireSymbol
    allocFns := (specs.map allocFn).filter fun a => a.1 ≠ ""
    minEvents := minEvents.bind fun v => Str.parse v.toList }

/-- The flags of the commands that launch a target. -/
def runFlags : Args (Option String × RunConfig) := do
  let drHome ← takeFlagValue "--dr-home"
  let cfg ← parseCommonFlags
  return (drHome, cfg)

/-- The sub-commands and sub-modes that launch a target. -/
inductive Launcher where
  | run | record | recordCompat
deriving DecidableEq, Repr

structure Launch where
  launcher : Launcher
  target : String
  targetArgs : List String
  cfg : RunConfig
  resolved : Config
deriving DecidableEq, Repr

structure ReplayCall where
  tracePath : String
  elfPath : Option String
  topoPath : Option String
  noBb : Bool
deriving DecidableEq, Repr

inductive Outcome where
  | exit (e : Exit)
  | setup
  | init (args : List String)
  | replay (r : ReplayCall)
  | attach (elfPath : Option String) (cfg : RunConfig)
  | launch (l : Launch)
deriving DecidableEq, Repr

/-- The resolved configuration with `--dr-home` over it. -/
def withDrHome (drHome : Option String) (c : Config) : Config :=
  match drHome with
  | none => c
  | some dr => { c with drrunPath := some (dr ++ "/bin64/drrun"), dynamorioHome := some dr }

def isPlain (a : String) : Bool := a.toList.head? ≠ some '-'

/-- The first token that does not start with a dash, and what follows it. -/
def selectTarget (args : List String) : Option (String × List String) :=
  match args.dropWhile fun a => !isPlain a with
  | [] => none
  | target :: rest => some (target, rest)

/-- What is behind the first separator. -/
def behindSeparator (args : List String) : Option (List String) :=
  match args.dropWhile (· ≠ "--") with
  | [] => none
  | _ :: rest => some rest

/-- The settings of a target's profile, where the command line has none. -/
def applyProfile (prof : TargetProfile) (cfg : RunConfig) : RunConfig :=
  { cfg with
    tripwireSymbol := cfg.tripwireSymbol.or prof.tripwire
    serverMode := cfg.serverMode || cfg.tripwireSymbol.isNone && prof.tripwire.isSome
    topoPath := cfg.topoPath.or prof.topology
    heatmapPath := cfg.heatmapPath.or prof.heatmap
    coveragePath := cfg.coveragePath.or prof.coverage
    minEvents := cfg.minEvents.or prof.minEvents }

/-- The target's arguments and the configuration: behind a separator, or of the profile. -/
def targetArgs (env : Env) (target : String) (rest : List String) (cfg : RunConfig) :
    List String × RunConfig :=
  match behindSeparator rest with
  | some args => (args, cfg)
  | none =>
      match resolveTargetProfile env target with
      | some prof => (if prof.args ≠ [] then prof.args else rest, applyProfile prof cfg)
      | none => (rest, cfg)

/-- The paths and the number of events that are on by default. -/
def applyDefaults (resolved : Config) (target : String) (cfg : RunConfig) : RunConfig :=
  let base := (fileStem target).getD "rtmap"
  { cfg with
    topoPath := cfg.topoPath.or
      (if resolved.defaultTopology = some true then some (base ++ ".topo.jsonl") else none)
    heatmapPath := cfg.heatmapPath.or
      (if resolved.defaultHeatmap = some true then some (base ++ ".heatmap.tsv") else none)
    minEvents := cfg.minEvents.or resolved.defaultMinEvents }

/-- Go on with what a program makes of the vector. -/
def scanning {α : Type} (p : Args α) (args : List String) (k : α → List String → Outcome) : Outcome :=
  match p.run requiresValue args with
  | .error e => .exit e
  | .ok r => k r.1 r.2

def cmdRun (env : Env) (args : List String) : Outcome :=
  scanning runFlags args fun flags args =>
    let resolved := withDrHome flags.1 env.config
    match selectTarget args with
    | none => .exit (.failed "no target binary specified")
    | some (target, rest) =>
        let r := targetArgs env target rest flags.2
        .launch ⟨.run, target, r.1, applyDefaults resolved target r.2, resolved⟩

/-- What `cmd_record` and `cmd_run_with_record` do with the arguments left. -/
def launchAll (launcher : Launcher) (missing : String) (resolved : Config) (cfg : RunConfig)
    (args : List String) : Outcome :=
  match selectTarget args with
  | none => .exit (.failed missing)
  | some (target, rest) => .launch ⟨launcher, target, rest, cfg, resolved⟩

def cmdRecord (env : Env) (args : List String) : Outcome :=
  scanning runFlags args fun flags args =>
    if flags.2.recordPath.isNone then .exit (.failed "record requires -o <file>")
    else launchAll .record "record requires a target binary" (withDrHome flags.1 env.config)
      flags.2 args

def cmdRunWithRecord (env : Env) (args : List String) (recordPath : String) : Outcome :=
  scanning runFlags args fun flags args =>
    launchAll .recordCompat "no target binary specified" (withDrHome flags.1 env.config)
      { flags.2 with recordPath := some recordPath } args

def cmdRecordCompat (env : Env) (args : List String) : Outcome :=
  scanning (takeFlagValue "--record") args fun path args =>
    match path with
    | none => .exit .panicked
    | some path => cmdRunWithRecord env args path

/-- Take out the first token that does not start with a dash. -/
def takePlain (args : List String) : Option String × List String :=
  (args.find? isPlain, args.eraseP isPlain)

def cmdReplay (args : List String) : Outcome :=
  let flags : Args (Bool × Option String × Option String) := do
    let _ ← takeFlag "--once"
    let noBb ← takeFlag "--no-bb"
    let topoPath ← firstOf ["--topology", "--export-topology"]
    let dwarfPath ← takeFlagValue "--dwarf"
    return (noBb, topoPath, dwarfPath)
  scanning flags args fun flags args =>
    match takePlain args with
    | (none, _) => .exit (.failed "replay requires a trace file")
    | (some tracePath, args) =>
        .replay ⟨tracePath, flags.2.2.orElse fun _ => (takePlain args).1, flags.2.1, flags.1⟩

def cmdAttach (args : List String) : Outcome :=
  let flags : Args (RunConfig × Option String) := do
    let cfg ← parseCommonFlags
    let dwarfPath ← takeFlagValue "--dwarf"
    return (cfg, dwarfPath)
  scanning flags args fun flags args =>
    .attach (flags.2.orElse fun _ => (takePlain args).1) flags.1

def cmdReplayCompat (args : List String) : Outcome :=
  let flags : Args (Option String × Bool × Option String) := do
    let path ← takeFlagValue "--replay"
    let _ ← takeFlag "--once"
    let noBb ← takeFlag "--no-bb"
    let topoPath ← firstOf ["--topology", "--export-topology"]
    return (path, noBb, topoPath)
  scanning flags args fun flags args =>
    match flags.1 with
    | none => .exit .panicked
    | some path => .replay ⟨path, (takePlain args).1, flags.2.2, flags.2.1⟩

/-- The sub-command that a vector without one means. -/
def implied (env : Env) (args : List String) : Outcome :=
  if "--replay" ∈ args then cmdReplayCompat args
  else scanning (takeFlag "--consumer-only") args fun consumer args =>
    if consumer then cmdAttach args
    else if "--record" ∈ args then cmdRecordCompat env args
    else cmdRun env args

/-- The sub-commands by name. -/
def subcommand (env : Env) : String → Option (List String → Outcome)
  | "setup" => some fun _ => .setup
  | "init" => some .init
  | "record" => some (cmdRecord env)
  | "replay" => some cmdReplay
  | "attach" => some cmdAttach
  | "run" => some (cmdRun env)
  | "help" => some fun args =>
      .exit (if args.head? = some "advanced" then .helpAdvanced else .help 0)
  | _ => none

def dispatch (env : Env) : List String → Outcome
  | [] => implied env []
  | first :: rest =>
      match subcommand env first with
      | some cmd => cmd rest
      | none => implied env (first :: rest)

def helpFlags : Args Unit := do
  if ← takeFlag "--help" then Scan.stop (.help 0)
  if ← takeFlag "-h" then Scan.stop (.help 0)
  if ← takeFlag "--version" then Scan.stop .version
  if ← takeFlag "-V" then Scan.stop .version

def main (env : Env) (args : List String) : Outcome :=
  if args = [] then .exit (.help 1)
  else scanning helpFlags args fun _ args => dispatch env args

end Rtmap.Cli
