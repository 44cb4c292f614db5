import Rtmap.Cli.Arguments

/-!
# The target's arguments

A command line `[options] target -- args` is to launch the target with just these arguments.
The flags are scanned for in the whole vector, so an argument that equals a flag that is not
among the options is taken for it; and `record` passes the separator on.
-/
namespace Rtmap.Cli
open Rtmap.FlagScan

/-- The flags of the program and of the commands that launch. -/
def grammar : Grammar String where
  flags := ["--help", "-h", "--version", "-V", "--live", "--once", "--no-bb", "--consumer-only"]
  valued := ["--dr-home", "--tripwire", "--alloc-fn", "--record", "-o", "--output", "--topology",
    "--export-topology", "--heatmap", "--export-heatmap", "--coverage", "--min-events", "--replay"]
  disjoint := by decide

/-- An option of a launch; its value is neither a flag nor a separator. -/
def RunOption : Opt String → Prop
  | .flag f => f = "--live" ∨ f = "--once" ∨ f = "--no-bb"
  | .valued f v => f ∈ grammar.valued ∧ f ≠ "--replay" ∧
      v ∉ grammar.flags ∧ v ∉ grammar.valued ∧ v ≠ "--"

instance : DecidablePred RunOption
  | .flag _ => inferInstanceAs (Decidable (_ ∨ _))
  | .valued _ _ => inferInstanceAs (Decidable (_ ∧ _))

inductive Mode where
  | bare | run | record
deriving DecidableEq, Repr

def Mode.tokens : Mode → List String
  | bare => []
  | run => ["run"]
  | record => ["record"]

/-- `rtmap [options] target -- args`, or `rtmap run`, or `rtmap record`. -/
structure CommandLine where
  mode : Mode
  opts : List (Opt String)
  target : String
  args : List String
  options : ∀ o ∈ opts, RunOption o
  plain : isPlain target = true

namespace CommandLine

def tokens (c : CommandLine) : List String :=
  c.mode.tokens ++ line c.opts (c.target :: "--" :: c.args)

def withArgs (c : CommandLine) (args : List String) : CommandLine := { c with args }

/-- The target is launched with the arguments, and everything else is as without any. -/
def PassesThrough (c : CommandLine) : Prop :=
  ∀ env, ∃ l, main env c.tokens = .launch l ∧ l.target = c.target ∧ l.targetArgs = c.args ∧
    main env (c.withArgs []).tokens = .launch { l with targetArgs := [] }

end CommandLine

def HELP : List String := ["--help", "-h", "--version", "-V"]

/-- A program that stops at a flag, and goes on otherwise. -/
theorem run_stop {α : Type} (f : String) (e : Exit) (p : Args α) (v : List String) :
    Scan.run requiresValue (.flag f fun b => if b then .stop e else p) v =
      if f ∈ v then .error e else p.run requiresValue v := by
  rw [Scan.run]
  unfold FlagScan.takeFlag
  by_cases h : f ∈ v
  · simp only [h, if_true]
    rfl
  · simp only [h, if_false]
    rfl

theorem helpFlags_run (v : List String) : helpFlags.run requiresValue v =
    if "--help" ∈ v then .error (.help 0) else if "-h" ∈ v then .error (.help 0)
    else if "--version" ∈ v then .error .version else if "-V" ∈ v then .error .version
    else .ok ((), v) := by
  show Scan.run requiresValue (.flag "--help" fun b => if b then .stop (.help 0) else
    .flag "-h" fun b => if b then .stop (.help 0) else
    .flag "--version" fun b => if b then .stop .version else
    .flag "-V" fun b => if b then .stop .version else .done ()) v = _
  simp only [run_stop]
  rfl

/-- A vector without the help flags goes to the dispatch as it is, and no other is launched. -/
theorem main_of_no_help (env : Env) {v : List String} (hne : v ≠ []) (h : ∀ f ∈ HELP, f ∉ v) :
    main env v = dispatch env v := by
  unfold main scanning
  rw [if_neg hne, helpFlags_run, if_neg (h _ (by decide)), if_neg (h _ (by decide)),
    if_neg (h _ (by decide)), if_neg (h _ (by decide))]

theorem main_of_help (env : Env) {v : List String} {f : String} (hf : f ∈ HELP) (hv : f ∈ v)
    (l : Launch) : main env v ≠ .launch l := by
  have herror : ∃ e, helpFlags.run requiresValue v = .error e := by
    rw [helpFlags_run]
    split_ifs with h1 h2 h3 h4
    · exact ⟨_, rfl⟩
    · exact ⟨_, rfl⟩
    · exact ⟨_, rfl⟩
    · exact ⟨_, rfl⟩
    · simp only [HELP, List.mem_cons, List.not_mem_nil, or_false] at hf
      rcases hf with rfl | rfl | rfl | rfl <;> contradiction
  obtain ⟨e, he⟩ := herror
  unfold main scanning
  split_ifs
  · exact Outcome.noConfusion
  · rw [he]
    exact Outcome.noConfusion

theorem within_firstOf {fs : List String} (h : ∀ f ∈ fs, f ∈ grammar.valued) :
    (firstOf fs).Within grammar := by
  induction fs with
  | nil => trivial
  | cons f fs ih =>
      refine ⟨h f List.mem_cons_self, fun v => ?_⟩
      cases v with
      | some v => trivial
      | none => exact ih fun e he => h e (List.mem_cons_of_mem _ he)

theorem within_takeFlag {f : String} (h : f ∈ grammar.flags) : (takeFlag f).Within grammar :=
  ⟨h, fun _ => trivial⟩

theorem within_takeFlagValue {f : String} (h : f ∈ grammar.valued) :
    (takeFlagValue f).Within grammar := ⟨h, fun _ => trivial⟩

theorem within_parseCommonFlags : parseCommonFlags.Within grammar := by
  unfold parseCommonFlags
  refine Scan.within_bind (within_takeFlag (by decide)) fun _ => ?_
  refine Scan.within_bind (within_takeFlag (by decide)) fun _ => ?_
  refine Scan.within_bind (within_takeFlag (by decide)) fun _ => ?_
  refine Scan.within_bind (within_takeFlagValue (by decide)) fun _ => ?_
  refine Scan.within_bind ⟨by decide, fun _ => trivial⟩ fun _ => ?_
  refine Scan.within_bind (within_firstOf (by decide)) fun _ => ?_
  refine Scan.within_bind (within_firstOf (by decide)) fun _ => ?_
  refine Scan.within_bind (within_firstOf (by decide)) fun _ => ?_
  refine Scan.within_bind (within_takeFlagValue (by decide)) fun _ => ?_
  exact Scan.within_bind (within_takeFlagValue (by decide)) fun _ => trivial

theorem within_runFlags : runFlags.Within grammar :=
  Scan.within_bind (within_takeFlagValue (by decide)) fun _ =>
    Scan.within_bind within_parseCommonFlags fun _ => trivial

theorem RunOption.fits {o : Opt String} (h : RunOption o) : o.Fits grammar := by
  cases o with
  | flag f =>
      show f ∈ grammar.flags
      rcases h with rfl | rfl | rfl <;> decide
  | valued f v => exact ⟨h.1, h.2.2.1, h.2.2.2.1⟩

theorem RunOption.not_sep {o : Opt String} (h : RunOption o) : "--" ∉ o.tokens := by
  cases o with
  | flag f =>
      show "--" ∉ [f]
      rcases h with rfl | rfl | rfl <;> decide
  | valued f v =>
      intro hmem
      rcases List.mem_cons.mp hmem with rfl | hv
      · exact absurd h.1 (by decide)
      · exact h.2.2.2.2 (List.mem_singleton.mp hv).symm

/-- A token that does not start with a dash is neither a flag nor a separator. -/
theorem not_flag_of_plain {a : String} (h : isPlain a = true) :
    a ∉ grammar.flags ∧ a ∉ grammar.valued ∧ a ≠ "--" := by
  have hflags : ∀ f ∈ grammar.flags, isPlain f = false := by decide
  have hvalued : ∀ f ∈ grammar.valued, isPlain f = false := by decide
  refine ⟨fun hf => ?_, fun hf => ?_, ?_⟩
  · rw [hflags a hf] at h
    cases h
  · rw [hvalued a hf] at h
    cases h
  · rintro rfl
    exact absurd h (by decide)

section Tokens
variable {opts : List (Opt String)} {target : String}

theorem line_target (back : List String) :
    line opts (target :: back) = line opts [target] ++ back := by
  rw [line, line, List.append_assoc]
  rfl

theorem not_sep_line (hopts : ∀ o ∈ opts, RunOption o) (hplain : isPlain target = true) :
    "--" ∉ line opts [target] := by
  rw [line, List.mem_append, List.mem_flatMap, List.mem_singleton]
  rintro (⟨o, ho, hsep⟩ | hsep)
  · exact (hopts o ho).not_sep hsep
  · exact (not_flag_of_plain hplain).2.2 hsep.symm

/-- The target is selected among the tokens up to it. -/
theorem selectTarget_append {front : List String} (h : ∃ a ∈ front, isPlain a = true)
    (back : List String) : ∃ t rest, selectTarget front = some (t, rest) ∧
      selectTarget (front ++ back) = some (t, rest ++ back) ∧ ∀ a ∈ rest, a ∈ front := by
  induction front with
  | nil =>
      obtain ⟨a, ha, -⟩ := h
      exact absurd ha List.not_mem_nil
  | cons a front ih =>
      unfold selectTarget
      cases ha : isPlain a with
      | true => exact ⟨a, front, by simp [ha], by simp [ha], fun b hb => List.mem_cons_of_mem _ hb⟩
      | false =>
          obtain ⟨b, hb, hplain⟩ := h
          have hb' : b ∈ front := (List.mem_cons.mp hb).resolve_left fun hba => by
            rw [hba, ha] at hplain
            cases hplain
          obtain ⟨t, rest, hfront, hall, hmem⟩ := ih ⟨b, hb', hplain⟩
          refine ⟨t, rest, ?_, ?_, fun c hc => List.mem_cons_of_mem _ (hmem c hc)⟩
          · rw [List.dropWhile_cons_of_pos (by simp [ha])]
            exact hfront
          · rw [List.cons_append, List.dropWhile_cons_of_pos (by simp [ha])]
            exact hall

theorem behindSeparator_append {front : List String} (h : "--" ∉ front) (back : List String) :
    behindSeparator (front ++ "--" :: back) = some back := by
  have hfront : ∀ a ∈ front, decide (a ≠ "--") = true := by
    intro a ha
    exact decide_eq_true fun hsep => h (hsep ▸ ha)
  rw [behindSeparator, List.dropWhile_append_of_pos hfront,
    List.dropWhile_cons_of_neg (by simp)]

/-- What is selected of a scanned vector: a token of the part before the separator. -/
theorem select_line (hopts : ∀ o ∈ opts, RunOption o) (hplain : isPlain target = true)
    (back : List String) : ∃ t front, (selectTarget (line opts [target])).map Prod.fst = some t ∧
      selectTarget (line opts (target :: "--" :: back)) = some (t, front ++ "--" :: back) ∧
      "--" ∉ front := by
  have hsome : ∃ a ∈ line opts [target], isPlain a = true :=
    ⟨target, List.mem_append_right _ List.mem_cons_self, hplain⟩
  obtain ⟨t, front, hfront, hall, hmem⟩ := selectTarget_append hsome ("--" :: back)
  refine ⟨t, front, by rw [hfront]; rfl, ?_, fun h => not_sep_line hopts hplain (hmem _ h)⟩
  rw [line_target]
  exact hall

end Tokens

section Runs
variable {env : Env} {opts : List (Opt String)} {target : String} {args : List String} {l : Launch}

/-- The scan of a launch leaves the target, the separator and at most the arguments. -/
theorem scan_line {α : Type} {p : Args α} (hp : p.Within grammar) (hopts : ∀ o ∈ opts, RunOption o)
    (hplain : isPlain target = true) {a : α} {rest : List String}
    (hrun : p.run requiresValue (line opts (target :: "--" :: args)) = .ok (a, rest)) :
    ∃ opts' back', (∀ o ∈ opts', RunOption o) ∧ rest = line opts' (target :: "--" :: back') ∧
      back'.length ≤ args.length ∧
      ((∃ f ∈ p.misses opts, f ∈ args) → back'.length < args.length) := by
  have htarget := not_flag_of_plain hplain
  have hlead : ∀ t ∈ [target, "--"], t ∉ grammar.flags ∧ t ∉ grammar.valued := by
    intro t ht
    rcases List.mem_cons.mp ht with rfl | ht
    · exact ⟨htarget.1, htarget.2.1⟩
    · rw [List.mem_singleton.mp ht]
      decide
  obtain ⟨opts', back', hsub, hrest⟩ :=
    run_line_ok p hp (fun o ho => (hopts o ho).fits) hlead hrun
  exact ⟨opts', back', fun o ho => hopts o (hsub.subset ho), hrest⟩

theorem misses_not_mem (hplain : isPlain target = true) (h : ∀ f ∈ runFlags.misses opts, f ∉ args) :
    ∀ f ∈ runFlags.misses opts, f ∉ target :: "--" :: args := by
  intro f hf hmem
  have hflag := Scan.mem_misses within_runFlags hf
  rcases List.mem_cons.mp hmem with rfl | hmem
  · exact hflag.elim (not_flag_of_plain hplain).1 (not_flag_of_plain hplain).2.1
  · rcases List.mem_cons.mp hmem with rfl | hmem
    · revert hflag
      decide
    · exact h f hf hmem

/-- `cmd_run` where no argument is a flag that the options miss. -/
theorem cmdRun_line (hopts : ∀ o ∈ opts, RunOption o) (hplain : isPlain target = true)
    (hmiss : ∀ f ∈ runFlags.misses opts, f ∉ args)
    {r : (Option String × RunConfig) × List (Opt String)} (hr : runFlags.runOpts opts = .ok r)
    {t : String}
    (ht : (selectTarget (line r.2 [target])).map Prod.fst = some t) :
    cmdRun env (line opts (target :: "--" :: args)) =
      .launch ⟨.run, t, args, applyDefaults (withDrHome r.1.1 env.config) t r.1.2,
        withDrHome r.1.1 env.config⟩ := by
  have hrun : runFlags.run requiresValue (line opts (target :: "--" :: args)) = _ :=
    run_line runFlags within_runFlags (fun o ho => (hopts o ho).fits) (misses_not_mem hplain hmiss)
  have hleft : ∀ o ∈ r.2, RunOption o := fun o ho => hopts o ((Scan.runOpts_sublist hr).subset ho)
  obtain ⟨t', front, ht', hselect, hfront⟩ := select_line hleft hplain args
  cases ht.symm.trans ht'
  rw [hr] at hrun
  unfold cmdRun scanning
  rw [hrun]
  simp only [Except.map, hselect, targetArgs, behindSeparator_append hfront]

/-- A launch by `cmd_run` with all of the arguments. -/
theorem cmdRun_launch (hopts : ∀ o ∈ opts, RunOption o) (hplain : isPlain target = true)
    (h : cmdRun env (line opts (target :: "--" :: args)) = .launch l) (hargs : l.targetArgs = args) :
    (∀ f ∈ runFlags.misses opts, f ∉ args) ∧ ∃ r, runFlags.runOpts opts = .ok r ∧
      (selectTarget (line r.2 [target])).map Prod.fst = some l.target := by
  have hmiss : ∀ f ∈ runFlags.misses opts, f ∉ args := by
    unfold cmdRun scanning at h
    cases hrun : runFlags.run requiresValue (line opts (target :: "--" :: args)) with
    | error e =>
        rw [hrun] at h
        cases h
    | ok r =>
        obtain ⟨opts', back', hopts', hrest, -, hless⟩ :=
          scan_line within_runFlags hopts hplain hrun
        obtain ⟨t, front, -, hselect, hfront⟩ := select_line hopts' hplain back'
        rw [hrun] at h
        simp only [hrest, hselect, targetArgs, behindSeparator_append hfront] at h
        cases h
        obtain rfl : back' = args := hargs
        exact fun f hf hmem => lt_irrefl _ (hless ⟨f, hf, hmem⟩)
  refine ⟨hmiss, ?_⟩
  have hrun : runFlags.run requiresValue (line opts (target :: "--" :: args)) = _ :=
    run_line runFlags within_runFlags (fun o ho => (hopts o ho).fits) (misses_not_mem hplain hmiss)
  cases hr : runFlags.runOpts opts with
  | error e =>
      rw [hr] at hrun
      unfold cmdRun scanning at h
      rw [hrun] at h
      cases h
  | ok r =>
      have hleft : ∀ o ∈ r.2, RunOption o :=
        fun o ho => hopts o ((Scan.runOpts_sublist hr).subset ho)
      obtain ⟨t, front, ht, -⟩ := select_line hleft hplain args
      rw [cmdRun_line hopts hplain hmiss hr ht] at h
      cases h
      exact ⟨r, rfl, ht⟩

theorem cmdRun_launcher {v : List String} (h : cmdRun env v = .launch l) : l.launcher = .run := by
  unfold cmdRun scanning at h
  split at h
  · cases h
  · dsimp only at h
    split at h
    · cases h
    · cases h
      rfl

/-- The commands that pass on whatever follows the target pass on the separator. -/
theorem launchAll_line (hopts : ∀ o ∈ opts, RunOption o) (hplain : isPlain target = true)
    {launcher : Launcher} {missing : String} {resolved : Config} {cfg : RunConfig}
    (h : launchAll launcher missing resolved cfg (line opts (target :: "--" :: args)) = .launch l) :
    l.launcher = launcher ∧ "--" ∈ l.targetArgs := by
  obtain ⟨t, front, -, hselect, -⟩ := select_line hopts hplain args
  unfold launchAll at h
  rw [hselect] at h
  cases h
  exact ⟨rfl, List.mem_append_right _ List.mem_cons_self⟩

theorem cmdRecord_launch (hopts : ∀ o ∈ opts, RunOption o) (hplain : isPlain target = true)
    (h : cmdRecord env (line opts (target :: "--" :: args)) = .launch l) : "--" ∈ l.targetArgs := by
  unfold cmdRecord scanning at h
  cases hrun : runFlags.run requiresValue (line opts (target :: "--" :: args)) with
  | error e =>
      rw [hrun] at h
      cases h
  | ok r =>
      obtain ⟨opts', back', hopts', hrest, -⟩ := scan_line within_runFlags hopts hplain hrun
      rw [hrun] at h
      dsimp only at h
      split at h
      · cases h
      · rw [hrest] at h
        exact (launchAll_line hopts' hplain h).2

theorem cmdRecordCompat_launch (hopts : ∀ o ∈ opts, RunOption o) (hplain : isPlain target = true)
    (h : cmdRecordCompat env (line opts (target :: "--" :: args)) = .launch l) :
    l.launcher = .recordCompat ∧ "--" ∈ l.targetArgs := by
  unfold cmdRecordCompat scanning at h
  cases hfirst : (takeFlagValue "--record").run requiresValue
      (line opts (target :: "--" :: args)) with
  | error e =>
      rw [hfirst] at h
      cases h
  | ok r =>
      obtain ⟨opts', back', hopts', hrest, -⟩ :=
        scan_line (within_takeFlagValue (by decide)) hopts hplain hfirst
      rw [hfirst] at h
      dsimp only at h
      split at h
      · cases h
      · rw [hrest] at h
        unfold cmdRunWithRecord scanning at h
        cases hrun : runFlags.run requiresValue (line opts' (target :: "--" :: back')) with
        | error e =>
            rw [hrun] at h
            cases h
        | ok q =>
            obtain ⟨opts'', back'', hopts'', hrest', -⟩ :=
              scan_line within_runFlags hopts' hplain hrun
            rw [hrun] at h
            dsimp only at h
            rw [hrest'] at h
            exact launchAll_line hopts'' hplain h

end Runs

section Implied
variable {env : Env} {v : List String} {l : Launch}

/-- A vector without a sub-command launches by `cmd_run` or by `cmd_record_compat`. -/
theorem implied_launch (h : implied env v = .launch l) :
    "--replay" ∉ v ∧ "--consumer-only" ∉ v ∧
      if "--record" ∈ v then cmdRecordCompat env v = .launch l else cmdRun env v = .launch l := by
  have hreplay : "--replay" ∉ v := by
    intro hmem
    rw [implied, if_pos hmem] at h
    unfold cmdReplayCompat scanning at h
    dsimp only at h
    split at h
    · cases h
    · split at h <;> cases h
  rw [implied, if_neg hreplay] at h
  have hconsumer : "--consumer-only" ∉ v := by
    intro hmem
    have htake : (takeFlag "--consumer-only").run requiresValue v =
        .ok (true, v.erase "--consumer-only") := by
      show Except.ok (FlagScan.takeFlag "--consumer-only" v) = _
      rw [FlagScan.takeFlag, if_pos hmem]
    rw [scanning, htake] at h
    dsimp only at h
    rw [if_pos rfl] at h
    unfold cmdAttach scanning at h
    dsimp only at h
    split at h <;> cases h
  have htake : (takeFlag "--consumer-only").run requiresValue v = .ok (false, v) := by
    show Except.ok (FlagScan.takeFlag "--consumer-only" v) = _
    rw [FlagScan.takeFlag, if_neg hconsumer]
  rw [scanning, htake] at h
  dsimp only at h
  rw [if_neg Bool.false_ne_true] at h
  refine ⟨hreplay, hconsumer, ?_⟩
  split_ifs at h ⊢
  · exact h
  · exact h

theorem implied_run (hreplay : "--replay" ∉ v) (hconsumer : "--consumer-only" ∉ v)
    (hrecord : "--record" ∉ v) : implied env v = cmdRun env v := by
  have htake : (takeFlag "--consumer-only").run requiresValue v = .ok (false, v) := by
    show Except.ok (FlagScan.takeFlag "--consumer-only" v) = _
    rw [FlagScan.takeFlag, if_neg hconsumer]
  rw [implied, if_neg hreplay, scanning, htake]
  dsimp only
  rw [if_neg Bool.false_ne_true, if_neg hrecord]

end Implied

def SUBCOMMANDS : List String := ["setup", "init", "record", "replay", "attach", "run", "help"]

theorem subcommand_eq_none {first : String} (h : first ∉ SUBCOMMANDS) (env : Env) :
    subcommand env first = none := by
  unfold subcommand
  split <;> first | rfl | exact absurd (by decide) h

/-- A sub-command for a target launches nothing when it has no arguments. -/
theorem dispatch_subcommand {target : String} (h : target ∈ SUBCOMMANDS) (env : Env) (l : Launch) :
    dispatch env [target, "--"] ≠ .launch l := by
  simp only [SUBCOMMANDS, List.mem_cons, List.not_mem_nil, or_false] at h
  rcases h with rfl | rfl | rfl | rfl | rfl | rfl | rfl <;> exact Outcome.noConfusion

theorem RunOption.name_not_mem {o : Opt String} (h : RunOption o) : o.name ∉ HELP ∧
    o.name ≠ "--replay" ∧ o.name ≠ "--consumer-only" ∧ o.name ∉ SUBCOMMANDS := by
  cases o with
  | flag f =>
      show f ∉ HELP ∧ _
      rcases h with rfl | rfl | rfl <;> decide
  | valued f v =>
      have hvalued : ∀ n ∈ grammar.valued, n ∉ HELP ∧ n ≠ "--consumer-only" ∧ n ∉ SUBCOMMANDS := by
        decide
      have hf := hvalued f h.1
      exact ⟨hf.1, h.2.1, hf.2.1, hf.2.2⟩

namespace CommandLine
variable (c : CommandLine)

/-- The flags that the program looks for and does not find among the options. -/
def sought : List String :=
  HELP ++ (if c.mode = .bare then ["--replay", "--consumer-only", "--record"] else []) ++
    runFlags.misses c.opts

example : runFlags.misses [] = ["--dr-home", "--live", "--once", "--no-bb", "--tripwire",
    "--alloc-fn", "--record", "-o", "--output", "--topology", "--export-topology", "--heatmap",
    "--export-heatmap", "--coverage", "--min-events"] := rfl

/-- The command line is not one of `record`, the options leave no other target, and no
argument is a flag that is looked for and not found among them. -/
structure Clean : Prop where
  mode : c.mode ≠ .record
  command : c.mode = .bare → c.opts = [] → c.target ∉ SUBCOMMANDS
  record : c.mode = .bare → ∀ o ∈ c.opts, o.name ≠ "--record"
  selected : ∃ r, runFlags.runOpts c.opts = .ok r ∧
    (selectTarget (line r.2 [c.target])).map Prod.fst = some c.target
  args : ∀ f ∈ c.sought, f ∉ c.args

theorem tokens_ne_nil : c.tokens ≠ [] := by
  rw [tokens, line, ← List.append_assoc]
  exact List.append_ne_nil_of_right_ne_nil _ (List.cons_ne_nil _ _)

theorem mem_tokens {f : String} (hf : f ∈ grammar.flags ∨ f ∈ grammar.valued) :
    f ∈ c.tokens ↔ (∃ o ∈ c.opts, o.name = f) ∨ f ∈ c.args := by
  have hmode : f ∉ c.mode.tokens := by
    intro h
    have hnot : ∀ m : Mode, ∀ t ∈ m.tokens, t ∉ grammar.flags ∧ t ∉ grammar.valued := by
      rintro (- | - | -) <;> decide
    exact hf.elim (hnot _ f h).1 (hnot _ f h).2
  have htarget : f ≠ c.target := by
    rintro rfl
    exact hf.elim (not_flag_of_plain c.plain).1 (not_flag_of_plain c.plain).2.1
  have hsep : f ≠ "--" := by
    rintro rfl
    revert hf
    decide
  rw [tokens, List.mem_append, mem_line (fun o ho => (c.options o ho).fits) hf, List.mem_cons,
    List.mem_cons]
  simp only [hmode, htarget, hsep, false_or]

theorem help_mem_tokens {f : String} (hf : f ∈ HELP) : f ∈ c.tokens ↔ f ∈ c.args := by
  have hflag : ∀ n ∈ HELP, n ∈ grammar.flags := by decide
  rw [c.mem_tokens (.inl (hflag f hf)), or_iff_right]
  rintro ⟨o, ho, rfl⟩
  exact (c.options o ho).name_not_mem.1 hf

/-- Without a help flag behind the separator the vector goes to the dispatch. -/
theorem main_tokens (h : ∀ f ∈ HELP, f ∉ c.args) (env : Env) :
    main env c.tokens = dispatch env c.tokens :=
  main_of_no_help env c.tokens_ne_nil fun f hf hmem => h f hf ((c.help_mem_tokens hf).mp hmem)

/-- A bare command line that does not start with a sub-command. -/
theorem dispatch_bare (hmode : c.mode = .bare) (h : c.opts = [] → c.target ∉ SUBCOMMANDS)
    (env : Env) : dispatch env c.tokens = implied env c.tokens := by
  have hfirst : ∃ first rest, c.tokens = first :: rest ∧ first ∉ SUBCOMMANDS := by
    rw [tokens, hmode]
    cases hopts : c.opts with
    | nil => exact ⟨c.target, _, rfl, h hopts⟩
    | cons o opts =>
        have ho := (c.options o (hopts ▸ List.mem_cons_self)).name_not_mem.2.2.2
        rw [line_cons]
        cases o with
        | flag f => exact ⟨f, _, rfl, ho⟩
        | valued f v => exact ⟨f, _, rfl, ho⟩
  obtain ⟨first, rest, htokens, hnot⟩ := hfirst
  rw [htokens, dispatch, subcommand_eq_none hnot]

/-- What `record` launches has the separator among its arguments. -/
theorem sep_mem_of_record (hmode : c.mode = .record) {env : Env} {l : Launch}
    (h : dispatch env c.tokens = .launch l) : "--" ∈ l.targetArgs := by
  rw [tokens, hmode] at h
  exact cmdRecord_launch c.options c.plain h

/-- What a bare command line launches with all of its arguments and as if it had none is
launched by `cmd_run`. -/
theorem bare_launch (hmode : c.mode = .bare) {env : Env} {l : Launch}
    (h : dispatch env c.tokens = .launch l)
    (hnone : dispatch env (c.withArgs []).tokens = .launch { l with targetArgs := [] }) :
    (c.opts = [] → c.target ∉ SUBCOMMANDS) ∧ (∀ o ∈ c.opts, o.name ≠ "--record") ∧
      (∀ f ∈ ["--replay", "--consumer-only", "--record"], f ∉ c.args) ∧
      cmdRun env c.tokens = .launch l := by
  have hcommand : c.opts = [] → c.target ∉ SUBCOMMANDS := by
    intro hopts hsub
    have htokens : (c.withArgs []).tokens = [c.target, "--"] := by
      show c.mode.tokens ++ line c.opts [c.target, "--"] = _
      rw [hmode, hopts]
      rfl
    rw [htokens] at hnone
    exact dispatch_subcommand hsub env _ hnone
  rw [c.dispatch_bare hmode hcommand] at h
  rw [(c.withArgs []).dispatch_bare hmode hcommand] at hnone
  obtain ⟨hreplay, hconsumer, hcmd⟩ := implied_launch h
  obtain ⟨-, -, hcmd'⟩ := implied_launch hnone
  have hrecord : ∀ o ∈ c.opts, o.name ≠ "--record" := by
    intro o ho hname
    rw [if_pos (((c.withArgs []).mem_tokens (by decide)).mpr (.inl ⟨o, ho, hname⟩)), tokens,
      show (c.withArgs []).mode = .bare from hmode] at hcmd'
    exact absurd (cmdRecordCompat_launch c.options c.plain hcmd').2 List.not_mem_nil
  have hnot : "--record" ∉ (c.withArgs []).tokens := by
    rw [mem_tokens _ (by decide)]
    rintro (⟨o, ho, hname⟩ | hmem)
    · exact hrecord o ho hname
    · exact absurd hmem List.not_mem_nil
  rw [if_neg hnot] at hcmd'
  have hargs : "--record" ∉ c.args := by
    intro hmem
    rw [if_pos ((c.mem_tokens (by decide)).mpr (.inr hmem)), tokens, hmode] at hcmd
    have hcompat := (cmdRecordCompat_launch c.options c.plain hcmd).1
    have hrun : l.launcher = .run := cmdRun_launcher (l := { l with targetArgs := [] }) hcmd'
    rw [hcompat] at hrun
    cases hrun
  refine ⟨hcommand, hrecord, ?_, ?_⟩
  · intro f hf hmem
    simp only [List.mem_cons, List.not_mem_nil, or_false] at hf
    rcases hf with rfl | rfl | rfl
    · exact hreplay ((c.mem_tokens (by decide)).mpr (.inr hmem))
    · exact hconsumer ((c.mem_tokens (by decide)).mpr (.inr hmem))
    · exact hargs hmem
  · rwa [if_neg fun hmem => ((c.mem_tokens (by decide)).mp hmem).elim
      (fun ⟨o, ho, hname⟩ => hrecord o ho hname) hargs] at hcmd

theorem clean_of_passesThrough (h : c.PassesThrough) : c.Clean := by
  obtain ⟨l, hmain, htarget, hargs, hnone⟩ := h {}
  have hhelp : ∀ f ∈ HELP, f ∉ c.args := fun f hf hmem =>
    main_of_help {} hf ((c.help_mem_tokens hf).mpr hmem) l hmain
  rw [c.main_tokens hhelp] at hmain
  rw [(c.withArgs []).main_tokens fun _ _ => List.not_mem_nil] at hnone
  have hrun (hcmd : cmdRun {} (line c.opts (c.target :: "--" :: c.args)) = .launch l) :
      (∀ f ∈ runFlags.misses c.opts, f ∉ c.args) ∧ ∃ r, runFlags.runOpts c.opts = .ok r ∧
        (selectTarget (line r.2 [c.target])).map Prod.fst = some c.target := by
    have hlaunch := cmdRun_launch c.options c.plain hcmd hargs
    rwa [htarget] at hlaunch
  cases hmode : c.mode with
  | record =>
      exact absurd ((c.withArgs []).sep_mem_of_record hmode hnone) List.not_mem_nil
  | run =>
      rw [tokens, hmode] at hmain
      obtain ⟨hmiss, hselected⟩ := hrun hmain
      refine ⟨?_, ?_, ?_, hselected, ?_⟩
      · rw [hmode]
        exact Mode.noConfusion
      · rw [hmode]
        exact Mode.noConfusion
      · rw [hmode]
        exact Mode.noConfusion
      · unfold sought
        rw [hmode, if_neg Mode.noConfusion, List.append_nil]
        intro f hf
        exact (List.mem_append.mp hf).elim (hhelp f) (hmiss f)
  | bare =>
      obtain ⟨hcommand, hrecord, hmodes, hcmd⟩ := c.bare_launch hmode hmain hnone
      rw [tokens, hmode] at hcmd
      obtain ⟨hmiss, hselected⟩ := hrun hcmd
      refine ⟨?_, fun _ => hcommand, fun _ => hrecord, hselected, ?_⟩
      · rw [hmode]
        exact Mode.noConfusion
      · unfold sought
        rw [if_pos hmode]
        intro f hf
        rcases List.mem_append.mp hf with hf | hf
        · exact (List.mem_append.mp hf).elim (hhelp f) (hmodes f)
        · exact hmiss f hf

/-- A clean command line comes to `cmd_run`. -/
theorem main_of_clean (h : c.Clean) (env : Env) :
    main env c.tokens = cmdRun env (line c.opts (c.target :: "--" :: c.args)) := by
  have hhelp : ∀ f ∈ HELP, f ∉ c.args := fun f hf =>
    h.args f (List.mem_append_left _ (List.mem_append_left _ hf))
  rw [c.main_tokens hhelp]
  cases hmode : c.mode with
  | record => exact absurd hmode h.mode
  | run =>
      rw [tokens, hmode]
      rfl
  | bare =>
      have hnot : ∀ f ∈ ["--replay", "--consumer-only", "--record"], f ∉ c.args := by
        intro f hf
        refine h.args f (List.mem_append_left _ (List.mem_append_right _ ?_))
        rw [if_pos hmode]
        exact hf
      have habsent {f : String} (hf : f ∈ ["--replay", "--consumer-only", "--record"])
          (hflag : f ∈ grammar.flags ∨ f ∈ grammar.valued)
          (hname : ∀ o ∈ c.opts, o.name ≠ f) : f ∉ c.tokens := by
        rw [c.mem_tokens hflag]
        rintro (⟨o, ho, heq⟩ | hmem)
        · exact hname o ho heq
        · exact hnot f hf hmem
      rw [c.dispatch_bare hmode (h.command hmode), implied_run
        (habsent (by decide) (by decide) fun o ho => (c.options o ho).name_not_mem.2.1)
        (habsent (by decide) (by decide) fun o ho => (c.options o ho).name_not_mem.2.2.1)
        (habsent (by decide) (by decide) (h.record hmode)), tokens, hmode]
      rfl

/-- A target is launched with just its arguments, whatever they are, if and only if the
command line is clean. -/
theorem passesThrough_iff : c.PassesThrough ↔ c.Clean := by
  refine ⟨c.clean_of_passesThrough, fun h env => ?_⟩
  obtain ⟨r, hr, ht⟩ := h.selected
  have hnone : (c.withArgs []).Clean :=
    ⟨h.mode, h.command, h.record, h.selected, fun _ _ => List.not_mem_nil⟩
  have hmiss : ∀ f ∈ runFlags.misses c.opts, f ∉ c.args := fun f hf =>
    h.args f (List.mem_append_right _ hf)
  have hlaunch := @cmdRun_line env c.opts c.target c.args c.options c.plain hmiss r hr c.target ht
  refine ⟨_, (c.main_of_clean h env).trans hlaunch, rfl, rfl, ?_⟩
  rw [(c.withArgs []).main_of_clean hnone]
  exact @cmdRun_line env c.opts c.target [] c.options c.plain (fun _ _ => List.not_mem_nil) r hr
    c.target ht

/-- `rtmap ./server -- --live --port 9999`. -/
def serve : CommandLine where
  mode := .bare
  opts := []
  target := "./server"
  args := ["--live", "--port", "9999"]
  options := by simp
  plain := by decide

/-- The server is launched without its `--live`. -/
theorem serve_not_passesThrough : ¬ ∀ c : CommandLine, c.PassesThrough := by
  intro hall
  obtain ⟨l, hmain, -, hargs, -⟩ := hall serve {}
  have hlaunched : ∃ cfg resolved, main {} serve.tokens =
      .launch ⟨.run, "./server", ["--port", "9999"], cfg, resolved⟩ := ⟨_, _, rfl⟩
  obtain ⟨cfg, resolved, hlaunched⟩ := hlaunched
  cases hlaunched.symm.trans hmain
  exact absurd (show ["--port", "9999"] = ["--live", "--port", "9999"] from hargs) (by decide)

end CommandLine

end Rtmap.Cli
