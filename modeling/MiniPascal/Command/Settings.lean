import MiniPascal.Table
import MiniPascal.Text.Numeral
import MiniPascal.Text.Quoted

/-!
Settings of the command: flags win over environment variables, and these win over the defaults. The
last setting of a flag counts. Values are checked after all of them have been put together.
-/

namespace MiniPascal

inductive Mode where
  | run
  | compile
  | exec
  deriving DecidableEq

inductive LogFormat where
  | text
  | json
  deriving DecidableEq

inductive Color where
  | auto
  | always
  | never
  deriving DecidableEq

def Mode.names : Table Mode := [("run", .run), ("compile", .compile), ("exec", .exec)]

def LogFormat.names : Table LogFormat := [("text", .text), ("json", .json)]

def Color.names : Table Color := [("auto", .auto), ("always", .always), ("never", .never)]

/-- What the command is to do. -/
structure Settings where
  mode : Mode
  /-- Where assembly text goes; none means beside the source. -/
  output : Option Text
  verbose : Bool
  logFormat : LogFormat
  dumpTree : Bool
  maxSteps : Nat
  color : Color
  files : List Text
  deriving DecidableEq

/-- Settings put together but not checked yet. -/
structure Draft where
  mode : Text := "run"
  output : Text := []
  verbose : Bool := false
  logFormat : Text := "text"
  dumpTree : Bool := false
  maxSteps : Int := 0
  color : Text := "auto"
  deriving DecidableEq

/-- One value for one field. -/
inductive Setting where
  | mode (value : Text)
  | output (value : Text)
  | verbose (value : Bool)
  | logFormat (value : Text)
  | dumpTree (value : Bool)
  | maxSteps (value : Int)
  | color (value : Text)
  deriving DecidableEq

inductive UsageError where
  | badSyntax (argument : Text)
  | unknownFlag (name : Text)
  | missingValue (name : Text)
  | badBoolean (value name : Text)
  | badNumber (value name : Text) (problem : Numeral.Problem)
  | badEnvBoolean (variableName value : Text)
  | badEnvNumber (variableName value : Text)
  | invalidMode (value : Text)
  | invalidLogFormat (value : Text)
  | invalidColor (value : Text)
  | negativeSteps (value : Int)
  | noFiles
  | outputForMany (count : Nat)
  | stdinTwice
  deriving DecidableEq

/-- Why there are no settings. -/
inductive LoadError where
  | help
  | usage (error : UsageError)
  deriving DecidableEq

def UsageError.message : UsageError → Text
  | badSyntax argument => "bad flag syntax: " ++ argument
  | unknownFlag name => "flag provided but not defined: -" ++ name
  | missingValue name => "flag needs an argument: -" ++ name
  | badBoolean value name =>
    "invalid boolean value " ++ value.quote ++ " for -" ++ name ++ ": parse error"
  | badNumber value name problem =>
    let reason : Text :=
      match problem with
      | .malformed => "parse error"
      | .outOfRange => "value out of range"
    "invalid value " ++ value.quote ++ " for flag -" ++ name ++ ": " ++ reason
  | badEnvBoolean variableName value => variableName ++ ": invalid boolean " ++ value.quote
  | badEnvNumber variableName value => variableName ++ ": invalid number " ++ value.quote
  | invalidMode value => "invalid mode " ++ value.quote ++ " (want run, compile or exec)"
  | invalidLogFormat value => "invalid log format " ++ value.quote ++ " (want text or json)"
  | invalidColor value =>
    "invalid color setting " ++ value.quote ++ " (want auto, always or never)"
  | negativeSteps value => "max-steps must not be negative, got " ++ Numeral.ofInt value
  | noFiles => "no input files"
  | outputForMany count => "-o needs exactly one input file, got " ++ Numeral.ofNat count
  | stdinTwice => "standard input (-) can only be read once"

def LoadError.message : LoadError → Text
  | help => "flag: help requested"
  | usage error => error.message

namespace Draft

def apply (d : Draft) : Setting → Draft
  | .mode v => { d with mode := v }
  | .output v => { d with output := v }
  | .verbose v => { d with verbose := v }
  | .logFormat v => { d with logFormat := v }
  | .dumpTree v => { d with dumpTree := v }
  | .maxSteps v => { d with maxSteps := v }
  | .color v => { d with color := v }

def applyAll (d : Draft) (settings : List Setting) : Draft := settings.foldl apply d

end Draft

def readBool? (t : Text) : Option Bool :=
  let yes : List Text := ["1", "t", "T", "true", "TRUE", "True"]
  let no : List Text := ["0", "f", "F", "false", "FALSE", "False"]
  if yes.contains t then some true else if no.contains t then some false else none

/-- How the value of a flag is read. -/
inductive FlagKind where
  | text (make : Text → Setting)
  | number (make : Int → Setting)
  | toggle (make : Bool → Setting)

/-- The flags by name. -/
def flagKinds : Table FlagKind := [
  ("mode", .text .mode), ("o", .text .output), ("v", .toggle .verbose),
  ("log-format", .text .logFormat), ("dump-ast", .toggle .dumpTree),
  ("max-steps", .number .maxSteps), ("color", .text .color)]

/-- An argument in front of the file names. -/
inductive Argument where
  /-- The first file name. -/
  | file
  /-- The mark behind which only file names follow. -/
  | endOfFlags
  | malformed
  | flag (name : Text) (value : Option Text)
  deriving DecidableEq

namespace Argument

/-- A flag's text behind its hyphens. -/
def ofFlagText : Text → Argument
  | [] => .malformed
  | g :: rest =>
    if g = .char '-' ∨ g = .char '=' then .malformed
    else
      match Text.cut? '=' rest with
      | some (name, value) => .flag (g :: name) (some value)
      | none => .flag (g :: rest) none

/-- One or two hyphens begin a flag; a hyphen alone is a file. -/
def ofText : Text → Argument
  | .char '-' :: .char '-' :: [] => .endOfFlags
  | .char '-' :: .char '-' :: rest => ofFlagText rest
  | .char '-' :: g :: rest => ofFlagText (g :: rest)
  | _ => .file

end Argument

/-- The setting that a flag with a value makes. -/
def FlagKind.setting (kind : FlagKind) (name value : Text) : Except UsageError Setting :=
  match kind with
  | .text make => .ok (make value)
  | .number make =>
    match Numeral.read .detected 64 value with
    | .ok n => .ok (make n)
    | .error problem => .error (.badNumber value name problem)
  | .toggle make =>
    match readBool? value with
    | some b => .ok (make b)
    | none => .error (.badBoolean value name)

/-- The answer to a flag that is not known. -/
def unknownFlag (name : Text) : LoadError :=
  if name = "help" ∨ name = "h" then .help else .usage (.unknownFlag name)

/-- The settings at the front of the arguments, and the file names behind them. A toggle takes a
value only after an equals sign; any other flag takes the next argument if it has none. -/
def readFlags : List Text → Except LoadError (List Setting × List Text)
  | [] => .ok ([], [])
  | arg :: rest =>
    let andThen (made : Except UsageError Setting)
        (others : Except LoadError (List Setting × List Text)) :
        Except LoadError (List Setting × List Text) :=
      match made with
      | .error e => .error (.usage e)
      | .ok s => others.map fun (ss, files) => (s :: ss, files)
    match Argument.ofText arg with
    | .file => .ok ([], arg :: rest)
    | .endOfFlags => .ok ([], rest)
    | .malformed => .error (.usage (.badSyntax arg))
    | .flag name value =>
      match flagKinds.get? name with
      | none => .error (unknownFlag name)
      | some kind =>
        match value, kind with
        | some v, _ => andThen (kind.setting name v) (readFlags rest)
        | none, .toggle make => andThen (.ok (make true)) (readFlags rest)
        | none, _ =>
          match rest with
          | [] => .error (.usage (.missingValue name))
          | v :: more => andThen (kind.setting name v) (readFlags more)

/-- The environment variables. One that is not set is empty. -/
abbrev EnvVars := Table Text

namespace EnvVars

def value (env : EnvVars) (name : Text) : Text := (env.get? name).getD []

/-- The setting of a variable that holds a text, unless it is empty. -/
def textSetting (env : EnvVars) (name : Text) (make : Text → Setting) : List Setting :=
  if env.value name = [] then [] else [make (env.value name)]

def boolSetting (env : EnvVars) (name : Text) (make : Bool → Setting) :
    Except UsageError (List Setting) :=
  if env.value name = [] then .ok []
  else
    match readBool? (env.value name) with
    | some b => .ok [make b]
    | none => .error (.badEnvBoolean name (env.value name))

def numberSetting (env : EnvVars) (name : Text) (make : Int → Setting) :
    Except UsageError (List Setting) :=
  if env.value name = [] then .ok []
  else
    match Numeral.read .decimal 64 (env.value name) with
    | .ok n => .ok [make n]
    | .error _ => .error (.badEnvNumber name (env.value name))

/-- The variables that hold settings. -/
def names : List Text := [
  "PASCALC_MODE", "PASCALC_OUTPUT", "PASCALC_VERBOSE", "PASCALC_LOG_FORMAT", "PASCALC_DUMP_AST",
  "PASCALC_MAX_STEPS", "PASCALC_COLOR"]

def settings (env : EnvVars) : Except UsageError (List Setting) := do
  let texts := env.textSetting "PASCALC_MODE" .mode ++ env.textSetting "PASCALC_OUTPUT" .output ++
    env.textSetting "PASCALC_LOG_FORMAT" .logFormat ++ env.textSetting "PASCALC_COLOR" .color
  let verbose ← env.boolSetting "PASCALC_VERBOSE" .verbose
  let dumpTree ← env.boolSetting "PASCALC_DUMP_AST" .dumpTree
  let maxSteps ← env.numberSetting "PASCALC_MAX_STEPS" .maxSteps
  return texts ++ verbose ++ dumpTree ++ maxSteps

end EnvVars

/-- Checks a draft together with the file names; the first thing wrong is the error. -/
def Draft.check (d : Draft) (files : List Text) : Except UsageError Settings :=
  match Mode.names.get? d.mode, LogFormat.names.get? d.logFormat, Color.names.get? d.color with
  | none, _, _ => .error (.invalidMode d.mode)
  | _, none, _ => .error (.invalidLogFormat d.logFormat)
  | _, _, none => .error (.invalidColor d.color)
  | some mode, some logFormat, some color =>
    if d.maxSteps < 0 then .error (.negativeSteps d.maxSteps)
    else if files = [] then .error .noFiles
    else if d.output ≠ [] ∧ 1 < files.length then .error (.outputForMany files.length)
    else if 1 < files.count (Text.ofString "-") then .error .stdinTwice
    else
      .ok {
        mode, logFormat, color, files
        output := if d.output = [] then none else some d.output
        verbose := d.verbose
        dumpTree := d.dumpTree
        maxSteps := d.maxSteps.toNat }

/-- The settings that an environment and arguments make. -/
def Settings.load (env : EnvVars) (args : List Text) : Except LoadError Settings :=
  match env.settings with
  | .error e => .error (.usage e)
  | .ok fromEnv =>
    match readFlags args with
    | .error e => .error e
    | .ok (fromFlags, files) =>
      match (Draft.applyAll {} (fromEnv ++ fromFlags)).check files with
      | .error e => .error (.usage e)
      | .ok settings => .ok settings

/-- How the command is used, in the pieces in which it is written. -/
def usage : List Text := [
  "Usage: pascalc [flags] file...\n",
  "A file named - is read from standard input.\n",
  "\n",
  "  -color string\n    \tcolour diagnostics: auto, always or never (default \"auto\")\n",
  "  -dump-ast\n    \tprint the parsed program before running it\n",
  "  -log-format string\n    \tlog as text or json (default \"text\")\n",
  "  -max-steps n\n    \tstop a run after n steps, 0 for no limit\n",
  "  -mode string\n    \trun, compile or exec (default \"run\")\n",
  "  -o path\n    \twrite assembly to path (compile mode, one input)\n",
  "  -v\tlog every stage at debug level\n",
  "\n",
  "Environment: " ++ Text.join ", " EnvVars.names ++ "\n"]

end MiniPascal
