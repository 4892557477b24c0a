import MiniPascal.Command.Attempt
import MiniPascal.Command.Log
import MiniPascal.Text.Quantity
import MiniPascal.Tree.Outline

/-!
The command: what it makes of its arguments, its environment, the files it finds and its input. It
interprets its files, compiles them, or compiles and executes them, and reports what fails. Interpreting
and executing are over at the first file that fails; compiling goes on with the others. A command comes
to an end only if its programs do; how long they may take is given as fuel.
-/

namespace MiniPascal

/-- What the command works on. -/
structure World extends Stock where
  /-- The texts written to standard error, the latest first. -/
  stderr : List Text := []
  /-- Whether standard error is a terminal. -/
  terminal : Bool := false

/-- Everything written to standard error. -/
def World.errors (w : World) : Text := w.stderr.reverse.flatten

abbrev Command := EStateM Command.Stop World

namespace Command

def complain (text : Text) : Command Unit := modify fun w => { w with stderr := text :: w.stderr }

/-- Does a step of which no failure is reported. -/
def quietly {α : Type} (step : Attempt α) : Command α := fun w =>
  match step w.toStock with
  | .ok a k => .ok a { w with toStock := k }
  | .error e k => .error e { w with toStock := k }

def log (s : Settings) (level : Log.Level) (message : Text) (fields : List (Text × Log.Value)) :
    Command Unit :=
  if level.enabled s.verbose then complain (Log.Record.render { level, message, fields } s.logFormat)
  else return

/-- Whether diagnostics are in colour. -/
def useColor (s : Settings) (w : World) : Bool :=
  match s.color with
  | .always => true
  | .never => false
  | .auto => w.terminal

def bold : Text := "\x1b[1m"

def red : Text := "\x1b[31m"

def paint (on : Bool) (style text : Text) : Text :=
  if on then style ++ text ++ "\x1b[0m" else text

/-- The name of a file, with the place in it if that is known. -/
def location (name : Text) (d : Diagnostic) : Text :=
  match d.position? with
  | none => name
  | some p => name ++ ":" ++ p.render

/-- A diagnostic for people: where, what, and the line of the source. -/
def diagnosis (color : Bool) (name source : Text) (d : Diagnostic) : Text :=
  let place := paint color bold (location name d)
  match (d.render source).cut? '\n' with
  | none => place ++ ": " ++ paint color red (d.render source) ++ "\n"
  | some (first, rest) =>
    let more : Text := if rest = [] then [] else rest ++ "\n"
    place ++ ": " ++ paint color red first ++ "\n" ++ more

/-- Does a step of the work on a file, and reports its failure under the name of the file. -/
def reporting {α : Type} (s : Settings) (name source : Text) (step : Attempt α) : Command α := fun w =>
  match quietly step w with
  | .error (.failed f) after =>
    let report := diagnosis (useColor s after) name source f.cause
    .error (.failed f) { after with stderr := report :: after.stderr }
  | result => result

/-- Loads and parses a file. -/
def parse (s : Settings) (path : Text) : Command (SourceFile × Program) := do
  let src ← reporting s path [] (Attempt.source path)
  log s .debug "parsing" [("file", .text src.name), ("size", .text (Quantity.ofBytes src.text.size))]
  let program ← reporting s src.name src.text (Attempt.parse src.text)
  log s .debug "parsed" [
    ("file", .text src.name), ("procedures", .number program.procedures.length)]
  if s.dumpTree then quietly (Attempt.display ((Outline.ofProgram program).render ++ "\n"))
  return (src, program)

/-- Interprets a file. -/
def interpret (fuel : Nat) (s : Settings) (path : Text) : Command Unit := do
  let (src, program) ← parse s path
  reporting s src.name src.text (Attempt.interpret fuel s.maxSteps program)
  log s .debug "ran" [("file", .text src.name)]

/-- Warns of a call that leads nowhere. -/
def warnUnresolved (s : Settings) (src : SourceFile) : List Text → Command Unit
  | [] => return
  | name :: names => do
    log s .warn "call to undeclared procedure" [
      ("file", .text src.name), ("procedure", .text name),
      ("label", .text (Assembly.procedureLabel name))]
    warnUnresolved s src names

/-- The assembly text of a program. -/
def generate (s : Settings) (src : SourceFile) (program : Program) : Command Text := do
  let built ← reporting s src.name src.text (Attempt.generate program)
  warnUnresolved s src built.unresolved
  log s .debug "generated" [
    ("file", .text src.name), ("lines", .number built.lines.length),
    ("size", .text (Quantity.ofBytes built.render.size))]
  return built.render

/-- A path without the extension of its last name. The extension begins at the last dot. -/
def stem (path : Text) : Text :=
  match path.reverse.span fun g => g ≠ .char '.' && g ≠ .char '/' with
  | (_, .char '.' :: rest) => rest.reverse
  | _ => path

/-- Where the assembly text of a file goes: where the settings say, to standard output for standard
input, and else beside the file. -/
def outputPath (path : Text) (output : Option Text) : Text :=
  match output with
  | some out => out
  | none => if path = console then console else stem path ++ ".asm"

def writeAssembly (s : Settings) (src : SourceFile) (out asm : Text) : Command Unit := do
  if out = console then quietly (Attempt.print asm)
  else
    reporting s src.name [] (Attempt.save out asm)
    log s .info "wrote assembly" [
      ("file", .text src.name), ("output", .text out),
      ("size", .text (Quantity.ofBytes asm.size))]

/-- Compiles a file. -/
def compile (s : Settings) (path : Text) : Command Unit := do
  let (src, program) ← parse s path
  let asm ← generate s src program
  writeAssembly s src (outputPath path s.output) asm

/-- Compiles a file and executes its code. -/
def execute (fuel : Nat) (s : Settings) (path : Text) : Command Unit := do
  let (src, program) ← parse s path
  let asm ← generate s src program
  let code ← reporting s src.name [] (Attempt.assemble asm)
  let steps ← reporting s src.name src.text (Attempt.execute fuel s.maxSteps code)
  log s .debug "executed" [
    ("file", .text src.name), ("instructions", .text (Quantity.ofCount steps))]

/-- Does with a file what the settings say. -/
def process (fuel : Nat) (s : Settings) (path : Text) : Command Unit :=
  match s.mode with
  | .run => interpret fuel s path
  | .compile => compile s path
  | .exec => execute fuel s path

/-- Works on the files in turn. Behind a file that fails it goes on only if `goOn` is set, and the first
failure is the result. There is no result if the work on a file is not finished. Where files are worked on
at the same time, this is the course in which each is done before the next one is begun, in the order in
which they are given. -/
def inTurn (goOn : Bool) (one : Text → Command Unit) :
    List Text → World → Option (Option Failure × World)
  | [], w => some (none, w)
  | path :: paths, w =>
    match one path w with
    | .ok _ after => inTurn goOn one paths after
    | .error (.failed f) after =>
      if goOn then (inTurn goOn one paths after).map fun result => (some f, result.2)
      else some (some f, after)
    | .error .unfinished _ => none

/-- Does what the settings say. Only compiling goes on behind a failure. -/
def work (fuel : Nat) (s : Settings) (w : World) : Option (Option Failure × World) :=
  inTurn (s.mode = .compile) (process fuel s) s.files w

def modeName (mode : Mode) : Text :=
  match mode with
  | .run => "run"
  | .compile => "compile"
  | .exec => "exec"

/-- Does an action that cannot fail. -/
def perform (action : Command Unit) (w : World) : World :=
  match action w with
  | .ok _ after => after
  | .error _ after => after

def printAll : List Text → Command Unit
  | [] => return
  | text :: texts => do
    quietly (Attempt.display text)
    printAll texts

/-- The status of a command whose work is done, 0 if all went well and 1 if a file failed. -/
def conclude (s : Settings) : Option Failure × World → Nat × World
  | (none, w) => (0, w)
  | (some f, w) =>
    let note := log s .debug "failed" [
      ("mode", .text (modeName s.mode)), ("error", .text f.cause.message)]
    (1, perform note w)

/-- Runs the command on some fuel. Its status is 2 if it was not used as it should be. There is no result
if a program still runs when the fuel is used up. -/
def runWithin (fuel : Nat) (env : EnvVars) (args : List Text) (w : World) : Option (Nat × World) :=
  match Settings.load env args with
  | .error .help => some (0, perform (printAll usage) w)
  | .error (.usage e) =>
    some (2, perform (complain ("pascalc: " ++ e.message ++ "\n\n" ++ usage.flatten)) w)
  | .ok s => (work fuel s w).map (conclude s)

/-- Runs the command on more fuel than any run uses up in practice. One that still does not end is given
up, with nothing done. -/
def run (env : EnvVars) (args : List Text) (w : World) : Nat × World :=
  (runWithin Run.ampleFuel env args w).getD (1, w)

end Command

end MiniPascal
