import MiniPascal.Assembly.Generator
import MiniPascal.Command.Disk
import MiniPascal.Interpreter
import MiniPascal.Machine.Execute
import MiniPascal.Tree.Parser

/-!
The steps of the work on a file: reading and parsing it, interpreting it, generating its assembly text,
and writing that or executing it. A step uses the disk, the input and the output. It may fail, and it
says nothing about it by itself.
-/

namespace MiniPascal

/-- What work on files uses and changes. -/
structure Stock where
  disk : Disk := {}
  input : Input
  stdout : Sink := {}

namespace Command

/-- A source and the name it goes by in diagnostics. -/
structure SourceFile where
  name : Text
  text : Text

/-- The name that stands for standard input or output. -/
def console : Text := "-"

/-- What work on a file fails at. -/
inductive Phase where
  | reading
  | parsing
  | running
  | generating
  | assembling
  | executing
  | saving
  | printing
  deriving DecidableEq

structure Failure where
  phase : Phase
  cause : Diagnostic
  deriving DecidableEq

/-- Why work on a file is broken off: it failed, or its fuel was used up before it came to an end. -/
inductive Stop where
  | failed (failure : Failure)
  | unfinished
  deriving DecidableEq

abbrev Attempt := EStateM Stop Stock

namespace Attempt

def fail {α : Type} (phase : Phase) (cause : Diagnostic) : Attempt α := throw (.failed ⟨phase, cause⟩)

/-- The source at a path, under the name it goes by. -/
def source (path : Text) : Attempt SourceFile := do
  let k ← get
  if path = console then
    let (taken, input) := k.input.takeAll
    set { k with input }
    match taken with
    | .ok text => return ⟨"<stdin>", text⟩
    | .error reason => fail .reading (.during "read standard input" (.other reason))
  else
    match k.disk.read path with
    | .ok text => return ⟨path, text⟩
    | .error e => fail .reading (.during ("read " ++ path) (.other e.message))

def parse (text : Text) : Attempt Program :=
  match Program.ofText text with
  | .error e => fail .parsing e.toDiagnostic
  | .ok program => return program

/-- Writes to standard output, and lets go what it does not take. -/
def display (text : Text) : Attempt Unit :=
  modify fun k =>
    match k.stdout.write text.bytes with
    | .ok stdout => { k with stdout }
    | .error _ => k

/-- Interprets a program. -/
def interpret (fuel : Nat) (maxSteps : Int) (program : Program) : Attempt Unit := do
  let k ← get
  let start : RunState := { input := some k.input, sink := k.stdout }
  let settle (r : RunState) : Stock := { k with input := r.input.getD k.input, stdout := r.sink }
  match Run.program (Limits.ofInts maxSteps 0) fuel program start with
  | .ok _ r => set (settle r)
  | .error e r =>
    set (settle r)
    if e = .outOfFuel then throw .unfinished else fail .running e.toDiagnostic

/-- The assembly text of a program, in its builder. -/
def generate (program : Program) : Attempt Assembly.Builder :=
  let generated := Assembly.generate program
  match generated.error with
  | some e => fail .generating e.toDiagnostic
  | none => return generated.builder

/-- Writes an assembly text to standard output. -/
def print (asm : Text) : Attempt Unit := do
  let k ← get
  match k.stdout.write asm.bytes with
  | .ok stdout => set { k with stdout }
  | .error reason => fail .printing (.during "write assembly" (.other reason))

/-- Writes an assembly text to a file. -/
def save (out asm : Text) : Attempt Unit := do
  let k ← get
  match k.disk.write out asm with
  | .ok disk => set { k with disk }
  | .error e => fail .saving (.during ("write " ++ out) (.other e.message))

def assemble (asm : Text) : Attempt Code :=
  match Code.ofText asm with
  | .error e => fail .assembling (.during "assemble" e.toDiagnostic)
  | .ok code => return code

/-- Executes code, and counts its steps. -/
def execute (fuel : Nat) (maxSteps : Int) (code : Code) : Attempt Nat := do
  let k ← get
  let (error, m) :=
    (Machine.start code (some k.input) k.stdout).run code (stepLimit? maxSteps) fuel
  set { k with input := m.input.getD k.input, stdout := m.sink }
  match error with
  | none => return m.steps
  | some e => if e = .outOfFuel then throw .unfinished else fail .executing e.toDiagnostic

end Attempt

end Command

end MiniPascal
