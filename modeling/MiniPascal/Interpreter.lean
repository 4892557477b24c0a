import MiniPascal.Diagnostic
import MiniPascal.Env
import MiniPascal.Input
import MiniPascal.Sink
import MiniPascal.Tree.Printer
import MiniPascal.Value

/-!
The interpreter. A procedure runs in a scope inside its caller's, so that a name it does not bind is
looked for among the names of its callers. Running out of fuel is an outcome of its own: it says
nothing about the program, and with more fuel it goes away or turns into another outcome.
-/

namespace MiniPascal

structure Limits where
  /-- The statements that a run may execute, if there is a limit. -/
  steps : Option Nat := none
  /-- The calls that may be in progress at once. -/
  depth : Nat := 10000

/-- A limit on steps as a plain number, which sets none unless it is positive. -/
def stepLimit? (n : Int) : Option Nat := if 0 < n then some n.toNat else none

/-- Limits as plain numbers. A depth that is not positive stands for the usual one. -/
def Limits.ofInts (steps depth : Int) : Limits :=
  let usual : Limits := {}
  { steps := stepLimit? steps, depth := if 0 < depth then depth.toNat else usual.depth }

/-- Why a run stops at a place in the program. -/
inductive RunCause where
  | stepLimit (limit : Nat)
  | depthLimit (limit : Nat) (name : Text)
  | undefinedProcedure (name : Text)
  | arity (name : Text) (expected found : Nat)
  | operator (error : OperatorError) (expr : Text)
  | noInput
  | input (error : InputError)
  | cannotExecute
  | cannotEvaluate
  deriving DecidableEq

inductive RunError where
  | stopped (cause : RunCause) (pos : Position)
  | output (reason : Text)
  | outOfFuel
  deriving DecidableEq

def arityMessage (name : Text) (expected found : Nat) : Text :=
  "procedure " ++ name ++ " expects " ++ Numeral.ofNat expected ++ " argument(s), got " ++
    Numeral.ofNat found

def RunCause.toDiagnostic (pos : Position) : RunCause → Diagnostic
  | stepLimit limit => .runtime ("step limit of " ++ Numeral.ofNat limit ++ " exceeded") pos
  | depthLimit limit name =>
    .runtime ("call depth limit of " ++ Numeral.ofNat limit ++ " exceeded in " ++ name) pos
  | undefinedProcedure name => .undefinedProcedure name pos
  | arity name expected found => .runtime (arityMessage name expected found) pos
  | operator error expr => .runtime (error.message ++ " in " ++ expr) pos
  | noInput => .runtime "READLN: no input" pos
  | input .atEnd => .runtime "READLN: unexpected end of input" pos
  | input error => .runtime ("READLN: " ++ error.message) pos
  | cannotExecute => .runtime "cannot execute <nil>" pos
  | cannotEvaluate => .runtime "cannot evaluate <nil>" pos

def RunError.toDiagnostic : RunError → Diagnostic
  | stopped cause pos => cause.toDiagnostic pos
  | output reason => .during "write output" (.other reason)
  | outOfFuel => .other "out of fuel"

structure RunState where
  env : Env := .root
  /-- The statements executed so far. The count is a whole number: no run is taken to be so long that a
  counter of 64 bits would wrap. -/
  steps : Nat := 0
  /-- The calls in progress. -/
  depth : Nat := 0
  input : Option Input := none
  sink : Sink := {}

abbrev Run := EStateM RunError RunState

namespace Run

def stop {α : Type} (cause : RunCause) (pos : Position) : Run α := throw (.stopped cause pos)

/-- Counts a statement. -/
def step (limits : Limits) (pos : Position) : Run Unit := do
  modify fun s => { s with steps := s.steps + 1 }
  match limits.steps with
  | none => return
  | some limit => if limit < (← get).steps then stop (.stepLimit limit) pos

def assign (name : Text) (v : Int32) : Run Unit :=
  modify fun s => { s with env := s.env.set name v }

/-- The value of a variable. One without a value gets zero. -/
def readVariable (name : Text) : Run Int32 := do
  match (← get).env.get? name with
  | some v => return v
  | none =>
    assign name 0
    return 0

/-- Writes a value on a line of its own. -/
def writeLine (v : Int32) : Run Unit := do
  let s ← get
  match s.sink.write (Text.bytes (Numeral.ofWord v ++ "\n")) with
  | .ok sink => set { s with sink }
  | .error reason => throw (.output reason)

/-- Takes a value from the input. -/
def readValue (pos : Position) : Run Int32 := do
  let s ← get
  match s.input with
  | none => stop .noInput pos
  | some input =>
    let (outcome, rest) := input.next
    set { s with input := some rest }
    match outcome with
    | .ok v => return v
    | .error e => stop (.input e) pos

/-- The scope in which a procedure starts: its parameters, and a zero under its own name. -/
def callScope (p : Procedure) (args : List Int32) : Scope :=
  { vars := Table.set (Table.setAll [] ((p.params.map Variable.name).zip args)) p.name 0 }

/-- Runs the body of a procedure in a scope of its own and gives the value of the procedure's name.
The scope is left however the body ends. -/
def within (scope : Scope) (name : Text) (body : Run Unit) : Run Int32 := fun s =>
  let leave (t : RunState) : RunState := { t with env := t.env.pop, depth := t.depth - 1 }
  match body { s with env := s.env.push scope, depth := s.depth + 1 } with
  | .ok _ t => .ok ((t.env.get? name).getD 0) (leave t)
  | .error e t => .error e (leave t)

mutual

def eval (limits : Limits) : Nat → Expr → Run Int32
  | 0, _ => throw .outOfFuel
  | _ + 1, .literal _ value _ _ => return value
  | _ + 1, .var v => readVariable v.name
  | n + 1, .binary token op left right => do
    let l ← eval limits n left
    let r ← eval limits n right
    match op.apply l r with
    | .ok v => return v
    | .error e => stop (.operator e (Expr.binary token op left right).render) token.pos
  | n + 1, .call token name args => invoke limits n token name args
  | _ + 1, .missing => stop .cannotEvaluate {}

def evalAll (limits : Limits) : Nat → List Expr → Run (List Int32)
  | 0, _ => throw .outOfFuel
  | _ + 1, [] => return []
  | n + 1, e :: es => do
    let v ← eval limits n e
    let vs ← evalAll limits n es
    return v :: vs

/-- Calls a procedure. Its arguments are evaluated in the caller's scope. -/
def invoke (limits : Limits) : Nat → Token → Text → List Expr → Run Int32
  | 0, _, _, _ => throw .outOfFuel
  | n + 1, token, name, args => do
    match (← get).env.getProc? name with
    | none => stop (.undefinedProcedure name) token.pos
    | some p =>
      if args.length ≠ p.params.length then
        stop (.arity p.name p.params.length args.length) token.pos
      else
        let values ← evalAll limits n args
        if limits.depth ≤ (← get).depth then stop (.depthLimit limits.depth p.name) token.pos
        else within (callScope p values) p.name (exec limits n p.body)

def exec (limits : Limits) : Nat → Stmt → Run Unit
  | 0, _ => throw .outOfFuel
  | n + 1, stmt => do
    step limits stmt.token.pos
    match stmt with
    | .assign _ target value => assign target.name (← eval limits n value)
    | .block _ body => execAll limits n body
    | .ifThen _ cond body =>
      if Word.isTrue (← eval limits n cond) then exec limits n body
    | .ifElse _ cond body alternative =>
      if Word.isTrue (← eval limits n cond) then exec limits n body
      else exec limits n alternative
    | .loop _ cond body => repeatWhile limits n cond body
    | .writeLn _ value => writeLine (← eval limits n value)
    | .readLn token target => assign target.name (← readValue token.pos)
    | .call token name args =>
      let _ ← invoke limits n token name args
    | .declare _ name params body =>
      modify fun s => { s with env := s.env.setProc name ⟨name, params, body⟩ }
    | .missing => stop .cannotExecute {}

def execAll (limits : Limits) : Nat → List Stmt → Run Unit
  | 0, _ => throw .outOfFuel
  | _ + 1, [] => return
  | n + 1, s :: ss => do
    exec limits n s
    execAll limits n ss

/-- Executes `body` as long as `cond` is true. -/
def repeatWhile (limits : Limits) : Nat → Expr → Stmt → Run Unit
  | 0, _, _ => throw .outOfFuel
  | n + 1, cond, body => do
    if Word.isTrue (← eval limits n cond) then
      exec limits n body
      repeatWhile limits n cond body

end

/-- Executes the declarations of a program and then its main statement. -/
def statements (limits : Limits) (fuel : Nat) (p : Program) : Run Unit := do
  execAll limits fuel (p.procedures.map Declaration.toStmt)
  match p.main with
  | none => return
  | some s => exec limits fuel s

/-- Runs a program from its start, on the input and the output that the state has. -/
def program (limits : Limits) (fuel : Nat) (p : Program) : Run Unit := do
  modify fun s => { s with env := .root, steps := 0, depth := 0 }
  statements limits fuel p

/-- More fuel than any run uses up in practice. -/
def ampleFuel : Nat := 1000000000000000000

end Run

end MiniPascal
