import MiniPascal.Assembly.Builder
import MiniPascal.Diagnostic
import MiniPascal.Sink

/-!
Machine code for programs. Expressions leave their value in `$v0` and the stack as it was. Every
procedure gets a frame of its own behind the main statement, those declared inside statements too.
-/

namespace MiniPascal

/-- Why a part of a program has no machine code. -/
inductive UnsupportedCause where
  | duplicateProcedure (name : Text)
  | assignmentType (name : Text) (tag : Tag)
  | variableType (name : Text) (tag : Tag)
  | unprintable (tag : Tag)
  | consoleInput
  | literalType (tag : Tag)
  | operandTypes (op : Operator) (left right : Tag)
  | operandType (op : Operator) (tag : Tag)
  | arity (name : Text) (expected found : Nat)
  | missingStatement
  | missingExpression
  deriving DecidableEq

inductive GenerateError where
  | unsupported (cause : UnsupportedCause) (pos : Position)
  /-- The account of the stack does not balance after the named part of the program. -/
  | internal (part : Text) (imbalance : Assembly.Imbalance)
  deriving DecidableEq

namespace UnsupportedCause

/-- The operation that has no code. -/
def operation : UnsupportedCause → Text
  | duplicateProcedure _ => "PROCEDURE"
  | assignmentType .. => "assignment"
  | variableType .. => "variable"
  | unprintable _ => "WRITELN"
  | consoleInput => "READLN"
  | literalType _ => "literal"
  | operandTypes op .. => op.symbol
  | operandType op _ => op.symbol
  | arity .. => "call"
  | missingStatement => "statement"
  | missingExpression => "expression"

def detail : UnsupportedCause → Text
  | duplicateProcedure name => "duplicate declaration of " ++ name
  | assignmentType name tag => name ++ " has type " ++ tag.name
  | variableType name tag => name ++ " has type " ++ tag.name
  | unprintable tag => "cannot print a " ++ tag.name ++ " value"
  | consoleInput => "console input is only available when interpreting"
  | literalType tag => "no " ++ tag.name ++ " literals"
  | operandTypes _ left right => "operands of type " ++ left.name ++ " and " ++ right.name
  | operandType _ tag => "no rendering for " ++ tag.name ++ " operands"
  | arity name expected found =>
    "procedure " ++ name ++ " expects " ++ Numeral.ofNat expected ++ " argument(s), got " ++
      Numeral.ofNat found
  | missingStatement => "no rendering for <nil>"
  | missingExpression => "no rendering for <nil>"

end UnsupportedCause

def GenerateError.toDiagnostic : GenerateError → Diagnostic
  | unsupported cause pos => .unsupported cause.operation cause.detail pos
  | internal part imbalance => .during part (.other imbalance.message)

mutual

/-- The declarations in a statement, each before those in its body. -/
def Stmt.declarations : Stmt → List Declaration
  | .declare token name params body => ⟨token, ⟨name, params, body⟩⟩ :: body.declarations
  | .block _ body => Stmt.declarationsAll body
  | .ifThen _ _ body => body.declarations
  | .ifElse _ _ body alternative => body.declarations ++ alternative.declarations
  | .loop _ _ body => body.declarations
  | .assign .. => []
  | .writeLn .. => []
  | .readLn .. => []
  | .call .. => []
  | .missing => []

def Stmt.declarationsAll : List Stmt → List Declaration
  | [] => []
  | s :: ss => s.declarations ++ Stmt.declarationsAll ss

end

/-- Every declaration of a program, nested ones included. -/
def Program.declarations (p : Program) : List Declaration :=
  Stmt.declarationsAll (p.procedures.map Declaration.toStmt) ++
    match p.main with
    | none => []
    | some s => s.declarations

/-- The first declaration whose name is among `seen` or was declared before it. -/
def firstRepeated (seen : List Text) : List Declaration → Option Declaration
  | [] => none
  | d :: ds =>
    if seen.contains d.procedure.name then some d
    else firstRepeated (d.procedure.name :: seen) ds

namespace Assembly

abbrev Gen := EStateM GenerateError Builder

namespace Gen

def reject {α : Type} (cause : UnsupportedCause) (pos : Position) : Gen α :=
  throw (.unsupported cause pos)

def emit (l : Line) : Gen Unit := modify (·.emit l)

def instr (mnemonic : Text) (operands : List Text) : Gen Unit := emit (.instr mnemonic operands)

def newLabel : Gen Text := modifyGet (·.newLabel)

/-- Code in a scope of its own. -/
def inScope (body : Gen Unit) : Gen Unit := do
  modify (·.beginScope)
  body
  modify (·.freeScope)

/-- Checks the number of arguments of a call, if the procedure is declared at all. -/
def checkCall (procs : Table Procedure) (token : Token) (name : Text) (args : Nat) : Gen Unit :=
  match procs.get? name with
  | some p =>
    if p.params.length ≠ args then reject (.arity name p.params.length args) token.pos
    else return
  | none => modify (·.noteUnresolved name)

mutual

/-- Code for the value of an expression. -/
def expr (procs : Table Procedure) : Expr → Gen Unit
  | .literal token value tag _ =>
    if tag ≠ .int then reject (.literalType tag) token.pos
    else instr "li" ["$v0", Numeral.ofWord value]
  | .var v =>
    if v.tag ≠ .int then reject (.variableType v.name v.tag) v.token.pos
    else modify (·.retrieve "$v0" v.name)
  | .binary token op left right =>
    if left.tag ≠ right.tag then reject (.operandTypes op left.tag right.tag) token.pos
    else
      match if left.tag = .int then operatorLines? op else none with
      | none => reject (.operandType op left.tag) token.pos
      | some lines => do
        expr procs left
        modify (·.push "$v0")
        expr procs right
        modify (·.pop "$t0")
        modify (·.emitAll lines)
  | .call token name args => do
    checkCall procs token name args.length
    emit (.comment ("call " ++ name))
    arguments procs args
    instr "jal" [procedureLabel name]
    modify (·.release args.length)
  | .missing => reject .missingExpression {}

/-- Code that pushes arguments in turn. -/
def arguments (procs : Table Procedure) : List Expr → Gen Unit
  | [] => return
  | e :: es => do
    expr procs e
    modify (·.push "$v0")
    arguments procs es

end

/-- Code that prints the value in `$v0` and ends the line. -/
def printValue : Gen Unit := do
  instr "move" ["$a0", "$v0"]
  instr "li" ["$v0", "1"]
  instr "syscall" []
  instr "li" ["$v0", "11"]
  instr "li" ["$a0", "10"]
  instr "syscall" []

mutual

/-- Code for a statement. Branches and loop bodies are scopes, so that what they put on the stack is
gone where the ways join again. -/
def stmt (procs : Table Procedure) : Stmt → Gen Unit
  | .assign _ target value => do
    expr procs value
    if target.tag ≠ .int then reject (.assignmentType target.name target.tag) target.token.pos
    else modify (·.store "$v0" target.name)
  | .block _ body => stmts procs body
  | .ifThen _ cond body => do
    let otherwise ← newLabel
    let done ← newLabel
    expr procs cond
    instr "beqz" ["$v0", otherwise]
    inScope (stmt procs body)
    instr "j" [done]
    emit (.label otherwise)
    emit (.marked done "ENDIF")
  | .ifElse _ cond body alternative => do
    let otherwise ← newLabel
    let done ← newLabel
    expr procs cond
    instr "beqz" ["$v0", otherwise]
    inScope (stmt procs body)
    instr "j" [done]
    emit (.label otherwise)
    inScope (stmt procs alternative)
    emit (.marked done "ENDIF")
  | .loop _ cond body => do
    let again ← newLabel
    let done ← newLabel
    emit (.marked again "WHILE")
    expr procs cond
    instr "beqz" ["$v0", done]
    inScope (stmt procs body)
    instr "j" [again]
    emit (.marked done "ENDWHILE")
  | .writeLn token value => do
    expr procs value
    if value.tag ≠ .int then reject (.unprintable value.tag) token.pos
    else printValue
  | .readLn token _ => reject .consoleInput token.pos
  | .call token name args => expr procs (.call token name args)
  | .declare .. => return
  | .missing => reject .missingStatement {}

def stmts (procs : Table Procedure) : List Stmt → Gen Unit
  | [] => return
  | s :: ss => do
    stmt procs s
    stmts procs ss

end

/-- Fails unless the account of the stack balances after a part of the program. -/
def balanced (part : Text) : Gen Unit := do
  match (← get).checkBalanced with
  | .ok _ => return
  | .error imbalance => throw (.internal part imbalance)

/-- Code for a procedure: its own name starts at zero, the return address is kept like a variable,
and everything on the stack, the arguments included, is gone when it returns. -/
def procedure (procs : Table Procedure) (p : Procedure) : Gen Unit := do
  modify (·.linkProcedure (p.params.map Variable.name))
  emit (.label (procedureLabel p.name))
  instr "li" ["$v0", "0"]
  modify (·.store "$v0" p.name)
  modify (·.store "$ra" "$ra")
  stmt procs p.body
  modify (·.retrieve "$v0" p.name)
  modify (·.retrieve "$ra" "$ra")
  modify (·.freeScope)
  instr "jr" ["$ra"]
  balanced ("procedure " ++ p.name)

def procedures (procs : Table Procedure) : List Declaration → Gen Unit
  | [] => return
  | d :: ds => do
    procedure procs d.procedure
    procedures procs ds

/-- Code for the main statement, which ends the run. -/
def mainPart (procs : Table Procedure) (body : Option Stmt) : Gen Unit := do
  emit (.plain ".text")
  emit (.plain ".globl main")
  emit (.label "main")
  inScope (match body with
    | none => return
    | some s => stmt procs s)
  balanced "main"
  instr "li" ["$v0", "10"]
  instr "syscall" []

/-- Code for a program. No two procedures may have the same name. -/
def program (p : Program) : Gen Unit := do
  match firstRepeated [] p.declarations with
  | some d => reject (.duplicateProcedure d.procedure.name) d.token.pos
  | none =>
    let procs := p.declarations.map fun d => (d.procedure.name, d.procedure)
    mainPart procs p.main
    procedures procs p.declarations

end Gen

/-- The outcome of generating code: the builder at the end, and the error if there is one. -/
structure Generated where
  builder : Builder
  error : Option GenerateError

def generate (p : Program) : Generated :=
  match Gen.program p {} with
  | .ok _ b => ⟨b, none⟩
  | .error e b => ⟨b, some e⟩

/-- The assembly text of a program. -/
def ofProgram (p : Program) : Except GenerateError Text :=
  match Gen.program p {} with
  | .ok _ b => .ok b.render
  | .error e _ => .error e

/-- Why the assembly text of a program could not be written. -/
inductive WriteError where
  | generate (error : GenerateError)
  | output (reason : Text)
  deriving DecidableEq

def WriteError.toDiagnostic : WriteError → Diagnostic
  | generate e => e.toDiagnostic
  | output reason => .during "write assembly" (.other reason)

/-- Writes the assembly text of a program, in one write. Nothing is written if there is none. -/
def writeTo (p : Program) (sink : Sink) : Except WriteError Sink :=
  match ofProgram p with
  | .error e => .error (.generate e)
  | .ok text =>
    match sink.write text.bytes with
    | .error reason => .error (.output reason)
    | .ok after => .ok after

end Assembly

end MiniPascal
