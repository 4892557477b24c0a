import MiniPascal.Interpreter
import MiniPascal.Proofs.Emission

/-! The lexical reading of programs. It differs from the interpreter in three points: a branch and each
round of a loop run in a scope of their own, which is gone afterwards; a procedure sees its parameters
and its own name only, wherever it is called and whatever was declared where; and reading a name that
has no value gives zero without binding it. It sets no limits. -/

namespace MiniPascal

namespace Lexical

/-- The value of a variable, or zero. -/
def readVariable (name : Text) : Run Int32 := fun s => .ok ((s.env.get? name).getD 0) s

/-- Runs a branch or a round of a loop in a new scope, which is left however it ends. -/
def inScope (body : Run Unit) : Run Unit := fun s =>
  match body { s with env := s.env.push {} } with
  | .ok _ t => .ok () { t with env := t.env.pop }
  | .error e t => .error e { t with env := t.env.pop }

/-- Runs the body of a procedure where only `scope` is seen, and gives the value of `name`. -/
def inFrame (scope : Scope) (name : Text) (body : Run Unit) : Run Int32 := fun s =>
  match body { s with env := [scope] } with
  | .ok _ t => .ok ((t.env.get? name).getD 0) { t with env := s.env }
  | .error e t => .error e { t with env := s.env }

variable (procs : Table Procedure)

mutual

def eval : Nat → Expr → Run Int32
  | 0, _ => throw .outOfFuel
  | _ + 1, .literal _ value _ _ => return value
  | _ + 1, .var v => readVariable v.name
  | n + 1, .binary token op left right => do
    let l ← eval n left
    let r ← eval n right
    match op.apply l r with
    | .ok v => return v
    | .error e => Run.stop (.operator e (Expr.binary token op left right).render) token.pos
  | n + 1, .call token name args => invoke n token name args
  | _ + 1, .missing => Run.stop .cannotEvaluate {}

def evalAll : Nat → List Expr → Run (List Int32)
  | 0, _ => throw .outOfFuel
  | _ + 1, [] => return []
  | n + 1, e :: es => do
    let v ← eval n e
    let vs ← evalAll n es
    return v :: vs

def invoke : Nat → Token → Text → List Expr → Run Int32
  | 0, _, _, _ => throw .outOfFuel
  | n + 1, token, name, args =>
    match procs.get? name with
    | none => Run.stop (.undefinedProcedure name) token.pos
    | some p =>
      if args.length ≠ p.params.length then
        Run.stop (.arity p.name p.params.length args.length) token.pos
      else do
        let values ← evalAll n args
        inFrame (Run.callScope p values) p.name (exec n p.body)

def exec : Nat → Stmt → Run Unit
  | 0, _ => throw .outOfFuel
  | n + 1, .assign _ target value => do
    let v ← eval n value
    Run.assign target.name v
  | n + 1, .block _ body => execAll n body
  | n + 1, .ifThen _ cond body => do
    let c ← eval n cond
    if Word.isTrue c then inScope (exec n body) else return
  | n + 1, .ifElse _ cond body alternative => do
    let c ← eval n cond
    if Word.isTrue c then inScope (exec n body) else inScope (exec n alternative)
  | n + 1, .loop _ cond body => repeatWhile n cond body
  | n + 1, .writeLn _ value => do
    let v ← eval n value
    Run.writeLine v
  | _ + 1, .readLn token target => do
    let v ← Run.readValue token.pos
    Run.assign target.name v
  | n + 1, .call token name args => do
    let _ ← invoke n token name args
  | _ + 1, .declare .. => return
  | _ + 1, .missing => Run.stop .cannotExecute {}

def execAll : Nat → List Stmt → Run Unit
  | 0, _ => throw .outOfFuel
  | _ + 1, [] => return
  | n + 1, s :: ss => do
    exec n s
    execAll n ss

def repeatWhile : Nat → Expr → Stmt → Run Unit
  | 0, _, _ => throw .outOfFuel
  | n + 1, cond, body => do
    let c ← eval n cond
    if Word.isTrue c then
      inScope (exec n body)
      repeatWhile n cond body
    else return

end

end Lexical

/-- Runs a program from its start. Every procedure can be called from everywhere; executing the
declarations has no effect. -/
def Lexical.program (fuel : Nat) (p : Program) : Run Unit := do
  modify fun s => { s with env := .root, steps := 0, depth := 0 }
  Lexical.execAll p.table fuel (p.procedures.map Declaration.toStmt)
  match p.main with
  | none => return
  | some s => Lexical.exec p.table fuel s

end MiniPascal
