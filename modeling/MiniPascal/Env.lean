import MiniPascal.Table
import MiniPascal.Tree.Basic

/-!
Environments: the scopes that are open, the innermost first. A name means what the nearest scope
that binds it says.
-/

namespace MiniPascal

structure Scope where
  vars : Table Int32 := []
  procs : Table Procedure := []

abbrev Env := List Scope

namespace Env

/-- The environment with a single empty scope. -/
def root : Env := [{}]

/-- The number of scopes around the innermost one. -/
def depth (env : Env) : Nat := env.length - 1

/-- Opens a scope inside the innermost one. -/
def push (env : Env) (scope : Scope) : Env := scope :: env

/-- Leaves the innermost scope, unless it is the only one. -/
def pop? : Env → Option Env
  | _ :: outer :: rest => some (outer :: rest)
  | _ => none

/-- Leaves the innermost scope. -/
def pop (env : Env) : Env := env.tail

/-- The nearest value of a variable. -/
def get? : Env → Text → Option Int32
  | [], _ => none
  | scope :: outer, name =>
    match scope.vars.get? name with
    | some v => some v
    | none => get? outer name

/-- Binds a variable in the innermost scope, whatever the others say. -/
def declare : Env → Text → Int32 → Env
  | [], name, v => [{ vars := [(name, v)] }]
  | scope :: outer, name, v => { scope with vars := scope.vars.set name v } :: outer

/-- Changes the nearest binding of a variable; there is none if the result is `none`. -/
def update? : Env → Text → Int32 → Option Env
  | [], _, _ => none
  | scope :: outer, name, v =>
    if scope.vars.contains name then some ({ scope with vars := scope.vars.set name v } :: outer)
    else (update? outer name v).map (scope :: ·)

/-- Changes the nearest binding of a variable, or binds it in the innermost scope. -/
def set (env : Env) (name : Text) (v : Int32) : Env :=
  match env.update? name v with
  | some changed => changed
  | none => env.declare name v

/-- The nearest procedure of a name. -/
def getProc? : Env → Text → Option Procedure
  | [], _ => none
  | scope :: outer, name =>
    match scope.procs.get? name with
    | some p => some p
    | none => getProc? outer name

/-- Binds a procedure in the innermost scope. -/
def setProc : Env → Text → Procedure → Env
  | [], name, p => [{ procs := [(name, p)] }]
  | scope :: outer, name, p => { scope with procs := scope.procs.set name p } :: outer

end Env

end MiniPascal
