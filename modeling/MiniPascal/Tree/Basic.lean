import MiniPascal.Token.Basic

/-!
Programs as trees. A tree built by hand may have holes; the parser never leaves one.
-/

namespace MiniPascal

/-- The static type of an expression. -/
inductive Tag where
  | int
  | double
  | char
  | other (code : Int)
  deriving DecidableEq

namespace Tag

def code : Tag → Int
  | int => 0
  | double => 1
  | char => 2
  | other n => n

def ofCode : Int → Tag
  | 0 => int
  | 1 => double
  | 2 => char
  | n => other n

def name : Tag → Text
  | int => "INT"
  | double => "DOUBLE"
  | char => "CHAR"
  | other n => "Type(" ++ Numeral.ofInt n ++ ")"

/-- The size of a value in bytes. -/
def size : Tag → Nat
  | int => 4
  | double => 8
  | char => 1
  | other _ => 0

def isValid : Tag → Bool
  | other _ => false
  | _ => true

end Tag

inductive Operator where
  | add
  | sub
  | mul
  | div
  | mod
  | eq
  | ne
  | lt
  | gt
  | le
  | ge
  | and
  | or
  | other (code : Int)
  deriving DecidableEq

namespace Operator

/-- Every operator of the language, in the order of their codes. -/
def all : List Operator := [add, sub, mul, div, mod, eq, ne, lt, gt, le, ge, and, or]

def code : Operator → Int
  | add => 0
  | sub => 1
  | mul => 2
  | div => 3
  | mod => 4
  | eq => 5
  | ne => 6
  | lt => 7
  | gt => 8
  | le => 9
  | ge => 10
  | and => 11
  | or => 12
  | other n => n

def ofCode (n : Int) : Operator :=
  match all.find? (·.code == n) with
  | some op => op
  | none => other n

def symbol : Operator → Text
  | add => "+"
  | sub => "-"
  | mul => "*"
  | div => "/"
  | mod => "mod"
  | eq => "="
  | ne => "<>"
  | lt => "<"
  | gt => ">"
  | le => "<="
  | ge => ">="
  | and => "&&"
  | or => "||"
  | other _ => "?"

/-- Every operator makes an integer; a truth value is 0 or 1. -/
def resultTag (_ : Operator) : Tag := .int

end Operator

/-- A named storage slot. -/
structure Variable where
  token : Token := {}
  name : Text
  tag : Tag := .int
  deriving DecidableEq

inductive Expr where
  /-- A constant. True and False are 1 and 0 with `isBool` set. -/
  | literal (token : Token) (value : Int32) (tag : Tag) (isBool : Bool)
  | var (v : Variable)
  | binary (token : Token) (op : Operator) (left right : Expr)
  | call (token : Token) (name : Text) (args : List Expr)
  | missing
  deriving Inhabited

inductive Stmt where
  | assign (token : Token) (target : Variable) (value : Expr)
  | block (token : Token) (body : List Stmt)
  | ifThen (token : Token) (cond : Expr) (body : Stmt)
  | ifElse (token : Token) (cond : Expr) (body alternative : Stmt)
  | loop (token : Token) (cond : Expr) (body : Stmt)
  | writeLn (token : Token) (value : Expr)
  | readLn (token : Token) (target : Variable)
  /-- A call whose value is dropped. -/
  | call (token : Token) (name : Text) (args : List Expr)
  | declare (token : Token) (name : Text) (params : List Variable) (body : Stmt)
  | missing
  deriving Inhabited

/-- A named statement with parameters. Its value is what the variable of its own name holds when
the body ends. -/
structure Procedure where
  name : Text
  params : List Variable
  body : Stmt
  deriving Inhabited

structure Declaration where
  token : Token
  procedure : Procedure
  deriving Inhabited

/-- Declarations, and the statement to run after them. -/
structure Program where
  procedures : List Declaration
  main : Option Stmt

def Variable.sameName (a b : Variable) : Bool := a.name = b.name

def Procedure.sameName (a b : Procedure) : Bool := a.name = b.name

def Declaration.toStmt (d : Declaration) : Stmt :=
  .declare d.token d.procedure.name d.procedure.params d.procedure.body

namespace Expr

/-- The token an expression was built from. -/
def token : Expr → Token
  | literal t .. => t
  | var v => v.token
  | binary t .. => t
  | call t .. => t
  | missing => {}

def tag : Expr → Tag
  | literal _ _ tag _ => tag
  | var v => v.tag
  | binary _ op _ _ => op.resultTag
  | call .. => .int
  | missing => .int

end Expr

namespace Stmt

/-- The token a statement was built from. -/
def token : Stmt → Token
  | assign t .. => t
  | block t _ => t
  | ifThen t .. => t
  | ifElse t .. => t
  | loop t .. => t
  | writeLn t _ => t
  | readLn t _ => t
  | call t .. => t
  | declare t .. => t
  | missing => {}

/-- A counting loop out of simpler statements:
`v := first; WHILE v <= last DO BEGIN body; v := v + 1 END`. The bound is computed again before
every round. -/
def forLoop (token : Token) (v : Variable) (first last : Expr) (body : Stmt) : Stmt :=
  let next : Expr :=
    .binary { kind := .operator, literal := "+" } .add (.var v)
      (.literal { kind := .number, literal := "1" } 1 .int false)
  .block token [
    .assign token v first,
    .loop token (.binary { kind := .operator, literal := "<=" } .le (.var v) last)
      (.block token [body, .assign token v next])]

end Stmt

end MiniPascal
