import MiniPascal.Tree.Basic

/-!
Trees as source text. Every operation is printed in parentheses.
-/

namespace MiniPascal

mutual

def Expr.render : Expr → Text
  | .literal _ value _ isBool =>
    if isBool then (if value = 0 then "False" else "True") else Numeral.ofWord value
  | .var v => v.name
  | .binary _ op left right => "(" ++ left.render ++ " " ++ op.symbol ++ " " ++ right.render ++ ")"
  | .call _ name args => name ++ "(" ++ Text.join ", " (Expr.renderAll args) ++ ")"
  | .missing => []

def Expr.renderAll : List Expr → List Text
  | [] => []
  | e :: es => e.render :: Expr.renderAll es

end

/-- The head of a declaration, up to its body. -/
def renderHead (name : Text) (params : List Variable) : Text :=
  "PROCEDURE " ++ name ++ "(" ++ Text.join ", " (params.map Variable.name) ++ "); "

mutual

def Stmt.render : Stmt → Text
  | .assign _ target value => target.name ++ " := " ++ value.render ++ ";"
  | .block _ body => "BEGIN " ++ Stmt.renderAll body ++ "END;"
  | .ifThen _ cond body => "IF " ++ cond.render ++ " THEN " ++ body.render
  | .ifElse _ cond body alternative =>
    "IF " ++ cond.render ++ " THEN " ++ body.render ++ " ELSE " ++ alternative.render
  | .loop _ cond body => "WHILE " ++ cond.render ++ " DO " ++ body.render
  | .writeLn _ value => "WRITELN(" ++ value.render ++ ");"
  | .readLn _ target => "READLN(" ++ target.name ++ ");"
  | .call _ name args => (Expr.call {} name args).render
  | .declare _ name params body => renderHead name params ++ body.render
  | .missing => []

/-- Statements in turn, each with a space behind it. -/
def Stmt.renderAll : List Stmt → Text
  | [] => []
  | s :: ss => s.render ++ " " ++ Stmt.renderAll ss

end

def Procedure.render (p : Procedure) : Text := renderHead p.name p.params ++ p.body.render

namespace Program

/-- Declarations on lines of their own, then the main statement. -/
def render (p : Program) : Text :=
  let main : Text :=
    match p.main with
    | none => []
    | some s => s.render
  p.procedures.flatMap (fun d => (d.procedure.render ++ "\n" : Text)) ++ main

/-- The literal of the first token of a program. -/
def literal (p : Program) : Text :=
  match p.procedures, p.main with
  | d :: _, _ => d.token.literal
  | [], some s => s.token.literal
  | [], none => []

end Program

end MiniPascal
