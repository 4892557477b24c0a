import MiniPascal.Tree.Basic

/-!
Outlines of trees: every field of every node on a line of its own, down to a fixed depth.
-/

namespace MiniPascal

/-- What an outline shows: a short value, a record with named fields, or a list. -/
inductive Outline where
  | atom (text : Text)
  | record (head : Text) (fields : List (Text × Outline))
  | list (items : List Outline)

namespace Outline

def indent (line : Text) : Text := Text.spaces 4 ++ line

/-- Puts a text in front of the first line. -/
def headed (head : Text) : List Text → List Text
  | [] => [head]
  | line :: lines => (head ++ line) :: lines

/-- Puts a comma behind the last line. -/
def closed : List Text → List Text
  | [] => []
  | [line] => [line ++ ","]
  | line :: lines => line :: closed lines

/-- The length of the longest name in the run at the front. A run ends with the first field that
takes several lines. -/
def runWidth : List (Text × List Text) → Nat
  | [] => 0
  | (name, lines) :: fields =>
    if 1 < lines.length then name.length else max name.length (runWidth fields)

/-- Fields with their values in line, run by run, where `width` is that of the current run. -/
def align (width : Nat) : List (Text × List Text) → List Text
  | [] => []
  | (name, lines) :: fields =>
    let head := name ++ ":" ++ Text.spaces (width - name.length + 1)
    let rest := if 1 < lines.length then align (runWidth fields) fields else align width fields
    closed (headed head lines) ++ rest

mutual

/-- The lines of an outline. -/
def lines : Outline → List Text
  | atom text => [text]
  | record head fields =>
    let shown := fieldLines fields
    (head ++ "\x7b") :: (align (runWidth shown) shown).map indent ++ [("\x7d" : Text)]
  | list items => ("\x7b" : Text) :: (itemLines items).map indent ++ [("\x7d" : Text)]

def fieldLines : List (Text × Outline) → List (Text × List Text)
  | [] => []
  | (name, o) :: fields => (name, o.lines) :: fieldLines fields

def itemLines : List Outline → List Text
  | [] => []
  | o :: items => closed o.lines ++ itemLines items

end

def render (o : Outline) : Text := Text.join "\n" o.lines

/-- The number of references that an outline follows on any way. -/
def maxDepth : Nat := 10

def exceeded : Text := "!%v(DEPTH EXCEEDED)"

/-- A reference at a depth to a record whose fields lie one deeper. -/
def reference (depth : Nat) (kind : Text) (fields : List (Text × Outline)) : Outline :=
  if maxDepth < depth then atom exceeded
  else if maxDepth < depth + 1 then atom ("&" ++ exceeded)
  else record ("&ast." ++ kind) fields

/-- A list, which is `nil` if it has no items. -/
def listOf (items : List Outline) : Outline := if items.isEmpty then atom "nil" else list items

def int (n : Int) : Outline := atom (Numeral.ofInt n)

def text (t : Text) : Outline := atom t.quote

def bool (b : Bool) : Outline := atom (if b then "true" else "false")

/-- A token, on one line. -/
def ofToken (t : Token) : Outline :=
  atom ("token.Token\x7bType:" ++ t.kind.name.quote ++ ", Literal:" ++ t.literal.quote ++
    ", Line:" ++ Numeral.ofInt t.pos.line ++ ", Column:" ++ Numeral.ofInt t.pos.column ++ "\x7d")

def ofVariable (depth : Nat) (v : Variable) : Outline :=
  reference depth "Variable" [
    ("Token", ofToken v.token), ("Name", text v.name), ("Tag", int v.tag.code)]

mutual

def ofExpr (depth : Nat) : Expr → Outline
  | .literal token value tag isBool =>
    reference depth "Literal" [
      ("Token", ofToken token), ("Value", int value.toInt), ("Tag", int tag.code),
      ("Boolean", bool isBool)]
  | .var v => ofVariable depth v
  | .binary token op left right =>
    reference depth "BinOp" [
      ("Token", ofToken token), ("Operator", int op.code), ("Left", ofExpr (depth + 1) left),
      ("Right", ofExpr (depth + 1) right)]
  | .call token name args =>
    reference depth "ProcedureCall" [
      ("Token", ofToken token), ("Name", text name), ("Arguments", listOf (ofExprs (depth + 2) args))]
  | .missing => atom "nil"

def ofExprs (depth : Nat) : List Expr → List Outline
  | [] => []
  | e :: es => ofExpr depth e :: ofExprs depth es

end

/-- A call in the place of a statement. -/
def ofCall (depth : Nat) (token : Token) (name : Text) (args : List Expr) : Outline :=
  ofExpr depth (.call token name args)

mutual

def ofStmt (depth : Nat) : Stmt → Outline
  | .assign token target value =>
    reference depth "Assignment" [
      ("Token", ofToken token), ("Target", ofVariable (depth + 1) target),
      ("Value", ofExpr (depth + 1) value)]
  | .block token body =>
    reference depth "Block" [
      ("Token", ofToken token), ("Statements", listOf (ofStmts (depth + 2) body))]
  | .ifThen token cond body =>
    reference depth "If" [
      ("Token", ofToken token), ("Condition", ofExpr (depth + 1) cond),
      ("Consequence", ofStmt (depth + 1) body), ("Alternative", atom "nil")]
  | .ifElse token cond body alternative =>
    reference depth "If" [
      ("Token", ofToken token), ("Condition", ofExpr (depth + 1) cond),
      ("Consequence", ofStmt (depth + 1) body), ("Alternative", ofStmt (depth + 1) alternative)]
  | .loop token cond body =>
    reference depth "While" [
      ("Token", ofToken token), ("Condition", ofExpr (depth + 1) cond),
      ("Body", ofStmt (depth + 1) body)]
  | .writeLn token value =>
    reference depth "WriteLn" [("Token", ofToken token), ("Value", ofExpr (depth + 1) value)]
  | .readLn token target =>
    reference depth "ReadLn" [("Token", ofToken token), ("Target", ofVariable (depth + 1) target)]
  | .call token name args => ofCall depth token name args
  | .declare token name params body =>
    reference depth "ProcedureDeclaration" [
      ("Token", ofToken token),
      ("Procedure", reference (depth + 1) "Procedure" [
        ("Name", text name),
        ("Parameters", listOf (params.map (ofVariable (depth + 2)))),
        ("Body", ofStmt (depth + 2) body)])]
  | .missing => atom "nil"

def ofStmts (depth : Nat) : List Stmt → List Outline
  | [] => []
  | s :: ss => ofStmt depth s :: ofStmts depth ss

end

def ofProgram (p : Program) : Outline :=
  let main : Outline :=
    match p.main with
    | none => atom "nil"
    | some s => ofStmt 1 s
  reference 0 "Program" [
    ("Procedures", listOf (p.procedures.map fun d => ofStmt 1 d.toStmt)), ("Main", main)]

end Outline

end MiniPascal
