import MiniPascal.Assembly.Generator
import MiniPascal.Proofs.Assembler

/-! The lines that the generator emits, as functions of the tree. The named words of a frame are a
list of names, the top of the stack first, so that the place of a variable is the index of its name.
Above them may lie words without a name: left operands and arguments that wait for their use. -/

namespace MiniPascal

theorem idxOf?_append (xs ys : List Text) (x : Text) :
    (xs ++ ys).idxOf? x = (xs.idxOf? x).or ((ys.idxOf? x).map (· + xs.length)) :=
  List.findIdx?_append

theorem Stmt.declarationsAll_toStmt {ds : List Declaration}
    (h : ∀ d ∈ ds, d.procedure.body.declarations = []) :
    Stmt.declarationsAll (ds.map Declaration.toStmt) = ds := by
  induction ds with
  | nil => rfl
  | cons d ds ih =>
    obtain ⟨hd, hds⟩ := List.forall_mem_cons.mp h
    rw [List.map_cons, Stmt.declarationsAll, ih hds, Declaration.toStmt, Stmt.declarations, hd]
    rfl

mutual

/-- The procedures called in an expression, each before those called in its arguments. -/
def Expr.calls : Expr → List Text
  | .literal .. => []
  | .var _ => []
  | .binary _ _ left right => left.calls ++ right.calls
  | .call _ name args => name :: Expr.callsAll args
  | .missing => []

def Expr.callsAll : List Expr → List Text
  | [] => []
  | e :: es => e.calls ++ Expr.callsAll es

end

mutual

/-- The procedures called in a statement, the bodies of declarations aside. -/
def Stmt.calls : Stmt → List Text
  | .assign _ _ value => value.calls
  | .block _ body => Stmt.callsAll body
  | .ifThen _ cond body => cond.calls ++ body.calls
  | .ifElse _ cond body alternative => cond.calls ++ body.calls ++ alternative.calls
  | .loop _ cond body => cond.calls ++ body.calls
  | .writeLn _ value => value.calls
  | .readLn .. => []
  | .call _ name args => name :: Expr.callsAll args
  | .declare .. => []
  | .missing => []

def Stmt.callsAll : List Stmt → List Text
  | [] => []
  | s :: ss => s.calls ++ Stmt.callsAll ss

end

/-- The calls of a program in the order in which their code begins: those of the main statement, then
those of each procedure. -/
def Program.calls (p : Program) : List Text :=
  (p.main.elim [] Stmt.calls) ++ p.declarations.flatMap fun d => d.procedure.body.calls

mutual

/-- The labels that a statement needs: two for every branch and every loop. -/
def Stmt.labelCount : Stmt → Nat
  | .block _ body => Stmt.labelCountAll body
  | .ifThen _ _ body => 2 + body.labelCount
  | .ifElse _ _ body alternative => 2 + body.labelCount + alternative.labelCount
  | .loop _ _ body => 2 + body.labelCount
  | .assign .. => 0
  | .writeLn .. => 0
  | .readLn .. => 0
  | .call .. => 0
  | .declare .. => 0
  | .missing => 0

def Stmt.labelCountAll : List Stmt → Nat
  | [] => 0
  | s :: ss => s.labelCount + Stmt.labelCountAll ss

end

/-- The labels of all branches and loops of a program. -/
def Program.labelCount (p : Program) : Nat :=
  (p.main.elim 0 Stmt.labelCount) +
    (p.declarations.map fun d => d.procedure.body.labelCount).sum

mutual

/-- The names that get a word in a statement, the latest first; those of branches and loop bodies are
gone again at its end. -/
def Stmt.made (names : List Text) : Stmt → List Text
  | .assign _ target _ => if target.name ∈ names then [] else [target.name]
  | .block _ body => Stmt.madeAll names body
  | _ => []

def Stmt.madeAll (names : List Text) : List Stmt → List Text
  | [] => []
  | s :: ss => Stmt.madeAll (s.made names ++ names) ss ++ s.made names

end

mutual

/-- What an expression has to be for there to be code: integers throughout, operators that the machine
has, and as many arguments as the called procedure has parameters. -/
def Expr.Supported (procs : Table Procedure) : Expr → Prop
  | .literal _ _ tag _ => tag = .int
  | .var v => v.tag = .int
  | .binary _ op left right =>
    left.tag = .int ∧ right.tag = .int ∧ (Assembly.operatorLines? op).isSome ∧
      left.Supported procs ∧ right.Supported procs
  | .call _ name args =>
    (∀ p, procs.get? name = some p → p.params.length = args.length) ∧
      Expr.SupportedAll procs args
  | .missing => False

def Expr.SupportedAll (procs : Table Procedure) : List Expr → Prop
  | [] => True
  | e :: es => e.Supported procs ∧ Expr.SupportedAll procs es

end

mutual

def Stmt.Supported (procs : Table Procedure) : Stmt → Prop
  | .assign _ target value => value.Supported procs ∧ target.tag = .int
  | .block _ body => Stmt.SupportedAll procs body
  | .ifThen _ cond body => cond.Supported procs ∧ body.Supported procs
  | .ifElse _ cond body alternative =>
    cond.Supported procs ∧ body.Supported procs ∧ alternative.Supported procs
  | .loop _ cond body => cond.Supported procs ∧ body.Supported procs
  | .writeLn _ value => value.Supported procs ∧ value.tag = .int
  | .readLn .. => False
  | .call token name args => (Expr.call token name args).Supported procs
  | .declare .. => True
  | .missing => False

def Stmt.SupportedAll (procs : Table Procedure) : List Stmt → Prop
  | [] => True
  | s :: ss => s.Supported procs ∧ Stmt.SupportedAll procs ss

end

/-- The procedures of a program by their names. -/
def Program.table (p : Program) : Table Procedure :=
  p.declarations.map fun d => (d.procedure.name, d.procedure)

/-- What a program has to be for there to be code. -/
structure Program.Supported (p : Program) : Prop where
  nodup : p.table.names.Nodup
  main : ∀ s, p.main = some s → s.Supported p.table
  bodies : ∀ d ∈ p.declarations, d.procedure.body.Supported p.table

namespace Assembly

def pushLines (reg : Text) : List Line :=
  [.instr "subu" ["$sp", "$sp", "4"], .instr "sw" [reg, top]]

def popLines (reg : Text) : List Line :=
  [.instr "lw" [reg, top], .instr "addu" ["$sp", "$sp", "4"]]

/-- Reads a variable with `parked` words above the named ones. -/
def retrieveLine (names : List Text) (parked : Nat) (reg name : Text) : Line :=
  match names.idxOf? name with
  | some i => .instr "lw" [reg, slot (4 * (parked + i : Nat))]
  | none => .instr "li" [reg, "0"]

def storeLines (names : List Text) (reg name : Text) : List Line :=
  match names.idxOf? name with
  | some i => [.instr "sw" [reg, slot (4 * (i : Nat))]]
  | none => .comment ("new variable " ++ name) :: pushLines reg

/-- The names of a frame once `name` has a word. -/
def bindName (names : List Text) (name : Text) : List Text :=
  if name ∈ names then names else name :: names

def freeLines (count : Nat) : List Line :=
  if count = 0 then [] else [.instr "addu" ["$sp", "$sp", Numeral.ofInt (4 * count)]]

def labelName (k : Nat) : Text := "label" ++ Numeral.ofNat k

mutual

def exprLines (names : List Text) (parked : Nat) : Expr → List Line
  | .literal _ value _ _ => [.instr "li" ["$v0", Numeral.ofWord value]]
  | .var v => [retrieveLine names parked "$v0" v.name]
  | .binary _ op left right =>
    exprLines names parked left ++ pushLines "$v0" ++ exprLines names (parked + 1) right ++
      popLines "$t0" ++ (operatorLines? op).getD []
  | .call _ name args =>
    .comment ("call " ++ name) :: argumentLines names parked args ++
      [.instr "jal" [procedureLabel name]]
  | .missing => []

def argumentLines (names : List Text) (parked : Nat) : List Expr → List Line
  | [] => []
  | e :: es => exprLines names parked e ++ pushLines "$v0" ++ argumentLines names (parked + 1) es

end

def printLines : List Line :=
  [.instr "move" ["$a0", "$v0"], .instr "li" ["$v0", "1"], .instr "syscall" [],
    .instr "li" ["$v0", "11"], .instr "li" ["$a0", "10"], .instr "syscall" []]

mutual

/-- The lines of a statement whose first label is number `k`. -/
def stmtLines (names : List Text) (k : Nat) : Stmt → List Line
  | .assign _ target value => exprLines names 0 value ++ storeLines names "$v0" target.name
  | .block _ body => stmtsLines names k body
  | .ifThen _ cond body =>
    exprLines names 0 cond ++ [.instr "beqz" ["$v0", labelName k]] ++
      (stmtLines names (k + 2) body ++ freeLines (body.made names).length) ++
      [.instr "j" [labelName (k + 1)], .label (labelName k), .marked (labelName (k + 1)) "ENDIF"]
  | .ifElse _ cond body alternative =>
    exprLines names 0 cond ++ [.instr "beqz" ["$v0", labelName k]] ++
      (stmtLines names (k + 2) body ++ freeLines (body.made names).length) ++
      [.instr "j" [labelName (k + 1)], .label (labelName k)] ++
      (stmtLines names (k + 2 + body.labelCount) alternative ++
        freeLines (alternative.made names).length) ++
      [.marked (labelName (k + 1)) "ENDIF"]
  | .loop _ cond body =>
    [.marked (labelName k) "WHILE"] ++ exprLines names 0 cond ++
      [.instr "beqz" ["$v0", labelName (k + 1)]] ++
      (stmtLines names (k + 2) body ++ freeLines (body.made names).length) ++
      [.instr "j" [labelName k], .marked (labelName (k + 1)) "ENDWHILE"]
  | .writeLn _ value => exprLines names 0 value ++ printLines
  | .readLn .. => []
  | .call token name args => exprLines names 0 (.call token name args)
  | .declare .. => []
  | .missing => []

def stmtsLines (names : List Text) (k : Nat) : List Stmt → List Line
  | [] => []
  | s :: ss => stmtLines names k s ++ stmtsLines (s.made names ++ names) (k + s.labelCount) ss

end

/-- A statement in a scope of its own. -/
def scopeLines (names : List Text) (k : Nat) (s : Stmt) : List Line :=
  stmtLines names k s ++ freeLines (s.made names).length

/-- The parameters of a procedure as words of its frame, the last of them on top. -/
def paramNames (p : Procedure) : List Text := (p.params.map Variable.name).reverse

/-- The words of a frame where the body begins: above the parameters stand the procedure's own name,
unless a parameter has it, and the return address. -/
def entryNames (p : Procedure) : List Text := bindName (bindName (paramNames p) p.name) "$ra"

/-- The words of a frame where the body ends. -/
def exitNames (p : Procedure) : List Text := p.body.made (entryNames p) ++ entryNames p

def procedureLines (k : Nat) (p : Procedure) : List Line :=
  [.label (procedureLabel p.name), .instr "li" ["$v0", "0"]] ++
    storeLines (paramNames p) "$v0" p.name ++
    storeLines (bindName (paramNames p) p.name) "$ra" "$ra" ++
    stmtLines (entryNames p) k p.body ++
    [retrieveLine (exitNames p) 0 "$v0" p.name, retrieveLine (exitNames p) 0 "$ra" "$ra"] ++
    freeLines (exitNames p).length ++ [.instr "jr" ["$ra"]]

def proceduresLines (k : Nat) : List Declaration → List Line
  | [] => []
  | d :: ds =>
    procedureLines k d.procedure ++ proceduresLines (k + d.procedure.body.labelCount) ds

def mainLines (body : Option Stmt) : List Line :=
  [.plain ".text", .plain ".globl main", .label "main"] ++ body.elim [] (scopeLines [] 0) ++
    [.instr "li" ["$v0", "10"], .instr "syscall" []]

def programLines (p : Program) : List Line :=
  mainLines p.main ++ proceduresLines (p.main.elim 0 Stmt.labelCount) p.declarations

end Assembly

end MiniPascal
