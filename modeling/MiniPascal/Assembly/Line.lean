import MiniPascal.Text.Blank
import MiniPascal.Text.Numeral
import MiniPascal.Tree.Basic

/-!
Lines of assembly text, as the generator writes them.
-/

namespace MiniPascal

namespace Assembly

inductive Line where
  | instr (mnemonic : Text) (operands : List Text)
  | label (name : Text)
  /-- A label with a remark behind it. -/
  | marked (name remark : Text)
  | comment (remark : Text)
  | plain (text : Text)
  deriving DecidableEq

namespace Line

def text : Line → Text
  | instr mnemonic operands => Text.join " " (mnemonic :: operands)
  | label name => name ++ ":"
  | marked name remark => name ++ ": #" ++ remark
  | comment remark => "# " ++ remark
  | plain t => t

/-- Whether a text ends in a colon, its comment and the blanks at its ends left aside. -/
def definesLabel (t : Text) : Bool := (t.before '#').trim.getLast? = some (.char ':')

/-- The line as it is written. A label starts in the first column, anything else behind a tab. -/
def render (l : Line) : Text :=
  (if definesLabel l.text then l.text else .char '\t' :: l.text) ++ "\n"

end Line

/-- The operand for a place in the stack, `offset` bytes above its top. -/
def slot (offset : Int) : Text := Numeral.ofInt offset ++ "($sp)"

/-- The operand for the top of the stack. -/
def top : Text := "($sp)"

/-- The lines that apply an operator to integers in `$t0` and `$v0` and leave the result in `$v0`.
Truth values are made 0 or 1 before they are combined. -/
def operatorLines? : Operator → Option (List Line)
  | .add => some [.instr "addu" ["$v0", "$t0", "$v0"]]
  | .sub => some [.instr "subu" ["$v0", "$t0", "$v0"]]
  | .mul => some [.instr "mul" ["$v0", "$t0", "$v0"]]
  | .div => some [.instr "div" ["$v0", "$t0", "$v0"]]
  | .mod => some [.instr "div" ["$t0", "$v0"], .instr "mfhi" ["$v0"]]
  | .eq => some [.instr "seq" ["$v0", "$t0", "$v0"]]
  | .ne => some [.instr "sne" ["$v0", "$t0", "$v0"]]
  | .lt => some [.instr "slt" ["$v0", "$t0", "$v0"]]
  | .gt => some [.instr "sgt" ["$v0", "$t0", "$v0"]]
  | .le => some [.instr "sle" ["$v0", "$t0", "$v0"]]
  | .ge => some [.instr "sge" ["$v0", "$t0", "$v0"]]
  | .and => some [
    .instr "sne" ["$t0", "$t0", "$zero"], .instr "sne" ["$v0", "$v0", "$zero"],
    .instr "and" ["$v0", "$t0", "$v0"]]
  | .or => some [
    .instr "sne" ["$t0", "$t0", "$zero"], .instr "sne" ["$v0", "$v0", "$zero"],
    .instr "or" ["$v0", "$t0", "$v0"]]
  | .other _ => none

/-- The label at which a procedure begins. -/
def procedureLabel (name : Text) : Text := "procedure" ++ name

end Assembly

end MiniPascal
