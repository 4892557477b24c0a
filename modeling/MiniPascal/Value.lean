import MiniPascal.Tree.Basic

/-!
Values are 32-bit words, and arithmetic on them wraps. A word is true if it is not zero.
-/

namespace MiniPascal

namespace Word

def ofBool (b : Bool) : Int32 := if b then 1 else 0

def isTrue (w : Int32) : Bool := w != 0

end Word

inductive OperatorError where
  | divisionByZero
  | unknown
  deriving DecidableEq

def OperatorError.message : OperatorError → Text
  | divisionByZero => "division by zero"
  | unknown => "unknown operator ?"

/-- The value of an operation. Division goes toward zero, and the remainder has the sign of the
dividend. -/
def Operator.apply (op : Operator) (l r : Int32) : Except OperatorError Int32 :=
  match op with
  | add => .ok (l + r)
  | sub => .ok (l - r)
  | mul => .ok (l * r)
  | div => if r = 0 then .error .divisionByZero else .ok (l / r)
  | mod => if r = 0 then .error .divisionByZero else .ok (l % r)
  | eq => .ok (Word.ofBool (l == r))
  | ne => .ok (Word.ofBool (l != r))
  | lt => .ok (Word.ofBool (l < r))
  | gt => .ok (Word.ofBool (r < l))
  | le => .ok (Word.ofBool (l ≤ r))
  | ge => .ok (Word.ofBool (r ≤ l))
  | and => .ok (Word.ofBool (Word.isTrue l && Word.isTrue r))
  | or => .ok (Word.ofBool (Word.isTrue l || Word.isTrue r))
  | other _ => .error .unknown

end MiniPascal
