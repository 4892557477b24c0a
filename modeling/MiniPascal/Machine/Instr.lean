import MiniPascal.Table

/-!
Registers and instructions of the machine. A target is whatever names a place in the code: a label
before assembly, an index after it.
-/

namespace MiniPascal

abbrev Reg := Fin 32

namespace Reg

def zero : Reg := 0
def v0 : Reg := 2
def a0 : Reg := 4
def t0 : Reg := 8
def sp : Reg := 29
def ra : Reg := 31

/-- The registers that have a name. -/
def named : List (Text × Reg) := [
  ("$zero", 0), ("$at", 1), ("$v0", 2), ("$v1", 3), ("$a0", 4), ("$a1", 5), ("$a2", 6),
  ("$a3", 7), ("$t0", 8), ("$t1", 9), ("$t2", 10), ("$t3", 11), ("$t4", 12), ("$t5", 13),
  ("$t6", 14), ("$t7", 15), ("$s0", 16), ("$s1", 17), ("$s2", 18), ("$s3", 19), ("$s4", 20),
  ("$s5", 21), ("$s6", 22), ("$s7", 23), ("$t8", 24), ("$t9", 25), ("$gp", 28), ("$sp", 29),
  ("$fp", 30), ("$ra", 31)]

def ofName? (name : Text) : Option Reg := Table.get? named name

end Reg

/-- Operations that make a word out of two. -/
inductive Alu where
  | addu
  | subu
  | mul
  | seq
  | sne
  | slt
  | sgt
  | sle
  | sge
  | and
  | or
  deriving DecidableEq

/-- The second operand of an operation. -/
inductive Operand where
  | reg (r : Reg)
  | imm (n : Int32)
  deriving DecidableEq

inductive Instr (Target : Type) where
  | li (rd : Reg) (value : Int32)
  | lw (rt : Reg) (offset : Int32) (base : Reg)
  | sw (rt : Reg) (offset : Int32) (base : Reg)
  | move (rd rs : Reg)
  | alu (op : Alu) (rd rs : Reg) (operand : Operand)
  /-- The quotient of `rs` by `rt` in `rd`. -/
  | div (rd rs rt : Reg)
  /-- The quotient of `rs` by `rt` in `lo` and the remainder in `hi`. -/
  | divmod (rs rt : Reg)
  | mfhi (rd : Reg)
  | mflo (rd : Reg)
  | beqz (rs : Reg) (target : Target)
  | bnez (rs : Reg) (target : Target)
  | jump (target : Target)
  | jal (target : Target)
  | jr (rs : Reg)
  | syscall
  /-- No instruction of this machine. -/
  | illegal
  deriving DecidableEq

namespace Instr

variable {α β : Type} {ε : Type}

/-- Resolves the target of an instruction that has one. -/
def resolve (f : α → Except ε β) : Instr α → Except ε (Instr β)
  | li rd v => .ok (li rd v)
  | lw rt o b => .ok (lw rt o b)
  | sw rt o b => .ok (sw rt o b)
  | move rd rs => .ok (move rd rs)
  | alu op rd rs s => .ok (alu op rd rs s)
  | div rd rs rt => .ok (div rd rs rt)
  | divmod rs rt => .ok (divmod rs rt)
  | mfhi rd => .ok (mfhi rd)
  | mflo rd => .ok (mflo rd)
  | beqz rs t => (f t).map (beqz rs)
  | bnez rs t => (f t).map (bnez rs)
  | jump t => (f t).map jump
  | jal t => (f t).map jal
  | jr rs => .ok (jr rs)
  | syscall => .ok syscall
  | illegal => .ok illegal

end Instr

/-- An instruction, with the line of assembly text that it comes from. -/
structure Located where
  instr : Instr Int
  line : Int
  text : Text
  deriving DecidableEq

/-- Code ready to run: instructions, the places of its labels, and where to begin. -/
structure Code where
  instrs : Array Located
  labels : Table Nat := []
  entry : Int

/-- The instruction at an index, if it lies in the code. -/
def Code.fetch (code : Code) (pc : Int) : Option Located :=
  if 0 ≤ pc then code.instrs[pc.toNat]? else none

end MiniPascal
