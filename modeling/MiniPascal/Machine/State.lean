import Std.Data.TreeMap
import MiniPascal.Input
import MiniPascal.Machine.Instr
import MiniPascal.Sink

/-!
The state of the machine: registers, memory, the place of the next instruction, and what it reads
from and writes to.
-/

namespace MiniPascal

/-- The words stored at addresses; one that was never stored is zero. -/
abbrev Memory := Std.TreeMap UInt32 Int32

structure Machine where
  regs : Vector Int32 32
  hi : Int32 := 0
  lo : Int32 := 0
  mem : Memory := ∅
  pc : Int
  /-- The instructions executed so far. -/
  steps : Nat := 0
  halted : Bool := false
  input : Option Input := none
  sink : Sink := {}

namespace Machine

/-- Where the stack begins. It grows toward lower addresses. -/
def stackTop : Int32 := 0x7FFFEFFC

/-- Registers at the start: all zero but the stack pointer. -/
def freshRegs : Vector Int32 32 := (Vector.replicate 32 0).set Reg.sp stackTop

/-- A machine about to run code. -/
def start (code : Code) (input : Option Input) (sink : Sink) : Machine :=
  { regs := freshRegs, pc := code.entry, input, sink }

/-- Goes back to the start of the code; input and output go on where they are. -/
def reset (m : Machine) (code : Code) : Machine := start code m.input m.sink

def reg (m : Machine) (r : Reg) : Int32 := m.regs[r]

/-- Writes a register. The zero register stays zero. -/
def setReg (m : Machine) (r : Reg) (v : Int32) : Machine :=
  if r = Reg.zero then m else { m with regs := m.regs.set r v }

/-- The word at an address. -/
def load (m : Machine) (a : UInt32) : Int32 := m.mem.getD a 0

def store (m : Machine) (a : UInt32) (v : Int32) : Machine := { m with mem := m.mem.insert a v }

theorem reg_setReg (m : Machine) (r s : Reg) (v : Int32) :
    (m.setReg r v).reg s = if s = r ∧ r ≠ Reg.zero then v else m.reg s := by
  unfold setReg reg
  by_cases hz : r = Reg.zero
  · simp [hz]
  · by_cases hs : s = r
    · subst hs
      simp [hz]
    · have hne : (r : Nat) ≠ s := fun h => hs (Fin.ext h.symm)
      simp [hz, hs, hne]

theorem load_store (m : Machine) (a b : UInt32) (v : Int32) :
    (m.store a v).load b = if b = a then v else m.load b := by
  by_cases h : b = a
  · simp [load, store, h]
  · simp [load, store, Std.TreeMap.getD_insert, h, Ne.symm h]

end Machine

end MiniPascal
