import MiniPascal.Diagnostic
import MiniPascal.Machine.State
import MiniPascal.Value

/-!
Running the machine, one instruction at a time. An instruction that fails leaves registers, memory
and the place in the code as they were; only the count of steps goes up, and a bad read has taken
its word from the input.
-/

namespace MiniPascal

/-- Why an instruction fails. -/
inductive FaultCause where
  | divisionByZero
  | unaligned (address : UInt32)
  | noInput
  | input (error : InputError)
  | unknownSyscall (code : Int32)
  | unknownOpcode
  deriving DecidableEq

inductive MachineError where
  | fault (cause : FaultCause) (line : Int) (text : Text)
  | stepLimit (limit : Nat)
  | output (reason : Text)
  | outOfFuel
  deriving DecidableEq

def FaultCause.message : FaultCause → Text
  | divisionByZero => "division by zero"
  | unaligned a => "unaligned address 0x" ++ Text.ofChars (Nat.toDigits 16 a.toNat)
  | noInput => "read int: no input"
  | input .atEnd => "read int: unexpected end of input"
  | input error => "read int: " ++ error.message
  | unknownSyscall code => "unknown syscall " ++ Numeral.ofWord code
  | unknownOpcode => "unknown opcode"

def MachineError.toDiagnostic : MachineError → Diagnostic
  | fault cause line text =>
    .runtime (cause.message ++ " at assembly line " ++ Numeral.ofInt line ++ " (" ++ text ++ ")") {}
  | stepLimit limit =>
    .runtime ("machine step limit of " ++ Numeral.ofNat limit ++ " exceeded") {}
  | output reason => .during "write output" (.other reason)
  | outOfFuel => .other "out of fuel"

/-- The result of an operation on two words. -/
def Alu.apply (op : Alu) (l r : Int32) : Int32 :=
  match op with
  | addu => l + r
  | subu => l - r
  | mul => l * r
  | seq => Word.ofBool (l == r)
  | sne => Word.ofBool (l != r)
  | slt => Word.ofBool (l < r)
  | sgt => Word.ofBool (r < l)
  | sle => Word.ofBool (l ≤ r)
  | sge => Word.ofBool (r ≤ l)
  | and => l &&& r
  | or => l ||| r

/-- Why an instruction does not go through. -/
inductive Refusal where
  | fault (cause : FaultCause)
  | output (reason : Text)
  deriving DecidableEq

namespace Machine

/-- What an instruction does: the machine behind it, or a refusal and the input that is left. -/
abbrev Effect := Except (Refusal × Option Input) Machine

def refuse (m : Machine) (cause : FaultCause) : Effect := .error (.fault cause, m.input)

/-- Goes on at another place. -/
def goto (m : Machine) (pc : Int) : Machine := { m with pc }

/-- Goes on behind the current instruction. -/
def next (m : Machine) : Machine := m.goto (m.pc + 1)

def operand (m : Machine) : Operand → Int32
  | .reg r => m.reg r
  | .imm n => n

def address (m : Machine) (offset : Int32) (base : Reg) : UInt32 :=
  (m.reg base + offset).toUInt32

/-- Whether a word may be stored at an address. -/
def isAligned (a : UInt32) : Bool := a % 4 == 0

/-- Writes some bytes and goes on. -/
def emit (m : Machine) (bs : List UInt8) : Effect :=
  match m.sink.write bs with
  | .ok sink => .ok { m with sink }.next
  | .error reason => .error (.output reason, m.input)

/-- Takes a number from the input into the result register and goes on. -/
def readInt (m : Machine) : Effect :=
  match m.input with
  | none => m.refuse .noInput
  | some input =>
    match input.next with
    | (.ok v, rest) => .ok ({ m with input := some rest }.setReg Reg.v0 v).next
    | (.error e, rest) => .error (.fault (.input e), some rest)

/-- The service whose number is in the result register: 1 prints a number, 11 a byte, 5 reads a
number and 10 halts. -/
def syscall (m : Machine) : Effect :=
  let code := m.reg Reg.v0
  if code = 1 then m.emit (Numeral.ofWord (m.reg Reg.a0)).bytes
  else if code = 11 then m.emit [(m.reg Reg.a0).toUInt32.toUInt8]
  else if code = 5 then m.readInt
  else if code = 10 then .ok { m with halted := true }.next
  else m.refuse (.unknownSyscall code)

/-- Executes an instruction. -/
def perform (m : Machine) : Instr Int → Effect
  | .li rd v => .ok (m.setReg rd v).next
  | .lw rt offset base =>
    let a := m.address offset base
    if isAligned a then .ok (m.setReg rt (m.load a)).next else m.refuse (.unaligned a)
  | .sw rt offset base =>
    let a := m.address offset base
    if isAligned a then .ok (m.store a (m.reg rt)).next else m.refuse (.unaligned a)
  | .move rd rs => .ok (m.setReg rd (m.reg rs)).next
  | .alu op rd rs src => .ok (m.setReg rd (op.apply (m.reg rs) (m.operand src))).next
  | .div rd rs rt =>
    if m.reg rt = 0 then m.refuse .divisionByZero
    else .ok (m.setReg rd (m.reg rs / m.reg rt)).next
  | .divmod rs rt =>
    if m.reg rt = 0 then m.refuse .divisionByZero
    else .ok { m with lo := m.reg rs / m.reg rt, hi := m.reg rs % m.reg rt }.next
  | .mfhi rd => .ok (m.setReg rd m.hi).next
  | .mflo rd => .ok (m.setReg rd m.lo).next
  | .beqz rs target => .ok (if m.reg rs = 0 then m.goto target else m.next)
  | .bnez rs target => .ok (if m.reg rs = 0 then m.next else m.goto target)
  | .jump target => .ok (m.goto target)
  | .jal target => .ok ((m.setReg Reg.ra (Int32.ofInt (m.pc + 1))).goto target)
  | .jr rs => .ok (m.goto (m.reg rs).toInt)
  | .syscall => m.syscall
  | .illegal => m.refuse .unknownOpcode

/-- Counts and executes an instruction, within the limit if there is one. -/
def advance (limit : Option Nat) (m : Machine) (i : Located) : Option MachineError × Machine :=
  let counted := { m with steps := m.steps + 1 }
  match limit.filter (· < counted.steps) with
  | some n => (some (.stepLimit n), counted)
  | none =>
    match counted.perform i.instr with
    | .ok after => (none, after)
    | .error (.fault cause, input) => (some (.fault cause i.line i.text), { counted with input })
    | .error (.output reason, input) => (some (.output reason), { counted with input })

/-- One step. A machine that has halted stays as it is, and one whose place lies outside the code
halts. -/
def step (code : Code) (limit : Option Nat) (m : Machine) : Option MachineError × Machine :=
  if m.halted then (none, m)
  else
    match code.fetch m.pc with
    | none => (none, { m with halted := true })
    | some i => m.advance limit i

/-- Steps until the machine halts or a step fails. -/
def run (code : Code) (limit : Option Nat) : Nat → Machine → Option MachineError × Machine
  | 0, m => (if m.halted then none else some .outOfFuel, m)
  | n + 1, m =>
    if m.halted then (none, m)
    else
      match m.step code limit with
      | (none, after) => run code limit n after
      | (some e, after) => (some e, after)

/-- At most `n` steps, up to the first that fails. -/
def stepMany (code : Code) (limit : Option Nat) : Nat → Machine → Option MachineError × Machine
  | 0, m => (none, m)
  | n + 1, m =>
    match m.step code limit with
    | (none, after) => stepMany code limit n after
    | (some e, after) => (some e, after)

/-- The value of the register of a name. -/
def namedReg? (m : Machine) (name : Text) : Option Int32 := (Reg.ofName? name).map m.reg

/-- The named registers that are not zero, with their values. -/
def liveRegs (m : Machine) : Table Int32 :=
  (Reg.named.map fun (name, r) => (name, m.reg r)).filter (·.2 ≠ 0)

end Machine

end MiniPascal
