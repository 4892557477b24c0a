import MiniPascal.Diagnostic
import MiniPascal.Machine.Instr
import MiniPascal.Text.Blank
import MiniPascal.Text.Case
import MiniPascal.Text.Numeral
import MiniPascal.Text.Quoted

/-!
The assembler. First every line is taken apart and the labels get their places, then every
instruction is decoded; the first line that does not fit decides the error.
-/

namespace MiniPascal

/-- Why a line cannot be assembled. -/
inductive LineCause where
  | invalidLabel (label : Text)
  | duplicateLabel (label : Text)
  | globlSymbols
  | unsupportedDirective (mnemonic : Text)
  | operandCount (mnemonic : Text) (expected found : Nat)
  | divOperands (found : Nat)
  | unknownRegister (name : Text)
  | invalidImmediate (word : Text)
  | undefinedLabel (label : Text)
  | invalidMemoryOperand (word : Text)
  | unknownInstruction (mnemonic : Text)
  deriving DecidableEq

inductive AssemblyError where
  | line (cause : LineCause) (number : Nat)
  | noMain
  deriving DecidableEq

def LineCause.message (number : Nat) : LineCause → Text
  | invalidLabel label => "invalid label " ++ label.quote ++ place
  | duplicateLabel label => "duplicate label " ++ label.quote ++ place
  | globlSymbols => ".globl expects one symbol" ++ place
  | unsupportedDirective mnemonic => "unsupported directive " ++ mnemonic ++ place
  | operandCount mnemonic expected found =>
    mnemonic ++ " expects " ++ Numeral.ofNat expected ++ " operand(s)" ++ place ++ ", got " ++
      Numeral.ofNat found
  | divOperands found =>
    "div expects 2 or 3 operands" ++ place ++ ", got " ++ Numeral.ofNat found
  | unknownRegister name => "unknown register " ++ name.quote ++ place
  | invalidImmediate word => "invalid immediate " ++ word.quote ++ place
  | undefinedLabel label => "undefined label " ++ label.quote ++ place
  | invalidMemoryOperand word => "invalid memory operand " ++ word.quote ++ place
  | unknownInstruction mnemonic => "unknown instruction " ++ mnemonic.quote ++ place
where
  place : Text := " on line " ++ Numeral.ofNat number

def AssemblyError.message : AssemblyError → Text
  | line cause number => cause.message number
  | noMain => "no main label"

def AssemblyError.toDiagnostic (e : AssemblyError) : Diagnostic := .other e.message

/-- A line taken apart. A line without an instruction has no mnemonic. -/
structure AsmLine where
  number : Nat
  labels : List Text
  mnemonic : Text
  operands : List Text
  /-- The line without its comment and the blanks around it. -/
  text : Text
  deriving DecidableEq

namespace AsmLine

def isLabelStart : Glyph → Bool
  | .char c => c == '_' || c == '.' || ('a' ≤ c && c ≤ 'z') || ('A' ≤ c && c ≤ 'Z')
  | .stray _ => false

def isLabelPart : Glyph → Bool
  | .char c => isLabelStart (.char c) || ('0' ≤ c && c ≤ '9')
  | .stray _ => false

def isLabel : Text → Bool
  | [] => false
  | g :: gs => isLabelStart g && gs.all isLabelPart

/-- A comma counts as a blank between operands. -/
def isSeparator (g : Glyph) : Bool := g.isBlank || g = .char ','

/-- The words of a line behind its labels. -/
def fields (t : Text) : List Text := (t.splitOnP isSeparator).filter (· ≠ [])

/-- Takes a line apart: labels in front of colons, a mnemonic in any case, operands. -/
def ofText (number : Nat) (raw : Text) : Except AssemblyError AsmLine :=
  let text := (raw.before '#').trim
  let parts := text.splitOn (.char ':')
  let labels := parts.dropLast.map Text.trim
  match labels.find? (!isLabel ·) with
  | some label => .error (.line (.invalidLabel label) number)
  | none =>
    match fields (parts.getLast?.getD []) with
    | [] => .ok { number, labels, mnemonic := [], operands := [], text }
    | m :: operands => .ok { number, labels, mnemonic := m.toLower, operands, text }

/-- Whether a line holds an instruction. -/
def isInstr (l : AsmLine) : Bool := l.mnemonic ≠ [] && l.mnemonic.head? ≠ some (.char '.')

def fail {α : Type} (l : AsmLine) (cause : LineCause) : Except AssemblyError α :=
  .error (.line cause l.number)

/-- Checks a line that holds no instruction. -/
def checkDirective (l : AsmLine) : Except AssemblyError Unit :=
  if l.mnemonic = [] ∨ l.mnemonic = ".text" then .ok ()
  else if l.mnemonic = ".globl" then
    if l.operands.length = 1 then .ok () else l.fail .globlSymbols
  else l.fail (.unsupportedDirective l.mnemonic)

def reg (l : AsmLine) (name : Text) : Except AssemblyError Reg :=
  match Reg.ofName? name with
  | some r => .ok r
  | none => l.fail (.unknownRegister name)

def imm (l : AsmLine) (word : Text) : Except AssemblyError Int32 :=
  match Numeral.readWord? .detected word with
  | some n => .ok n
  | none => l.fail (.invalidImmediate word)

/-- A memory operand, `offset(base)` or `(base)`: nothing follows the first closing parenthesis. -/
def mem (l : AsmLine) (word : Text) : Except AssemblyError (Int32 × Reg) :=
  match word.cut? '(', word.getLast? with
  | some (offset, inner), some (.char ')') =>
    let base := inner.dropLast
    if offset.contains (.char ')') || base.contains (.char ')') then
      l.fail (.invalidMemoryOperand word)
    else do
      let n ← if offset = [] then .ok 0 else l.imm offset
      let r ← l.reg base
      return (n, r)
  | _, _ => l.fail (.invalidMemoryOperand word)

/-- A register if it starts like one, else an immediate. -/
def regOrImm (l : AsmLine) (word : Text) : Except AssemblyError Operand :=
  if word.head? = some (.char '$') then (l.reg word).map .reg else (l.imm word).map .imm

/-- The operations whose last operand may be an immediate. -/
def setOps : Table Alu := [
  ("addu", .addu), ("subu", .subu), ("seq", .seq), ("sne", .sne), ("slt", .slt), ("sgt", .sgt),
  ("sle", .sle), ("sge", .sge)]

/-- The operations on registers alone. -/
def regOps : Table Alu := [("mul", .mul), ("and", .and), ("or", .or)]

def wrongCount {α : Type} (l : AsmLine) (expected : Nat) : Except AssemblyError α :=
  l.fail (.operandCount l.mnemonic expected l.operands.length)

def one {α : Type} (l : AsmLine) (f : Text → Except AssemblyError α) : Except AssemblyError α :=
  match l.operands with
  | [a] => f a
  | _ => l.wrongCount 1

def two {α : Type} (l : AsmLine) (f : Text → Text → Except AssemblyError α) :
    Except AssemblyError α :=
  match l.operands with
  | [a, b] => f a b
  | _ => l.wrongCount 2

def three {α : Type} (l : AsmLine) (f : Text → Text → Text → Except AssemblyError α) :
    Except AssemblyError α :=
  match l.operands with
  | [a, b, c] => f a b c
  | _ => l.wrongCount 3

def decodeDiv (l : AsmLine) : Except AssemblyError (Instr Text) :=
  match l.operands with
  | [a, b] => do
    let rs ← l.reg a
    let rt ← l.reg b
    return .divmod rs rt
  | [a, b, c] => do
    let rd ← l.reg a
    let rs ← l.reg b
    let rt ← l.reg c
    return .div rd rs rt
  | ops => l.fail (.divOperands ops.length)

/-- The operations of `setOps` and `regOps`. -/
def decodeAlu (l : AsmLine) : Except AssemblyError (Instr Text) :=
  match setOps.get? l.mnemonic, regOps.get? l.mnemonic with
  | some op, _ => l.three fun a b c => do
    let rd ← l.reg a
    let rs ← l.reg b
    let src ← l.regOrImm c
    return .alu op rd rs src
  | none, some op => l.three fun a b c => do
    let rd ← l.reg a
    let rs ← l.reg b
    let rt ← l.reg c
    return .alu op rd rs (.reg rt)
  | none, none => l.fail (.unknownInstruction l.mnemonic)

/-- The instruction of a line, with its target still a label. Operands are read from the left. -/
def decode (l : AsmLine) : Except AssemblyError (Instr Text) :=
  let m := l.mnemonic
  if m = "li" then l.two fun a b => do
    let rd ← l.reg a
    let n ← l.imm b
    return .li rd n
  else if m = "lw" then l.two fun a b => do
    let rt ← l.reg a
    let (n, base) ← l.mem b
    return .lw rt n base
  else if m = "sw" then l.two fun a b => do
    let rt ← l.reg a
    let (n, base) ← l.mem b
    return .sw rt n base
  else if m = "move" then l.two fun a b => do
    let rd ← l.reg a
    let rs ← l.reg b
    return .move rd rs
  else if m = "div" then l.decodeDiv
  else if m = "mfhi" then l.one fun a => (l.reg a).map .mfhi
  else if m = "mflo" then l.one fun a => (l.reg a).map .mflo
  else if m = "beqz" then l.two fun a b => (l.reg a).map (.beqz · b)
  else if m = "bnez" then l.two fun a b => (l.reg a).map (.bnez · b)
  else if m = "j" then l.one fun a => .ok (.jump a)
  else if m = "jal" then l.one fun a => .ok (.jal a)
  else if m = "jr" then l.one fun a => (l.reg a).map .jr
  else if m = "syscall" then
    if l.operands = [] then .ok .syscall else l.wrongCount 0
  else l.decodeAlu

/-- The place of a label. -/
def target (l : AsmLine) (labels : Table Nat) (label : Text) : Except AssemblyError Int :=
  match labels.get? label with
  | some n => .ok n
  | none => l.fail (.undefinedLabel label)

/-- The instruction of a line, ready to run. -/
def assemble (labels : Table Nat) (l : AsmLine) : Except AssemblyError Located := do
  let symbolic ← l.decode
  let instr ← symbolic.resolve (l.target labels)
  return { instr, line := l.number, text := l.text }

end AsmLine

namespace Code

/-- Gives labels the place `index`. -/
def placeLabels (l : AsmLine) (index : Nat) :
    List Text → Table Nat → Except AssemblyError (Table Nat)
  | [], labels => .ok labels
  | label :: rest, labels =>
    if labels.contains label then l.fail (.duplicateLabel label)
    else placeLabels l index rest (labels.set label index)

/-- What the first pass over the lines finds: the instruction lines and the places of the labels. A
label's place is the number of instructions in front of it. -/
structure Layout where
  instrs : Array AsmLine := #[]
  labels : Table Nat := []

/-- Adds a line to what was found before it. -/
def Layout.add (found : Layout) (number : Nat) (raw : Text) : Except AssemblyError Layout := do
  let l ← AsmLine.ofText number raw
  let labels ← placeLabels l found.instrs.size l.labels found.labels
  if l.isInstr then return { instrs := found.instrs.push l, labels }
  else
    l.checkDirective
    return { found with labels }

/-- The layout of lines that are numbered from `number` on. -/
def Layout.addAll (found : Layout) (number : Nat) : List Text → Except AssemblyError Layout
  | [] => .ok found
  | raw :: rest =>
    match found.add number raw with
    | .error e => .error e
    | .ok more => more.addAll (number + 1) rest

/-- Assembles instruction lines in turn, behind those already done. -/
def assembleLines (labels : Table Nat) (done : Array Located) :
    List AsmLine → Except AssemblyError (Array Located)
  | [] => .ok done
  | l :: rest =>
    match l.assemble labels with
    | .error e => .error e
    | .ok located => assembleLines labels (done.push located) rest

/-- The code that a text holds. It begins at the label `main`. -/
def ofText (text : Text) : Except AssemblyError Code := do
  let layout ← Layout.addAll {} 1 text.lines
  let instrs ← assembleLines layout.labels #[] layout.instrs.toList
  match layout.labels.get? "main" with
  | none => .error .noMain
  | some entry => return { instrs, labels := layout.labels, entry }

end Code

end MiniPascal
