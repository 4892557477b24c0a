import MiniPascal.Assembly.Line
import MiniPascal.Table

/-!
Building assembly text while keeping account of the stack. The builder knows how many bytes the
current frame has pushed (`delta`) and the count at which each live variable was pushed (its
offset), so a variable at offset `o` lies `delta - o` bytes above the stack pointer. Open scopes own
the variables that were made in them.
-/

namespace MiniPascal

namespace Assembly

/-- The size of a stack slot in bytes. -/
def wordSize : Int := 4

/-- A slip in the account of the stack. -/
inductive Slip where
  | popBelowBase
  | releasedTooMany
  | storeOutsideScope (name : Text)
  | freeWithoutScope
  | linkedInsideFrame
  deriving DecidableEq

/-- Why an account does not balance. -/
inductive Imbalance where
  | slip (s : Slip)
  | unbalanced (delta : Int) (openScopes : Nat)
  deriving DecidableEq

def Slip.message : Slip → Text
  | popBelowBase => "internal: pop below the frame base"
  | releasedTooMany => "internal: released more arguments than were pushed"
  | storeOutsideScope name => "internal: store of " ++ name ++ " outside any scope"
  | freeWithoutScope => "internal: free of a scope that was never opened"
  | linkedInsideFrame => "internal: procedure linked inside another frame"

def Imbalance.message : Imbalance → Text
  | slip s => s.message
  | unbalanced delta openScopes =>
    "internal: unbalanced stack: delta " ++ Numeral.ofInt delta ++ ", " ++
      Numeral.ofNat openScopes ++ " open scope(s)"

structure Builder where
  /-- The lines so far, the latest first. -/
  lines : List Line := []
  /-- The bytes pushed since the frame began. It is a whole number here; a counter of 64 bits shows the
  same as long as fewer than 2 ^ 61 words are moved. -/
  delta : Int := 0
  /-- The count of pushed bytes at which each live variable was made. -/
  offsets : Table Int := []
  /-- The names that each open scope owns, the innermost scope and the latest name first. -/
  scopes : List (List Text) := []
  /-- The number of labels handed out. -/
  labels : Nat := 0
  /-- The procedures called without a declaration, in order of their first call. -/
  unresolved : List Text := []
  /-- The first slip. -/
  slip : Option Slip := none

namespace Builder

def emit (b : Builder) (l : Line) : Builder := { b with lines := l :: b.lines }

def emitAll (b : Builder) (ls : List Line) : Builder := ls.foldl emit b

/-- Keeps the first slip if `wrong` holds. -/
def note (b : Builder) (wrong : Bool) (s : Slip) : Builder :=
  if wrong then { b with slip := b.slip.or (some s) } else b

/-- Puts a register on the stack. -/
def push (b : Builder) (reg : Text) : Builder :=
  let b := b.emitAll [.instr "subu" ["$sp", "$sp", "4"], .instr "sw" [reg, top]]
  { b with delta := b.delta + wordSize }

/-- Takes the top of the stack into a register. -/
def pop (b : Builder) (reg : Text) : Builder :=
  let b := b.emitAll [.instr "lw" [reg, top], .instr "addu" ["$sp", "$sp", "4"]]
  let delta := b.delta - wordSize
  { b with delta }.note (delta < 0) .popBelowBase

/-- Accounts for `n` arguments that the called procedure has taken off the stack. -/
def release (b : Builder) (n : Int) : Builder :=
  let delta := b.delta - n * wordSize
  { b with delta }.note (delta < 0) .releasedTooMany

/-- Writes a register to a variable. A variable without a slot gets one, which the innermost scope
owns. -/
def store (b : Builder) (reg name : Text) : Builder :=
  match b.offsets.get? name, b.scopes with
  | some offset, _ => b.emit (.instr "sw" [reg, slot (b.delta - offset)])
  | none, [] => b.note true (.storeOutsideScope name)
  | none, owned :: outer =>
    let b := (b.emit (.comment ("new variable " ++ name))).push reg
    { b with offsets := b.offsets.set name b.delta, scopes := (name :: owned) :: outer }

/-- Reads a variable into a register. A variable without a slot is zero. -/
def retrieve (b : Builder) (reg name : Text) : Builder :=
  match b.offsets.get? name with
  | some offset => b.emit (.instr "lw" [reg, slot (b.delta - offset)])
  | none => b.emit (.instr "li" [reg, "0"])

/-- Opens a scope. -/
def beginScope (b : Builder) : Builder := { b with scopes := [] :: b.scopes }

/-- Closes the innermost scope and takes its variables off the stack. -/
def freeScope (b : Builder) : Builder :=
  match b.scopes with
  | [] => b.note true .freeWithoutScope
  | [] :: outer => { b with scopes := outer }
  | owned :: outer =>
    let size := wordSize * owned.length
    let b := b.emit (.instr "addu" ["$sp", "$sp", Numeral.ofInt size])
    { b with
      delta := b.delta - size
      offsets := owned.foldl Table.erase b.offsets
      scopes := outer }

/-- The offsets of parameters, the first of them pushed first. -/
def paramOffsets (offset : Int) : List Text → List (Text × Int)
  | [] => []
  | name :: names => (name, offset) :: paramOffsets (offset + wordSize) names

/-- Begins the frame of a procedure. The caller has pushed its arguments, and a scope of the
procedure owns them. -/
def linkProcedure (b : Builder) (params : List Text) : Builder :=
  let b := b.note (b.scopes ≠ [] || b.delta ≠ 0) .linkedInsideFrame
  { b with
    delta := params.length * wordSize
    offsets := b.offsets.setAll (paramOffsets wordSize params)
    scopes := params.reverse :: b.scopes }

/-- Hands out a label that was not handed out before. -/
def newLabel (b : Builder) : Text × Builder :=
  ("label" ++ Numeral.ofNat b.labels, { b with labels := b.labels + 1 })

/-- Notes a call of a procedure that has no declaration. -/
def noteUnresolved (b : Builder) (name : Text) : Builder :=
  if b.unresolved.contains name then b else { b with unresolved := b.unresolved ++ [name] }

/-- Fails unless there was no slip, every scope is closed and nothing is left on the stack. -/
def checkBalanced (b : Builder) : Except Imbalance Unit :=
  match b.slip with
  | some s => .error (.slip s)
  | none =>
    if b.scopes ≠ [] || b.delta ≠ 0 then .error (.unbalanced b.delta b.scopes.length) else .ok ()

/-- The text so far. -/
def render (b : Builder) : Text := b.lines.reverse.flatMap Line.render

end Builder

end Assembly

end MiniPascal
