import MiniPascal.Machine.Assembler
import MiniPascal.Machine.Step

/-!
Assembling a text and running it.
-/

namespace MiniPascal

inductive ExecuteError where
  | assembly (error : AssemblyError)
  | machine (error : MachineError)
  deriving DecidableEq

def ExecuteError.toDiagnostic : ExecuteError → Diagnostic
  | assembly e => .during "assemble" e.toDiagnostic
  | machine e => e.toDiagnostic

namespace Machine

/-- More steps than any run takes in practice. -/
def ampleFuel : Nat := 1000000000000000000

/-- Assembles a text and runs it until it halts or fails. The sink is what was there if nothing
ran. -/
def execute (limit : Option Nat) (fuel : Nat) (text : Text) (input : Option Input) (sink : Sink) :
    Option ExecuteError × Sink :=
  match Code.ofText text with
  | .error e => (some (.assembly e), sink)
  | .ok code =>
    let (error, m) := (start code input sink).run code limit fuel
    (error.map .machine, m.sink)

end Machine

end MiniPascal
