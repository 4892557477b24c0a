import MiniPascal.Main
import MiniPascal.Proofs.Safety
import MiniPascal.Proofs.Fuel
import MiniPascal.Proofs.Scoping
import MiniPascal.Proofs.Reparse
import MiniPascal.Proofs.ValidPrefix
import MiniPascal.Proofs.Bookkeeping
import MiniPascal.Proofs.StaticCalls
import MiniPascal.Proofs.Placement
import MiniPascal.Proofs.RenamedCode
import MiniPascal.Proofs.Isolation
import MiniPascal.Proofs.CutRuns
import MiniPascal.Proofs.StepLimit
import MiniPascal.Proofs.CountingLoop
import MiniPascal.Proofs.SafeRuns
import MiniPascal.Proofs.LayoutEdits
import MiniPascal.Proofs.BatchCompile
import MiniPascal.Proofs.Operators
import MiniPascal.Proofs.Comments
import MiniPascal.Proofs.Reporting
import MiniPascal.Proofs.Ledger
import MiniPascal.Proofs.Slots
import MiniPascal.Proofs.Overdrafts
import MiniPascal.Proofs.OperatorCode
import MiniPascal.Proofs.Decimals
import MiniPascal.Proofs.Precedence
