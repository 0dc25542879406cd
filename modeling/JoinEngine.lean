import JoinEngine.Proofs.Alu.Coverage
import JoinEngine.Proofs.Description.RoundTrip
import JoinEngine.Proofs.Expr.Position
import JoinEngine.Proofs.Filter.Faithful
import JoinEngine.Proofs.Join.Condition
import JoinEngine.Proofs.Join.Precedence
import JoinEngine.Proofs.Join.Resolve
import JoinEngine.Proofs.Record.Rebuild
