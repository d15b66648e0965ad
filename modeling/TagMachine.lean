import TagMachine.Config.Read
import TagMachine.Proofs.Builtin.Date
import TagMachine.Proofs.Builtin.DateParts
import TagMachine.Proofs.Builtin.Encoding
import TagMachine.Proofs.Builtin.Range
import TagMachine.Proofs.Builtin.Record
import TagMachine.Proofs.Builtin.Sort
import TagMachine.Proofs.Builtin.Text
import TagMachine.Proofs.Builtin.Unique
import TagMachine.Proofs.Flow.Enforcement
import TagMachine.Proofs.Flow.Joins
import TagMachine.Proofs.Flow.StraightLine
import TagMachine.Proofs.Iteration.Bracketed
import TagMachine.Proofs.Iteration.Completed
import TagMachine.Proofs.Iteration.Folding
import TagMachine.Proofs.Json.Floats
import TagMachine.Proofs.Machine.Arithmetic
import TagMachine.Proofs.Machine.Comparisons
import TagMachine.Proofs.Machine.Conversions
import TagMachine.Proofs.Machine.Cycles
import TagMachine.Proofs.Machine.Dependencies
import TagMachine.Proofs.Machine.Linked
import TagMachine.Proofs.Machine.Phases
import TagMachine.Proofs.Packet.Constants
import TagMachine.Proofs.Packet.Sections
import TagMachine.Proofs.Pattern.Whole
import TagMachine.Proofs.Store.Insertion
