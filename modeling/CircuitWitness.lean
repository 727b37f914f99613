import CircuitWitness.Blueprint.WireList
import CircuitWitness.Circuit.Codec
import CircuitWitness.Circuit.Unconstrained
import CircuitWitness.Solver.Run
import CircuitWitness.Proofs.Field.Ring
import CircuitWitness.Proofs.Constraint.Coefficients
import CircuitWitness.Proofs.Circuit.Evaluation
import CircuitWitness.Proofs.Solver.Execution
import CircuitWitness.Proofs.Solver.RankOne
import CircuitWitness.Proofs.Solver.Hint
import CircuitWitness.Proofs.Solver.Gate
import CircuitWitness.Proofs.Solver.ClosedForm
import CircuitWitness.Proofs.Solver.Partition
import CircuitWitness.Proofs.Solver.Runs
import CircuitWitness.Proofs.Solver.Attempts
import CircuitWitness.Proofs.Blueprint.Encoding
import CircuitWitness.Proofs.Circuit.Edits
import CircuitWitness.Proofs.Circuit.Reachable
import CircuitWitness.Proofs.Circuit.Constraints
import CircuitWitness.Proofs.Solver.Soundness
import CircuitWitness.Proofs.Solver.Interleaving
import CircuitWitness.Proofs.Solver.Compression
import CircuitWitness.Proofs.Circuit.Operations
import CircuitWitness.Proofs.Circuit.Leveling
import CircuitWitness.Proofs.Solver.Independence
import CircuitWitness.Proofs.Solver.Confluence
import CircuitWitness.Proofs.Solver.Parallel
import CircuitWitness.Proofs.Solver.Reordering
import CircuitWitness.Proofs.Solver.AppendOrder
import CircuitWitness.Proofs.Solver.Completion
import CircuitWitness.Proofs.Solver.Satisfaction
import CircuitWitness.Proofs.Solver.Completeness
import CircuitWitness.Proofs.Solver.Safety
import CircuitWitness.Proofs.Codec.RoundTrip
import CircuitWitness.Proofs.Codec.Sections
import CircuitWitness.Proofs.Codec.Canonical
import CircuitWitness.Proofs.Circuit.Validity
import CircuitWitness.Proofs.Circuit.Persistence
import CircuitWitness.Proofs.Circuit.Normalisation
import CircuitWitness.Proofs.Solver.Refutation
import CircuitWitness.Proofs.Solver.WellShaped
import CircuitWitness.Proofs.Circuit.Recoding
import CircuitWitness.Proofs.Solver.Recoding
import CircuitWitness.Proofs.Codec.Format
import CircuitWitness.Proofs.Circuit.Atomicity
import CircuitWitness.Proofs.Circuit.Framing
import CircuitWitness.Proofs.Circuit.Contents
import CircuitWitness.Proofs.Codec.Exactness
import CircuitWitness.Proofs.Codec.Room
import CircuitWitness.Proofs.Solver.TermOrder
import CircuitWitness.Proofs.Solver.GateRoots
import CircuitWitness.Proofs.Circuit.Dependencies
import CircuitWitness.Proofs.Circuit.GivenLevels
import CircuitWitness.Proofs.Blueprint.Packing
import CircuitWitness.Proofs.Blueprint.Shapes
import CircuitWitness.Proofs.Circuit.Unconstrained
import CircuitWitness.Proofs.Hint.Builtin
import CircuitWitness.Proofs.Codec.Elements
import CircuitWitness.Proofs.Log.Symbols
import CircuitWitness.Proofs.Solver.Expressions
import CircuitWitness.Proofs.Solver.Evaluators
import CircuitWitness.Proofs.Log.Entry
import CircuitWitness.Proofs.Solver.Frame
