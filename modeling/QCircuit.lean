import QCircuit.Main
import QCircuit.Reading
import QCircuit.Proofs.Ensemble.Coherence
import QCircuit.Proofs.Ensemble.Refinement
import QCircuit.Proofs.Ensemble.Representation
import QCircuit.Proofs.Fallible
import QCircuit.Proofs.Schedule.Cells
import QCircuit.Proofs.Schedule.Slices
import QCircuit.Proofs.Schedule.Runs
import QCircuit.Proofs.Schedule.Hazards
import QCircuit.Proofs.Schedule.Conservation
import QCircuit.Proofs.Graph.Building
import QCircuit.Proofs.Graph.Traversal
import QCircuit.Proofs.Graph.Wiring
import QCircuit.Proofs.Graph.Bodies
import QCircuit.Proofs.Graph.Statements
import QCircuit.Proofs.Graph.Origins
import QCircuit.Proofs.Graph.Parts
import QCircuit.Proofs.Graph.Atomicity
import QCircuit.Proofs.Graph.Supply
import QCircuit.Proofs.Graph.Ownership
import QCircuit.Proofs.Graph.Isolation
import QCircuit.Proofs.Compile.Numbering
import QCircuit.Proofs.Compile.Trace
import QCircuit.Proofs.Compile.Replay
import QCircuit.Proofs.Compile.Preservation
import QCircuit.Proofs.Schedule.Blocks
import QCircuit.Proofs.Schedule.Exchange
import QCircuit.Proofs.Schedule.Joining
import QCircuit.Proofs.Compile.Raising
import QCircuit.Proofs.Compile.Concatenation
import QCircuit.Proofs.Compile.Admission
import QCircuit.Proofs.Compile.Packing
import QCircuit.Proofs.Number.Bits
import QCircuit.Proofs.Number.Rounding
import QCircuit.Proofs.Number.Shortest
import QCircuit.Proofs.Number.Digits
import QCircuit.Proofs.Number.Range
import QCircuit.Proofs.Expr.Grammar
import QCircuit.Proofs.Expr.Printing
import QCircuit.Proofs.Json.Numerals
import QCircuit.Proofs.Json.Scanning
import QCircuit.Proofs.Json.Reading
import QCircuit.Proofs.Json.Decoding
import QCircuit.Proofs.Json.Documents
import QCircuit.Proofs.Json.Circuits
import QCircuit.Proofs.Schedule.Contents
import QCircuit.Proofs.Compile.Gates
import QCircuit.Proofs.Compile.Text
import QCircuit.Proofs.Schedule.Earliest
import QCircuit.Proofs.Schedule.Coverage
import QCircuit.Proofs.Schedule.Reuse
import QCircuit.Proofs.Amplitude.Application
import QCircuit.Proofs.Tally.QuotaRule
import QCircuit.Proofs.Tally.Marginals
import QCircuit.Proofs.Compile.CallPaths
import QCircuit.Proofs.Graph.BodyOrder
import QCircuit.Proofs.Graph.Connected
import QCircuit.Proofs.Compile.Failures
import QCircuit.Proofs.Compile.Recursion
import QCircuit.Proofs.Compile.Lookups
import QCircuit.Proofs.Graph.Records
import QCircuit.Proofs.Graph.Loops
import QCircuit.Proofs.Graph.Dependencies
import QCircuit.Proofs.Graph.LeastFirst
import QCircuit.Proofs.Graph.LeastExtension
import QCircuit.Proofs.Expr.IndexLists
import QCircuit.Proofs.Ensemble.Refusal
import QCircuit.Proofs.Ensemble.Acceptance
import QCircuit.Proofs.Ensemble.History
import QCircuit.Proofs.Amplitude.Products
import QCircuit.Proofs.Ensemble.Conditions
import QCircuit.Proofs.Compile.Registers
import QCircuit.Proofs.Compile.Declarations
import QCircuit.Proofs.Tally.Readings
