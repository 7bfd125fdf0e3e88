import ScopeIR.Bits
import ScopeIR.Main
import ScopeIR.Proofs.Outcomes
import ScopeIR.Proofs.Extension
import ScopeIR.Proofs.Success
import ScopeIR.Proofs.Ready
import ScopeIR.Proofs.Environments
import ScopeIR.Proofs.Steps
import ScopeIR.Proofs.Operators
import ScopeIR.Proofs.Bodies
import ScopeIR.Proofs.Lowering
import ScopeIR.Proofs.Programs
import ScopeIR.Proofs.Identifiers
import ScopeIR.Proofs.ControlFlow
import ScopeIR.Proofs.Bits
import ScopeIR.Proofs.Verifier
import ScopeIR.Proofs.Verification
import ScopeIR.Proofs.Accesses
import ScopeIR.Proofs.Addressing
import ScopeIR.Proofs.Availability
import ScopeIR.Proofs.DataFlow
import ScopeIR.Proofs.Agreement
import ScopeIR.Proofs.Edits
import ScopeIR.Proofs.Offences
import ScopeIR.Proofs.Refusals
import ScopeIR.Proofs.ReadBack
import ScopeIR.Proofs.DirectCalls
import ScopeIR.Proofs.Nearest
import ScopeIR.Proofs.Numerals
import ScopeIR.Proofs.JsonText
import ScopeIR.Proofs.JsonRecords
import ScopeIR.Proofs.DocumentText
import ScopeIR.Proofs.Complete
import ScopeIR.Proofs.Decoding
import ScopeIR.Proofs.Correspondence
import ScopeIR.Proofs.Recoding
import ScopeIR.Proofs.Documents
import ScopeIR.Proofs.Reencoding
import ScopeIR.Proofs.Naming
import ScopeIR.Proofs.Signatures
import ScopeIR.Proofs.Stock
import ScopeIR.Proofs.Provenance
import ScopeIR.Proofs.ParsedTrees
import ScopeIR.Proofs.TreeForms
import ScopeIR.Proofs.TreeReading
import ScopeIR.Proofs.Printing
import ScopeIR.Proofs.CallShapes
import ScopeIR.Proofs.ClosureTree
import ScopeIR.Proofs.Batches
import ScopeIR.Proofs.Positions
import ScopeIR.Proofs.BitSets
import ScopeIR.Proofs.ClosedDocuments
import ScopeIR.Proofs.StackBalance
import ScopeIR.Proofs.Discipline
import ScopeIR.Proofs.LiteralTexts
import ScopeIR.Proofs.TableHistory
import ScopeIR.Proofs.Modification
import ScopeIR.Proofs.DumpLines
import ScopeIR.Proofs.Paths
import ScopeIR.Proofs.Directories
import ScopeIR.Proofs.Renderings
import ScopeIR.Proofs.Outputs
