import Jack.Files.Disk
import Jack.Main
import Jack.Proofs.Meaning
import Jack.Proofs.SharedTemp
import Jack.Proofs.StackDiscipline
import Jack.Proofs.Operands
import Jack.Proofs.Pulls
import Jack.Proofs.EveryRun
import Jack.Proofs.UniqueLabels
import Jack.Proofs.Printing
import Jack.Proofs.Names
import Jack.Proofs.Isolation
import Jack.Proofs.Reuse
import Jack.Proofs.Budget
import Jack.Proofs.SameTokens
import Jack.Proofs.FullSink
import Jack.Proofs.WriterRuns
import Jack.Proofs.SharedStems
import Jack.Proofs.Declarations
import Jack.Proofs.Listing
import Jack.Proofs.DumpDecoding
import Jack.Proofs.CommandReading
import Jack.Proofs.EarliestErrors
import Jack.Proofs.TokenShapes
import Jack.Proofs.Continuation
import Jack.Proofs.Comments
import Jack.Proofs.ReportedLines
import Jack.Proofs.DumpedBuild
import Jack.Proofs.Metered
import Jack.Proofs.Termination
import Jack.Proofs.LineEndings
import Jack.Proofs.Deferral
import Jack.Proofs.Numerals
