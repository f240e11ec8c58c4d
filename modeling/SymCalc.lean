import SymCalc.Main
import SymCalc.Proofs.Meaning
import SymCalc.Proofs.CanonicalRun
import SymCalc.Proofs.RoundTrip
import SymCalc.Proofs.OperatorChains
import SymCalc.Proofs.CheckedOperators
import SymCalc.Proofs.Relabelling
import SymCalc.Proofs.Simulation
import SymCalc.Proofs.SoundEval
import SymCalc.Proofs.Safety
import SymCalc.Proofs.FormalSums
import SymCalc.Proofs.Separation
import SymCalc.Proofs.RingLaws
import SymCalc.Proofs.Scanning
import SymCalc.Proofs.Readers
import SymCalc.Proofs.Contract
import SymCalc.Proofs.ContractOfStatements
import SymCalc.Proofs.WellFormedPrograms
import SymCalc.Proofs.Lockstep
import SymCalc.Proofs.StatementsInStep
import SymCalc.Proofs.ProgramsInStep
import SymCalc.Proofs.Conversation
import SymCalc.Proofs.CallStack
import SymCalc.Proofs.Replay
import SymCalc.Proofs.Composition
import SymCalc.Proofs.WholeProgram
import SymCalc.Proofs.UnmentionedNames
import SymCalc.Proofs.SourceOrder
import SymCalc.Proofs.ReadingOrder
import SymCalc.Proofs.Process
import SymCalc.Proofs.NestedExponents
import SymCalc.Proofs.Termination
import SymCalc.Proofs.Lookahead
import SymCalc.Proofs.MatrixCells
import SymCalc.Proofs.MixedProduct
import SymCalc.Proofs.Congruence
import SymCalc.Proofs.FailurePositions
import SymCalc.Proofs.MatrixLaws
import SymCalc.Proofs.OperatorForms
import SymCalc.Proofs.OrderAndEquality
import SymCalc.Proofs.ScannedText
import SymCalc.Proofs.StackDiscipline
import SymCalc.Proofs.DepthLimit
import SymCalc.Proofs.AssignedNames
import SymCalc.Proofs.LinesAsked
import SymCalc.Proofs.LineRequests
import SymCalc.Proofs.WalkthroughSteps
import SymCalc.Proofs.SourceDecoding
import SymCalc.Proofs.PlainNumbers
import SymCalc.Proofs.TextCodes
import SymCalc.Proofs.OutlineDecoding
import SymCalc.Proofs.BracketBalance
import SymCalc.Proofs.MatrixSkipping
import SymCalc.Proofs.MatrixRecovery
import SymCalc.Proofs.LineBrackets
