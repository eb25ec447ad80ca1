import TapeMachine.Control
import TapeMachine.FileTree
import TapeMachine.Main
import TapeMachine.Proofs.Bracket.Balance
import TapeMachine.Proofs.Bracket.Matched
import TapeMachine.Proofs.Bracket.SearchPartner
import TapeMachine.Proofs.Bracket.TablePairs
import TapeMachine.Proofs.Bracket.Skeleton
import TapeMachine.Proofs.Machine.Faults
import TapeMachine.Proofs.Machine.Runs
import TapeMachine.Proofs.Machine.Strategies
import TapeMachine.Proofs.Structured.Block
import TapeMachine.Proofs.Structured.Semantics
import TapeMachine.Proofs.Structured.Reached
import TapeMachine.Proofs.Structured.Refinement
import TapeMachine.Proofs.Machine.Rest
import TapeMachine.Proofs.Machine.Output
import TapeMachine.Proofs.Machine.Limit
import TapeMachine.Proofs.Machine.Trace
import TapeMachine.Proofs.Bracket.Stripped
import TapeMachine.Proofs.Machine.Comments
import TapeMachine.Proofs.Machine.ControlFlow
import TapeMachine.Proofs.Cell.Residue
import TapeMachine.Proofs.Machine.CellModes
import TapeMachine.Proofs.Machine.Statistics
import TapeMachine.Proofs.Machine.Composition
import TapeMachine.Proofs.Machine.Displacement
import TapeMachine.Proofs.Bracket.Inserted
import TapeMachine.Proofs.Machine.CommentLoop
import TapeMachine.Proofs.Machine.ByteRange
import TapeMachine.Proofs.Text.Utf8Sequence
import TapeMachine.Proofs.Text.LossyDecoding
import TapeMachine.Proofs.Text.ProgramFile
import TapeMachine.Proofs.Bracket.Nearest
import TapeMachine.Proofs.Bracket.Agreement
import TapeMachine.Proofs.CommandLine.Arguments
import TapeMachine.Proofs.CommandLine.Wording
import TapeMachine.Proofs.CommandLine.Report
import TapeMachine.Proofs.Structured.Contents
import TapeMachine.Proofs.Structured.Sequence
import TapeMachine.Proofs.Text.Symbols
import TapeMachine.Proofs.Machine.StraightLine
import TapeMachine.Proofs.Structured.CountingLoop
import TapeMachine.Proofs.Structured.Multiplication
import TapeMachine.Proofs.Machine.ClearLoop
import TapeMachine.Proofs.Machine.Rounds
import TapeMachine.Proofs.Structured.SelfClearing
import TapeMachine.Proofs.Cell.TapeHistory
import TapeMachine.Proofs.Cell.Additions
import TapeMachine.Proofs.Text.Offsets
import TapeMachine.Proofs.CommandLine.LiteralText
