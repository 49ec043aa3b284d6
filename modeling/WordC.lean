import WordC.Command.Compile
import WordC.Command.Run
import WordC.Command.World
import WordC.Compile.Program
import WordC.Files.Tree
import WordC.Json.Basic
import WordC.Json.Parse
import WordC.Machine.Exec
import WordC.Main
import WordC.Number.Rounding
import WordC.Proofs.ExprPrinting
import WordC.Proofs.WordArithmetic
import WordC.Report.Coverage
import WordC.Report.History
import WordC.Report.Round
import WordC.Report.SelfCheck
import WordC.Report.TimeShare
import WordC.Scope.Tree
import WordC.Source.Directive
import WordC.Source.Include
import WordC.Source.Macro
import WordC.Source.Program
import WordC.Stmt.Outline
import WordC.Stmt.Text
import WordC.Text.Column
import WordC.Text.Letter
import WordC.Text.Numeral
import WordC.Text.Quoted
import WordC.Text.Space
import WordC.Token.Scan
import WordC.Workload.Commands
import WordC.Workload.Reading
import WordC.Proofs.ExprReading
import WordC.Proofs.Scopes
import WordC.Proofs.Pointers
import WordC.Proofs.Ranges
import WordC.Proofs.CompileSteps
import WordC.Proofs.LoopControl
import WordC.Proofs.Processor
import WordC.Proofs.TestCode
import WordC.Proofs.Flow
import WordC.Proofs.Lowering
import WordC.Proofs.Tracks
import WordC.Proofs.ControlFlow
import WordC.Proofs.CallerState
import WordC.Proofs.ScopeShape
import WordC.Proofs.SourceCover
import WordC.Proofs.CallerLocals
import WordC.Proofs.ProgramPrinting
import WordC.Proofs.ProgramReading
import WordC.Proofs.ReadTrees
import WordC.Proofs.Words
import WordC.Proofs.MacroExpansion
import WordC.Proofs.Paths
import WordC.Proofs.Gathering
import WordC.Proofs.IncludeRelation
import WordC.Proofs.IncludeDepth
import WordC.Proofs.IncludeWalks
import WordC.Proofs.IncludeCycles
import WordC.Proofs.TokenPrinting
import WordC.Proofs.DeviceHistory
import WordC.Proofs.MixedWords
import WordC.Proofs.Encodings
import WordC.Proofs.LabelTexts
import WordC.Proofs.LabelLedger
import WordC.Proofs.JumpTargets
import WordC.Proofs.Counting
import WordC.Proofs.Globals
import WordC.Proofs.Ways
import WordC.Proofs.CodeWays
import WordC.Proofs.StatementWays
import WordC.Proofs.Endings
import WordC.Proofs.FunctionEnds
import WordC.Proofs.RegisterPlaces
import WordC.Proofs.RegisterSharing
import WordC.Proofs.LoopArithmetic
import WordC.Proofs.ScratchCode
import WordC.Proofs.CompilerStates
import WordC.Proofs.CallCounts
import WordC.Proofs.AsmBlocks
import WordC.Proofs.CellLayout
import WordC.Proofs.CountedLoops
import WordC.Proofs.MacroCycles
import WordC.Proofs.Operands
import WordC.Proofs.OperandReading
import WordC.Proofs.BitFunctions
import WordC.Proofs.LabelSteps
import WordC.Proofs.StatementSteps
import WordC.Proofs.RefusedStatements
import WordC.Proofs.ReadingProgress
import WordC.Proofs.MovedConstants
import WordC.Proofs.ConstantRange
import WordC.Proofs.Plateaus
