import HackVm.Asm.Instruction
import HackVm.Asm.Listing
import HackVm.Asm.Printer
import HackVm.Code.Command
import HackVm.Code.Frame
import HackVm.Code.Jump
import HackVm.Code.Operator
import HackVm.Code.Place
import HackVm.Code.Scope
import HackVm.Code.Stack
import HackVm.Command
import HackVm.Command.Reader
import HackVm.CommandLine.Arguments
import HackVm.CommandLine.Log
import HackVm.CommandLine.Report
import HackVm.CommandLine.Run
import HackVm.Error
import HackVm.Folder.Fault
import HackVm.Folder.Found
import HackVm.Folder.Path
import HackVm.Folder.Tree
import HackVm.Machine
import HackVm.Machine.Alu
import HackVm.Machine.Cpu
import HackVm.Machine.Loader
import HackVm.Machine.Memory
import HackVm.Main
import HackVm.Program
import HackVm.Session
import HackVm.Source
import HackVm.StackCheck
import HackVm.Statement
import HackVm.Text.Blank
import HackVm.Text.Decimal
import HackVm.Text.Fields
import HackVm.Text.Split
import HackVm.Text.Terminal
import HackVm.Word
import HackVm.Proofs.DistinctLabels
import HackVm.Proofs.Effect
import HackVm.Proofs.Loading
import HackVm.Proofs.Running
import HackVm.Proofs.CommandCode
import HackVm.Proofs.CommandRun
import HackVm.Proofs.Site
import HackVm.Proofs.Reference
import HackVm.Proofs.StaticCell
import HackVm.Proofs.Simulation
import HackVm.Proofs.FrameLayout
import HackVm.Proofs.CallReturn
import HackVm.Proofs.StackHeight
import HackVm.Proofs.SymbolName
import HackVm.Proofs.SiteCode
import HackVm.Proofs.Placement
import HackVm.Proofs.Refusal
import HackVm.Proofs.StaticStorage
import HackVm.Proofs.BranchTarget
import HackVm.Proofs.Grammar
import HackVm.Proofs.LoadOutcome
import HackVm.Proofs.Answers
import HackVm.Proofs.Comments
import HackVm.Proofs.StackWatch
import HackVm.Proofs.HeightAgreement
import HackVm.Proofs.Reading
import HackVm.Proofs.FirstError
import HackVm.Proofs.Misuse
import HackVm.Proofs.MovedValue
import HackVm.Proofs.ComparisonResult
import HackVm.Proofs.ProblemPath
import HackVm.Proofs.Lines
import HackVm.Proofs.Layout
import HackVm.Proofs.CommandText
import HackVm.Proofs.RejectedAccess
import HackVm.Proofs.GeneratedLabels
import HackVm.Proofs.ProgramText
import HackVm.Proofs.WellFormedCode
import HackVm.Proofs.Bootstrap
import HackVm.Proofs.Spacing
import HackVm.Proofs.BodyCheck
import HackVm.Proofs.Stepping
import HackVm.Proofs.ListingOrder
import HackVm.Proofs.WrittenFile
import HackVm.Proofs.CheckFlag
import HackVm.Proofs.Outcome
import HackVm.Proofs.LabelSearch
import HackVm.Proofs.HeightRange
import HackVm.Proofs.HeightOverflow
