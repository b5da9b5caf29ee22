import QCircuit.Angle
import QCircuit.AsciiCase
import QCircuit.Binary64
import QCircuit.Binary64.Rounding
import QCircuit.Circuit
import QCircuit.Circuit.Builder
import QCircuit.Circuit.Depth
import QCircuit.CommandLine.About
import QCircuit.CommandLine.Arguments
import QCircuit.CommandLine.Command
import QCircuit.CommandLine.Document
import QCircuit.CommandLine.Outcome
import QCircuit.CommandLine.Run
import QCircuit.Decimal
import QCircuit.Decimal.Layout
import QCircuit.Decimal.Shortest
import QCircuit.Draw
import QCircuit.Draw.Xoshiro
import QCircuit.Family
import QCircuit.Gate
import QCircuit.Gate.Fault
import QCircuit.Gate.Kind
import QCircuit.Gate.Parts
import QCircuit.Gate.Record
import QCircuit.Generate
import QCircuit.Generate.Bell
import QCircuit.Generate.Error
import QCircuit.Generate.Grover
import QCircuit.Generate.Journal
import QCircuit.Generate.Qaoa
import QCircuit.Generate.Shor
import QCircuit.Generate.Vqe
import QCircuit.Json
import QCircuit.Json.Number
import QCircuit.Json.Printer
import QCircuit.Json.Quoted
import QCircuit.Json.Reader
import QCircuit.Json.Record
import QCircuit.Json.Token
import QCircuit.Main
import QCircuit.Problem
import QCircuit.Problem.Fault
import QCircuit.Problem.Graph
import QCircuit.Problem.Sizing
import QCircuit.Qasm
import QCircuit.Qasm.Statement
import QCircuit.Settings
import QCircuit.Proofs.Gate.Acceptable
import QCircuit.Proofs.Binary64.Order
import QCircuit.Proofs.Circuit.Building
import QCircuit.Proofs.Circuit.Heights
import QCircuit.Proofs.Circuit.Depth
import QCircuit.Proofs.Circuit.Usage
import QCircuit.Proofs.Draw.Stream
import QCircuit.Proofs.Draw.Turn
import QCircuit.Proofs.Generate.Gates
import QCircuit.Proofs.Generate.Answer
import QCircuit.Proofs.Generate.Draws
import QCircuit.Proofs.Generate.Layout
import QCircuit.Proofs.Decimal.Numeral
import QCircuit.Proofs.Decimal.ReadBack
import QCircuit.Proofs.Decimal.Positional
import QCircuit.Proofs.Qasm.Statement
import QCircuit.Proofs.Qasm.Text
import QCircuit.Proofs.Qasm.Reader
import QCircuit.Proofs.Qasm.Document
import QCircuit.Proofs.Generate.Measured
import QCircuit.Proofs.Gate.Record
import QCircuit.Proofs.Generate.Width
import QCircuit.Proofs.Json.Grammar
import QCircuit.Proofs.Json.Quoted
import QCircuit.Proofs.Json.Number
import QCircuit.Proofs.Json.Token
import QCircuit.Proofs.Json.Reader
import QCircuit.Proofs.Json.Printer
import QCircuit.Proofs.Json.Record
import QCircuit.Proofs.Problem.Text
import QCircuit.Proofs.Circuit.Split
import QCircuit.Proofs.CommandLine.Stages
import QCircuit.Proofs.Decimal.Bounded
import QCircuit.Proofs.Json.Real
import QCircuit.Proofs.Json.PrefixCode
import QCircuit.Proofs.Circuit.Text
import QCircuit.Proofs.CommandLine.Formats
import QCircuit.Proofs.Generate.Size
import QCircuit.Proofs.CommandLine.Arguments
import QCircuit.Proofs.CommandLine.Additions
import QCircuit.Proofs.CommandLine.Delivery
import QCircuit.Proofs.Qasm.Emission
import QCircuit.Proofs.Settings.Text
import QCircuit.Proofs.Gate.Parts
import QCircuit.Proofs.Circuit.Tally
import QCircuit.Proofs.Circuit.Profile
import QCircuit.Proofs.Generate.SearchProfile
import QCircuit.Proofs.Generate.AnsatzProfile
import QCircuit.Proofs.Generate.PeriodProfile
import QCircuit.Proofs.Words.Checked
import QCircuit.Proofs.Words.Graph
import QCircuit.Proofs.Problem.Resolution
import QCircuit.Proofs.Generate.OptimizationProfile
import QCircuit.Proofs.Circuit.Bits
import QCircuit.Proofs.Generate.OptimizationPhases
import QCircuit.Proofs.Words.Program
import QCircuit.Proofs.Words.Generators
import QCircuit.Proofs.Generate.Direct
import QCircuit.Proofs.Problem.Sizing
import QCircuit.Proofs.Binary64.Nearest
import QCircuit.Proofs.Decimal.Shortest
import QCircuit.Proofs.Decimal.Plain
import QCircuit.Proofs.Circuit.Accounts
import QCircuit.Proofs.Circuit.Exchange
import QCircuit.Proofs.Circuit.Metadata
import QCircuit.Proofs.Generate.Rounds
import QCircuit.Proofs.Generate.PeriodBits
import QCircuit.Proofs.Binary64.Root
import QCircuit.Proofs.Generate.SearchRounds
