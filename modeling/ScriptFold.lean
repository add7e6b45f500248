import ScriptFold.Source.Token
import ScriptFold.Source.Scan
import ScriptFold.Source.Error
import ScriptFold.Source.Literal
import ScriptFold.Text.Blank
import ScriptFold.Text.Json
import ScriptFold.Numeral.Binary64
import ScriptFold.Numeral.Digits
import ScriptFold.Numeral.Notation
import ScriptFold.Numeral.Read
import ScriptFold.Calendar.Civil
import ScriptFold.Calendar.Moment
import ScriptFold.Calendar.Pattern
import ScriptFold.Value.Basic
import ScriptFold.Value.Error
import ScriptFold.Value.Text
import ScriptFold.Value.Numeric
import ScriptFold.Operator.Basic
import ScriptFold.Operator.Arith
import ScriptFold.Operator.Order
import ScriptFold.Operator.Logic
import ScriptFold.Operator.Apply
import ScriptFold.Syntax.Expr
import ScriptFold.Syntax.Print
import ScriptFold.Syntax.Parse
import ScriptFold.Syntax.Stream
import ScriptFold.Syntax.Dump
import ScriptFold.Command
import ScriptFold.Main
import ScriptFold.Proofs.ParseSteps
import ScriptFold.Proofs.Folding
import ScriptFold.Proofs.Grammar
import ScriptFold.Proofs.ParseComplete
import ScriptFold.Proofs.ParseSound
import ScriptFold.Proofs.Sentences
import ScriptFold.Proofs.Calendar
import ScriptFold.Proofs.DateText
import ScriptFold.Proofs.Doubles
import ScriptFold.Proofs.Scanning
import ScriptFold.Proofs.LiteralText
import ScriptFold.Proofs.LiteralReadBack
import ScriptFold.Proofs.StreamBounds
import ScriptFold.Proofs.Limits
import ScriptFold.Proofs.ScanPartition
import ScriptFold.Proofs.PrintText
import ScriptFold.Proofs.PrintBack
import ScriptFold.Proofs.Nesting
import ScriptFold.Proofs.ScanSlice
import ScriptFold.Proofs.NullLogic
import ScriptFold.Proofs.IntegerResults
import ScriptFold.Proofs.FloatLaws
import ScriptFold.Proofs.OperandSwap
import ScriptFold.Proofs.LexicalClasses
import ScriptFold.Proofs.LongestMatch
import ScriptFold.Proofs.Shift
import ScriptFold.Proofs.NodeSpans
import ScriptFold.Proofs.RadixNumbers
import ScriptFold.Proofs.DateDisplay
import ScriptFold.Proofs.FoldErrors
import ScriptFold.Proofs.FirstEnd
