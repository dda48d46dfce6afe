import ChartParsing.Main
import ChartParsing.Proofs.Recognition
import ChartParsing.Proofs.Viterbi.Optimality
import ChartParsing.Proofs.Viterbi.Extraction
import ChartParsing.Proofs.Grammar.RoundTrip
import ChartParsing.Proofs.Viterbi.Agreement
import ChartParsing.Proofs.Viterbi.Ties
import ChartParsing.Proofs.Charts
import ChartParsing.Proofs.RuleFile.Language
import ChartParsing.Proofs.Comparison.Extension
import ChartParsing.Proofs.Table.History
import ChartParsing.Proofs.Comparison.RuleOrder
import ChartParsing.Proofs.Comparison.Shift
import ChartParsing.Proofs.Grammar.Redefinition
import ChartParsing.Proofs.Grammar.Lookup
import ChartParsing.Proofs.CommandLine.Conversation
import ChartParsing.Proofs.Grammar.Validity
import ChartParsing.Proofs.Grammar.Start
import ChartParsing.Proofs.RuleFile.Concatenation
import ChartParsing.Proofs.Tree.Layout
import ChartParsing.Proofs.Table.Capacity
import ChartParsing.Proofs.Tree.Bracketed
import ChartParsing.Proofs.Viterbi.Shape
import ChartParsing.Proofs.CommandLine.Pieces
import ChartParsing.Proofs.Table.Numbering
import ChartParsing.Proofs.RuleFile.Progress
