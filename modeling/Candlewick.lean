import Candlewick.Candle.Json
import Candlewick.Main
import Candlewick.Proofs.Evaluation.NoLookahead
import Candlewick.Proofs.Evaluation.Frame
import Candlewick.Proofs.Evaluation.Coincidence
import Candlewick.Proofs.Evaluation.History
import Candlewick.Proofs.Evaluation.Causes
import Candlewick.Proofs.Indicator.Window
import Candlewick.Proofs.Indicator.Assembly
import Candlewick.Proofs.Indicator.Online
import Candlewick.Proofs.Indicator.Locality
import Candlewick.Proofs.Indicator.Running
import Candlewick.Proofs.Indicator.Weighted
import Candlewick.Proofs.Indicator.WeightedFloats
import Candlewick.Proofs.Indicator.Average
import Candlewick.Proofs.Indicator.Strength
import Candlewick.Proofs.Indicator.WarmUp
import Candlewick.Proofs.Evaluation.Recomputation
import Candlewick.Proofs.Backtest.Live
import Candlewick.Proofs.Grammar.Soundness.Program
import Candlewick.Proofs.Grammar.Completeness.Expression
import Candlewick.Proofs.Grammar.Unambiguity.Expression
import Candlewick.Proofs.Grammar.Completeness.Program
import Candlewick.Proofs.Grammar.Rendering
import Candlewick.Proofs.Backtest.Prefix
import Candlewick.Proofs.Backtest.Report
import Candlewick.Proofs.Backtest.WarmUp
import Candlewick.Proofs.Source.Agreement
import Candlewick.Proofs.Node.Json
import Candlewick.Proofs.Token.Piece
import Candlewick.Proofs.Token.Position
import Candlewick.Proofs.Token.Tiling
import Candlewick.Proofs.Token.Respacing
import Candlewick.Proofs.Token.Layout
import Candlewick.Proofs.Grammar.Layout
import Candlewick.Proofs.Grammar.DanglingElse.Moves
import Candlewick.Proofs.Grammar.DanglingElse.Ambiguity
import Candlewick.Proofs.Grammar.Composition
import Candlewick.Proofs.Grammar.Bounds
import Candlewick.Proofs.Grammar.WellFormed
import Candlewick.Proofs.Signal.Isolation
import Candlewick.Proofs.Keyed.Filling
import Candlewick.Proofs.Text.Trimming
import Candlewick.Proofs.Text.Capital
import Candlewick.Proofs.Text.Pieces
import Candlewick.Proofs.Symbols
import Candlewick.Proofs.Settings.Reading
import Candlewick.Proofs.Settings.Acceptance
import Candlewick.Proofs.Settings.Positions
import Candlewick.Proofs.Settings.Values
import Candlewick.Proofs.Settings.Safety
import Candlewick.Proofs.Grammar.Places
import Candlewick.Proofs.Grammar.Rereading
import Candlewick.Proofs.Text.Lines
import Candlewick.Proofs.Token.Cutting
import Candlewick.Proofs.Diagnostic.Context
import Candlewick.Proofs.Token.Literal
import Candlewick.Proofs.Feed.Loading
import Candlewick.Proofs.Calendar.Timeline
import Candlewick.Proofs.Grammar.Viability
import Candlewick.Proofs.Universe
import Candlewick.Proofs.Grammar.Joining
import Candlewick.Proofs.Grammar.Termination
