import CurveStudy.Double
import CurveStudy.Session.Action
import CurveStudy.Session.Screen
import CurveStudy.Proofs.Induction
import CurveStudy.Proofs.Slope
import CurveStudy.Proofs.Grammar.Basic
import CurveStudy.Proofs.Grammar.Reading
import CurveStudy.Proofs.Grammar.Derived
import CurveStudy.Proofs.Grammar.Unique
import CurveStudy.Proofs.Grammar.Shape
import CurveStudy.Proofs.Height
import CurveStudy.Proofs.Double
import CurveStudy.Proofs.Double.Steps
import CurveStudy.Proofs.Double.Window
import CurveStudy.Proofs.Double.Bits
import CurveStudy.Proofs.Double.Nearest
import CurveStudy.Proofs.Double.OfDecimal
import CurveStudy.Proofs.Double.Text
import CurveStudy.Proofs.Decimal.Positional
import CurveStudy.Proofs.Decimal.Shortest
import CurveStudy.Proofs.Grammar.Height
import CurveStudy.Proofs.Grammar.Value
import CurveStudy.Proofs.Grammar.Text
import CurveStudy.Proofs.Grammar.Place
import CurveStudy.Proofs.Grammar.Meaning
import CurveStudy.Proofs.Grammar.Relocate
import CurveStudy.Proofs.Grammar.Shift
import CurveStudy.Proofs.OfText
import CurveStudy.Proofs.Trim
import CurveStudy.Proofs.Study
import CurveStudy.Proofs.RoundTrip
import CurveStudy.Proofs.Half
import CurveStudy.Proofs.Session
import CurveStudy.Proofs.ReadBack
import CurveStudy.Proofs.Window
import CurveStudy.Proofs.Extended
import CurveStudy.Proofs.Plot.Span
import CurveStudy.Proofs.Plot.Cutting
import CurveStudy.Proofs.Plot.Heights
import CurveStudy.Proofs.Plot.Frame
import CurveStudy.Proofs.Real
import CurveStudy.Proofs.Lexeme
import CurveStudy.Proofs.Cut
import CurveStudy.Proofs.Double.Unsigned
import CurveStudy.Proofs.Relex
import CurveStudy.Proofs.Grammar.Levels
import CurveStudy.Proofs.Grammar.Blame
import CurveStudy.Proofs.Blame
import CurveStudy.Proofs.Junction
import CurveStudy.Proofs.Entry.Spacing
import CurveStudy.Proofs.Entry.Tokens
import CurveStudy.Proofs.Entry.Erase
import CurveStudy.Proofs.Constant
import CurveStudy.Proofs.Plot.Runs
import CurveStudy.Proofs.Grammar.Asterisk
import CurveStudy.Proofs.Decimal.Rounding
import CurveStudy.Proofs.Label.Reading
import CurveStudy.Proofs.Label.Accuracy
import CurveStudy.Proofs.Double.Opposite
import CurveStudy.Proofs.Double.Value
import CurveStudy.Proofs.Label.Sign
import CurveStudy.Proofs.Walk.Basic
import CurveStudy.Proofs.Walk.Reading
import CurveStudy.Proofs.Walk.Calls
import CurveStudy.Proofs.Walk.Line
