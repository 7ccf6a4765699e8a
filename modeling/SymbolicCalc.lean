import SymbolicCalc.Main
import SymbolicCalc.Numeric.DecimalLaws
import SymbolicCalc.Proofs.Grammar
import SymbolicCalc.Proofs.LiteralReading
import SymbolicCalc.Proofs.Printing
import SymbolicCalc.Proofs.DoubleBits
import SymbolicCalc.Proofs.PrintedValue
import SymbolicCalc.Proofs.RealArithmetic
import SymbolicCalc.Proofs.RealDerivative
import SymbolicCalc.Proofs.Folding
import SymbolicCalc.Proofs.DoubleDerivative
import SymbolicCalc.Proofs.Sessions
import SymbolicCalc.Proofs.SimplifiedText
import SymbolicCalc.Proofs.BoundVariables
import SymbolicCalc.Proofs.ErrorPlaces
import SymbolicCalc.Proofs.UnrelatedBindings
import SymbolicCalc.Proofs.LatexTokens
import SymbolicCalc.Proofs.LatexReading
import SymbolicCalc.Proofs.NormalForms
import SymbolicCalc.Proofs.Transcripts
import SymbolicCalc.Proofs.DerivativeDomain
import SymbolicCalc.Proofs.Parentheses
import SymbolicCalc.Proofs.Ranking
import SymbolicCalc.Proofs.MisplacedTokens
import SymbolicCalc.Proofs.TokenCoverage
import SymbolicCalc.Proofs.GivenValues
import SymbolicCalc.Proofs.LetterCase
import SymbolicCalc.Proofs.WhiteSpace
import SymbolicCalc.Proofs.Suggestions
