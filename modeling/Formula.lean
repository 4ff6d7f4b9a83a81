import Formula.CommandLine
import Formula.Expr.Arithmetic
import Formula.Expr.Fingerprint
import Formula.Laurent.Roots
import Formula.Main
import Formula.Proofs.Assembly.Acceptance
import Formula.Proofs.Assembly.Operands
import Formula.Proofs.Assembly.Reading
import Formula.Proofs.Binary.Nearest
import Formula.Proofs.Divisors.Search
import Formula.Proofs.Expr.Cancellation
import Formula.Proofs.Expr.Convergence
import Formula.Proofs.Expr.Equality
import Formula.Proofs.Expr.Fingerprint
import Formula.Proofs.Expr.Interval
import Formula.Proofs.Expr.RangeKind
import Formula.Proofs.Expr.Ring
import Formula.Proofs.Expr.RoundTrip
import Formula.Proofs.Expr.Simplify
import Formula.Proofs.Expr.Tidy
import Formula.Proofs.Fraction.Exactness
import Formula.Proofs.Fraction.Numeral
import Formula.Proofs.Fraction.Product
import Formula.Proofs.Fraction.Remainder
import Formula.Proofs.Fraction.Rounding
import Formula.Proofs.Fraction.Whole
import Formula.Proofs.Laurent.Evaluation
import Formula.Proofs.Laurent.Laws
import Formula.Proofs.Laurent.Limits
import Formula.Proofs.Laurent.Monomial
import Formula.Proofs.Laurent.Roots
import Formula.Proofs.Parser.Errors
import Formula.Proofs.Parser.Lockstep
import Formula.Proofs.Token.Ambiguity
import Formula.Proofs.Token.Arguments
import Formula.Proofs.Token.Spelling
