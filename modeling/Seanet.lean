import Seanet.Main
import Seanet.Session
import Seanet.Proofs.Grammar.TypeParsing
import Seanet.Proofs.Grammar.ExpressionParsing
import Seanet.Proofs.Grammar.Programs
import Seanet.Proofs.Grammar.Concatenation
import Seanet.Proofs.Grammar.Loops
import Seanet.Proofs.Grammar.Voids
import Seanet.Proofs.Driver.Failures
import Seanet.Proofs.Driver.Generation
import Seanet.Proofs.Instances.EndMark
import Seanet.Proofs.Instances.Lookahead
import Seanet.Proofs.Instances.Nesting
import Seanet.Proofs.Instances.Termination
import Seanet.Proofs.Lexical.Integers
import Seanet.Proofs.Lexical.Lines
import Seanet.Proofs.Lexical.Lossless
import Seanet.Proofs.Lexical.MaximalMunch
import Seanet.Proofs.Lexical.Positions
import Seanet.Proofs.Lexical.Reals
import Seanet.Proofs.Lexical.Rescanning
import Seanet.Proofs.Parser.FirstFault
import Seanet.Proofs.Parser.Layout
import Seanet.Proofs.Report.Breaks
import Seanet.Proofs.Report.Characters
import Seanet.Proofs.Report.Color
import Seanet.Proofs.Tree.Faithful
