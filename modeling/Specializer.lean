import Specializer.FixedPoint
import Specializer.Imports.Lowering
import Specializer.Options.Reader
import Specializer.Proofs.Tree.Lookup
import Specializer.Proofs.Tree.CheckedWrites
import Specializer.Proofs.Computation
import Specializer.Proofs.FixedPoint.Gating
import Specializer.Proofs.FixedPoint.PassLimit
import Specializer.Proofs.Replacement.Evaluation
import Specializer.Proofs.FixedPoint.QuietPass
import Specializer.Proofs.Tree.Refusal
import Specializer.Proofs.Tree.Traversal
import Specializer.Proofs.Tree.Validation
import Specializer.Proofs.Replacement.Tidiness
import Specializer.Proofs.Replacement.Folding
import Specializer.Proofs.Replacement.ConstantCall
import Specializer.Proofs.FixedPoint.DirectEvaluation
import Specializer.Proofs.FixedPoint.WithoutFolding
import Specializer.Proofs.Builtin.WrittenIntegers
import Specializer.Proofs.FixedPoint.TraceCompleteness
import Specializer.Proofs.FixedPoint.UsageCounts
import Specializer.Proofs.FixedPoint.Depth
import Specializer.Proofs.Builtin.Ranges
import Specializer.Proofs.Constant.Equality
import Specializer.Proofs.Builtin.Dictionaries
import Specializer.Proofs.Text.Quoted
import Specializer.Proofs.Constant.Reading
import Specializer.Proofs.Signature.Acceptance
import Specializer.Proofs.Tree.Construction
import Specializer.Proofs.Imports.Statements
import Specializer.Proofs.Imports.Temporaries
import Specializer.Proofs.Imports.Rejection
import Specializer.Proofs.Imports.RelativeLevels
import Specializer.Proofs.ModuleSearch.RelativeNames
import Specializer.Proofs.ModuleSearch.SearchOrder
import Specializer.Proofs.Builtin.ByteStrings
import Specializer.Proofs.Tree.Reversal
import Specializer.Proofs.ExceptionAliases
import Specializer.Proofs.Replacement.SideEffects
import Specializer.Proofs.Decimal.Layout
import Specializer.Proofs.Decimal.Shortest
