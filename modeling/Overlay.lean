import Overlay.Composition
import Overlay.Fixture
import Overlay.Proofs.Key.RoundTrip
import Overlay.Proofs.Stack.Associativity
import Overlay.Proofs.Reduce.Operands
import Overlay.Proofs.Reduce.Arrangement
import Overlay.Proofs.Reduce.NormalForm
import Overlay.Proofs.Reduce.Reordering
import Overlay.Proofs.Reduce.Merges
import Overlay.Proofs.Reduce.RootMerges
import Overlay.Proofs.Stack.DeepMerge
import Overlay.Proofs.Reduce.OperatorFree
import Overlay.Proofs.Reduce.Locality
import Overlay.Proofs.Reduce.Patches
import Overlay.Proofs.Reduce.Builtin
import Overlay.Proofs.Reduce.ClosedForm
import Overlay.Proofs.Reduce.Termination
import Overlay.Proofs.Reduce.Unfit
import Overlay.Proofs.Reduce.Untouched
import Overlay.Proofs.Key.Canonical
import Overlay.Proofs.Reduce.CustomOperators
import Overlay.Proofs.Reduce.Refolding
import Overlay.Proofs.Reduce.PlainKeys
import Overlay.Proofs.Reduce.Stability
import Overlay.Proofs.Reduce.Started
import Overlay.Proofs.Composition
import Overlay.Proofs.Operator.Registration
import Overlay.Proofs.Key.Mention
import Overlay.Proofs.Mirror.Basic
import Overlay.Proofs.Mirror.Stack
import Overlay.Proofs.Mirror.Level
import Overlay.Proofs.Mirror.Reduction
import Overlay.Proofs.Reduce.ApplicationOrder
import Overlay.Proofs.Stack.InTurn
