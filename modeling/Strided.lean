import Strided.Buffer
import Strided.Call
import Strided.Error
import Strided.Event
import Strided.Grouping
import Strided.Kernel.Givens
import Strided.Kernel.Loop
import Strided.Kernel.ModifiedGivens
import Strided.Kernel.Reduce
import Strided.Kernel.Update
import Strided.LengthRule
import Strided.Operation
import Strided.Operation.Table
import Strided.Options
import Strided.Precision
import Strided.Proofs.Gather
import Strided.Proofs.Place
import Strided.Scalar.Basic
import Strided.Scalar.Binary
import Strided.Scalar.Complex
import Strided.Scalar.Element
import Strided.Selection
import Strided.Session
import Strided.Staged
import Strided.Store
import Strided.View
import Strided.Window
import Strided.Word
import Strided.Proofs.Kernel
import Strided.Proofs.Resolution
import Strided.Proofs.Outcome
import Strided.Proofs.Elementwise
import Strided.Proofs.Mutation
import Strided.Proofs.Safety
import Strided.Proofs.Refusal
import Strided.Proofs.Rotation
import Strided.Proofs.Independence
import Strided.Proofs.Reduction
import Strided.Proofs.Exact
import Strided.Proofs.Log
import Strided.Proofs.RealAxis
import Strided.Proofs.ModifiedRotation
import Strided.Proofs.Rounding
import Strided.Proofs.Packing
import Strided.Proofs.BinaryArithmetic
import Strided.Proofs.Ieee
import Strided.Proofs.BinaryRescaling
import Strided.Proofs.SquareRoot
import Strided.Proofs.EuclideanNorm
import Strided.Proofs.FirstMaximum
import Strided.Proofs.PlaneRotation
import Strided.Proofs.Succession
import Strided.Proofs.Blocks
import Strided.Proofs.Exchange
import Strided.Proofs.Reversal
import Strided.Proofs.Composition
import Strided.Proofs.Parallel
import Strided.Proofs.Sesquilinear
import Strided.Proofs.DefaultLength
import Strided.Proofs.Staging
import Strided.Proofs.Wording
import Strided.Proofs.Extent
import Strided.Proofs.LastWrite
