import Negacyclic.AlignedBuffer
import Negacyclic.Kernel.Conditional
import Negacyclic.Kernel.Product
import Negacyclic.Kernel.Reduction
import Negacyclic.Kernel.Sum
import Negacyclic.Prime.Progression
import Negacyclic.Sampler.Bounded
import Negacyclic.Transform.Construction
import Negacyclic.Transform.Run
import Negacyclic.Proofs.Residue.Class
import Negacyclic.Proofs.Residue.Lazy
import Negacyclic.Proofs.Residue.Inverse
import Negacyclic.Proofs.Residue.Power
import Negacyclic.Proofs.Residue.WideReciprocal
import Negacyclic.Proofs.Word.Bits
import Negacyclic.Proofs.Word.Halves
import Negacyclic.Proofs.Lanes.Pointwise
import Negacyclic.Proofs.Kernel.Run
import Negacyclic.Proofs.Transform.Butterfly
import Negacyclic.Proofs.Transform.Layer
import Negacyclic.Proofs.Transform.Replicated
import Negacyclic.Proofs.Transform.Schedule
import Negacyclic.Proofs.Transform.Plain
import Negacyclic.Proofs.Transform.Agreement
import Negacyclic.Proofs.Transform.Exact
import Negacyclic.Proofs.Transform.EightLane
import Negacyclic.Proofs.Transform.Tables
import Negacyclic.Proofs.Transform.Filling
import Negacyclic.Proofs.Root
import Negacyclic.Proofs.PrimitiveRoot
import Negacyclic.Proofs.LeastRoot
import Negacyclic.Proofs.Check
import Negacyclic.Proofs.Transform.Construction
import Negacyclic.Proofs.Transform.OddPower
import Negacyclic.Proofs.Transform.Represents
import Negacyclic.Proofs.Transform.Evaluation
import Negacyclic.Proofs.Transform.Interpolation
import Negacyclic.Proofs.Transform.Watch
import Negacyclic.Proofs.Kernel.Value
import Negacyclic.Proofs.Kernel.Reduction
import Negacyclic.Proofs.Kernel.Range
import Negacyclic.Proofs.Transform.Orthogonality
import Negacyclic.Proofs.Transform.RoundTrip
import Negacyclic.Proofs.Transform.Convolution
import Negacyclic.Proofs.Transform.Linear
import Negacyclic.Proofs.Transform.Validity
import Negacyclic.Proofs.Kernel.Checked
import Negacyclic.Proofs.Validation
import Negacyclic.Proofs.Kernel.Exact
import Negacyclic.Proofs.Prime.Progression
import Negacyclic.Proofs.Prime.Request
import Negacyclic.Proofs.Transform.Record
import Negacyclic.Proofs.Transform.Tiling
import Negacyclic.Proofs.Transform.Traversal
import Negacyclic.Proofs.Sampler.Mask
import Negacyclic.Proofs.Sampler.Stream
import Negacyclic.Proofs.Sampler.Bounded
