import LoopBounds.Expr.Value
import LoopBounds.Inference.Bounds
import LoopBounds.Inference.Masks
import LoopBounds.Inference.Sets
import LoopBounds.Proofs.Enclosure
import LoopBounds.Proofs.HeldPoints
import LoopBounds.Proofs.Bounds
import LoopBounds.Proofs.Coverage
import LoopBounds.Proofs.Overflow
import LoopBounds.Proofs.DimValues
import LoopBounds.Proofs.RoundTrip
import LoopBounds.Proofs.NestHistory
import LoopBounds.Proofs.Sharing
import LoopBounds.Proofs.Memoization
import LoopBounds.Proofs.Masks
import LoopBounds.Proofs.AlphaEquality
import LoopBounds.Proofs.Preimages
import LoopBounds.Proofs.Idempotence
import LoopBounds.Proofs.WriteOnce
import LoopBounds.Proofs.RootOffsets
import LoopBounds.Proofs.FusedBoxes
import LoopBounds.Proofs.Canonicity
import LoopBounds.Proofs.Relaxation
import LoopBounds.Proofs.MirroredValues
import LoopBounds.Proofs.Division
