import DualBank.Checksum
import DualBank.Container.Target
import DualBank.Container.Builder
import DualBank.UpdateError
import DualBank.Config
import DualBank.Flash.Chip
import DualBank.Board
import DualBank.Banks
import DualBank.Plan
import DualBank.Progress
import DualBank.Link.Scripted
import DualBank.Rig
import DualBank.Http.Body
import DualBank.Intake
import DualBank.Verification
import DualBank.Commitment
import DualBank.Launch
import DualBank.Channel
import DualBank.Proofs.Ends
import DualBank.Proofs.Contents
import DualBank.Proofs.Changes
import DualBank.Proofs.Course
import DualBank.Proofs.Order
import DualBank.Proofs.Frame
import DualBank.Proofs.Failure
import DualBank.Proofs.Serving
import DualBank.Proofs.Reception
import DualBank.Proofs.Uptake
import DualBank.Proofs.Delivery
import DualBank.Proofs.Checks
import DualBank.Proofs.Planning
import DualBank.Proofs.Soundness
import DualBank.Proofs.Alike
import DualBank.Proofs.Chunking
import DualBank.Proofs.Purpose
import DualBank.Proofs.Standing
import DualBank.Proofs.Secondary
import DualBank.Proofs.Bare
import DualBank.Proofs.Packing
import DualBank.Proofs.Completeness
import DualBank.Proofs.Record
import DualBank.Proofs.Verdict
import DualBank.Proofs.Traffic
import DualBank.Proofs.BareInstall
import DualBank.Proofs.Corruption
import DualBank.Proofs.Durable
import DualBank.Proofs.Selection
import DualBank.Proofs.Framing
import DualBank.Proofs.Answering
import DualBank.Proofs.Admission
import DualBank.Proofs.Unpacking
import DualBank.Proofs.Download
import DualBank.Proofs.Interruption
import DualBank.Proofs.Lines
import DualBank.Proofs.Wording
import DualBank.Proofs.Grammar
import DualBank.Proofs.Truncation
import DualBank.Proofs.Drain
import DualBank.Proofs.HeaderBlock
import DualBank.Proofs.Arrangement
import DualBank.Proofs.PackedLayout
import DualBank.Proofs.Iteration
import DualBank.Proofs.Carriage
import DualBank.Proofs.Pieces
import DualBank.Proofs.Words
import DualBank.Proofs.Settlement
import DualBank.Proofs.Atomicity
import DualBank.Proofs.Splitting
import DualBank.Proofs.RoundTrip
import DualBank.Proofs.Summation
import DualBank.Proofs.Erasure
