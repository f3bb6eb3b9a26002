import Intcode.Main
import Intcode.Machine.Script
import Intcode.Network
import Intcode.Proofs.Queues
import Intcode.Proofs.Control
import Intcode.Proofs.Budget
import Intcode.Proofs.Drain
import Intcode.Proofs.Schedule
import Intcode.Proofs.Decode
import Intcode.Proofs.Unbounded
import Intcode.Proofs.Refinement
import Intcode.Proofs.Plan
import Intcode.Proofs.Driver
import Intcode.Proofs.Trajectory
import Intcode.Proofs.Failed
import Intcode.Proofs.Lifecycle
import Intcode.Proofs.Typing
import Intcode.Proofs.Inputs
import Intcode.Proofs.Sources
import Intcode.Proofs.Images
import Intcode.Proofs.Encoding
import Intcode.Proofs.LoadFormat
import Intcode.Proofs.Transcript
import Intcode.Proofs.Outcome
import Intcode.Proofs.Hazards
import Intcode.Proofs.Delivery
import Intcode.Proofs.Sessions
import Intcode.Proofs.Execution
import Intcode.Proofs.Atomicity
import Intcode.Proofs.Acceptance
import Intcode.Proofs.Partition
import Intcode.Proofs.Reassembly
import Intcode.Proofs.Writes
import Intcode.Proofs.Batches
import Intcode.Proofs.Counter
import Intcode.Proofs.Consultation
import Intcode.Proofs.Distance
import Intcode.Proofs.Legibility
import Intcode.Proofs.Listing
import Intcode.Proofs.Spelling
import Intcode.Proofs.Flaws
import Intcode.Proofs.Quotation
import Intcode.Proofs.PatchFormat
import Intcode.Proofs.Dump
import Intcode.Proofs.Arguments
import Intcode.Proofs.Patching
