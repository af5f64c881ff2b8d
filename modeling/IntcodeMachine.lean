import IntcodeMachine.Machine.Lemmas
import IntcodeMachine.Main
import IntcodeMachine.Proofs.Bounded.Safety
import IntcodeMachine.Proofs.CommandLine.Patches
import IntcodeMachine.Proofs.CommandLine.Tracing
import IntcodeMachine.Proofs.Footprint
import IntcodeMachine.Proofs.Input.Feeding
import IntcodeMachine.Proofs.Instruction.Digits
import IntcodeMachine.Proofs.Instruction.Refusal
import IntcodeMachine.Proofs.Listing.Message
import IntcodeMachine.Proofs.Memory.Store
import IntcodeMachine.Proofs.Padding
import IntcodeMachine.Proofs.Programs.Echo
import IntcodeMachine.Proofs.Programs.Offsets
import IntcodeMachine.Proofs.Runs
import IntcodeMachine.Proofs.Session
import IntcodeMachine.Proofs.StateTable
import IntcodeMachine.Proofs.StraightLine
import IntcodeMachine.Proofs.Stuck
import IntcodeMachine.Proofs.Text.RoundTrip
import IntcodeMachine.Proofs.UntakenJump
import IntcodeMachine.Proofs.ZeroBase
