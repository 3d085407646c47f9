import PortExpander.Background
import PortExpander.Session
import PortExpander.Proofs.Flags
import PortExpander.Proofs.Gives
import PortExpander.Proofs.Touch
import PortExpander.Proofs.Transfers
import PortExpander.Proofs.Update
import PortExpander.Proofs.Calls
import PortExpander.Proofs.Clients
import PortExpander.Proofs.Sessions
import PortExpander.Proofs.Moments
import PortExpander.Proofs.OnePass
import PortExpander.Proofs.Stopping
import PortExpander.Proofs.Attempts
import PortExpander.Proofs.Healing
import PortExpander.Proofs.Registers
import PortExpander.Proofs.InSync
import PortExpander.Proofs.Phases
import PortExpander.Proofs.Passes
import PortExpander.Proofs.Requests
import PortExpander.Proofs.Interrupts
import PortExpander.Proofs.Dispatch
import PortExpander.Proofs.Edges
import PortExpander.Proofs.Levels
import PortExpander.Proofs.Outputs
import PortExpander.Proofs.Footprint
import PortExpander.Proofs.Word
import PortExpander.Proofs.Calm
import PortExpander.Proofs.Scenes
import PortExpander.Proofs.PlainSteps
import PortExpander.Proofs.Dues
import PortExpander.Proofs.Together
import PortExpander.Proofs.Twins
import PortExpander.Proofs.Polling
import PortExpander.Proofs.Cuts
import PortExpander.Proofs.Deafness
import PortExpander.Proofs.Rests
import PortExpander.Proofs.Rounds
import PortExpander.Proofs.Recovery
import PortExpander.Proofs.Refusals
import PortExpander.Proofs.Prompt
import PortExpander.Proofs.Bounds
import PortExpander.Proofs.Faults
import PortExpander.Proofs.Failures
import PortExpander.Proofs.Accesses
import PortExpander.Proofs.Inversion
import PortExpander.Proofs.Coalescing
import PortExpander.Proofs.Snapshots
import PortExpander.Proofs.Readings
import PortExpander.Proofs.Composed
import PortExpander.Proofs.Interleavings
import PortExpander.Proofs.Shutdowns
import PortExpander.Proofs.Places
import PortExpander.Proofs.Claimed
import PortExpander.Proofs.SharedMaps
import PortExpander.Proofs.Drivers
import PortExpander.Proofs.Streaks
