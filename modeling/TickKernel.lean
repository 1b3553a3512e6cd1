import TickKernel.Board.Bench
import TickKernel.Board.Device
import TickKernel.Host.Carriers
import TickKernel.Workload.Session
import TickKernel.Proofs.Expansion
import TickKernel.Proofs.RingList
import TickKernel.Proofs.Moves
import TickKernel.Proofs.Provenance
import TickKernel.Proofs.Aftermath
import TickKernel.Proofs.Discipline
import TickKernel.Proofs.Orderly
import TickKernel.Proofs.Objects
import TickKernel.Proofs.Seat
import TickKernel.Proofs.Requests
import TickKernel.Proofs.Population
import TickKernel.Proofs.MutualExclusion
import TickKernel.Proofs.Stretch
import TickKernel.Proofs.Posture
import TickKernel.Proofs.Waiters
import TickKernel.Proofs.Arrival
import TickKernel.Proofs.Handoff
import TickKernel.Proofs.Standing
import TickKernel.Proofs.Wakeups
import TickKernel.Proofs.LockWindow
import TickKernel.Proofs.Occupancy
import TickKernel.Proofs.Endings
import TickKernel.Proofs.Units
import TickKernel.Proofs.LeftAlone
import TickKernel.Proofs.Lingering
import TickKernel.Proofs.Slumber
import TickKernel.Proofs.Deadline
import TickKernel.Proofs.Openings
import TickKernel.Proofs.Passages
import TickKernel.Proofs.Turns
import TickKernel.Proofs.Entries
import TickKernel.Proofs.Switches
import TickKernel.Proofs.Neighbours
import TickKernel.Proofs.Flags
import TickKernel.Proofs.Blocks
import TickKernel.Proofs.Refusals
import TickKernel.Proofs.Lines
import TickKernel.Proofs.Frames
import TickKernel.Proofs.Launches
import TickKernel.Proofs.Roster
import TickKernel.Proofs.Punctuality
import TickKernel.Proofs.Accounts
import TickKernel.Proofs.Spawning
import TickKernel.Proofs.Timekeeping
import TickKernel.Proofs.BoundedList
import TickKernel.Proofs.StackLayout
import TickKernel.Proofs.Guards
import TickKernel.Proofs.Distributor
import TickKernel.Proofs.Acknowledgement
import TickKernel.Proofs.Service
import TickKernel.Proofs.Activations
import TickKernel.Proofs.Naming
import TickKernel.Proofs.Retention
