import Hermes.Planning.Build
import Hermes.Planning.Progress
import Hermes.Planning.SelfSufficient
import Hermes.Planning.Surplus
import Hermes.Planning.Offers
import Hermes.Planning.Needs
import Hermes.Planning.Consistency
import Hermes.Planning.Posts
import Hermes.Planning.Applying
import Hermes.Trade.Settlement
import Hermes.Trade.Matching
import Hermes.Trade.Custody
import Hermes.Trade.Bounds
import Hermes.Trade.Pass
import Hermes.Trade.Deal
import Hermes.Trade.Written
import Hermes.World.Ownership
import Hermes.World.Ghost
import Hermes.World.TwoSided
import Hermes.World.Stock
import Hermes.World.Levels
import Hermes.Invasion.Outcome
import Hermes.World.Batched
import Hermes.World.Batch
import Hermes.Trade.Choice
import Hermes.Trade.Conservation
import Hermes.World.Schedule
import Hermes.World.Recorded
import Hermes.Planning.Balance
import Hermes.Invasion.Modifier
import Hermes.Invasion.Attack
import Hermes.Lib.MachineArithmetic
import Hermes.Planning.SafeRange
import Hermes.Loading.AllOrNothing
import Hermes.Viewer.Page
import Hermes.Program.Refinement
import Hermes.Program.Progress
import Hermes.Program.Shutdown
import Hermes.Program.Fate
import Hermes.Program.Endless
import Hermes.Program.Completed
import Hermes.Program.Rounded
import Hermes.World.Ledger
import Hermes.World.Capacity
import Hermes.Trade.Rotation
