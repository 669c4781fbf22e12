import Picante.ReadProg.Evaluate
import Picante.Cancellation
import Picante.Isolation
import Picante.Races
import Picante.Persist.RoundTrip
import Picante.Persist.Keyed
import Picante.Persist.Compaction
import Picante.Persist.Used
import Picante.Copying.Snapshot
import Picante.Copying.Saved
import Picante.Persist.Loaded
import Picante.Inflight.Protocol
import Picante.Interning.Served
import Picante.Runtime.Concurrent
import Picante.Cutoff.Recompute
import Picante.Cutoff.Workers
import Picante.Cutoff.Follow
import Picante.Joined.Run
import Picante.Joined.Single
import Picante.Runtime.Invalidation
import Picante.Runtime.Registered
import Picante.Runtime.Debug
import Picante.Runtime.Watch
import Picante.Waiting
import Picante.Attended
import Picante.Progress
import Picante.Ending
import Picante.Announced
import Picante.Promotion
import Picante.SingleFlight.Run
import Picante.Divergence.Changed
import Picante.Persist.Torn
import Picante.Persist.Crash
import Picante.Persist.Lives
import Picante.Persist.Failed
import Picante.Inflight.SharedCache
import Picante.Mutators
import Picante.Eviction.Basic
import Picante.FacetEq.Decides
import Picante.Persist.Reissued
import Picante.Persist.Dropped
import Picante.Persist.Overhead
