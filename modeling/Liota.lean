import Liota.Python.Computation
import Liota.Python.Text
import Liota.Python.Dict
import Liota.Python.Number
import Liota.Python.Heapq
import Liota.PackageManager.Platform
import Liota.PackageManager.Registry
import Liota.PackageManager.Startup
import Liota.PackageManager.Load
import Liota.PackageManager.Unload
import Liota.PackageManager.Commands
import Liota.PackageManager.Thread
import Liota.PackageManager.LoadSteps
import Liota.PackageManager.UnloadSteps
import Liota.Graph.Reach
import Liota.PackageManager.Invariant
import Liota.PackageManager.CommandRules
import Liota.PackageManager.Retire
import Liota.PackageManager.UnloadSpec
import Liota.PackageManager.Linked
import Liota.PackageManager.LoadRule
import Liota.PackageManager.LoadCases
import Liota.PackageManager.Documented
import Liota.PackageManager.Scripts
import Liota.PackageManager.Teardown
import Liota.PackageManager.UnloadExact
import Liota.PackageManager.LoadTermination
import Liota.Graph.Buildable
import Liota.PackageManager.LoadExact
import Liota.PackageManager.Certain
import Liota.PackageManager.WellFounded
import Liota.PackageManager.FailedLoad
import Liota.PackageManager.Tries
import Liota.PackageManager.Integrity
import Liota.PackageManager.Survival
import Liota.PackageManager.Listing
import Liota.PackageManager.Relisting
import Liota.PackageManager.Ownership
import Liota.PackageManager.Messenger
import Liota.PackageManager.StartupHistory
import Liota.Dccs.FormatData
import Liota.Dccs.AwsIot
import Liota.MetricHandler.Pipeline
import Liota.MetricHandler.Circulation
import Liota.MetricHandler.Timing
import Liota.MetricHandler.Conservation
import Liota.MetricHandler.Moves
import Liota.MetricHandler.Aggregation
import Liota.MetricHandler.Delivery
import Liota.MetricHandler.Stopping
import Liota.PackageManager.Ready
import Liota.PackageManager.Restoring
import Liota.PackageManager.Unchanged
import Liota.PackageManager.BatchUpdate
import Liota.PackageManager.RoundTrip
import Liota.PackageManager.Rejection
import Liota.Filters.WindowingScheme
import Liota.Filters.LateCalls
import Liota.Dccs.IotControlCenter.Requests
import Liota.Dccs.IotControlCenter.Routing
import Liota.Dccs.IotControlCenter.Ending
import Liota.Dccs.IotControlCenter.Abandoned
import Liota.Dccs.IotControlCenter.Identities
import Liota.Dccs.IotControlCenter.Answers
import Liota.Dccs.IotControlCenter.EntityFiles
import Liota.Dccs.IotControlCenter.IotccJson
import Liota.PackageManager.Confinement
import Liota.PackageManager.LoaderRules
import Liota.Python.Paths
import Liota.Python.Agreement
import Liota.PackageManager.Spellings
import Liota.PackageManager.Declared
import Liota.Transports.Mqtt
import Liota.DeviceDiscovery.Process
import Liota.DeviceDiscovery.Orders
import Liota.DeviceDiscovery.Names
import Liota.DeviceDiscovery.Whitelist
import Liota.DeviceDiscovery.Failures
import Liota.DiscListeners.NamedPipe
import Liota.MetricHandler.EventQueue
import Liota.PackageManager.Recording
import Liota.PackageManager.Verified
import Liota.PackageManager.Deletion
import Liota.Python.Batch
import Liota.PackageManager.BatchResults
import Liota.PackageManager.Stashing
import Liota.Rewriting.Occurrences
import Liota.Rewriting.Orders
import Liota.Python.Phrases
import Liota.SiUnit.UnitNames
import Liota.SiUnit.Words
import Liota.SiUnit.Replaces
import Liota.SiUnit.Spoken
import Liota.SiUnit.Patches
import Liota.SiUnit.Names
import Liota.PackageManager.Catalogue
import Liota.PackageManager.Inventory
import Liota.Graph.LowerSets
import Liota.PackageManager.Session
import Liota.MetricHandler.Pace
import Liota.Graph.Ending
import Liota.MetricHandler.Running
import Liota.MetricHandler.Rest
import Liota.MetricHandler.GraphiteStream
import Liota.DeviceDiscovery.Handlers
import Liota.DeviceDiscovery.Concurrent
import Liota.Interleaving.Threads
import Liota.Transports.WebSocket
import Liota.DeviceDiscovery.Configuration
import Liota.PackageManager.Daemon
