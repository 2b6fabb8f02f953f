import Reninja.Build.Cleanup
import Reninja.Build.Refines
import Reninja.Build.Subprocess
import Reninja.BuildLog.Rewrite
import Reninja.BuildLog.Torn
import Reninja.Cache.Replay
import Reninja.Cache.Store
import Reninja.Cachetools.ByteStream
import Reninja.Clean.Products
import Reninja.CompactExecution.Log
import Reninja.Depfile.Load
import Reninja.Depfile.RoundTrip
import Reninja.DepsLog.Due
import Reninja.Events.Buffer
import Reninja.Filetransfer.FileHasher
import Reninja.Filetransfer.Flat
import Reninja.Manifest.Expand
import Reninja.Manifest.Frame
import Reninja.Manifest.Messages
import Reninja.Manifest.Scopes
import Reninja.Plan.CleanEnds
import Reninja.Plan.Once
import Reninja.Plan.Order
import Reninja.Plan.Targets
import Reninja.RemoteExec.Stream
import Reninja.Scan.Correct
import Reninja.Status.BuildEvents
import Reninja.Status.Counters
import Reninja.Status.Flamegraph
import Reninja.Status.LinePrinter
import Reninja.Tools.Compdb
import Reninja.Tools.Listing
import Reninja.Util.BufferPool
import Reninja.Util.EditDistance
import Reninja.Util.Ninjarc
import Reninja.Util.Quoting
