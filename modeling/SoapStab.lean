import SoapStab.Config.Notify
import SoapStab.Metrics.Accounting
import SoapStab.Config.Hidden
import SoapStab.Config.RoundTrip
import SoapStab.Config.TypedStore
import SoapStab.Config.LogLevel
import SoapStab.Metrics.Registry
import SoapStab.Lib.PromText.Document
import SoapStab.Metrics.Exposition
import SoapStab.Lib.Traces
import SoapStab.Metrics.ServerStop
import SoapStab.Lib.Interleave
import SoapStab.Metrics.Callers
import SoapStab.Metrics.Timestamps
import SoapStab.Config.IntegerSettings
import SoapStab.Http.PortTable
import SoapStab.Metrics.Connection
import SoapStab.Config.FailedOps
import SoapStab.Config.ListenerErrors
import SoapStab.Common.ExceptionText
import SoapStab.Metrics.TraceBuffer
import SoapStab.Lib.Search
import SoapStab.Common.ClassMacros
import SoapStab.Lib.Monitor
import SoapStab.Metrics.Locking
import SoapStab.Config.Metadata
import SoapStab.Config.Startup
import SoapStab.Common.SynchronizedQueue
import SoapStab.Metrics.Scrape
import SoapStab.Metrics.ScrapeOrder
import SoapStab.Metrics.Progress
import SoapStab.Main
import SoapStab.Config.Cascade
import SoapStab.Http.PortLocking
import SoapStab.Lib.Reentrant
import SoapStab.Config.Threads
import SoapStab.Metrics.Handles
