import Memprof.Verified.Delivery
import Memprof.Verified.Accounting
import Memprof.Verified.Recycling
import Memprof.Verified.Exec
import Memprof.Verified.Forking
import Memprof.Verified.RoundTrip
import Memprof.Verified.Leaks
import Memprof.Verified.Callers
import Memprof.Verified.DescendantTree
import Memprof.Verified.Counts
import Memprof.Verified.Wrapping
import Memprof.Verified.Isolation
import Memprof.Verified.Lifetimes
import Memprof.Verified.CloneGroups
import Memprof.Verified.CloneControl
import Memprof.Verified.Cloning
import Memprof.Verified.Tracing
import Memprof.Verified.Truncation
import Memprof.Verified.Symbols
import Memprof.Verified.MapsFormat
import Memprof.Verified.StashTrie
import Memprof.Verified.Control
import Memprof.Verified.LifeCycle
import Memprof.Verified.ProcessTree
import Memprof.Verified.Descriptors
import Memprof.Verified.Sampling
import Memprof.Verified.Usage
import Memprof.Verified.Calloc
import Memprof.Verified.Nested
import Memprof.Verified.Sequential
import Memprof.Verified.Scanning
import Memprof.Verified.Extents
import Memprof.Verified.DescendantRoot
import Memprof.Verified.Saving
import Memprof.Verified.Locating
import Memprof.Verified.Nameless
import Memprof.Verified.Readings
import Memprof.Verified.Backtraces
import Memprof.Verified.CloneCall
import Memprof.Verified.RowCopy
import Memprof.Verified.Dropped
import Memprof.Verified.Layout
import Memprof.Verified.Drawing
import Memprof.Verified.Stat
import Memprof.Verified.Stopping
import Memprof.Verified.MapsFile
import Memprof.Verified.Lookups
import Memprof.Verified.StashTotals
import Memprof.Verified.StashForeach
import Memprof.Verified.StashIndex
import Memprof.Verified.Recording
import Memprof.Verified.Printf
import Memprof.Verified.LeafTraces
import Memprof.Verified.BlockSearch
import Memprof.Verified.CloneChains
import Memprof.Verified.WholeBacktraces
import Memprof.NodeBlocks
import Memprof.Verified.NodePlaces
import Memprof.Library.Sweep
import Memprof.Freeing
import Memprof.Verified.Freeing
import Memprof.Browsing
import Memprof.Verified.Browsing
import Memprof.Pipeline
import Memprof.Verified.Pipeline
import Memprof.Environment
import Memprof.Verified.Environment
import Memprof.Concurrent
import Memprof.Verified.Gathering
import Memprof.Verified.Concurrent
import Memprof.LeakList
import Memprof.Verified.HeapLeaks
import Memprof.Verified.LeakList
import Memprof.Library.Decimal
import Memprof.Speed
import Memprof.Verified.Settings
import Memprof.Verified.Speed
import Memprof.Verified.Children
