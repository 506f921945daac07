import CascadePlayground.Cbdc.Shape
import CascadePlayground.Cbdc.AnyOrder
import CascadePlayground.Cbdc.Conservation
import CascadePlayground.Cbdc.Termination
import CascadePlayground.Cbdc.Selection
import CascadePlayground.Cbdc.Amounts
import CascadePlayground.Cbdc.Leftover
import CascadePlayground.Cbdc.Cursor
import CascadePlayground.Cbdc.File
import CascadePlayground.Cbdc.Truncated
import CascadePlayground.Cbdc.Reloading
import CascadePlayground.Cbdc.Wealth
import CascadePlayground.Cbdc.Session
import CascadePlayground.Affinity.Experiments
import CascadePlayground.Affinity.Clients
import CascadePlayground.Affinity.Pipeline
import CascadePlayground.Affinity.Locality
import CascadePlayground.Affinity.Recording
import CascadePlayground.Affinity.Plot
import CascadePlayground.Affinity.Grouping
import CascadePlayground.Affinity.Grammar
import CascadePlayground.Affinity.Results
import CascadePlayground.RandomBuffer
import CascadePlayground.Shortcut.Checks
import CascadePlayground.Debug.Latencies
import CascadePlayground.Debug.Microbenchmark
import CascadePlayground.Debug.P2pSend
