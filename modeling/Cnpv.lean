import Cnpv.CLib.Chain
import Cnpv.Lru.Model
import Cnpv.Lru.Rep
import Cnpv.Lru.Evict
import Cnpv.Lru.Table
import Cnpv.Lru.Invariant
import Cnpv.Lru.Budget
import Cnpv.Lru.Buffers
import Cnpv.Lru.Range
import Cnpv.Lru.Ownership
import Cnpv.Agent.Cache
import Cnpv.CLib.Recency
import Cnpv.Agent.Recent
import Cnpv.Agent.Check
import Cnpv.Agent.Verdicts
import Cnpv.Agent.Genuine
import Cnpv.Agent.Threads
import Cnpv.Agent.Spelling
import Cnpv.Agent.Calls
import Cnpv.Agent.Accesses
import Cnpv.Agent.Process
import Cnpv.Config.Directory
import Cnpv.Config.Reference
import Cnpv.Config.Agreement
import Cnpv.Kernel.Check
import Cnpv.Config.Sections
import Cnpv.Kernel.Messages
import Cnpv.Config.Loader
import Cnpv.Config.Memory
import Cnpv.Kernel.Hooks
import Cnpv.Kernel.Lookup
import Cnpv.Config.Shapes
import Cnpv.CLib.Mutex
import Cnpv.Tpool.Model
import Cnpv.Tpool.Steps
import Cnpv.Tpool.Queue
import Cnpv.Tpool.Shutdown
import Cnpv.Tpool.Lifecycle
import Cnpv.Tpool.Termination
import Cnpv.Agent.Preload
import Cnpv.CLib.RobinHood
import Cnpv.Hashmap.Model
import Cnpv.Hashmap.Probe
import Cnpv.Hashmap.Resize
import Cnpv.Hashmap.Refine
import Cnpv.Hashmap.User
import Cnpv.Hashmap.Policy
import Cnpv.Json.Model
import Cnpv.Json.Stack
import Cnpv.Json.Passes
import Cnpv.Json.Contents
import Cnpv.Json.Parse
import Cnpv.CLib.Postorder
import Cnpv.Json.Free
import Cnpv.Json.Grammar
import Cnpv.Json.Unfinished
import Cnpv.Json.Strings
import Cnpv.Json.Numbers
import Cnpv.Json.Standard
import Cnpv.Policy.Document
import Cnpv.Policy.Enforced
