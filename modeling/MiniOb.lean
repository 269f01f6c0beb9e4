import MiniOb.Theorems.Reopen
import MiniOb.Theorems.Hanging
import MiniOb.Theorems.IndexKeys
import MiniOb.Theorems.LargeUpdate
import MiniOb.Theorems.FileScan
import MiniOb.Theorems.PinBalance
import MiniOb.Theorems.Isolation
import MiniOb.Theorems.PoolLru
import MiniOb.Theorems.TrxIds
import MiniOb.Theorems.MetaRoundTrip
import MiniOb.Theorems.FailedDdl
import MiniOb.Theorems.FailedRequests
import MiniOb.Theorems.MarkEviction
import MiniOb.Theorems.UniqueRuns
import MiniOb.Theorems.JoinFilter
import MiniOb.Theorems.NullFlags
import MiniOb.Theorems.Routing
import MiniOb.Theorems.Aggregates
import MiniOb.Theorems.Dates
import MiniOb.Theorems.Scopes
import MiniOb.Theorems.Messages
import MiniOb.Theorems.Strip
import MiniOb.Theorems.PoolLookup
