import Thegn.Fold.Account
import Thegn.Rebase.Stable
import Thegn.Scan.Capacity
import Thegn.Host.Stale
import Thegn.PrQueue.Fence
import Thegn.MergeQueue.Landed
import Thegn.Tunnel.Sync
import Thegn.Task.Inject
import Thegn.Placement.Packing
import Thegn.Supervise.Budget
import Thegn.Migration.Confirm
import Thegn.Lsp.Reader
import Thegn.Lsp.Losses
import Thegn.Lsp.Turns
import Thegn.Lsp.Admission
import Thegn.Mcp.Isolation
import Thegn.Writer.Order
import Thegn.Lease.Fence
import Thegn.Dispatch.RunFence
import Thegn.Dispatch.Narrow
import Thegn.Dispatch.Exclusive
import Thegn.Pane.Expanded
import Thegn.Pane.Anchor
import Thegn.Rebase.Reorder
import Thegn.Patch.Whole
import Thegn.Replay.Cursor
import Thegn.Monitor.History
import Thegn.Calendar.Refusal
import Thegn.Calendar.Footprint
import Thegn.Search.Drift
import Thegn.Pipeline.GlobExact
import Thegn.Search.Glob
import Thegn.Dispatch.Terminal
import Thegn.Conflict.Written
import Thegn.Tunnel.Recovery
import Thegn.Recur.RoundTrip
import Thegn.Recur.Until
import Thegn.Mcp.Breaker
import Thegn.Terminal.MouseFilter
import Thegn.Ics.Trigger
import Thegn.Dns.Share
import Thegn.Proxy.Constraints
import Thegn.Proxy.Deltas
import Thegn.Calendar.Reminders
import Thegn.Ics.Neighbours
import Thegn.Pane.Chrome
import Thegn.Replay.Carry
import Thegn.Terminal.AnsiCells
import Thegn.Patch.UnifiedDiff
import Thegn.Log.Quoted
import Thegn.Terminal.Attention
import Thegn.Calendar.EditDistance
import Thegn.Resume.Contract
