import Cbop.Lib.BinTree
import Cbop.Lib.Outcome
import Cbop.Lib.Words
import Cbop.Lib.Machine
import Cbop.Lib.Spin
import Cbop.Lib.Serial
import Cbop.Lib.Relay
import Cbop.Lib.Since
import Cbop.Lib.Chains
import Cbop.Lib.PtrTree
import Cbop.Lib.Pool
import Cbop.Lib.Runs
import Cbop.RangeTree.Basic
import Cbop.RangeTree.WellFormed
import Cbop.RangeTree.Splay
import Cbop.RangeTree.AddRange
import Cbop.RangeTree.Overlaps
import Cbop.RangeTree.SetOps
import Cbop.RangeTree.Contains
import Cbop.RangeTree.Store
import Cbop.RangeTree.SetStore
import Cbop.RangeTree.KeyVal
import Cbop.RangeTree.Records
import Cbop.PostWait.FromTask
import Cbop.PostWait.Overlapping
import Cbop.PostWait.Channel
import Cbop.PostWait.ModifiedAfterPost
import Cbop.PostWait.Receive
import Cbop.PostWait.Chain
import Cbop.PostWait.Orderly
import Cbop.PostWait.Release
import Cbop.PostWait.Rechain
import Cbop.PostWait.Publish
import Cbop.PostWait.Tasks
import Cbop.PostWait.Waiting
import Cbop.PostWait.Rejection
import Cbop.Merge.Basic
import Cbop.Merge.Check
import Cbop.Merge.Accepts
import Cbop.Merge.Patch
import Cbop.Merge.Serialise
import Cbop.Merge.Space
import Cbop.Ppr.Protocol
import Cbop.Ppr.Steps
import Cbop.Ppr.Checks
import Cbop.Ppr.Survivor
import Cbop.Ppr.Commits
import Cbop.Ppr.FailedSpeculation
import Cbop.Ppr.CommitOrder
import Cbop.Ppr.NoAborts
import Cbop.Ppr.PrefixCommit
import Cbop.Ppr.Termination
import Cbop.Ppr.Awaiting
import Cbop.Ppr.Progress
import Cbop.Ppr.PartialSize
import Cbop.Ppr.Region
import Cbop.Ppr.Numbering
import Cbop.Io.Buffer
import Cbop.Io.Group
import Cbop.Io.Output
import Cbop.Ppr.Understudy
import Cbop.Ppr.Fallback
import Cbop.Group.Merge
import Cbop.Group.Commit
import Cbop.Group.Verdicts
import Cbop.Group.Misspeculation
import Cbop.Group.Ordered
import Cbop.Group.OrderedCommit
import Cbop.Group.OrderedEntry
import Cbop.Group.OrderedWaits
import Cbop.Group.Validated
import Cbop.Group.History
import Cbop.Group.Space
import Cbop.Group.Program
import Cbop.Group.Execution
import Cbop.Group.Bounds
import Cbop.Objects.KeyValue
import Cbop.Objects.AryBitmap
import Cbop.Ppr.SpinLocks
