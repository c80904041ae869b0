import ContextFS.Branch.Closure
import ContextFS.Branch.CommonAncestor
import ContextFS.Branch.Durability
import ContextFS.Branch.ThreeWay
import ContextFS.Control.BranchMerge
import ContextFS.Control.ConflictReport
import ContextFS.Control.NumberFields
import ContextFS.Control.PolicyRules
import ContextFS.Control.WorkspaceFiles
import ContextFS.Daemon.MergeBranch
import ContextFS.Daemon.LinkedTrees
import ContextFS.Daemon.ReadBuffer
import ContextFS.Daemon.BufferBounds
import ContextFS.Daemon.RenameDir
import ContextFS.Daemon.RollbackAtomic
import ContextFS.Daemon.StoreFailures
import ContextFS.Gc.CrashedPublish
import ContextFS.Daemon.SharedFile
import ContextFS.Daemon.RollsBack
import ContextFS.Daemon.PlainRuns
import ContextFS.Daemon.Recovery
import ContextFS.Gc.MergeBases
import ContextFS.Gc.RunGc
import ContextFS.Router.DeleteWatch
import ContextFS.Router.Sessions
import ContextFS.Runtime.DroppedTemplates
import ContextFS.Runtime.Rendezvous
import ContextFS.Runtime.Snapshot
import ContextFS.State.Journal
import ContextFS.State.RestoreSession
import ContextFS.State.TextCodecs
import ContextFS.Telemetry.SyscallPairing
import ContextFS.Tree.FlatMap
import ContextFS.Tree.RebuildEnds
import ContextFS.Tree.RoundTrip
import ContextFS.Control.ExchangeEnds
import ContextFS.Telemetry.RegistryRuns
import ContextFS.Runtime.Authentic
import ContextFS.Control.FixedBuffers
