import Lionagi.Agent.GatePass
import Lionagi.Agent.PermissionRules
import Lionagi.Dispatch.OutboxLease
import Lionagi.Libs.ChunkCover
import Lionagi.Libs.NestedRoundTrip
import Lionagi.LionCore.MessageFlow
import Lionagi.LionCore.PagedMemory
import Lionagi.LionCore.Runs
import Lionagi.LionCore.Seal
import Lionagi.LionCore.TargetAddress
import Lionagi.LionCore.WorkflowMeasure
import Lionagi.Lndl.Assembler
import Lionagi.Lndl.Positions
import Lionagi.Lndl.Totality
import Lionagi.Operations.PauseGate
import Lionagi.Operations.ReactiveInject
import Lionagi.Operations.ReactiveSignals
import Lionagi.Operations.Resume
import Lionagi.Plugins.Activation
import Lionagi.Protocols.DataLogger
import Lionagi.Protocols.EventLifecycle
import Lionagi.Protocols.FlowInvariant
import Lionagi.Protocols.GraphAtomic
import Lionagi.Protocols.GraphPath
import Lionagi.Protocols.Processor
import Lionagi.Protocols.ProgressionInsert
import Lionagi.Protocols.ProgressionSync
import Lionagi.Protocols.SystemPlace
import Lionagi.Scheduler.ClaimStarvation
import Lionagi.Scheduler.DueInstantOnce
import Lionagi.Scheduler.DueInstantPending
import Lionagi.Scheduler.FireBudgetLimit
import Lionagi.Scheduler.FollowOnOnce
import Lionagi.Scheduler.GithubPollEvents
import Lionagi.Scheduler.GithubScanFloor
import Lionagi.Scheduler.OverlapSkip
import Lionagi.Scheduler.ReservationBalance
import Lionagi.Scheduler.UndispatchedOnce
import Lionagi.Scheduler.WorkerAttempts
import Lionagi.Service.CircuitBreakerRun
import Lionagi.Service.McpExecutors
import Lionagi.Service.RateLimitedProgress
import Lionagi.Session.ExchangeOrder
import Lionagi.StateDb.LifecycleOutcome
import Lionagi.StateDb.SessionEnd
import Lionagi.StateDb.TerminalEvents
import Lionagi.Studio.RedeclaredFires
import Lionagi.Studio.ScheduleReconcile
import Lionagi.Tools.ContextView
