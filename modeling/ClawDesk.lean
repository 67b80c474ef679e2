import ClawDesk.Acp.AnnounceStore
import ClawDesk.Acp.DeltaDelivery
import ClawDesk.Acp.Task
import ClawDesk.Agents.FencingTokens
import ClawDesk.Agents.LaneManager
import ClawDesk.Agents.OrSetHistory
import ClawDesk.Agents.RgaConvergence
import ClawDesk.Agents.TransactionalLane
import ClawDesk.Agents.TranscriptIdempotence
import ClawDesk.Bus.Backpressure
import ClawDesk.Bus.Priority
import ClawDesk.Bus.Topic
import ClawDesk.Consensus.PbftRounds
import ClawDesk.Cron.NotificationQueue
import ClawDesk.Domain.ContextGuard
import ClawDesk.Domain.Fallback
import ClawDesk.Foundations.CircularWindow
import ClawDesk.Foundations.Digraph
import ClawDesk.Foundations.ExpiringQueue
import ClawDesk.Foundations.Interleaving
import ClawDesk.Foundations.Radix
import ClawDesk.Gateway.ClientRate
import ClawDesk.Gateway.ConfigMvcc
import ClawDesk.Gateway.Fnv
import ClawDesk.Gateway.Idempotency
import ClawDesk.Gateway.IdempotencyOrder
import ClawDesk.Gateway.ReplayWindow
import ClawDesk.Gateway.ShardedRateLimiter
import ClawDesk.Gateway.SlidingWindow
import ClawDesk.Gateway.WebhookQueue
import ClawDesk.Runtime.DagResume
import ClawDesk.Runtime.FenceOrder
import ClawDesk.Runtime.GateSuspension
import ClawDesk.Runtime.JournalAppend
import ClawDesk.Runtime.LeaseExclusion
import ClawDesk.Runtime.Recovery
import ClawDesk.Runtime.RunIndex
import ClawDesk.Runtime.RunOwner
import ClawDesk.Runtime.RunOwnership
import ClawDesk.Security.Audit
import ClawDesk.Security.AuditTamper
import ClawDesk.Security.DmPairing
import ClawDesk.Security.ExecApproval
import ClawDesk.Security.Tokens
import ClawDesk.Planner.TaskGraph
import ClawDesk.Planner.Rewrite
import ClawDesk.Foundations.IpAddress
import ClawDesk.Security.NetworkEgress
import ClawDesk.Security.EgressContainment
import ClawDesk.Gateway.ConfigRollback
import ClawDesk.Skills.StoreSync
import ClawDesk.Domain.PromptBuilder
import ClawDesk.Acp.Capability
import ClawDesk.Acp.Router
import ClawDesk.Agents.SharedState
import ClawDesk.Agents.WorkspacePool
import ClawDesk.Planner.Execution
import ClawDesk.Foundations.WriteBuffer
import ClawDesk.Sochdb.Transaction
import ClawDesk.Sochdb.Manifest
import ClawDesk.Sochdb.CompactionIntegrity
import ClawDesk.Sochdb.CompactionCrash
import ClawDesk.Sochdb.CompactionRecovery
import ClawDesk.Threads.Keys
import ClawDesk.Threads.Store
import ClawDesk.Foundations.KeyCount
import ClawDesk.Threads.Consistency
import ClawDesk.Threads.Upkeep
import ClawDesk.Threads.SequentialRuns
import ClawDesk.Foundations.OwnLog
import ClawDesk.Threads.ConcurrentCalls
import ClawDesk.Threads.CallBalance
import ClawDesk.Threads.LostUpdates
import ClawDesk.Agents.LwwRegister
import ClawDesk.Agents.TranscriptCuts
import ClawDesk.Domain.CircuitBreaker
import ClawDesk.Runtime.DagSuccess
import ClawDesk.Acp.Policy
import ClawDesk.Runtime.RecoveryRepeats
import ClawDesk.Acp.PolicyQuota
import ClawDesk.Domain.CompactBudget
import ClawDesk.Agents.Failover
import ClawDesk.Foundations.Stations
import ClawDesk.Agents.FailoverChain
import ClawDesk.Agents.SessionLane
import ClawDesk.Agents.SerialSessions
import ClawDesk.Acp.HashArithmetic
import ClawDesk.Foundations.PositionIndex
import ClawDesk.Foundations.PrefixTrie
import ClawDesk.Foundations.Str
import ClawDesk.Security.AuditIndex
import ClawDesk.Security.CommandPolicy
import ClawDesk.Domain.PolicyDsl
import ClawDesk.Domain.CompactOverflow
import ClawDesk.Domain.SemanticBoundaries
import ClawDesk.Gateway.HierarchicalRate
import ClawDesk.Cron.DepResolver
import ClawDesk.Cron.Parser
import ClawDesk.Foundations.Calendar
import ClawDesk.Cron.NextRun
import ClawDesk.Cron.NextRunCorrect
import ClawDesk.Planner.Pruning
import ClawDesk.Planner.TopologicalOrder
import ClawDesk.Foundations.Intervals
import ClawDesk.Foundations.LongestPath
import ClawDesk.Planner.Heft
import ClawDesk.Bus.Dispatch
import ClawDesk.Bus.Fairness
import ClawDesk.Foundations.LexicalPath
import ClawDesk.Security.PathValidator
import ClawDesk.Security.Capabilities
import ClawDesk.Foundations.Brackets
import ClawDesk.Security.SafeRegex
import ClawDesk.Foundations.EarliestMatch
import ClawDesk.Security.Scanner
import ClawDesk.Foundations.Substring
import ClawDesk.Security.UrlSanitize
import ClawDesk.Foundations.Separated
import ClawDesk.Security.UrlCredentials
import ClawDesk.Foundations.EdgeList
import ClawDesk.Memory.Chunker
import ClawDesk.Skills.Resolver
import ClawDesk.Skills.DagInstaller
import ClawDesk.Skills.Selector
import ClawDesk.Skills.TrigramIndex
import ClawDesk.Foundations.HashTree
import ClawDesk.Skills.MerkleRoot
import ClawDesk.Channel.TelegramMarkdown
import ClawDesk.Channel.Html
import ClawDesk.Channel.SemanticChunk
import ClawDesk.Channel.FenceState
import ClawDesk.Domain.P2Estimator
import ClawDesk.Acp.GlobMatch
import ClawDesk.Agents.UnifiedPolicy
import ClawDesk.Domain.Lineage
import ClawDesk.Sochdb.TransactionReads
import ClawDesk.Agents.LoopGuard
import ClawDesk.Memory.ChunkSlices
import ClawDesk.Security.SafeRegexReading
import ClawDesk.Sochdb.CompactionRepair
import ClawDesk.Foundations.Simulation
import ClawDesk.Acp.SpscRing
import ClawDesk.Agents.PipelineOrder
import ClawDesk.Agents.PipelineExecutor
