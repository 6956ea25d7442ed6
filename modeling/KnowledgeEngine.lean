import KnowledgeEngine.AdvisoryLock
import KnowledgeEngine.AnalyticsRead
import KnowledgeEngine.CacheKeys
import KnowledgeEngine.CachingShared
import KnowledgeEngine.CircuitBreaker
import KnowledgeEngine.CompactionSafety
import KnowledgeEngine.CredentialReadback
import KnowledgeEngine.DrillCompile
import KnowledgeEngine.EventStack
import KnowledgeEngine.FactJson
import KnowledgeEngine.FactWrites
import KnowledgeEngine.FingerprintReading
import KnowledgeEngine.FixedChunker
import KnowledgeEngine.JsonApiLinks
import KnowledgeEngine.JsonApiRequest
import KnowledgeEngine.KbUnitSplitter
import KnowledgeEngine.KeysetCollisions
import KnowledgeEngine.LazyClients
import KnowledgeEngine.ListPaths
import KnowledgeEngine.OutboxAttempts
import KnowledgeEngine.OutboxDelivered
import KnowledgeEngine.OutboxKeys
import KnowledgeEngine.PageArithmetic
import KnowledgeEngine.PageDelivery
import KnowledgeEngine.PartialTrees
import KnowledgeEngine.PhaseObserver
import KnowledgeEngine.RedactionEngines
import KnowledgeEngine.RedisLock
import KnowledgeEngine.RedisRegistrations
import KnowledgeEngine.RedisReplayGaps
import KnowledgeEngine.ReplayBuffer
import KnowledgeEngine.ResidualSets
import KnowledgeEngine.RetryBudget
import KnowledgeEngine.RouteChoice
import KnowledgeEngine.S3Commit
import KnowledgeEngine.SeekOrder
import KnowledgeEngine.SqsDelivery
import KnowledgeEngine.TokenLedgerKeys
import KnowledgeEngine.VectorIndexing
import KnowledgeEngine.WarnOnlyGates
