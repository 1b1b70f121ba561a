import NetboxRpc.Regex
import NetboxRpc.Json
import NetboxRpc.JsonSchema
import NetboxRpc.Platform
import NetboxRpc.Procedures
import NetboxRpc.SecretPatterns
import NetboxRpc.TextRedaction
import NetboxRpc.CredentialContract
import NetboxRpc.Redaction
import NetboxRpc.Events
import NetboxRpc.Projection
import NetboxRpc.EventStore
import NetboxRpc.BackendResponse
import NetboxRpc.RebuildOracle
import NetboxRpc.LedgerFacts
import NetboxRpc.Approval
import NetboxRpc.Transition
import NetboxRpc.Lifecycle
import NetboxRpc.LifecycleMoves
import NetboxRpc.SingleDispatch
import NetboxRpc.LifecyclePaths
import NetboxRpc.TerminalAbsorption
import NetboxRpc.RedactedData
import NetboxRpc.TwoPersonDispatch
import NetboxRpc.ProjectedFields
import NetboxRpc.StaleWriters
import NetboxRpc.RunnerContracts
import NetboxRpc.SensitiveResults
import NetboxRpc.ScopeFence
import NetboxRpc.RunnerResponse
import NetboxRpc.Custody
import NetboxRpc.FenceSafety
import NetboxRpc.BackendTransport
import NetboxRpc.TransportOutcomes
import NetboxRpc.RunnerNormalization
import NetboxRpc.RunnerRuns
import NetboxRpc.FenceRecovery
import NetboxRpc.CanonicalParameters
import NetboxRpc.StoredResults
import NetboxRpc.DispatchLease
import NetboxRpc.LeaseAgreement
import NetboxRpc.LeaseStream
import NetboxRpc.LeaseUsability
import NetboxRpc.MappingEntries
import NetboxRpc.HiddenValues
import NetboxRpc.TreeFixedPoint
import NetboxRpc.SchemaLimits
import NetboxRpc.RegexMatches
import NetboxRpc.Ranges
import NetboxRpc.Tracked
import NetboxRpc.ResponseShape
import NetboxRpc.TextTracking
import NetboxRpc.StructuralMasking
import NetboxRpc.RegexFirst
import NetboxRpc.SecretSurvival
import NetboxRpc.PrivateKeys
import NetboxRpc.SecretAlternatives
import NetboxRpc.UrlPasswords
import NetboxRpc.QuotedSecrets
import NetboxRpc.WideFields
import NetboxRpc.GraphSearch
import NetboxRpc.AkvoradoKeys
import NetboxRpc.JsonText
import NetboxRpc.TargetSnapshot
import NetboxRpc.SnapshotBudget
import NetboxRpc.KeyOrder
import NetboxRpc.PersistedSnapshot
import NetboxRpc.SnapshotProvenance
import NetboxRpc.SnapshotSecrets
import NetboxRpc.TargetHash
import NetboxRpc.CalmTarget
import NetboxRpc.TreeSearch
import NetboxRpc.TemplateNodes
import NetboxRpc.BoundedRead
import NetboxRpc.JobTimeout
import NetboxRpc.WallClock
import NetboxRpc.HandleLog
import NetboxRpc.SigningKeyFile
import NetboxRpc.KeyedTable
import NetboxRpc.CredentialRemap
import NetboxRpc.PieceTracking
import NetboxRpc.JsonReading
import NetboxRpc.ContractHash
import NetboxRpc.ReadCommitted
import NetboxRpc.ConcurrentAppends
import NetboxRpc.FailedRecording
import NetboxRpc.Raising
import NetboxRpc.StrandedRuns
import NetboxRpc.ProvisionExclusion
import NetboxRpc.CommandTemplating
import NetboxRpc.TemplateReferences
import NetboxRpc.ProducerChains
import NetboxRpc.RunPrefixes
import NetboxRpc.ProcedureCommands
import NetboxRpc.CommandChains
import NetboxRpc.ProtectedFields
import NetboxRpc.ProtectedEdits
import NetboxRpc.RestartQueue
import NetboxRpc.RestartSweep
