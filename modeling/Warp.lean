import Warp.Infra.KeyedSync
import Warp.Properties.ConflictResolution
import Warp.Properties.ConditionMatching
import Warp.Properties.VersionWindows
import Warp.Properties.AssignmentTimeline
import Warp.Properties.SecondFactor
import Warp.Properties.CredentialEnd
import Warp.Properties.FieldVisibility
import Warp.Properties.AssignmentHistory
import Warp.Properties.VersionEffect
import Warp.Properties.AccountState
import Warp.Properties.OwnRights
import Warp.Properties.ScopedEdits
import Warp.Properties.AuditJournal
import Warp.Properties.ReportingForest
import Warp.Properties.OverrideCardinality
import Warp.Properties.RecoveryCodes
import Warp.Properties.GrantUse
import Warp.Properties.ScheduledEvents
import Warp.Properties.MaterializationCoherence
import Warp.Properties.TenureTransitions
import Warp.Properties.ReportingTree
import Warp.Properties.EmployeeImpact
import Warp.Properties.ClauseCounts
import Warp.Properties.WorkerDrain
import Warp.Properties.VersionSchedules
import Warp.Properties.PersistedLinks
import Warp.Properties.Explanations
import Warp.Properties.RowOrderKeys
import Warp.Properties.PolicyImpact
import Warp.Properties.LoginThrottling
import Warp.Properties.LoginAnswers
import Warp.Properties.LoginContexts
import Warp.Properties.VersionOutputs
import Warp.Properties.ShownTenure
import Warp.Properties.NormalizedConditions
import Warp.Properties.BuilderIds
import Warp.Properties.RecordedHistory
import Warp.Properties.Forecast
import Warp.Properties.ProcessedEvents
import Warp.Properties.ConcurrentRefreshes
import Warp.Properties.ChangePreviews
import Warp.Properties.Batches
import Warp.Properties.AuditDisclosure
import Warp.Properties.RootOfTrust
import Warp.Properties.SessionLifetime
import Warp.Properties.PasswordResets
import Warp.Properties.GroupDirectory
