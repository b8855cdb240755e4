import JenticOne.Auth.FamilySafety
import JenticOne.Auth.Verdict
import JenticOne.Broker.Invalidation
import JenticOne.Broker.ClaimKept
import JenticOne.Broker.ReplayIntegrity
import JenticOne.Jobs.Results
import JenticOne.Jobs.RetryBudget
import JenticOne.Jobs.SendOnce
import JenticOne.Jobs.HoldsSettle
import JenticOne.Library.Dict
import JenticOne.Library.Heap
import JenticOne.Library.Json
import JenticOne.Library.TtlStore
import JenticOne.State.ExactAccounts
import JenticOne.State.Buckets
import JenticOne.Registry.Dedup
import JenticOne.Registry.Prefilter
import JenticOne.Registry.Encoding
import JenticOne.Registry.Readings
import JenticOne.Registry.ServerVariables
import JenticOne.Permissions.Preview
import JenticOne.Updates.Agreement
import JenticOne.Credentials.Coverage
import JenticOne.Permissions.Edits
import JenticOne.Auth.AssertionOnce
import JenticOne.Credentials.RefreshOrder
import JenticOne.Events.GateSound
import JenticOne.Auth.GrantOwner
import JenticOne.Auth.ArchiveTerminal
import JenticOne.Registry.OneVendor
import JenticOne.Resilience.Circuit
import JenticOne.Resilience.Retry
import JenticOne.Auth.CodeExchange
import JenticOne.Broker.SingleFlight
import JenticOne.State.Batch
import JenticOne.Registry.PathInstances
import JenticOne.Registry.ExpansionCap
import JenticOne.Registry.Specificity
import JenticOne.Permissions.TemplateCheck
import JenticOne.Flattening.Rerun
import JenticOne.Broker.Revisions
import JenticOne.Broker.CanonicalQuery
import JenticOne.Pagination.Listing
import JenticOne.Jobs.Drain
import JenticOne.Caching.TtlCache
import JenticOne.Permissions.EditRevisions
import JenticOne.Registry.BasePaths
import JenticOne.Registry.TemplateForms
import JenticOne.Registry.FaultyServers
import JenticOne.State.PlainStore
import JenticOne.Accounts.LastAdmin
import JenticOne.Accounts.Confinement
import JenticOne.Permissions.RewriteJob
