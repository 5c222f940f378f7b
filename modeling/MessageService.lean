import MessageService.Library.Programs
import MessageService.Library.Interleaving
import MessageService.Library.Extensions
import MessageService.Library.KeyedTables
import MessageService.Library.LockTables
import MessageService.Library.Registers
import MessageService.Library.FixedDigits
import MessageService.Models
import MessageService.Schemas
import MessageService.Library.JsonValues
import MessageService.Library.JsonText
import MessageService.MessageJson
import MessageService.TextCodec
import MessageService.Postgres
import MessageService.Services
import MessageService.ServiceRuns
import MessageService.Transitions
import MessageService.Consistency
import MessageService.Statements
import MessageService.Histories
import MessageService.Footprints
import MessageService.Traces
import MessageService.MessageTraces
import MessageService.AuthorTraces
import MessageService.CacheProvenance
import MessageService.Commits
import MessageService.LostUpdate
import MessageService.SerialWrites
import MessageService.DeletedMessages
import MessageService.ConflictHeals
import MessageService.FailedWrites
import MessageService.CacheCoherence
import MessageService.Library.Executions
import MessageService.Library.Wrappers
import MessageService.Library.Paging
import MessageService.Shutdown
import MessageService.Migrations
import MessageService.Problems
import MessageService.Asgi
import MessageService.BodyLimit
import MessageService.RequestMetrics
import MessageService.Library.JsonLoads
import MessageService.Requests
import MessageService.Layers
import MessageService.OversizedBodies
import MessageService.BadBodies
import MessageService.StoredStrings
import MessageService.StoredValues
import MessageService.RoundTrips
import MessageService.VersionColumn
import MessageService.Pagination
import MessageService.AuthorIntegrity
import MessageService.Seeding
import MessageService.Emails
import MessageService.ErrorCodes
import MessageService.ImagePolicy
import MessageService.Library.UriReferences
import MessageService.ProblemInstances
import MessageService.Library.Documents
import MessageService.OpenApi
import MessageService.EmbeddedMessages
import MessageService.AuthorOrders
import MessageService.AuthorMerges
import MessageService.Library.SerialExecutions
import MessageService.AbstractStore
import MessageService.PendingWrites
import MessageService.SerialStore
import MessageService.Library.Typestates
import MessageService.Sessions
import MessageService.Library.Contracts
import MessageService.Endpoints
import MessageService.ServiceContracts
import MessageService.Documentation
import MessageService.DocumentedAnswers
import MessageService.Library.JsonTexts
import MessageService.AcceptedBodies
import MessageService.Library.PrintedTexts
import MessageService.SentBack
import MessageService.TrueAnswers
import MessageService.ClientAnswers
import MessageService.Locations
