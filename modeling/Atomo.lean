import Atomo.Cache.Freshness
import Atomo.Client.CachedConfinement
import Atomo.GraphQL.BulkUpdate
import Atomo.GraphQL.Filters
import Atomo.GraphQL.Subscription
import Atomo.GraphQL.Tenants
import Atomo.History.Honesty
import Atomo.Sdk.OfflineQueue
import Atomo.Sdk.Realtime
import Atomo.Sdk.Worker
import Atomo.Hub.Picture
import Atomo.Jobs.Attempts
import Atomo.Query.SqlIndependence
import Atomo.Schema.Locality
import Atomo.Auth.Refresh
import Atomo.Jobs.EventLog
import Atomo.Jobs.Idempotency
import Atomo.Metered.BudgetLedger
import Atomo.Metered.ExpiringTokens
import Atomo.Data.Double
import Atomo.GraphQL.Access
import Atomo.Dsl.Bindings
import Atomo.Dsl.Cuts
import Atomo.TypeScript.Access
import Atomo.TypeScript.Properties
import Atomo.Migrations.Agreement
import Atomo.Migrations.Catalog
import Atomo.Migrations.Enforcement
import Atomo.Migrations.Upgrade
import Atomo.Actions.Worker
import Atomo.Jobs.Routes
import Atomo.Audit.Listener
import Atomo.Events.Follower
import Atomo.Events.Equivalence
import Atomo.Projectors.Manager
import Atomo.Projectors.History
import Atomo.Auth.OAuth
import Atomo.Hub.Connections
import Atomo.Hub.Relays
import Atomo.Media.Tenants
import Atomo.ControlPlane.Gateway
import Atomo.ControlPlane.Lifecycle
import Atomo.ControlPlane.Ports
import Atomo.ControlPlane.Silos
import Atomo.GraphQL.PublicReads
import Atomo.Hub.Seats
import Atomo.Hub.CallStack
import Atomo.Cache.Capacity
import Atomo.Client.CacheKeys
import Atomo.Dsl.Options
import Atomo.Jobs.Leases
import Atomo.Events.Aggregate
import Atomo.Query.Selection
import Atomo.Client.Batches
import Atomo.TypeScript.Definition
import Atomo.TypeScript.Cuts
import Atomo.Server.FixedWindow
import Atomo.Media.Ranges
import Atomo.GraphQL.FieldNames
import Atomo.Workflows.Scheduler
import Atomo.Sdk.HandleJob
import Atomo.History.Retention
import Atomo.Hub.Throttle
import Atomo.Actions.Conditions
import Atomo.Jobs.Backoff
import Atomo.GraphQL.PublicRedirects
import Atomo.Auth.Validity
import Atomo.Lib.Parallel
import Atomo.GraphQL.EntryPoints
import Atomo.Server.Accounts
import Atomo.Server.Effects
import Atomo.Server.Privileges
import Atomo.Migrations.Drift
import Atomo.Cli.Migrate
import Atomo.Cli.Generate
import Atomo.Events.Replay
