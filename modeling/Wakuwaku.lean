import Wakuwaku.Session
import Wakuwaku.Keyed
import Wakuwaku.Keyset
import Wakuwaku.Steps
import Wakuwaku.Bucket
import Wakuwaku.Async
import Wakuwaku.World
import Wakuwaku.Proof.Predicate
import Wakuwaku.Proof.Decided
import Wakuwaku.Proof.Outcome
import Wakuwaku.Proof.Laws
import Wakuwaku.Reorder
import Wakuwaku.Grouped
import Wakuwaku.Parsing
import Wakuwaku.Fallible
import Wakuwaku.Redis.Text
import Wakuwaku.Redis.Keyspace
import Wakuwaku.Redis.Server
import Wakuwaku.Redis.Numbers
import Wakuwaku.Redis.Cluster
import Wakuwaku.Iggy.Events
import Wakuwaku.LittleEndian
import Wakuwaku.Iggy.Events.Headers
import Wakuwaku.Iggy.Events.Publisher
import Wakuwaku.Iggy.Partition.Plan
import Wakuwaku.Iggy.Partition.Segments
import Wakuwaku.Iggy.Partition.Grouping
import Wakuwaku.Iggy.Partition.Build
import Wakuwaku.Iggy.Partition.Order
import Wakuwaku.Iggy.Partition.Fences
import Wakuwaku.Cut
import Wakuwaku.Iggy.Partition.Cuts
import Wakuwaku.Iggy.Partition.Groups
import Wakuwaku.Iggy.Partition.Independent
import Wakuwaku.Iggy.Partition.Algebra
import Wakuwaku.Iggy.Consumer.Handler
import Wakuwaku.Iggy.Consumer.Dispatch
import Wakuwaku.Iggy.Consumer.Chunks
import Wakuwaku.Iggy.Consumer.Execute
import Wakuwaku.Iggy.Consumer.Returns
import Wakuwaku.Iggy.Consumer.Retry
import Wakuwaku.Iggy.Consumer.Runtime
import Wakuwaku.Iggy.Consumer.Runtime.Offsets
import Wakuwaku.Iggy.Consumer.Runtime.Progress
import Wakuwaku.Iggy.Consumer.Encode
import Wakuwaku.Iggy.Consumer.Detour
import Wakuwaku.Iggy.Consumer.Account
import Wakuwaku.Iggy.Consumer.Semantics
import Wakuwaku.Iggy.Consumer.Traced
import Wakuwaku.Entity.Effect
import Wakuwaku.Entity.Redis.Keys
import Wakuwaku.Entity.Redis.Collection.Lock
import Wakuwaku.Entity.Redis.Collection.RwLock
import Wakuwaku.Entity.Redis.Collection.Lock.Numbers
import Wakuwaku.Entity.Redis.Collection.TokenBucketLimiter
import Wakuwaku.Entity.Redis.Collection.RateLimit
import Wakuwaku.Entity.Redis.Collection.IdealBucket
import Wakuwaku.Entity.Redis.Dynamic.Entries
import Wakuwaku.Entity.Redis.Dynamic.Cursor
import Wakuwaku.Entity.Redis.Dynamic.Replies
import Wakuwaku.Entity.Redis.Dynamic.LiveView
import Wakuwaku.Entity.Redis.Dynamic.LiveView.Log
import Wakuwaku.Entity.Redis.Dynamic.LiveView.Runs
import Wakuwaku.Entity.Redis.Dynamic.LiveView.Reads
import Wakuwaku.Entity.Redis.Dynamic.LiveView.Subscription
import Wakuwaku.Entity.Redis.Dynamic.LiveView.Subscribers
import Wakuwaku.Entity.Redis.Dynamic.Pipe
import Wakuwaku.Entity.Redis.Dynamic.Pipe.Delivery
import Wakuwaku.Entity.Redis.Dynamic.StreamBuffer
import Wakuwaku.Entity.Redis.Dynamic.StreamBuffer.Delivery
import Wakuwaku.Entity.Redis.Dynamic.StreamBuffer.Contents
import Wakuwaku.Entity.Redis.AllOrNothing
import Wakuwaku.Entity.Redis.Items
import Wakuwaku.Entity.Redis.Slots
import Wakuwaku.Entity.Meilisearch.Filter
import Wakuwaku.Entity.Meilisearch.Filter.Grammar
import Wakuwaku.Entity.Meilisearch.Filter.RoundTrip
import Wakuwaku.Meilisearch.Server
import Wakuwaku.Meilisearch.Tasks
import Wakuwaku.Meilisearch.LastWrite
import Wakuwaku.Entity.Meilisearch.Write
import Wakuwaku.Entity.Meilisearch.Sync.Source
import Wakuwaku.Entity.Meilisearch.Sync.Rebuild
import Wakuwaku.Entity.Meilisearch.Sync.Rebuild.Phases
import Wakuwaku.Entity.Meilisearch.Sync.Rebuild.Live
import Wakuwaku.Entity.Meilisearch.Sync.Rebuild.Scan
import Wakuwaku.Entity.Meilisearch.Sync.Rebuild.Once
import Wakuwaku.Entity.Meilisearch.Sync.Hook
import Wakuwaku.Entity.Meilisearch.Sync.Hook.Sorted
import Wakuwaku.Entity.Meilisearch.Sync.Hook.Calls
import Wakuwaku.Entity.Meilisearch.Sync.Hook.InSync
import Wakuwaku.Entity.Sqlx.Backend
import Wakuwaku.Entity.Sqlx.Transaction.Flow
import Wakuwaku.Entity.Sqlx.Transaction.Ends
import Wakuwaku.Entity.Sqlx.Transaction.Capability
import Wakuwaku.Iggy.Consumer.Pending
import Wakuwaku.Iggy.Consumer.Replan
import Wakuwaku.Iggy.Consumer.Runtime.Task
import Wakuwaku.Iggy.Consumer.Runtime.Server
import Wakuwaku.Iggy.Consumer.Runtime.History
import Wakuwaku.Iggy.Consumer.Runtime.Outline
import Wakuwaku.Iggy.Consumer.Runtime.Followed
import Wakuwaku.Iggy.Consumer.Runtime.Quarantine
import Wakuwaku.Iggy.Consumer.Handed
import Wakuwaku.Iggy.Consumer.Runtime.Batches
import Wakuwaku.Iggy.Consumer.Runtime.Untaken
import Wakuwaku.Iggy.Consumer.Runtime.AtMostOnce
import Wakuwaku.Iggy.Consumer.Runtime.Accounted
import Wakuwaku.Iggy.Consumer.Runtime.NothingLost
import Wakuwaku.Services.CronJob
import Wakuwaku.Services.CronJob.Spaced
import Wakuwaku.Entity.Redis.Collection.Cache.Runs
import Wakuwaku.Entity.Redis.Alone
import Wakuwaku.Entity.Redis.Collection.RateLimit.Reset
import Wakuwaku.Iggy.Consumer.Runtime.Applied
import Wakuwaku.Iggy.EndToEnd
import Wakuwaku.Entity.Meilisearch.Filter.Json
import Wakuwaku.Entity.Meilisearch.Search
import Wakuwaku.Entity.Meilisearch.TenantToken
import Wakuwaku.Iggy.Consumer.Runtime.Start
import Wakuwaku.Iggy.Consumer.Runtime.Starts
