import InvestApi.Ledger.Writes
import InvestApi.Ledger.Bodies
import InvestApi.Ledger.Booking
import InvestApi.Ledger.Buying
import InvestApi.Ledger.Atomic
import InvestApi.Ledger.Books
import InvestApi.Ledger.Oversell
import InvestApi.Ledger.Alone
import InvestApi.Ledger.Linear
import InvestApi.Ledger.Failure
import InvestApi.Ref.Auth
import InvestApi.Auth.Bodies
import InvestApi.Auth.Families
import InvestApi.Auth.Revocation
import InvestApi.Idempotency.AtMostOnce
import InvestApi.Idempotency.Orphans
import InvestApi.Codec.Json
import InvestApi.Pg.Keyset
import InvestApi.Paging.Listing
import InvestApi.Paging.Walk
import InvestApi.Isolation.Agree
import InvestApi.Ref.Requests
import InvestApi.Isolation.Requests
import InvestApi.Isolation.Batch
import InvestApi.Isolation.Runs
import InvestApi.Ledger.Deadlock
import InvestApi.Fx.Calendar
import InvestApi.Fx.Cache
import InvestApi.Fx.CheckoutRate
import InvestApi.Fx.Store
import InvestApi.Lts.Run
import InvestApi.Fx.Sync
import InvestApi.Fx.Corrections
import InvestApi.Fx.Snapshot
import InvestApi.Orders.Events
import InvestApi.Orders.Bus
import InvestApi.Orders.Stream
import InvestApi.Amqp.Queue
import InvestApi.Codec.Plain
import InvestApi.Ref.OrderPlaced
import InvestApi.Orders.Receipts
import InvestApi.Concurrency.Pool
import InvestApi.Pg.SnapshotRow
import InvestApi.Ref.Retry
import InvestApi.Concurrency.Retry
import InvestApi.Ref.AccessTokens
import InvestApi.Auth.Denylist
import InvestApi.Auth.LoggedOut
import InvestApi.Auth.Replay
import InvestApi.Fx.Label
import InvestApi.Paging.BadCursor
import InvestApi.Ledger.Inserted
import InvestApi.Ledger.RawError
import InvestApi.Ledger.ReadBack
import InvestApi.Codec.Stringify
import InvestApi.Idempotency.Replays
import InvestApi.Orders.Accepted
import InvestApi.Orders.Verdict
import InvestApi.Ref.Password
import InvestApi.Auth.Password
import InvestApi.Codec.Double
import InvestApi.Ledger.PerEntry
import InvestApi.Ref.Doubles
import InvestApi.Ledger.Doubles
import InvestApi.Ledger.Money
import InvestApi.Lts.Progress
import InvestApi.Concurrency.Attempts
import InvestApi.Ref.DemoRetry
import InvestApi.Concurrency.Barrier
import InvestApi.Concurrency.Drain
import InvestApi.Concurrency.InOrder
import InvestApi.Isolation.Entitled
import InvestApi.Ref.Guards
import InvestApi.Ref.Api
import InvestApi.Api.Joins
import InvestApi.Api.Authorized
import InvestApi.Api.Rooms
import InvestApi.Auth.Honest
import InvestApi.Ledger.Race
import InvestApi.Fx.Together
import InvestApi.Auth.Lineage
import InvestApi.Orders.Receipted
