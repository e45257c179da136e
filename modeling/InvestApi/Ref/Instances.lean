import InvestApi.Ref.FxSync
import InvestApi.Ref.LedgerSystem

/-!
# Instances booking transactions

Any number of API processes over one database, each with the rate cache it
loaded at its boot. A sync is what its upserts do to the table; between two
boots of a process it has no cache. Every row `saveMany` writes is noted with
the table as it was at that moment.
-/

namespace InvestApi.Ref

open InvestApi.Pg

structure BookingWorld (ι : Type) where
  ledger : LedgerDb
  store : FxStore
  caches : ι → FxRateCache
  booked : List (TransactionRow × FxStore)

inductive BookingEvent (ι : Type) where
  /-- The process ends; its next one starts without a cache. -/
  | stop (i : ι)
  | load (i : ι)
  /-- One chunk of an upsert, by whoever makes it. -/
  | upsert (source : String) (rows : List FxRateRow)
  | create (i : ι) (input : CreateTransactionsDto) (user : AuthUser) (ids : Nat → Uuid)
      (now : Instant)

/-- The rows of `transactions` among the writes of a session. -/
def transactionRows (writes : List (Write LedgerRow)) : List TransactionRow :=
  writes.filterMap fun
    | ⟨.transaction _, some row⟩ => some row
    | _ => none

namespace BookingWorld

variable {ι : Type} [DecidableEq ι]

/-- What instance `i` resolves rates with. -/
def env (base : Env) (w : BookingWorld ι) (i : ι) : Env :=
  { base with fxRates := w.store.table, cache := w.caches i }

def setCache (w : BookingWorld ι) (i : ι) (cache : FxRateCache) : BookingWorld ι :=
  { w with caches := Function.update w.caches i cache }

inductive Step (base : Env) : BookingWorld ι → BookingEvent ι → BookingWorld ι → Prop where
  | stop {w : BookingWorld ι} {i : ι} :
      Step base w (.stop i) (w.setCache i [])
  | load {w : BookingWorld ι} {i : ι} :
      Step base w (.load i) (w.setCache i
        (FxRateCache.load (FxRateRepository.findAllEffective w.store.table)))
  | upsert {w : BookingWorld ι} {source : String} {rows : List FxRateRow} {store : FxStore}
      (hstore : w.store.upsert source rows = .ok store) :
      Step base w (.upsert source rows) { w with store := store }
  | create {w : BookingWorld ι} {i : ι} {input : CreateTransactionsDto} {user : AuthUser}
      {ids : Nat → Uuid} {now : Instant} {batch : List Transaction} {s : LedgerSession}
      (hrun : (TransactionsService.create (w.env base i) input user ids now).exec w.ledger none
        (Session.init []) = (.committed batch, s)) :
      Step base w (.create i input user ids now)
        { w with
          ledger := w.ledger.writeAll s.writes
          booked := w.booked ++ (transactionRows s.writes).map fun row => (row, w.store) }

end BookingWorld

end InvestApi.Ref
