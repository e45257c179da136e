import Mathlib.Logic.Function.Basic
import InvestApi.Ref.FxRates

/-!
# Filling the rates from NBU

`nbu-client.service`, the writing half of `fx-rate.repository` and
`fx-sync.service`. NBU itself is an archive for each currency it is asked
about: the days it has published, with their quotes. What comes back from it
is a step of its own, and so is every chunk of an upsert, so that any number
of instances may be anywhere in their syncs at once.
-/

namespace InvestApi.Ref

def NBU_SOURCE : String := "nbu"

/-- Rows per upsert. -/
def UPSERT_CHUNK : Nat := 1000

structure QuotedCurrency where
  code : String
  numericCode : Int
  deriving DecidableEq, Repr

/-! ## The client -/

/-- One element of NBU's answer, of the right JSON types. -/
structure NbuRecord where
  exchangedate : String
  r030 : Number
  cc : String
  rate : Number
  units : Number
  deriving DecidableEq, Repr

/-- One row as the sync writes it. `rawRate` goes out as the text of the
number. -/
structure FxRateRow where
  currency : String
  rateDate : String
  rawRate : Number
  rawUnits : Number
  deriving DecidableEq, Repr

/-- `z.number().int()`: a safe integer. -/
def isSafeInt (x : Number) : Bool := decide (x.den = 1 ∧ x.num.natAbs < 2 ^ 53)

/-- `/^\d{2}\.\d{2}\.\d{4}$/`. -/
def dottedDate (s : String) : Bool :=
  match s.toList with
  | [d₁, d₂, '.', m₁, m₂, '.', y₁, y₂, y₃, y₄] =>
      [d₁, d₂, m₁, m₂, y₁, y₂, y₃, y₄].all Char.isDigit
  | _ => false

/-- `nbuRecordSchema`. -/
def NbuRecord.valid (record : NbuRecord) : Bool :=
  dottedDate record.exchangedate && isSafeInt record.r030 && decide (0 < record.rate)
    && isSafeInt record.units && decide (0 < record.units)

/-- `YYYY-MM-DD` as NBU expects it in query params. -/
def toNbuParam (date : String) : String :=
  String.ofList (date.toList.filter fun c => c ≠ '-')

/-- NBU's `dd.mm.yyyy` as a `date` column's text. -/
def parseNbuDate (value : String) : String :=
  let part (n : Nat) := ((value.toList.splitOn '.')[n]?).getD "undefined".toList
  String.ofList (part 2 ++ '-' :: part 1 ++ '-' :: part 0)

def FxRateRow.ofRecord (currency : QuotedCurrency) (record : NbuRecord) :
    Except ApiError FxRateRow :=
  if record.cc ≠ currency.code then
    .error (.error ("NBU returned " ++ record.cc ++ " when asked for " ++ currency.code))
  else .ok ⟨currency.code, parseNbuDate record.exchangedate, record.rate, record.units⟩

/-- The body is `none` where it is not an array of such objects. Of the
ZodError only the name is kept. -/
def parseNbuResponse (body : Option (List NbuRecord)) (currency : QuotedCurrency) :
    Except ApiError (List FxRateRow) :=
  match body with
  | none => .error (.error "ZodError")
  | some records =>
      if records.all NbuRecord.valid then
        records.mapM (FxRateRow.ofRecord currency)
      else .error (.error "ZodError")

structure NbuRequest where
  start : String
  endDate : String
  valcode : String
  deriving DecidableEq, Repr

/-- The query of `fetchRates`. -/
def nbuRequest (currency : QuotedCurrency) (fromDate toDate : String) : NbuRequest :=
  ⟨toNbuParam fromDate, toNbuParam toDate, currency.code.toLower⟩

/-! ## The table -/

/-- A number as a `numeric(20,10)` column rounds it: ties away from zero. -/
def numericIn (x : Number) : Numeric :=
  if 0 ≤ x then toFixed10 x else ⟨-(toFixed10 (-x)).scaled⟩

theorem digitsValue_lt {cs : List Char} {n : Nat} (h : digitsValue cs = some n) :
    n < 10 ^ cs.length := by
  have hfold : ∀ (cs : List Char) (a : Nat), cs.all Char.isDigit = true →
      cs.foldl (fun a c => a * 10 + (c.toNat - '0'.toNat)) a < (a + 1) * 10 ^ cs.length := by
    intro cs
    induction cs with
    | nil => intro a _; simp
    | cons c cs ih =>
        intro a hall
        rw [List.all_cons, Bool.and_eq_true] at hall
        have hc : c.toNat - '0'.toNat ≤ 9 := by
          have hle := hall.1
          simp only [Char.isDigit, Bool.and_eq_true, decide_eq_true_eq] at hle
          have h9 : c.toNat ≤ 57 := hle.2
          show c.toNat - 48 ≤ 9
          omega
        have hstep := ih (a * 10 + (c.toNat - '0'.toNat)) hall.2
        rw [List.foldl_cons, List.length_cons, pow_succ]
        calc _ < (a * 10 + (c.toNat - '0'.toNat) + 1) * 10 ^ cs.length := hstep
          _ ≤ ((a + 1) * 10) * 10 ^ cs.length := Nat.mul_le_mul_right _ (by omega)
          _ = (a + 1) * (10 ^ cs.length * 10) := by ring
  rw [digitsValue] at h
  split at h
  · next hall =>
      obtain rfl := Option.some.inj h
      simpa using hfold cs 0 hall
  · simp at h

/-- A day Postgres reads off a `YYYY-MM-DD` text has a four-digit year. -/
theorem year_of_pgDateIn {s : String} {day : Int} (h : pgDateIn s = some day) :
    1 ≤ (civil day).1 ∧ (civil day).1 ≤ 9999 := by
  rw [pgDateIn] at h
  split at h
  · split at h
    · next y m d hy _ _ =>
        have hlt := digitsValue_lt hy
        split at h
        · next hcivil =>
            obtain rfl := Option.some.inj h
            obtain ⟨hy0, hc⟩ := hcivil
            rw [hc]
            simp only [List.length_cons, List.length_nil] at hlt
            omega
        · simp at h
    · simp at h
  · simp at h

/-- A row of `fx_rate` as it is written; `rate` is generated. -/
structure StoredFxRate where
  currency : String
  rateDate : Int
  source : String
  rawRate : Numeric
  rawUnits : Int
  dated : 1 ≤ (civil rateDate).1 ∧ (civil rateDate).1 ≤ 9999
  rawRate_pos : 0 < rawRate.scaled
  rawUnits_pos : 0 < rawUnits
  currency_ne : currency ≠ "UAH"
  deriving DecidableEq

namespace StoredFxRate

/-- `(raw_rate / raw_units)::numeric(20,10)`. -/
def rate (r : StoredFxRate) : Numeric :=
  numericIn ((r.rawRate.scaled : Number) / 10 ^ 10 / r.rawUnits)

/-- The columns the lookups read. -/
def view (r : StoredFxRate) : FxRate := ⟨r.currency, r.rateDate, r.source, r.rate⟩

def sortKey (r : StoredFxRate) : String ×ₗ Int ×ₗ String := r.view.sortKey

/-- The row an INSERT makes of a written one, or why it makes none. -/
def ofRow (source : String) (row : FxRateRow) : Except ApiError StoredFxRate :=
  match hday : pgDateIn row.rateDate with
  | none => .error (.db "22008")
  | some day =>
      let rawRate := numericIn row.rawRate
      if rawRate.fits = false then .error (.db "22003")
      else if row.rawUnits.den ≠ 1 then .error (.db "22P02")
      else if ¬ (-(2 ^ 31) ≤ row.rawUnits.num ∧ row.rawUnits.num < 2 ^ 31) then
        .error (.db "22003")
      else if h : 0 < rawRate.scaled ∧ 0 < row.rawUnits.num ∧ row.currency ≠ "UAH" ∧
          1 ≤ source.length ∧ source.length ≤ 40 then
        .ok ⟨row.currency, day, source, rawRate, row.rawUnits.num, year_of_pgDateIn hday,
          h.1, h.2.1, h.2.2.1⟩
      else .error (.db "23514")

end StoredFxRate

/-- The table, its primary key kept. -/
structure FxStore where
  rows : List StoredFxRate
  key : (rows.map StoredFxRate.sortKey).Nodup

namespace FxStore

def table (S : FxStore) : List FxRate := S.rows.map StoredFxRate.view

def empty : FxStore := ⟨[], List.nodup_nil⟩

/-- INSERT … ON CONFLICT DO UPDATE of one row. An unchanged one is skipped, to
the same effect. -/
def put (S : FxStore) (r : StoredFxRate) : FxStore :=
  if h : r.sortKey ∈ S.rows.map StoredFxRate.sortKey then
    { rows := S.rows.map fun q => if q.sortKey = r.sortKey then r else q
      key := by
        have hkeys : (S.rows.map fun q => if q.sortKey = r.sortKey then r else q).map
            StoredFxRate.sortKey = S.rows.map StoredFxRate.sortKey := by
          rw [List.map_map]
          refine List.map_congr_left fun q _ => ?_
          show (if q.sortKey = r.sortKey then r else q).sortKey = q.sortKey
          split
          · next heq => exact heq.symm
          · rfl
        rw [hkeys]
        exact S.key }
  else
    { rows := S.rows ++ [r]
      key := by
        rw [List.map_append, List.nodup_append']
        refine ⟨S.key, List.nodup_singleton _, ?_⟩
        simpa using h }

/-- One statement of `upsertMany`. Two rows of one key in it are refused. -/
def upsert (S : FxStore) (source : String) (rows : List FxRateRow) :
    Except ApiError FxStore :=
  match rows.mapM (StoredFxRate.ofRow source) with
  | .error e => .error e
  | .ok stored =>
      if (stored.map StoredFxRate.sortKey).Nodup then .ok (stored.foldl put S)
      else .error (.db "21000")

/-- SELECT currency, to_char(MAX(rate_date), 'YYYY-MM-DD') … GROUP BY
currency. -/
def findLastDates (S : FxStore) (source : String) : List (String × String) :=
  let rows := S.rows.filter fun r => r.source = source
  (rows.map (·.currency)).dedup.filterMap fun currency =>
    ((rows.filter fun r => r.currency = currency).map (·.rateDate)).max?.map fun last =>
      (currency, toChar last)

end FxStore

/-! ## NBU -/

structure NbuQuote where
  day : Int
  rate : Number
  units : Number
  deriving DecidableEq, Repr

/-- What NBU has published of a currency. -/
structure NbuArchive where
  quotes : List NbuQuote
  ascending : quotes.Pairwise fun p q => p.day < q.day
  dated : ∀ q ∈ quotes, 1 ≤ (civil q.day).1 ∧ (civil q.day).1 ≤ 9999
  deriving DecidableEq

def nbuDateText (day : Int) : String :=
  match civil day with
  | (y, m, d) =>
      String.ofList (digits 2 d.toNat ++ '.' :: digits 2 m.toNat ++ '.' :: digits 4 y.toNat)

/-- NBU's reading of a `YYYYMMDD` param. -/
def nbuDateIn (s : String) : Option Int :=
  match s.toList with
  | [y₁, y₂, y₃, y₄, m₁, m₂, d₁, d₂] =>
      match digitsValue [y₁, y₂, y₃, y₄], digitsValue [m₁, m₂], digitsValue [d₁, d₂] with
      | some y, some m, some d =>
          if civil (daysFromCivil y m d) = ((y : Int), (m : Int), (d : Int))
          then some (daysFromCivil y m d) else none
      | _, _, _ => none
  | _ => none

/-- The requested range. Texts that are no dates name none. -/
def NbuRequest.covers (request : NbuRequest) (day : Int) : Bool :=
  match nbuDateIn request.start, nbuDateIn request.endDate with
  | some first, some last => decide (first ≤ day ∧ day ≤ last)
  | _, _ => false

def NbuRecord.quotes (record : NbuRecord) (q : NbuQuote) : Prop :=
  record.exchangedate = nbuDateText q.day ∧ record.rate = q.rate ∧ record.units = q.units

/-- The answer lists every published day of the requested range, in ascending
order and once each. -/
def NbuArchive.Answers (archive : NbuArchive) (request : NbuRequest)
    (body : Option (List NbuRecord)) : Prop :=
  ∃ records, body = some records ∧ List.Forall₂ NbuRecord.quotes records
    (archive.quotes.filter fun q => request.covers q.day)

/-! ## The sync -/

/-- The day of a `YYYY-MM-DD` text as `new Date` reads it. -/
def isoDateIn (s : String) : Option Int :=
  match s.toList with
  | [y₁, y₂, y₃, y₄, '-', m₁, m₂, '-', d₁, d₂] =>
      nbuDateIn (String.ofList [y₁, y₂, y₃, y₄, m₁, m₂, d₁, d₂])
  | _ => none

/-- `YYYY-MM-DD` plus `days`; a text that is no date throws. -/
def addDays (date : String) (days : Int) : Option String :=
  (isoDateIn date).map fun day => toDateOnly ((day + days) * MS_PER_DAY)

/-- One `syncCurrency`, between two of its awaits. `answered` is what NBU had
published when it answered. -/
inductive SyncTask where
  | fetching (currency : QuotedCurrency) (fromDate toDate : String)
  | upserting (currency : QuotedCurrency) (answered : NbuArchive) (rows : List FxRateRow)
  | synced (currency : QuotedCurrency) (answered : NbuArchive)
  | failed (currency : QuotedCurrency)
  deriving DecidableEq

namespace SyncTask

/-- The loop over the chunks ends where no row is left. -/
def chunks (currency : QuotedCurrency) (answered : NbuArchive) :
    List FxRateRow → SyncTask
  | [] => .synced currency answered
  | row :: rows => .upserting currency answered (row :: rows)

/-- The body NBU answered with, parsed. -/
def parsed (currency : QuotedCurrency) (answered : NbuArchive)
    (body : Option (List NbuRecord)) : SyncTask :=
  match parseNbuResponse body currency with
  | .error _ => .failed currency
  | .ok rows => chunks currency answered rows

def currency : SyncTask → QuotedCurrency
  | .fetching currency _ _ => currency
  | .upserting currency _ _ => currency
  | .synced currency _ => currency
  | .failed currency => currency

def finished : SyncTask → Bool
  | .fetching _ _ _ => false
  | .upserting _ _ _ => false
  | .synced _ _ => true
  | .failed _ => true

end SyncTask

/-- An instance's `onApplicationBootstrap`. -/
inductive Boot where
  | off
  | syncing (tasks : List SyncTask)
  | serving (tasks : List SyncTask) (cache : FxRateCache)

structure FxWorld (ι : Type) where
  /-- NBU's archives, by the `valcode` they are asked for. -/
  archive : String → NbuArchive
  store : FxStore
  boots : ι → Boot

inductive FxEvent (ι : Type) where
  /-- NBU publishes a day. -/
  | publish (valcode : String) (q : NbuQuote)
  /-- NBU revises a published day. -/
  | revise (valcode : String) (q : NbuQuote)
  /-- Another writer of the table, of rows that are not NBU's. -/
  | other
  /-- `sync` has read the currencies and the last dates. -/
  | start (i : ι) (now : Instant) (currencies : List QuotedCurrency)
  /-- There is no sync, or it throws before its streams. -/
  | skip (i : ι)
  | fetch (i : ι) (n : Nat) (body : Option (List NbuRecord))
  | upsert (i : ι) (n : Nat)
  /-- A task's await rejects. -/
  | fail (i : ι) (n : Nat)
  | load (i : ι)
  /-- The cache load fails. -/
  | unloaded (i : ι)

namespace FxWorld

variable {ι : Type} [DecidableEq ι]

def setBoot (w : FxWorld ι) (i : ι) (b : Boot) : FxWorld ι :=
  { w with boots := Function.update w.boots i b }

/-- The tasks of `sync`: each currency from its last NBU day, or from
FX_BACKFILL_FROM. -/
def tasks (w : FxWorld ι) (backfillFrom toDate : String)
    (currencies : List QuotedCurrency) : List SyncTask :=
  let lastDates := w.store.findLastDates NBU_SOURCE
  currencies.map fun currency =>
    .fetching currency ((lastDates.lookup currency.code).getD backfillFrom) toDate

/-- One step, with FX_BACKFILL_FROM. -/
inductive Step (backfillFrom : String) : FxWorld ι → FxEvent ι → FxWorld ι → Prop where
  | publish {w : FxWorld ι} {valcode : String} {q : NbuQuote} {archive : NbuArchive}
      (harchive : archive.quotes = (w.archive valcode).quotes ++ [q]) :
      Step backfillFrom w (.publish valcode q)
        { w with archive := Function.update w.archive valcode archive }
  | revise {w : FxWorld ι} {valcode : String} {q : NbuQuote} {archive : NbuArchive}
      (harchive : archive.quotes = (w.archive valcode).quotes.map fun p =>
        if p.day = q.day then q else p) :
      Step backfillFrom w (.revise valcode q)
        { w with archive := Function.update w.archive valcode archive }
  | other {w : FxWorld ι} {store : FxStore}
      (hstore : store.rows.filter (fun r => r.source = NBU_SOURCE)
        = w.store.rows.filter (fun r => r.source = NBU_SOURCE)) :
      Step backfillFrom w .other { w with store := store }
  | start {w : FxWorld ι} {i : ι} {now : Instant} {currencies : List QuotedCurrency}
      {toDate : String} (hoff : w.boots i = .off)
      (hto : addDays (toDateOnly now) 1 = some toDate) :
      Step backfillFrom w (.start i now currencies)
        (w.setBoot i (.syncing (w.tasks backfillFrom toDate currencies)))
  | skip {w : FxWorld ι} {i : ι} (hoff : w.boots i = .off) :
      Step backfillFrom w (.skip i) (w.setBoot i (.syncing []))
  | fetch {w : FxWorld ι} {i : ι} {n : Nat} {body : Option (List NbuRecord)}
      {tasks : List SyncTask} {currency : QuotedCurrency} {fromDate toDate : String}
      (hboot : w.boots i = .syncing tasks)
      (htask : tasks[n]? = some (.fetching currency fromDate toDate))
      (hanswer : (w.archive (nbuRequest currency fromDate toDate).valcode).Answers
        (nbuRequest currency fromDate toDate) body) :
      Step backfillFrom w (.fetch i n body) (w.setBoot i (.syncing (tasks.set n
        (.parsed currency (w.archive (nbuRequest currency fromDate toDate).valcode)
          body))))
  | upsert {w : FxWorld ι} {i : ι} {n : Nat} {tasks : List SyncTask}
      {currency : QuotedCurrency} {answered : NbuArchive} {rows : List FxRateRow}
      {store : FxStore} (hboot : w.boots i = .syncing tasks)
      (htask : tasks[n]? = some (.upserting currency answered rows))
      (hstore : w.store.upsert NBU_SOURCE (rows.take UPSERT_CHUNK) = .ok store) :
      Step backfillFrom w (.upsert i n) { w.setBoot i (.syncing (tasks.set n
        (.chunks currency answered (rows.drop UPSERT_CHUNK)))) with store := store }
  | fail {w : FxWorld ι} {i : ι} {n : Nat} {tasks : List SyncTask} {task : SyncTask}
      (hboot : w.boots i = .syncing tasks) (htask : tasks[n]? = some task)
      (hrunning : task.finished = false) :
      Step backfillFrom w (.fail i n)
        (w.setBoot i (.syncing (tasks.set n (.failed task.currency))))
  | load {w : FxWorld ι} {i : ι} {tasks : List SyncTask} (hboot : w.boots i = .syncing tasks)
      (hdone : tasks.all SyncTask.finished = true) :
      Step backfillFrom w (.load i) (w.setBoot i (.serving tasks
        (FxRateCache.load (FxRateRepository.findAllEffective w.store.table))))
  | unloaded {w : FxWorld ι} {i : ι} {tasks : List SyncTask}
      (hboot : w.boots i = .syncing tasks) (hdone : tasks.all SyncTask.finished = true) :
      Step backfillFrom w (.unloaded i) (w.setBoot i (.serving tasks []))

end FxWorld

end InvestApi.Ref
