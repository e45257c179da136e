import InvestApi.Fx.CheckoutRate
import InvestApi.Fx.Corrections
import InvestApi.Ledger.Booking
import InvestApi.Pg.Footprint
import InvestApi.Ref.Instances

/-!
# The snapshot a batch is booked with

`saveMany` takes its rates from `getEffectiveRates`, and that from the cache of
its process before it asks the table. What it freezes is the table's rate as
long as nobody has changed, under a running process, a rate its cache answers.
-/

namespace InvestApi.Ref

open InvestApi.Pg InvestApi.Lts

/-! ## The keys of a batch -/

theorem length_toDateOnly (t : Instant) : (toDateOnly t).toList.length = 10 := by
  by_cases h : Dated (t / MS_PER_DAY)
  · rw [toDateOnly_dated h, String.toList_ofList, length_dateText h]
  · rw [toDateOnly_far h]
    simp

/-- A key names one currency and one day. -/
theorem fxRateKey_inj {c c' : String} {t t' : Instant} (h : fxRateKey c t = fxRateKey c' t') :
    c = c' ∧ toDateOnly t = toDateOnly t' := by
  have hlist := congrArg String.toList h
  simp only [fxRateKey, String.toList_append] at hlist
  have hlen : (toDateOnly t).toList.length = (toDateOnly t').toList.length := by
    rw [length_toDateOnly, length_toDateOnly]
  obtain ⟨hleft, hday⟩ := List.append_inj' hlist hlen
  obtain ⟨hc, -⟩ := List.append_inj' hleft rfl
  exact ⟨String.toList_inj.mp hc, String.toList_inj.mp hday⟩

/-- A rate is looked up by the day, whatever the time of it. -/
theorem getEffectiveRate_congr {table : List FxRate} {cache : FxRateCache} {c : String}
    {t t' : Instant} (h : toDateOnly t = toDateOnly t') :
    FxRatesService.getEffectiveRate table cache c t
      = FxRatesService.getEffectiveRate table cache c t' := by
  have hrepo : FxRateRepository.findLatest table c t = FxRateRepository.findLatest table c t' := by
    unfold FxRateRepository.findLatest
    rw [h]
  rw [FxRatesService.getEffectiveRate, FxRatesService.getEffectiveRate,
    FxRatesService.findLatest, FxRatesService.findLatest, hrepo, h]

/-- Every pair is kept under its key, itself or a later one of the key. -/
theorem uniquePairs_spec (pairs : List (String × Instant)) :
    (∀ u ∈ FxRatesService.uniquePairs pairs, u.1 = fxRateKey u.2.1 u.2.2) ∧
      ∀ p ∈ pairs, ∃ u ∈ FxRatesService.uniquePairs pairs, u.1 = fxRateKey p.1 p.2 := by
  induction pairs using List.reverseRecOn with
  | nil => simp [FxRatesService.uniquePairs]
  | append_singleton pairs p ih =>
      obtain ⟨hkeys, hcovered⟩ := ih
      have hstep : FxRatesService.uniquePairs (pairs ++ [p])
          = if (FxRatesService.uniquePairs pairs).any (fun u => u.1 = fxRateKey p.1 p.2) then
              (FxRatesService.uniquePairs pairs).map fun u =>
                if u.1 = fxRateKey p.1 p.2 then (fxRateKey p.1 p.2, p) else u
            else FxRatesService.uniquePairs pairs ++ [(fxRateKey p.1 p.2, p)] := by
        rw [FxRatesService.uniquePairs, List.foldl_append]
        rfl
      rw [hstep]
      split
      · next hin =>
          rw [List.any_eq_true] at hin
          obtain ⟨old, hold, hkey⟩ := hin
          rw [decide_eq_true_eq] at hkey
          constructor
          · intro u hu
            obtain ⟨u', hu', rfl⟩ := List.mem_map.mp hu
            split
            · rfl
            · exact hkeys u' hu'
          · intro q hq
            rw [List.mem_append, List.mem_singleton] at hq
            obtain ⟨u, hu, huq⟩ : ∃ u ∈ FxRatesService.uniquePairs pairs,
                u.1 = fxRateKey q.1 q.2 := by
              rcases hq with hq | rfl
              · exact hcovered q hq
              · exact ⟨old, hold, hkey⟩
            refine ⟨_, List.mem_map_of_mem hu, ?_⟩
            split
            · next heq => exact heq.symm.trans huq
            · exact huq
      · constructor
        · intro u hu
          rw [List.mem_append, List.mem_singleton] at hu
          rcases hu with hu | rfl
          · exact hkeys u hu
          · rfl
        · intro q hq
          rw [List.mem_append, List.mem_singleton] at hq
          rcases hq with hq | rfl
          · obtain ⟨u, hu, huq⟩ := hcovered q hq
            exact ⟨u, List.mem_append_left _ hu, huq⟩
          · exact ⟨_, List.mem_append_right _ (List.mem_singleton_self _), rfl⟩

/-- What the map of a batch's rates holds under a transaction's key is the rate
of the transaction. -/
theorem getEffectiveRates_lookup {table : List FxRate} {cache : FxRateCache}
    {pairs : List (String × Instant)} {rates : List (String × Numeric)}
    (h : FxRatesService.getEffectiveRates table cache pairs = .ok rates)
    {p : String × Instant} (hp : p ∈ pairs) :
    ∃ rate, rates.lookup (fxRateKey p.1 p.2) = some rate ∧
      FxRatesService.getEffectiveRate table cache p.1 p.2 = .ok rate := by
  obtain ⟨hkeys, hcovered⟩ := uniquePairs_spec pairs
  obtain ⟨hleft, hright⟩ := mem_of_forall₂ (mapM_ok h)
  have hof : ∀ u : String × String × Instant, ∀ r,
      (FxRatesService.getEffectiveRate table cache u.2.1 u.2.2).map (fun rate => (u.1, rate))
        = .ok r → r.1 = u.1 ∧
          FxRatesService.getEffectiveRate table cache u.2.1 u.2.2 = .ok r.2 := by
    intro u r hr
    cases hrate : FxRatesService.getEffectiveRate table cache u.2.1 u.2.2 with
    | error e => rw [hrate] at hr; simp [Except.map] at hr
    | ok rate =>
        rw [hrate] at hr
        obtain rfl := Except.ok.inj hr
        exact ⟨rfl, rfl⟩
  cases hlookup : rates.lookup (fxRateKey p.1 p.2) with
  | none =>
      obtain ⟨u, hu, huq⟩ := hcovered p hp
      obtain ⟨r, hr, hur⟩ := hleft u hu
      rw [List.lookup_eq_none_iff] at hlookup
      have hne := hlookup r hr
      rw [(hof u r hur).1, huq] at hne
      simp at hne
  | some rate =>
      obtain ⟨l₁, l₂, hrates, _⟩ := List.lookup_eq_some_iff.mp hlookup
      have hmem : (fxRateKey p.1 p.2, rate) ∈ rates := by rw [hrates]; simp
      obtain ⟨u, hu, hur⟩ := hright _ hmem
      obtain ⟨hkey, hrate⟩ := hof u _ hur
      obtain ⟨hc, hday⟩ := fxRateKey_inj (hkey.trans (hkeys u hu))
      refine ⟨rate, rfl, ?_⟩
      rw [hc, getEffectiveRate_congr hday]
      exact hrate

/-! ## The rows a batch writes -/

/-- A row of `transactions` has the rate its process resolves for it. -/
def Resolved (env : Env) : (k : LedgerKey) → LedgerRow k → Prop
  | .transaction _, row =>
      FxRatesService.getEffectiveRate env.fxRates env.cache row.currency row.bookedAt
        = .ok row.fxRate
  | _, _ => True

theorem mem_batchRows_zip {env : Env} {rates : List (String × Numeric)} {now : Instant}
    {transactions : List Transaction} {accountIds : List Uuid} {dates : List Instant}
    {r : KeyedRow LedgerRow}
    (hr : r ∈ TransactionsRepository.batchRows env rates now
      (transactions.zip (accountIds.zip dates))) :
    ∃ tx a t, (tx.currency, t) ∈ (transactions.map (·.currency)).zip dates ∧
      r = ⟨.transaction tx.id, TransactionsRepository.toRow env rates tx a t now⟩ := by
  obtain ⟨⟨tx, a, t⟩, hmem, rfl⟩ := List.mem_map.mp hr
  refine ⟨tx, a, t, ?_, rfl⟩
  obtain ⟨n, hn⟩ := List.getElem?_of_mem hmem
  rw [List.getElem?_zip_eq_some, List.getElem?_zip_eq_some] at hn
  refine List.mem_of_getElem? (i := n) (List.getElem?_zip_eq_some.mpr ⟨?_, hn.2.2⟩)
  rw [List.getElem?_map, hn.1]
  rfl

theorem puts_saveMany (env : Env) (transactions : List Transaction) (now : Instant) :
    (TransactionsRepository.saveMany env transactions now).Puts (Resolved env) := by
  rw [TransactionsRepository.saveMany]
  split
  · trivial
  split
  · trivial
  intro _
  show Prog.Puts _ (ite _ _ _)
  split
  · trivial
  rcases Prog.mapM_value (bookedDate_value env) transactions
    with ⟨dates, hdates, _⟩ | ⟨e, he⟩
  swap
  · rw [he]
    trivial
  rw [hdates]
  intro _
  show Prog.Puts _ ((orThrow (FxRatesService.getEffectiveRates env.fxRates env.cache
    ((transactions.map (·.currency)).zip dates))).bind _)
  rcases orThrow_value (FxRatesService.getEffectiveRates env.fxRates env.cache
      ((transactions.map (·.currency)).zip dates)) with ⟨rates, hrates, hr⟩ | ⟨e, he⟩
  swap
  · rw [he]
    trivial
  rw [hr]
  show Prog.Puts _ ((transactions.mapM fun tx => uuidParam tx.account_id).bind _)
  rcases Prog.mapM_value (fun tx : Transaction => uuidParam_value tx.account_id)
    transactions with ⟨accountIds, hids, _⟩ | ⟨e, he⟩
  swap
  · rw [he]
    trivial
  rw [hids]
  refine ⟨fun r hmem => ?_, trivial⟩
  obtain ⟨tx, a, t, hpair, rfl⟩ := mem_batchRows_zip hmem
  obtain ⟨rate, hlookup, hrate⟩ := getEffectiveRates_lookup hrates hpair
  show FxRatesService.getEffectiveRate env.fxRates env.cache tx.currency t
    = .ok ((rates.lookup (fxRateKey tx.currency t)).getD Numeric.one)
  rw [hlookup]
  exact hrate

theorem puts_value {J : (k : LedgerKey) → LedgerRow k → Prop} {α : Type} {p : LedgerProg α}
    (h : (∃ a, p = .ret a) ∨ ∃ e, p = .raise e) : p.Puts J := by
  rcases h with ⟨a, rfl⟩ | ⟨e, rfl⟩
  · trivial
  · trivial

theorem puts_updateBalance (env : Env) (id : String) (delta : Int) :
    (AccountsRepository.updateBalance id delta).Puts (Resolved env) := by
  refine (puts_value (uuidParam_value id)).bind fun u => ⟨fun k v v' hact => ?_,
    fun _ _ => trivial⟩
  cases k with
  | account a => trivial
  | transaction t => simp [AccountsRepository.addToBalance] at hact
  | job j => trivial

theorem puts_create (env : Env) (input : CreateTransactionsDto) (user : AuthUser)
    (ids : Nat → Uuid) (now : Instant) :
    (TransactionsService.create env input user ids now).Puts (Resolved env) := by
  rw [create_eq]
  refine Prog.Puts.bind ?_ fun accounts => ?_
  · rw [AccountsRepository.findByIds]
    split
    · trivial
    · refine Prog.Puts.bind (puts_value ?_) fun _ _ => trivial
      exact (Prog.mapM_value uuidParam_value _).imp_left fun h =>
        Exists.imp (fun _ hus => hus.1) h
  · refine Prog.Puts.bind (puts_value ?_) fun r => ?_
    · exact (orThrow_value _).imp_left fun h => Exists.imp (fun _ ha => ha.2) h
    · refine (puts_saveMany env r.1 now).bind fun _ => ?_
      exact (Prog.puts_forM fun p _ => puts_updateBalance env p.1 p.2).bind fun _ => trivial

/-- Every row a committed batch wrote has the rate its process resolved. -/
theorem resolved_rows {env : Env} {input : CreateTransactionsDto} {user : AuthUser}
    {ids : Nat → Uuid} {now : Instant} {d : LedgerDb} {f : Finish ApiError (List Transaction)}
    {s : LedgerSession}
    (h : (TransactionsService.create env input user ids now).exec d none (Session.init [])
      = (f, s)) :
    ∀ row ∈ transactionRows s.writes,
      FxRatesService.getEffectiveRate env.fxRates env.cache row.currency row.bookedAt
        = .ok row.fxRate := by
  have hadded : Prog.Added (Resolved env) (Session.init []) s := by
    have hputs := (puts_create env input user ids now).added
      (d := d) (s := (Session.init [] : LedgerSession))
    rwa [h] at hputs
  intro row hrow
  obtain ⟨⟨k, v⟩, hw, hsome⟩ := List.mem_filterMap.mp hrow
  cases k with
  | transaction u =>
      cases v with
      | none => simp at hsome
      | some r =>
          obtain rfl := Option.some.inj hsome
          exact (hadded _ hw).resolve_left (by simp) r rfl
  | account a => simp at hsome
  | job j => simp at hsome

/-! ## Agreement of a cache with the table -/

/-- The rate the table has for a currency on a day. -/
def databaseRate (S : FxStore) (currency : String) (on : Instant) :
    Except ApiError (Option Numeric) :=
  (FxRateRepository.findLatest S.table currency on).map fun row => row.map (·.rate)

/-- What the cache answers is the table's rate. -/
def FxRateCache.AgreesWith (cache : FxRateCache) (S : FxStore) : Prop :=
  ∀ currency on row, cache.findLatest currency (toDateOnly on) = some row →
    databaseRate S currency on = .ok (some row.rate)

/-- The snapshot is the table's rate; the base currency, which the table never
quotes, is booked at 1. -/
def SnapshotOf (S : FxStore) (row : TransactionRow) : Prop :=
  if row.currency = "UAH" then row.fxRate = Numeric.one
  else databaseRate S row.currency row.bookedAt = .ok (some row.fxRate)

theorem agrees_empty (S : FxStore) : FxRateCache.AgreesWith [] S := by
  intro currency on row h
  simp [FxRateCache.findLatest] at h

/-- A cache agrees with whatever the table it is loaded from has grown to. -/
theorem agrees_grown {T S : FxStore} (hgrows : T.fxTable.GrowsTo S.fxTable.toFxRows) :
    FxRateCache.AgreesWith (FxRateCache.load (FxRateRepository.findAllEffective T.table)) S := by
  intro currency on row h
  obtain ⟨day, hday⟩ : ∃ day, on / MS_PER_DAY = day := ⟨_, rfl⟩
  by_cases hyear : 1 ≤ (civil day).1 ∧ (civil day).1 ≤ 9999
  · have hservice := @FxTable.GrowsTo.findLatest _ _ hgrows currency on day hday hyear
    rw [FxRatesService.findLatest, show T.fxTable.rows = T.table from rfl,
      show S.fxTable.rows = S.table from rfl, h] at hservice
    have hrow := Except.ok.inj hservice
    rw [databaseRate, findLatest_day hday hyear]
    cases hfirst : firstBy FxRate.latestFirst
        (S.table.filter fun r => r.currency = currency ∧ r.rateDate ≤ day) with
    | none => rw [hfirst] at hrow; simp at hrow
    | some r =>
        rw [hfirst] at hrow
        obtain rfl := Option.some.inj hrow
        rfl
  · have hmiss := @FxTable.misses_far T.fxTable currency on day hday hyear
    rw [show T.fxTable.rows = T.table from rfl, h] at hmiss
    simp at hmiss

theorem agrees_load (S : FxStore) :
    FxRateCache.AgreesWith (FxRateCache.load (FxRateRepository.findAllEffective S.table)) S :=
  agrees_grown (.refl S.fxTable)

/-- With such a cache, what a process resolves is the table's rate. -/
theorem FxRateCache.AgreesWith.snapshot {cache : FxRateCache} {S : FxStore}
    (h : cache.AgreesWith S) {row : TransactionRow}
    (hrate : FxRatesService.getEffectiveRate S.table cache row.currency row.bookedAt
      = .ok row.fxRate) : SnapshotOf S row := by
  rw [FxRatesService.getEffectiveRate] at hrate
  rw [SnapshotOf]
  split
  · next hbase =>
      rw [if_pos hbase] at hrate
      exact (Except.ok.inj hrate).symm
  · next hquoted =>
      rw [if_neg hquoted, FxRatesService.findLatest] at hrate
      cases hcached : cache.findLatest row.currency (toDateOnly row.bookedAt) with
      | some found =>
          rw [hcached] at hrate
          rw [h row.currency row.bookedAt found hcached, ← Except.ok.inj hrate]
      | none =>
          rw [hcached] at hrate
          rw [databaseRate]
          cases hfind : FxRateRepository.findLatest S.table row.currency row.bookedAt with
          | error e => rw [hfind] at hrate; simp [Except.map] at hrate
          | ok found =>
              rw [hfind] at hrate
              cases found with
              | none => simp [Except.map] at hrate
              | some r =>
                  rw [← Except.ok.inj hrate]
                  rfl

/-! ## Whole histories -/

variable {ι : Type}

/-- No upsert changes the table's rate for a currency and day that the cache of
a running process answers. -/
def KeepsCachedRates (w : BookingWorld ι) : BookingEvent ι → Prop
  | .upsert source rows => ∀ store, w.store.upsert source rows = .ok store →
      ∀ i currency on row, (w.caches i).findLatest currency (toDateOnly on) = some row →
        databaseRate store currency on = databaseRate w.store currency on
  | _ => True

structure SnapshotInv (w : BookingWorld ι) : Prop where
  caches : ∀ i, (w.caches i).AgreesWith w.store
  booked : ∀ b ∈ w.booked, SnapshotOf b.2 b.1

theorem SnapshotInv.setCache [DecidableEq ι] {w : BookingWorld ι} (h : SnapshotInv w) (i : ι)
    {cache : FxRateCache} (hcache : cache.AgreesWith w.store) :
    SnapshotInv (w.setCache i cache) := by
  refine ⟨fun j => ?_, h.booked⟩
  by_cases hj : j = i
  · subst hj
    simpa only [BookingWorld.setCache, Function.update_self] using hcache
  · simpa only [BookingWorld.setCache, Function.update_of_ne hj] using h.caches j

theorem SnapshotInv.step [DecidableEq ι] {base : Env} {w w' : BookingWorld ι}
    {e : BookingEvent ι} (h : SnapshotInv w) (hok : KeepsCachedRates w e)
    (hstep : w.Step base e w') : SnapshotInv w' := by
  cases hstep with
  | stop => exact h.setCache _ (agrees_empty _)
  | load => exact h.setCache _ (agrees_load _)
  | @upsert source rows store hstore =>
      refine ⟨fun i currency on row hrow => ?_, h.booked⟩
      show databaseRate store currency on = _
      rw [hok store hstore i currency on row hrow]
      exact h.caches i currency on row hrow
  | @create i input user ids now batch s hrun =>
      refine ⟨h.caches, fun b hb => ?_⟩
      rcases List.mem_append.mp hb with hold | hnew
      · exact h.booked b hold
      · obtain ⟨row, hrow, rfl⟩ := List.mem_map.mp hnew
        exact (h.caches i).snapshot (resolved_rows hrun row hrow)

/-- In a history whose upserts leave alone what a running process has cached,
every row `saveMany` writes carries the table's rate of that moment. -/
theorem snapshots_are_database_rates [DecidableEq ι] {base : Env} {w₀ w : BookingWorld ι}
    (hcaches : ∀ i, w₀.caches i = []) (hbooked : w₀.booked = [])
    (h : Reach (BookingWorld.Step base) KeepsCachedRates w₀ w) :
    ∀ b ∈ w.booked, SnapshotOf b.2 b.1 := by
  have hinit : SnapshotInv w₀ := by
    refine ⟨fun i => ?_, fun b hb => ?_⟩
    · rw [hcaches i]
      exact agrees_empty _
    · rw [hbooked] at hb
      exact absurd hb List.not_mem_nil
  exact (h.invariant hinit fun _ _ _ hi hok hstep => hi.step hok hstep).booked

/-! One process, a batch of one purchase of dollars at noon. -/

def bookingEnv : Env :=
  { sampleEnv with currencies := ["UAH", "USD"], newDate := fun _ => some noon }

def dollarEntry : CreateTransactionsDto :=
  ⟨[⟨Uuid.text 7, .income, 50, "USD", "2026-09-02T12:00:00Z", none, none, none⟩]⟩

def correctedRow : FxRateRow := (quoteOn 2026 9 2 40).row "USD"

def nextDayRow : FxRateRow := (quoteOn 2026 9 3 43).row "USD"

/-- The table as the process has cached it. -/
def cachedStore : FxStore := FxStore.empty.upserted septemberRows

def unbooted : BookingWorld Nat := ⟨dollarDb, .empty, fun _ => [], []⟩

def booted : BookingWorld Nat :=
  { unbooted with store := cachedStore }.setCache 0
    (FxRateCache.load (FxRateRepository.findAllEffective cachedStore.table))

/-- A batch of the process over a later table. -/
def runBatch (S : FxStore) : Finish ApiError (List Transaction) × LedgerSession :=
  (TransactionsService.create ({ booted with store := S }.env bookingEnv 0) dollarEntry
    sampleUser (fun _ => 30) noon).exec booted.ledger none (Session.init [])

def bookedOver (S : FxStore) : BookingWorld Nat :=
  { booted with
    store := S
    ledger := booted.ledger.writeAll (runBatch S).2.writes
    booked := (transactionRows (runBatch S).2.writes).map fun row => (row, S) }

theorem booted_reach : Reach (BookingWorld.Step bookingEnv) KeepsCachedRates unbooted booted := by
  have hupsert : FxStore.empty.upsert NBU_SOURCE septemberRows = .ok cachedStore :=
    FxStore.upsert_upserted (by decide +kernel)
  have h₁ : Reach (BookingWorld.Step bookingEnv) KeepsCachedRates unbooted
      { unbooted with store := cachedStore } := by
    refine Reach.then .refl (.upsert NBU_SOURCE septemberRows) ?_ (.upsert hupsert)
    intro store _ i currency on row hrow
    simp [unbooted, FxRateCache.findLatest] at hrow
  exact h₁.then (.load 0) trivial .load

theorem bookedOver_step (S : FxStore)
    (hrun : (runBatch S).1
      = .committed (dollarEntry.entries.map fun e => TransactionsService.toBatch e 30 noon)) :
    BookingWorld.Step bookingEnv { booted with store := S }
      (.create 0 dollarEntry sampleUser (fun _ => 30) noon) (bookedOver S) :=
  .create (Prod.ext hrun rfl)

/-- NBU's correction of a day the process has cached comes into the table, and
the next batch is booked at the old rate. -/
theorem snapshot_misses_correction : ∃ w : BookingWorld Nat,
    Reachable (BookingWorld.Step bookingEnv) unbooted w ∧ ∃ b ∈ w.booked,
      b.1.currency = "USD" ∧ b.1.fxRate = ⟨42 * 10 ^ 10⟩ ∧
        (databaseRate b.2 "USD" b.1.bookedAt).toOption = some (some ⟨40 * 10 ^ 10⟩) ∧
        ¬ SnapshotOf b.2 b.1 := by
  obtain ⟨S, hS⟩ : ∃ S, S = cachedStore.upserted [correctedRow] := ⟨_, rfl⟩
  have hupsert : cachedStore.upsert NBU_SOURCE [correctedRow] = .ok S := by
    rw [hS]
    exact FxStore.upsert_upserted (by decide +kernel)
  have hreach : Reachable (BookingWorld.Step bookingEnv) unbooted (bookedOver S) := by
    have h₁ : Reachable (BookingWorld.Step bookingEnv) unbooted booted :=
      booted_reach.weaken fun _ _ _ => trivial
    have h₂ := Reachable.then h₁ (.upsert NBU_SOURCE [correctedRow]) (.upsert hupsert)
    refine Reachable.then h₂ _ (bookedOver_step S ?_)
    rw [hS]
    decide +kernel
  have hrow : ∃ b ∈ (bookedOver S).booked, b.1.currency = "USD" ∧
      b.1.fxRate = ⟨42 * 10 ^ 10⟩ ∧
      (databaseRate b.2 "USD" b.1.bookedAt).toOption = some (some ⟨40 * 10 ^ 10⟩) := by
    rw [hS]
    decide +kernel
  obtain ⟨b, hb, hc, hfx, hdb⟩ := hrow
  refine ⟨bookedOver S, hreach, b, hb, hc, hfx, hdb, fun hsnap => ?_⟩
  rw [SnapshotOf, if_neg (by rw [hc]; decide), hc] at hsnap
  rw [hsnap, hfx] at hdb
  exact absurd hdb (by decide)

/-- The next day's rate is none that a process has cached. -/
theorem nextDay_keepsCachedRates {S : FxStore}
    (hupsert : cachedStore.upsert NBU_SOURCE [nextDayRow] = .ok S)
    (hgrows : cachedStore.fxTable.GrowsTo S.fxTable.toFxRows) :
    KeepsCachedRates booted (.upsert NBU_SOURCE [nextDayRow]) := by
  intro store hstore i currency on row hrow
  obtain rfl : store = S := Except.ok.inj (hstore.symm.trans hupsert)
  by_cases hi : i = 0
  · subst hi
    rw [agrees_grown hgrows currency on row hrow]
    exact (agrees_load cachedStore currency on row hrow).symm
  · have hempty : booted.caches i = [] := Function.update_of_ne hi ..
    rw [hempty] at hrow
    simp [FxRateCache.findLatest] at hrow

/-- The batch is booked at the cached rate after the next day's has come in. -/
theorem snapshots_are_database_rates_sample :
    ∃ w : BookingWorld Nat, Reach (BookingWorld.Step bookingEnv) KeepsCachedRates unbooted w ∧
      ∃ b ∈ w.booked, b.1.fxRate = ⟨42 * 10 ^ 10⟩ ∧ b.2.table ≠ cachedStore.table ∧
        SnapshotOf b.2 b.1 := by
  obtain ⟨S, hS⟩ : ∃ S, S = cachedStore.upserted [nextDayRow] := ⟨_, rfl⟩
  have hupsert : cachedStore.upsert NBU_SOURCE [nextDayRow] = .ok S := by
    rw [hS]
    exact FxStore.upsert_upserted (by decide +kernel)
  have hgrows : cachedStore.fxTable.GrowsTo S.fxTable.toFxRows := by
    rw [hS]
    unfold FxTable.GrowsTo
    decide +kernel
  have hreach : Reach (BookingWorld.Step bookingEnv) KeepsCachedRates unbooted
      (bookedOver S) := by
    have h₁ := Reach.then booted_reach (.upsert NBU_SOURCE [nextDayRow])
      (nextDay_keepsCachedRates hupsert hgrows) (.upsert hupsert)
    refine Reach.then h₁ (.create 0 dollarEntry sampleUser (fun _ => 30) noon) trivial
      (bookedOver_step S ?_)
    rw [hS]
    decide +kernel
  have hrow : ∃ b ∈ (bookedOver S).booked, b.1.fxRate = ⟨42 * 10 ^ 10⟩ ∧
      b.2.table ≠ cachedStore.table := by
    rw [hS]
    decide +kernel
  obtain ⟨b, hb, hfx, hnew⟩ := hrow
  exact ⟨bookedOver S, hreach, b, hb, hfx, hnew,
    snapshots_are_database_rates (fun _ => rfl) rfl hreach b hb⟩

end InvestApi.Ref
