import InvestApi.Ledger.RawError

/-!
# The batched write is the per-entry write

`saveMany` looks instruments and rates up once for each distinct symbol and each
distinct currency and day, and joins them back to the entries by key. `entryRow` is
an entry written on its own, with its two lookups and its one row. The rows the batch
inserts are those, in the order of the entries, and it fails on the way to the INSERT
exactly when one of them cannot be made.
-/

namespace InvestApi.Ref

open InvestApi.Pg InvestApi.Isolation

/-- CHECK (symbol ~ '^[A-Z0-9.\-]…$'), from one character to twenty. -/
def symbolFormat (s : String) : Bool :=
  decide (1 ≤ s.length ∧ s.length ≤ 20) &&
    s.toList.all fun c => c.isUpper || c.isDigit || c = '.' || c = '-'

/-- What the schema has made of the instruments. -/
structure InstrumentsHold (env : Env) : Prop where
  format : ∀ x ∈ env.instruments, symbolFormat x.symbol = true
  unique : (env.instruments.map (·.symbol)).Nodup

/-- The instrument an entry names: none where it has no symbol. -/
def instrumentOf (env : Env) : Option String → Option (Option Uuid)
  | none => some none
  | some s => (env.instruments.find? fun x => x.symbol = s).map fun x => some x.id

/-- `getEffectiveRate(currency, new Date(booked_at))`; for UAH the date is not used. -/
def entryRate (env : Env) (tx : Transaction) : Except ApiError Numeric :=
  match env.newDate tx.booked_at with
  | some bookedAt =>
      FxRatesService.getEffectiveRate env.fxRates env.cache tx.currency bookedAt
  | none =>
      if tx.currency = "UAH" then .ok Numeric.one else .error (.error "Invalid time value")

/-- An entry's lookups find what they look for. -/
structure Resolves (env : Env) (tx : Transaction) : Prop where
  instrument : ∀ symbol, tx.instrument_symbol = some symbol →
    ∃ x ∈ env.instruments, x.symbol = symbol
  rate : ∃ rate, entryRate env tx = .ok rate

/-- A row with what the entry's own lookups find. -/
structure OwnLookups (env : Env) (tx : Transaction) (row : TransactionRow) : Prop where
  no_symbol : tx.instrument_symbol = none → row.instrumentId = none
  instrument : ∀ x ∈ env.instruments, tx.instrument_symbol = some x.symbol →
    row.instrumentId = some x.id
  rate : entryRate env tx = .ok row.fxRate

/-- The row of one entry, by its own lookups. -/
def entryRow (env : Env) (now : Instant) (tx : Transaction) :
    Option (Uuid × TransactionRow) := do
  let bookedAt ← env.newDate tx.booked_at
  let accountId ← pgUuidIn tx.account_id
  let instrumentId ← instrumentOf env tx.instrument_symbol
  let fxRate ← (FxRatesService.getEffectiveRate env.fxRates env.cache tx.currency
    bookedAt).toOption
  return (tx.id, {
    accountId := accountId
    instrumentId := instrumentId
    categoryId := none
    currency := tx.currency
    type := tx.type
    status := .posted
    amountCents := tx.amount_cents
    fxRate := fxRate
    quantityMicro := tx.quantity_micro
    unitPrice := none
    bookedAt := bookedAt
    description := tx.description.map (·.utf8)
    createdAt := now })

/-- The table takes the rows: new ids, no two alike, and the constraints. -/
def Takes (env : Env) (d : LedgerDb) (rows : List (Uuid × TransactionRow)) : Prop :=
  (∀ r ∈ rows, d.get (.transaction r.1) = none) ∧ (rows.map (·.1)).Nodup ∧
    ∀ r ∈ rows, transactionConstraints env d r.2 = true

variable {env : Env} {now : Instant} {tx : Transaction} {row : Uuid × TransactionRow}

/-! ## One entry -/

theorem entryRow_iff : entryRow env now tx = some row ↔
    ∃ bookedAt accountId instrumentId fxRate, env.newDate tx.booked_at = some bookedAt ∧
      pgUuidIn tx.account_id = some accountId ∧
      instrumentOf env tx.instrument_symbol = some instrumentId ∧
      FxRatesService.getEffectiveRate env.fxRates env.cache tx.currency bookedAt = .ok fxRate ∧
      row = (tx.id, ⟨accountId, instrumentId, none, tx.currency, tx.type, .posted,
        tx.amount_cents, fxRate, tx.quantity_micro, none, bookedAt,
        tx.description.map (·.utf8), now⟩) := by
  have hok : ∀ (x : Except ApiError Numeric) r, x.toOption = some r ↔ x = .ok r := by
    intro x r
    cases x with
    | error e => simp [Except.toOption]
    | ok r' => simp [Except.toOption]
  simp only [entryRow, Option.bind_eq_bind, Option.bind_eq_some_iff, Option.pure_def,
    Option.some.injEq, hok]
  constructor
  · rintro ⟨t, ht, a, ha, i, hi, r, hr, rfl⟩
    exact ⟨t, a, i, r, ht, ha, hi, hr, rfl⟩
  · rintro ⟨t, a, i, r, ht, ha, hi, hr, rfl⟩
    exact ⟨t, ht, a, ha, i, hi, r, hr, rfl⟩

/-- A symbol is that of an instrument, or there is none. -/
theorem instrumentOf_iff (henv : InstrumentsHold env) {symbol : Option String}
    {instrumentId : Option Uuid} : instrumentOf env symbol = some instrumentId ↔
      (symbol = none ∧ instrumentId = none) ∨ ∃ x ∈ env.instruments,
        symbol = some x.symbol ∧ instrumentId = some x.id := by
  cases symbol with
  | none => simp [instrumentOf, eq_comm]
  | some s =>
      simp only [instrumentOf, Option.map_eq_some_iff, reduceCtorEq, false_and, false_or,
        Option.some.injEq]
      constructor
      · rintro ⟨x, hfind, rfl⟩
        have hx := List.mem_of_find?_eq_some hfind
        have hs : x.symbol = s := by simpa using List.find?_some hfind
        exact ⟨x, hx, hs.symm, rfl⟩
      · rintro ⟨x, hx, rfl, rfl⟩
        refine ⟨x, ?_, rfl⟩
        cases hfind : env.instruments.find? fun y => y.symbol = x.symbol with
        | none => exact absurd (List.find?_eq_none.mp hfind x hx) (by simp)
        | some y =>
            have hy := List.mem_of_find?_eq_some hfind
            have hsymbol : y.symbol = x.symbol := by simpa using List.find?_some hfind
            rw [List.inj_on_of_nodup_map henv.unique hy hx hsymbol]

theorem symbol_ne_empty (henv : InstrumentsHold env) {x : Instrument}
    (hx : x ∈ env.instruments) : x.symbol ≠ "" := by
  intro hempty
  have hformat := henv.format x hx
  rw [hempty] at hformat
  exact absurd hformat (by decide)

theorem symbol_hasNul (henv : InstrumentsHold env) {x : Instrument}
    (hx : x ∈ env.instruments) : hasNul x.symbol = false := by
  have hformat := henv.format x hx
  rw [symbolFormat, Bool.and_eq_true, List.all_eq_true] at hformat
  by_contra hnul
  have hmem : '\x00' ∈ x.symbol.toList := by simpa [hasNul] using hnul
  exact absurd (hformat.2 _ hmem) (by decide)

/-- The row `saveMany` maps an entry to is the entry's own. -/
theorem toRow_entryRow (henv : InstrumentsHold env) {rates : List (String × Numeric)}
    {a : Uuid} {t : Instant} {i : Option Uuid} {rate : Numeric}
    (hi : instrumentOf env tx.instrument_symbol = some i)
    (hlookup : rates.lookup (fxRateKey tx.currency t) = some rate) :
    TransactionsRepository.toRow env rates tx a t now
      = ⟨a, i, none, tx.currency, tx.type, .posted, tx.amount_cents, rate, tx.quantity_micro,
        none, t, tx.description.map (·.utf8), now⟩ := by
  have hinstrument : (tx.instrument_symbol.bind fun s => if s.isEmpty then none
      else (env.instruments.find? fun x => x.symbol = s).map (·.id)) = i := by
    cases hsymbol : tx.instrument_symbol with
    | none =>
        rw [hsymbol] at hi
        exact Option.some.inj hi
    | some s =>
        rw [hsymbol] at hi
        obtain ⟨x, hfind, rfl⟩ := Option.map_eq_some_iff.mp hi
        have hs : x.symbol = s := by simpa using List.find?_some hfind
        have hne : s.isEmpty = false := by
          have hne := symbol_ne_empty henv (List.mem_of_find?_eq_some hfind)
          rw [hs] at hne
          simpa using hne
        rw [Option.bind_some, hne, hfind]
        rfl
  rw [TransactionsRepository.toRow, hinstrument, hlookup]
  rfl

/-! ## The rows of a batch -/

/-- The rates of a batch, as the entries look them up in the map. -/
def Joined (env : Env) (rates : List (String × Numeric)) (tx : Transaction) : Prop :=
  ∀ t, env.newDate tx.booked_at = some t → ∃ rate,
    rates.lookup (fxRateKey tx.currency t) = some rate ∧
      FxRatesService.getEffectiveRate env.fxRates env.cache tx.currency t = .ok rate

/-- The batch's rows are its entries' own, one each and in order. -/
theorem batchRows_entryRow (henv : InstrumentsHold env) {rates : List (String × Numeric)}
    {transactions : List Transaction} :
    ∀ {dates : List Instant} {accountIds : List Uuid},
      List.Forall₂ (fun tx t => dateIn env (Transaction.booked_at tx) = .ok t)
        transactions dates →
      List.Forall₂ (fun tx a => uuidIn (Transaction.account_id tx) = .ok a)
        transactions accountIds →
      (∀ tx ∈ transactions, Joined env rates tx) →
      (∀ tx ∈ transactions, (instrumentOf env tx.instrument_symbol).isSome = true) →
      ∃ rows, TransactionsRepository.batchRows env rates now
          (transactions.zip (accountIds.zip dates)) = keyed rows ∧
        List.Forall₂ (fun tx row => entryRow env now tx = some row) transactions rows := by
  induction transactions with
  | nil =>
      intro dates accountIds _ _ _ _
      exact ⟨[], rfl, .nil⟩
  | cons tx transactions ih =>
      intro dates accountIds hdates hids hjoined hnamed
      cases hdates with
      | @cons _ t _ dates hdate hdates =>
          cases hids with
          | @cons _ a _ accountIds hid hids =>
              obtain ⟨rows, hrows, hall⟩ := ih hdates hids
                (fun tx' h => hjoined tx' (List.mem_cons_of_mem _ h))
                fun tx' h => hnamed tx' (List.mem_cons_of_mem _ h)
              have hdate' := dateIn_eq_ok.mp hdate
              obtain ⟨rate, hlookup, hrate⟩ := hjoined tx List.mem_cons_self t hdate'
              obtain ⟨i, hi⟩ := Option.isSome_iff_exists.mp (hnamed tx List.mem_cons_self)
              have hown : entryRow env now tx = some (tx.id,
                  TransactionsRepository.toRow env rates tx a t now) :=
                entryRow_iff.mpr ⟨t, a, i, rate, hdate', uuidIn_eq_ok.mp hid, hi, hrate,
                  by rw [toRow_entryRow henv hi hlookup]⟩
              refine ⟨_ :: rows, ?_, .cons hown hall⟩
              rw [TransactionsRepository.batchRows] at hrows ⊢
              rw [List.zip_cons_cons, List.zip_cons_cons, List.map_cons, hrows]
              rfl

theorem unknownSymbols_nil_iff {transactions : List Transaction} :
    TransactionsRepository.unknownSymbols env transactions = [] ↔
      ∀ tx ∈ transactions, (instrumentOf env tx.instrument_symbol).isSome = true := by
  rw [TransactionsRepository.unknownSymbols, List.filter_eq_nil_iff]
  constructor
  · intro h tx htx
    cases hsymbol : tx.instrument_symbol with
    | none => rfl
    | some s =>
        have hs := h s (List.mem_eraseDups.mpr (List.mem_filterMap.mpr ⟨tx, htx, hsymbol⟩))
        have hfound : ∃ x ∈ env.instruments, x.symbol = s := by simpa using hs
        obtain ⟨x, hx, hxs⟩ := hfound
        rw [instrumentOf, Option.isSome_map, List.find?_isSome]
        exact ⟨x, hx, by simpa using hxs⟩
  · intro h s hs
    obtain ⟨tx, htx, hsymbol⟩ := List.mem_filterMap.mp (List.mem_eraseDups.mp hs)
    have hsome := h tx htx
    rw [hsymbol, instrumentOf, Option.isSome_map, List.find?_isSome] at hsome
    obtain ⟨x, hx, hxs⟩ := hsome
    have hany : (env.instruments.any fun y => y.symbol = s) = true :=
      List.any_eq_true.mpr ⟨x, hx, hxs⟩
    rw [hany]
    decide

/-- Where the batch's rates are found, every entry finds its own in the map. -/
theorem joined_of_rates {transactions : List Transaction} {dates : List Instant}
    {rates : List (String × Numeric)}
    (hdates : List.Forall₂ (fun tx t => dateIn env (Transaction.booked_at tx) = .ok t)
      transactions dates)
    (hrates : FxRatesService.getEffectiveRates env.fxRates env.cache
      ((transactions.map (·.currency)).zip dates) = .ok rates) :
    ∀ tx ∈ transactions, Joined env rates tx := by
  intro tx htx t ht
  obtain ⟨t', hpair, hdate⟩ :=
    (mem_zip_of_forall₂ (fun tx : Transaction => tx.currency) hdates).2 tx htx
  rw [dateIn_eq_ok, ht] at hdate
  obtain rfl := Option.some.inj hdate
  exact getEffectiveRates_lookup hrates hpair

/-- The INSERT gets the entries' own rows, and gets none where one of them cannot be
made. -/
theorem insertedRows_iff (henv : InstrumentsHold env) {transactions : List Transaction}
    {krows : List (KeyedRow LedgerRow)} : insertedRows env transactions now = .ok krows ↔
      ∃ rows, krows = keyed rows ∧
        List.Forall₂ (fun tx row => entryRow env now tx = some row) transactions rows := by
  constructor
  · intro h
    obtain ⟨hunknown, hresolved⟩ := resolved_of_inserted h
    have hnamed := unknownSymbols_nil_iff.mp hunknown
    obtain ⟨dates, rates, accountIds, hdates, hrates, hids, rfl⟩ := resolvedRows_ok.mp hresolved
    have hdates' := mapM_ok hdates
    exact batchRows_entryRow henv hdates' (mapM_ok hids) (joined_of_rates hdates' hrates) hnamed
  · intro h
    obtain ⟨rows, rfl, hrows⟩ := h
    have hown := (mem_of_forall₂ hrows).1
    have hnamed : ∀ tx ∈ transactions, (instrumentOf env tx.instrument_symbol).isSome = true := by
      intro tx htx
      obtain ⟨row, -, hrow⟩ := hown tx htx
      obtain ⟨_, _, i, _, _, _, hi, -⟩ := entryRow_iff.mp hrow
      rw [hi]
      rfl
    have hnul : (transactions.filterMap (·.instrument_symbol)).any hasNul = false := by
      rw [List.any_eq_false]
      intro s hs
      obtain ⟨tx, htx, hsymbol⟩ := List.mem_filterMap.mp hs
      obtain ⟨i, hi⟩ := Option.isSome_iff_exists.mp (hnamed tx htx)
      rcases (instrumentOf_iff henv).mp hi with ⟨hnone, -⟩ | ⟨x, hx, hxs, -⟩
      · rw [hsymbol] at hnone
        cases hnone
      · obtain rfl := Option.some.inj (hsymbol.symm.trans hxs)
        simpa using symbol_hasNul henv hx
    obtain ⟨dates, hdates⟩ := @exists_mapM_ok _ _ _
      (fun tx => dateIn env (Transaction.booked_at tx)) transactions fun tx htx => by
        obtain ⟨row, -, hrow⟩ := hown tx htx
        obtain ⟨t, _, _, _, ht, -⟩ := entryRow_iff.mp hrow
        exact ⟨t, dateIn_eq_ok.mpr ht⟩
    obtain ⟨accountIds, hids⟩ := @exists_mapM_ok _ _ _
      (fun tx => uuidIn (Transaction.account_id tx)) transactions fun tx htx => by
        obtain ⟨row, -, hrow⟩ := hown tx htx
        obtain ⟨_, a, _, _, _, ha, -⟩ := entryRow_iff.mp hrow
        exact ⟨a, uuidIn_eq_ok.mpr ha⟩
    have hdates' := mapM_ok hdates
    obtain ⟨rates, hrates⟩ := @getEffectiveRates_ok env.fxRates env.cache
      ((transactions.map (·.currency)).zip dates) fun p hp => by
        obtain ⟨tx, htx, hcurrency, hdate⟩ :=
          (mem_zip_of_forall₂ (fun tx : Transaction => tx.currency) hdates').1 p hp
        obtain ⟨row, -, hrow⟩ := hown tx htx
        obtain ⟨t, _, _, rate, ht, _, _, hrate, -⟩ := entryRow_iff.mp hrow
        rw [dateIn_eq_ok, ht] at hdate
        obtain rfl := Option.some.inj hdate
        exact ⟨rate, by rw [← hcurrency]; exact hrate⟩
    obtain ⟨rows', hbatch, hrows'⟩ := batchRows_entryRow henv hdates' (mapM_ok hids)
      (joined_of_rates hdates' hrates) hnamed
    rw [insertedRows, hnul, if_neg (by simp), if_neg (not_not.mpr (unknownSymbols_nil_iff.mpr
      hnamed)), forall₂_unique hrows hrows', ← hbatch]
    exact resolvedRows_ok.mpr ⟨dates, rates, accountIds, hdates, hrates, hids, rfl⟩

/-! ## The statement as a whole -/

variable {d : LedgerDb} {s : LedgerSession}

theorem nodup_keyed {rows : List (Uuid × TransactionRow)} :
    ((keyed rows).map (·.1)).Nodup ↔ (rows.map (·.1)).Nodup := by
  have hkeys : (keyed rows).map (·.1) = (rows.map (·.1)).map LedgerKey.transaction := by
    rw [map_fst_keyed, List.map_map]
    rfl
  rw [hkeys]
  exact List.nodup_map_iff fun a b he => LedgerKey.transaction.inj he

theorem canInsert_keyed {rows : List (Uuid × TransactionRow)} :
    Prog.canInsert d (keyed rows) (rowsFit env (keyed rows)) = true ↔ Takes env d rows := by
  rw [Prog.canInsert, Takes, Bool.and_eq_true, Bool.and_eq_true, decide_eq_true_eq, nodup_keyed,
    and_assoc]
  simp only [keyed, List.all_map, rowsFit, List.all_eq_true, Function.comp_apply,
    Option.isNone_iff_eq_none]

/-- What the batched write does, and what `entryRow` does for each entry. -/
theorem exec_saveMany_iff (henv : InstrumentsHold env) {transactions : List Transaction}
    {s' : LedgerSession} :
    (TransactionsRepository.saveMany env transactions now).exec d none s = (.committed (), s') ↔
      ∃ rows, List.Forall₂ (fun tx row => entryRow env now tx = some row) transactions rows ∧
        Takes env (s.view d) rows ∧ s' = s.putRows (keyed rows) := by
  by_cases hne : transactions = []
  · subst hne
    have hrun : (TransactionsRepository.saveMany env [] now).exec d none s
        = (.committed (), s) := rfl
    rw [hrun]
    constructor
    · intro h
      obtain ⟨-, rfl⟩ := Prod.mk.inj h
      exact ⟨[], .nil, ⟨by simp, List.nodup_nil, by simp⟩, rfl⟩
    · intro h
      obtain ⟨rows, hrows, -, rfl⟩ := h
      cases hrows
      rfl
  · have hrun := @exec_saveMany env d s Unit transactions hne now .ret
    rw [Prog.bind_ret] at hrun
    rw [hrun]
    cases hinserted : insertedRows env transactions now with
    | error e =>
        refine iff_of_false (by simp) ?_
        rintro ⟨rows, hrows, -⟩
        have hok := (insertedRows_iff henv).mpr ⟨rows, rfl, hrows⟩
        rw [hinserted] at hok
        cases hok
    | ok krows =>
        obtain ⟨rows, rfl, hrows⟩ := (insertedRows_iff henv).mp hinserted
        dsimp only
        by_cases htakes : Takes env (s.view d) rows
        · rw [if_pos (canInsert_keyed.mpr htakes)]
          show (Finish.committed (), s.putRows (keyed rows)) = _ ↔ _
          constructor
          · intro h
            obtain ⟨-, rfl⟩ := Prod.mk.inj h
            exact ⟨rows, hrows, htakes, rfl⟩
          · intro h
            obtain ⟨rows', hrows', -, rfl⟩ := h
            rw [forall₂_unique hrows hrows']
        · rw [if_neg fun h => htakes (canInsert_keyed.mp h)]
          refine iff_of_false (by simp) ?_
          rintro ⟨rows', hrows', htakes', -⟩
          rw [forall₂_unique hrows' hrows] at htakes'
          exact htakes htakes'

theorem resolves_of_entryRow (henv : InstrumentsHold env)
    (h : entryRow env now tx = some row) :
    row.1 = tx.id ∧ Resolves env tx ∧ OwnLookups env tx row.2 := by
  obtain ⟨t, a, i, rate, ht, -, hi, hrate, rfl⟩ := entryRow_iff.mp h
  have hown : entryRate env tx = .ok rate := by
    rw [entryRate, ht]
    exact hrate
  have hsymbol := (instrumentOf_iff henv).mp hi
  refine ⟨rfl, ⟨fun symbol hs => ?_, rate, hown⟩, fun hs => ?_, fun x hx hs => ?_, hown⟩
  · rcases hsymbol with ⟨hnone, -⟩ | ⟨x, hx, hxs, -⟩
    · rw [hs] at hnone
      cases hnone
    · exact ⟨x, hx, Option.some.inj (hxs.symm.trans hs)⟩
  · rcases hsymbol with ⟨-, hnone⟩ | ⟨x, hx, hxs, -⟩
    · exact hnone
    · rw [hs] at hxs
      cases hxs
  · rcases hsymbol with ⟨hnone, -⟩ | ⟨y, hy, hys, hid⟩
    · rw [hs] at hnone
      cases hnone
    · have hxy : y.symbol = x.symbol := Option.some.inj (hys.symm.trans hs)
      rw [← List.inj_on_of_nodup_map henv.unique hy hx hxy]
      exact hid

/-- `saveMany` goes through exactly when every entry's symbol names an instrument, every
entry's rate is found, and the table takes the entries' own rows; and then it has
inserted these, in the order of the entries. -/
theorem saveMany_is_per_entry {env : Env} (henv : InstrumentsHold env)
    (transactions : List Transaction) (now : Instant) (d : LedgerDb) (s : LedgerSession) :
    ((∃ s', (TransactionsRepository.saveMany env transactions now).exec d none s
        = (.committed (), s')) ↔
      (∀ tx ∈ transactions, Resolves env tx) ∧
        ∃ rows, List.Forall₂ (fun tx row => entryRow env now tx = some row) transactions rows ∧
          Takes env (s.view d) rows) ∧
    ∀ s', (TransactionsRepository.saveMany env transactions now).exec d none s
        = (.committed (), s') →
      ∃ rows, List.Forall₂ (fun tx row => row.1 = tx.id ∧ entryRow env now tx = some row ∧
          OwnLookups env tx row.2) transactions rows ∧ s' = s.putRows (keyed rows) := by
  constructor
  · constructor
    · intro h
      obtain ⟨s', hrun⟩ := h
      obtain ⟨rows, hrows, htakes, -⟩ := (exec_saveMany_iff henv).mp hrun
      refine ⟨fun tx htx => ?_, rows, hrows, htakes⟩
      obtain ⟨row, -, hrow⟩ := (mem_of_forall₂ hrows).1 tx htx
      exact (resolves_of_entryRow henv hrow).2.1
    · intro h
      obtain ⟨-, rows, hrows, htakes⟩ := h
      exact ⟨_, (exec_saveMany_iff henv).mpr ⟨rows, hrows, htakes, rfl⟩⟩
  · intro s' hrun
    obtain ⟨rows, hrows, -, rfl⟩ := (exec_saveMany_iff henv).mp hrun
    refine ⟨rows, hrows.imp fun tx row hrow => ?_, rfl⟩
    obtain ⟨hid, -, hown⟩ := resolves_of_entryRow henv hrow
    exact ⟨hid, hrow, hown⟩

/-! Two purchases of dollars an hour to either side of midnight. -/

def midnightEnv : Env :=
  { quotedEnv sampleRates with
    newDate := fun text =>
      some (if text = "2026-09-01T23:00:00Z" then noon - 46800000 else noon - 39600000) }

def dollars (id : Uuid) (booked_at : String) : Transaction where
  id := id
  account_id := Uuid.text 7
  type := .buy
  amount_cents := 100
  currency := "USD"
  booked_at := booked_at
  description := none
  instrument_symbol := some "OVDP"
  quantity_micro := some 1000000
  created_at := toISOString noon

def midnightBatch : List Transaction :=
  [dollars 20 "2026-09-01T23:00:00Z", dollars 21 "2026-09-02T01:00:00Z"]

theorem midnightEnv_holds : InstrumentsHold midnightEnv where
  format := by decide +kernel
  unique := by decide +kernel

theorem saveMany_is_per_entry_midnight : ∃ rows,
    List.Forall₂ (fun tx row => row.1 = tx.id ∧ entryRow midnightEnv noon tx = some row ∧
      OwnLookups midnightEnv tx row.2) midnightBatch rows ∧
    rows.map (·.2.fxRate) = [⟨410⟩, ⟨420⟩] := by
  have hcommit : ((TransactionsRepository.saveMany midnightEnv midnightBatch noon).exec dollarDb
      none (Session.init [])).1 = .committed () := by
    decide +kernel
  obtain ⟨rows, hrows, -⟩ := (saveMany_is_per_entry midnightEnv_holds midnightBatch noon dollarDb
    (Session.init [])).2 _ (Prod.ext hcommit rfl)
  refine ⟨rows, hrows, ?_⟩
  have hboth : midnightBatch.map (fun tx => (entryRow midnightEnv noon tx).map (·.2.fxRate))
      = [some ⟨410⟩, some ⟨420⟩] := by
    decide +kernel
  cases hrows with
  | cons h₁ hrest =>
      cases hrest with
      | cons h₂ hnil =>
          cases hnil
          simp only [midnightBatch, List.map_cons, List.map_nil, h₁.2.1, h₂.2.1, Option.map_some,
            List.cons.injEq, Option.some.injEq, and_true] at hboth
          rw [List.map_cons, List.map_cons, List.map_nil, hboth.1, hboth.2]

/-- An expense with a quantity, of nothing: there is no symbol to look up, UAH needs no
rate, `create` lets it through, and the table does not take the row. -/
def nothing : Transaction :=
  { dollars 20 "2026-09-02T12:00:00Z" with
    type := .expense
    currency := "UAH"
    instrument_symbol := none
    quantity_micro := some 0 }

theorem resolved_entry_not_taken :
    ¬∀ transactions, (∃ s', (TransactionsRepository.saveMany sampleEnv transactions noon).exec
        sampleDb none (Session.init []) = (.committed (), s')) ↔
      ∀ tx ∈ transactions, Resolves sampleEnv tx := by
  intro hclaim
  have hresolves : ∀ tx ∈ [nothing], Resolves sampleEnv tx := by
    intro tx htx
    obtain rfl := List.mem_singleton.mp htx
    have hrate : entryRate sampleEnv nothing = .ok Numeric.one := by decide +kernel
    exact ⟨fun symbol hs => absurd hs (by simp [nothing]), Numeric.one, hrate⟩
  obtain ⟨s', hrun⟩ := (hclaim [nothing]).mpr hresolves
  have habort : ((TransactionsRepository.saveMany sampleEnv [nothing] noon).exec sampleDb none
      (Session.init [])).1 = .aborted := by
    decide +kernel
  rw [hrun] at habort
  cases habort

end InvestApi.Ref
