import InvestApi.Ledger.Doubles
import InvestApi.Ledger.Inserted

/-!
# Batches that end in a raw error

`create` refuses a batch with a problem of its own, or the database refuses it.
The INSERT goes through when every row meets the constraints, and each constraint
is traced back here to the field of the entry it is about. Some are met whatever
the client sends: the CHECK that relates type and instrument, which the service
repeats, and the foreign keys. The others an entry has to meet on its own, and
what it has to meet is `Storable`.
-/

namespace InvestApi.Ref

open InvestApi.Pg InvestApi.Isolation InvestApi.Codec

/-- What the schema has made of the accounts. -/
def SchemaHolds (env : Env) (d : LedgerDb) : Prop :=
  ∀ u row, d.get (.account u) = some row → accountConstraints env row = true

/-- randomUUID has drawn new ids. -/
structure FreshIds (d : LedgerDb) (input : CreateTransactionsDto) (ids : Nat → Uuid) : Prop where
  new : ∀ e ∈ drawn input ids, d.get (.transaction e.2) = none
  apart : ((drawn input ids).map (·.2)).Nodup

/-- The symbol of an entry, if it has one, is that of an instrument. -/
def SymbolKnown (env : Env) (entry : TransactionEntryDto) : Prop :=
  ∀ s, entry.instrument_symbol = some s →
    hasNul s = false ∧ ∃ x ∈ env.instruments, x.symbol = s

/-- What the columns and CHECKs of `transactions` ask of an entry and its rate,
beyond what the checks before the INSERT have asked. -/
structure Storable (entry : TransactionEntryDto) (rate : Numeric) : Prop where
  description : ∀ s, entry.description = some s → s.utf8.length ≤ 500 ∧ hasNul s.utf8 = false
  quantity : ∀ q, entry.quantity_micro = some q → 0 < q ∧ q < 2 ^ 63
  amount : entry.amount_cents < 2 ^ 63
  rate_pos : 0 < rate.scaled
  rate_fits : rate.scaled < 10 ^ 20
  base : entry.currency = "UAH" ↔ rate = Numeric.one

variable {env : Env} {d : LedgerDb} {user : AuthUser} {entry : TransactionEntryDto}

/-! ## Constraint by constraint -/

/-- The row has an instrument exactly when the entry has a symbol, and it is one
there is. -/
theorem instrument_of_known (hknown : SymbolKnown env entry) {id : Uuid} {now : Instant}
    {rates : List (String × Numeric)} {a : Uuid} {t : Instant} {row : TransactionRow}
    (hrow : row = TransactionsRepository.toRow env rates
      (TransactionsService.toBatch entry id now) a t now) :
    row.instrumentId.isSome = TransactionsService.hasSymbol entry ∧
      row.instrumentId.all (fun i => env.instruments.any (·.id = i)) = true := by
  subst hrow
  simp only [TransactionsRepository.toRow, TransactionsService.toBatch,
    TransactionsService.hasSymbol]
  cases hsymbol : entry.instrument_symbol with
  | none => simp
  | some s =>
      by_cases hempty : s.isEmpty = true
      · have hnil : s = "" := by simpa using hempty
        simp [hnil]
      · obtain ⟨_, x, hx, hxs⟩ := hknown s hsymbol
        cases hfind : env.instruments.find? fun x => x.symbol = s with
        | none =>
            have hnone := List.find?_eq_none.mp hfind x hx
            simp [hxs] at hnone
        | some y =>
            have hy := List.mem_of_find?_eq_some hfind
            simp only [Option.bind_some, hempty, Bool.false_eq_true, if_false, hfind,
              Option.map_some, Option.isSome_some, Option.any_some, Option.all_some,
              List.any_eq_true, decide_eq_true_eq]
            exact ⟨by simp, y, hy, rfl⟩

theorem toRow_constraints_iff (hschema : SchemaHolds env d) (hpass : Passes d user entry)
    (hknown : SymbolKnown env entry) (hamount : 0 ≤ entry.amount_cents) {id : Uuid}
    {now : Instant} {rates : List (String × Numeric)} {a : Uuid} {t : Instant} {rate : Numeric}
    (ha : pgUuidIn entry.account_id = some a)
    (hrate : rates.lookup (fxRateKey entry.currency t) = some rate) :
    transactionConstraints env d (TransactionsRepository.toRow env rates
        (TransactionsService.toBatch entry id now) a t now) = true ↔ Storable entry rate := by
  obtain ⟨b, row, hb, hrow, -, hcurrency, hsymbol⟩ := hpass
  rw [← hb, pgUuidIn_text] at ha
  obtain rfl := Option.some.inj ha
  obtain ⟨hsome, hthere⟩ := @instrument_of_known env entry hknown id now rates b t _ rfl
  have hquoted : entry.currency ∈ env.currencies := by
    have haccount := hschema b row hrow
    simp only [accountConstraints, Bool.and_eq_true, decide_eq_true_eq] at haccount
    exact hcurrency ▸ haccount.2
  have htype : (entry.type == .buy || entry.type == .sell)
      = TransactionsService.hasSymbol entry := hsymbol
  have hfx : (TransactionsRepository.toRow env rates (TransactionsService.toBatch entry id now)
      b t now).fxRate = rate := by
    show (rates.lookup (fxRateKey entry.currency t)).getD Numeric.one = rate
    rw [hrate]
    rfl
  have hcolumns := @transactionConstraints_iff env d (TransactionsRepository.toRow env rates
    (TransactionsService.toBatch entry id now) b t now)
  rw [hfx, hsome] at hcolumns
  rw [hcolumns]
  constructor
  · rintro ⟨hdescription, -, hquantity, hpos, hfits, hin, hbase, -⟩
    refine ⟨fun s hs => hdescription s.utf8 ?_, hquantity, hin.2, hpos, hfits, hbase⟩
    simp [TransactionsRepository.toRow, TransactionsService.toBatch, hs]
  · intro h
    have hdescription : ∀ s, (TransactionsRepository.toRow env rates
        (TransactionsService.toBatch entry id now) b t now).description = some s →
        s.length ≤ 500 ∧ hasNul s = false := by
      intro s hs
      obtain ⟨text, htext, rfl⟩ := Option.map_eq_some_iff.mp hs
      exact h.description text htext
    refine ⟨hdescription, fun p hp => ?_, h.quantity, h.rate_pos, h.rate_fits,
      ⟨hamount, h.amount⟩, h.base, htype, ⟨row, hrow, hcurrency⟩, hthere, fun c hc => ?_, hquoted⟩
    · exact absurd hp (by simp [TransactionsRepository.toRow])
    · exact absurd hc (by simp [TransactionsRepository.toRow])

/-! ## The rows of a batch -/

variable {input : CreateTransactionsDto} {ids : Nat → Uuid} {now : Instant}

/-- The entry's date and rate are found, and it can be stored with them. -/
def Stored (env : Env) (entry : TransactionEntryDto) : Prop :=
  ∃ t rate, env.newDate entry.booked_at = some t ∧
    FxRatesService.getEffectiveRate env.fxRates env.cache entry.currency t = .ok rate ∧
    Storable entry rate

def symbolsOf (input : CreateTransactionsDto) : List String :=
  input.entries.filterMap (·.instrument_symbol)

/-- A symbol no instrument has; none is one Postgres would not take. -/
def UnknownSymbol (env : Env) (input : CreateTransactionsDto) : Prop :=
  (∀ s ∈ symbolsOf input, hasNul s = false) ∧
    ∃ s ∈ symbolsOf input, ∀ x ∈ env.instruments, x.symbol ≠ s

/-- The rates of the batch's currencies and days end in a refusal. -/
def NoRate (env : Env) (input : CreateTransactionsDto) : Prop :=
  ∃ dates e, input.entries.mapM (fun entry => dateIn env entry.booked_at) = .ok dates ∧
    FxRatesService.getEffectiveRates env.fxRates env.cache
      ((input.entries.map (·.currency)).zip dates) = .error e ∧ Refusal e

/-- The refusals of `saveMany`. -/
def RefusedLater (env : Env) (input : CreateTransactionsDto) : Prop :=
  UnknownSymbol env input ∨
    (∀ entry ∈ input.entries, SymbolKnown env entry) ∧ NoRate env input

theorem mem_uniquePairs {pairs : List (String × Instant)} :
    ∀ u ∈ FxRatesService.uniquePairs pairs, u.2 ∈ pairs := by
  induction pairs using List.reverseRecOn with
  | nil => simp [FxRatesService.uniquePairs]
  | append_singleton pairs p ih =>
      intro u hu
      rw [FxRatesService.uniquePairs, List.foldl_append, List.foldl_cons, List.foldl_nil] at hu
      dsimp only at hu
      rw [List.mem_append, List.mem_singleton]
      split at hu
      · obtain ⟨v, hv, rfl⟩ := List.mem_map.mp hu
        split
        · exact Or.inr rfl
        · exact Or.inl (ih v hv)
      · rcases List.mem_append.mp hu with hu | hu
        · exact Or.inl (ih u hu)
        · exact Or.inr (by rw [List.mem_singleton.mp hu])

theorem getEffectiveRates_ok {table : List FxRate} {cache : FxRateCache}
    {pairs : List (String × Instant)}
    (h : ∀ p ∈ pairs, ∃ rate, FxRatesService.getEffectiveRate table cache p.1 p.2 = .ok rate) :
    ∃ rates, FxRatesService.getEffectiveRates table cache pairs = .ok rates := by
  refine exists_mapM_ok fun u hu => ?_
  obtain ⟨rate, hrate⟩ := h u.2 (mem_uniquePairs u hu)
  exact ⟨(u.1, rate), by dsimp only; rw [hrate]; rfl⟩

theorem filterMap_symbols (input : CreateTransactionsDto) (ids : Nat → Uuid) (now : Instant) :
    (drawnBatch input ids now).filterMap (·.instrument_symbol) = symbolsOf input := by
  rw [drawnBatch, List.filterMap_map, symbolsOf, ← map_fst_drawn input ids, List.filterMap_map]
  rfl

theorem unknownSymbols_eq_nil : TransactionsRepository.unknownSymbols env
      (drawnBatch input ids now) = [] ↔
    ∀ s ∈ symbolsOf input, ∃ x ∈ env.instruments, x.symbol = s := by
  rw [TransactionsRepository.unknownSymbols, filterMap_symbols, List.filter_eq_nil_iff]
  refine forall_congr' fun s => ?_
  rw [List.mem_eraseDups]
  simp

theorem mapM_drawn {β : Type} (f : TransactionEntryDto → Except ApiError β)
    (g : Transaction → Except ApiError β)
    (h : ∀ entry id, g (TransactionsService.toBatch entry id now) = f entry) :
    (drawnBatch input ids now).mapM g = input.entries.mapM f := by
  have key : ∀ l : List (TransactionEntryDto × Uuid),
      (l.map fun e => TransactionsService.toBatch e.1 e.2 now).mapM g
        = (l.map (·.1)).mapM f := by
    intro l
    induction l with
    | nil => rfl
    | cons e l ih =>
        rw [List.map_cons, List.map_cons, List.mapM_cons, List.mapM_cons, ih, h]
  rw [drawnBatch, key, map_fst_drawn]

theorem map_currency_drawn : (drawnBatch input ids now).map (·.currency)
    = input.entries.map (·.currency) := by
  rw [drawnBatch, List.map_map, ← map_fst_drawn input ids, List.map_map]
  rfl

/-- The rows of entries, dates and accounts in step. -/
theorem batchRows_drawn {rates : List (String × Numeric)} {P : TransactionEntryDto → Prop} :
    ∀ {es : List (TransactionEntryDto × Uuid)} {dates : List Instant} {accountIds : List Uuid},
      List.Forall₂ (fun e t => env.newDate e.booked_at = some t) (es.map (·.1)) dates →
      List.Forall₂ (fun e a => pgUuidIn e.account_id = some a) (es.map (·.1)) accountIds →
      (∀ e ∈ es, ∀ a t, env.newDate e.1.booked_at = some t →
        pgUuidIn e.1.account_id = some a →
        (transactionConstraints env d (TransactionsRepository.toRow env rates
          (TransactionsService.toBatch e.1 e.2 now) a t now) = true ↔ P e.1)) →
      (TransactionsRepository.batchRows env rates now
          ((es.map fun e => TransactionsService.toBatch e.1 e.2 now).zip
            (accountIds.zip dates))).map (·.1) = es.map (fun e => LedgerKey.transaction e.2) ∧
        (rowsFit env (TransactionsRepository.batchRows env rates now
          ((es.map fun e => TransactionsService.toBatch e.1 e.2 now).zip
            (accountIds.zip dates))) d = true ↔ ∀ e ∈ es, P e.1) := by
  intro es
  induction es with
  | nil =>
      intro dates accountIds hd ha _
      cases hd
      cases ha
      exact ⟨rfl, by simp [TransactionsRepository.batchRows, rowsFit]⟩
  | cons e es ih =>
      intro dates accountIds hd ha hP
      rw [List.map_cons] at hd ha
      cases hd with
      | @cons _ t _ dates hdate hd =>
          cases ha with
          | @cons _ a _ accountIds haccount ha =>
              obtain ⟨hkeys, hfit⟩ := ih hd ha fun x hx => hP x (List.mem_cons_of_mem _ hx)
              rw [TransactionsRepository.batchRows] at hkeys hfit
              simp only [TransactionsRepository.batchRows, List.map_cons, List.zip_cons_cons]
              constructor
              · rw [hkeys]
                rfl
              · rw [rowsFit, List.all_cons, Bool.and_eq_true, List.forall_mem_cons]
                exact and_congr (hP e List.mem_cons_self a t hdate haccount) hfit

theorem dateIn_eq_ok {text : String} {t : Instant} :
    dateIn env text = .ok t ↔ env.newDate text = some t := by
  unfold dateIn
  split
  · next h => simp [h]
  · next t' h => simp [h]

theorem uuidIn_eq_ok {text : String} {a : Uuid} :
    uuidIn text = .ok a ↔ pgUuidIn text = some a := by
  unfold uuidIn
  split
  · next h => simp [h]
  · next u h => simp [h]

theorem symbolKnown_of_mem {s : String} (h : ∀ entry ∈ input.entries, SymbolKnown env entry)
    (hs : s ∈ symbolsOf input) : hasNul s = false ∧ ∃ x ∈ env.instruments, x.symbol = s := by
  obtain ⟨entry, hentry, hsymbol⟩ := List.mem_filterMap.mp hs
  exact h entry hentry s hsymbol

/-- An entry without a date, or a rate that cannot be looked up. -/
theorem not_stored_of_date (hdate : ∃ entry ∈ input.entries, env.newDate entry.booked_at = none) :
    ¬ ∀ entry ∈ input.entries, Stored env entry := by
  intro hall
  obtain ⟨entry, hentry, hnone⟩ := hdate
  obtain ⟨t, rate, ht, -⟩ := hall entry hentry
  rw [hnone] at ht
  simp at ht

theorem rates_of_stored {dates : List Instant}
    (hdates : List.Forall₂ (fun entry t => dateIn env (TransactionEntryDto.booked_at entry) = .ok t)
      input.entries dates) (hall : ∀ entry ∈ input.entries, Stored env entry) :
    ∃ rates, FxRatesService.getEffectiveRates env.fxRates env.cache
      ((input.entries.map (·.currency)).zip dates) = .ok rates := by
  refine getEffectiveRates_ok fun p hp => ?_
  obtain ⟨entry, hentry, hcurrency, hdate⟩ :=
    (mem_zip_of_forall₂ (fun entry : TransactionEntryDto => entry.currency) hdates).1 p hp
  obtain ⟨t, rate, ht, hrate, -⟩ := hall entry hentry
  rw [dateIn_eq_ok, ht] at hdate
  obtain rfl := Option.some.inj hdate
  exact ⟨rate, by rw [← hcurrency]; exact hrate⟩

/-- The rows of a batch with dates and rates. -/
theorem rows_of_rates (hschema : SchemaHolds env d)
    (hpass : ∀ entry ∈ input.entries, Passes d user entry)
    (hknown : ∀ entry ∈ input.entries, SymbolKnown env entry)
    (hamount : ∀ entry ∈ input.entries, 0 ≤ entry.amount_cents) {dates : List Instant}
    (hdates : List.Forall₂ (fun entry t => dateIn env (TransactionEntryDto.booked_at entry) = .ok t)
      input.entries dates) {rates : List (String × Numeric)}
    (hrates : FxRatesService.getEffectiveRates env.fxRates env.cache
      ((input.entries.map (·.currency)).zip dates) = .ok rates) {accountIds : List Uuid}
    (hids : List.Forall₂ (fun entry a => uuidIn (TransactionEntryDto.account_id entry) = .ok a)
      input.entries accountIds) :
    (TransactionsRepository.batchRows env rates now
        ((drawnBatch input ids now).zip (accountIds.zip dates))).map (·.1)
        = (drawn input ids).map (fun e => LedgerKey.transaction e.2) ∧
      (rowsFit env (TransactionsRepository.batchRows env rates now
        ((drawnBatch input ids now).zip (accountIds.zip dates))) d = true ↔
          ∀ entry ∈ input.entries, Stored env entry) := by
  obtain ⟨hkeys, hfit⟩ := @batchRows_drawn env d now rates (Stored env) (drawn input ids) dates
    accountIds (by rw [map_fst_drawn]; exact hdates.imp fun _ _ h => dateIn_eq_ok.mp h)
    (by rw [map_fst_drawn]; exact hids.imp fun _ _ h => uuidIn_eq_ok.mp h) (by
      intro x hx a t hdate haccount
      have hentry := mem_drawn hx
      obtain ⟨t', hpair, hdate'⟩ := (mem_zip_of_forall₂
        (fun entry : TransactionEntryDto => entry.currency) hdates).2 x.1 hentry
      rw [dateIn_eq_ok, hdate] at hdate'
      obtain rfl := Option.some.inj hdate'
      obtain ⟨rate, hlookup, hrate⟩ := getEffectiveRates_lookup hrates hpair
      rw [toRow_constraints_iff hschema (hpass x.1 hentry) (hknown x.1 hentry)
        (hamount x.1 hentry) haccount hlookup]
      constructor
      · intro hstorable
        exact ⟨t, rate, hdate, hrate, hstorable⟩
      · rintro ⟨t'', rate', hdate'', hrate', hstorable⟩
        rw [hdate] at hdate''
        obtain rfl := Option.some.inj hdate''
        rw [hrate] at hrate'
        obtain rfl := Except.ok.inj hrate'
        exact hstorable)
  refine ⟨hkeys, hfit.trans ⟨fun h entry hentry => ?_, fun h x hx => h x.1 (mem_drawn hx)⟩⟩
  rw [← map_fst_drawn input ids] at hentry
  obtain ⟨x, hx, rfl⟩ := List.mem_map.mp hentry
  exact h x hx

/-- What the statements before the INSERT come to, `refused` telling whether it
is a refusal: a throw of either kind, or rows that meet the constraints exactly
when every entry can be stored. -/
inductive Inserts (d : LedgerDb) (env : Env) (input : CreateTransactionsDto) (ids : Nat → Uuid)
    (refused : Prop) : Except ApiError (List (KeyedRow LedgerRow)) → Prop
  | refuses {e} (he : Refusal e) (h : refused) : Inserts d env input ids refused (.error e)
  | fails {e} (he : ¬ Refusal e) (h : ¬ refused)
      (hnot : ¬ ∀ entry ∈ input.entries, SymbolKnown env entry ∧ Stored env entry) :
      Inserts d env input ids refused (.error e)
  | rows {rows} (h : ¬ refused)
      (hkeys : rows.map (·.1) = (drawn input ids).map (fun e => LedgerKey.transaction e.2))
      (hfit : rowsFit env rows d = true ↔
        ∀ entry ∈ input.entries, SymbolKnown env entry ∧ Stored env entry) :
      Inserts d env input ids refused (.ok rows)

theorem inserts_resolved (hschema : SchemaHolds env d)
    (hpass : ∀ entry ∈ input.entries, Passes d user entry)
    (hknown : ∀ entry ∈ input.entries, SymbolKnown env entry)
    (hamount : ∀ entry ∈ input.entries, 0 ≤ entry.amount_cents) :
    Inserts d env input ids (NoRate env input)
      (resolvedRows env (drawnBatch input ids now) now) := by
  have hboth : (∀ entry ∈ input.entries, SymbolKnown env entry ∧ Stored env entry) ↔
      ∀ entry ∈ input.entries, Stored env entry :=
    ⟨fun h entry he => (h entry he).2, fun h entry he => ⟨hknown entry he, h entry he⟩⟩
  rw [resolvedRows, mapM_drawn (fun entry => dateIn env entry.booked_at)
    (fun tx => dateIn env tx.booked_at) fun _ _ => rfl,
    mapM_drawn (fun entry => uuidIn entry.account_id) (fun tx => uuidIn tx.account_id)
    fun _ _ => rfl, map_currency_drawn]
  cases hdates : input.entries.mapM fun entry => dateIn env entry.booked_at with
  | error e =>
      obtain ⟨entry, hentry, hdate⟩ := mapM_error hdates
      unfold dateIn at hdate
      split at hdate
      · next hnone =>
          obtain rfl := Except.error.inj hdate
          refine .fails id ?_ fun hall => not_stored_of_date ⟨entry, hentry, hnone⟩ (hboth.mp hall)
          rintro ⟨dates, e, hok, -⟩
          rw [hdates] at hok
          simp at hok
      · simp at hdate
  | ok dates =>
      have hd := mapM_ok hdates
      -- The dates the rates are looked up for are these.
      have hrefused : ∀ e, FxRatesService.getEffectiveRates env.fxRates env.cache
          ((input.entries.map (·.currency)).zip dates) = .error e →
          (NoRate env input ↔ Refusal e) := by
        intro e he
        constructor
        · rintro ⟨dates', e', hok, herr, hrefusal⟩
          rw [hdates] at hok
          obtain rfl := Except.ok.inj hok
          rw [he] at herr
          obtain rfl := Except.error.inj herr
          exact hrefusal
        · exact fun hrefusal => ⟨dates, e, hdates, he, hrefusal⟩
      cases hrates : FxRatesService.getEffectiveRates env.fxRates env.cache
          ((input.entries.map (·.currency)).zip dates) with
      | error e =>
          show Inserts d env input ids (NoRate env input) (do
            let rates ← FxRatesService.getEffectiveRates env.fxRates env.cache
              ((input.entries.map (·.currency)).zip dates)
            _)
          rw [hrates]
          by_cases hrefusal : Refusal e
          · exact .refuses hrefusal ((hrefused e hrates).mpr hrefusal)
          · refine .fails hrefusal (mt (hrefused e hrates).mp hrefusal) fun hall => ?_
            obtain ⟨rates, hok⟩ := rates_of_stored hd (hboth.mp hall)
            rw [hrates] at hok
            simp at hok
      | ok rates =>
          obtain ⟨accountIds, hids⟩ := @exists_mapM_ok _ _ _
            (fun entry : TransactionEntryDto => uuidIn entry.account_id) input.entries (by
              intro entry hentry
              obtain ⟨a, -, ha, -⟩ := hpass entry hentry
              exact ⟨a, uuidIn_eq_ok.mpr (by rw [← ha, pgUuidIn_text])⟩)
          show Inserts d env input ids (NoRate env input) (do
            let rates ← FxRatesService.getEffectiveRates env.fxRates env.cache
              ((input.entries.map (·.currency)).zip dates)
            let accountIds ← input.entries.mapM fun entry => uuidIn entry.account_id
            return TransactionsRepository.batchRows env rates now
              ((drawnBatch input ids now).zip (accountIds.zip dates)))
          rw [hrates, hids]
          obtain ⟨hkeys, hfit⟩ :=
            rows_of_rates hschema hpass hknown hamount hd hrates (mapM_ok hids)
          refine .rows ?_ hkeys (hfit.trans hboth.symm)
          rintro ⟨dates', e', hok, herr, -⟩
          rw [hdates] at hok
          obtain rfl := Except.ok.inj hok
          rw [hrates] at herr
          simp at herr

theorem inserts_rows (hschema : SchemaHolds env d)
    (hpass : ∀ entry ∈ input.entries, Passes d user entry)
    (hamount : ∀ entry ∈ input.entries, 0 ≤ entry.amount_cents) :
    Inserts d env input ids (RefusedLater env input)
      (insertedRows env (drawnBatch input ids now) now) := by
  rw [insertedRows, filterMap_symbols]
  split
  · next hnul =>
      rw [List.any_eq_true] at hnul
      obtain ⟨s, hs, hsnul⟩ := hnul
      have hunknown : ¬ ∀ entry ∈ input.entries, SymbolKnown env entry := by
        intro hknown
        rw [(symbolKnown_of_mem hknown hs).1] at hsnul
        simp at hsnul
      refine .fails id ?_ fun hall => hunknown fun entry he => (hall entry he).1
      rintro (⟨hfree, -⟩ | ⟨hknown, -⟩)
      · rw [hfree s hs] at hsnul
        simp at hsnul
      · exact hunknown hknown
  next hnul =>
  have hfree : ∀ s ∈ symbolsOf input, hasNul s = false := by
    intro s hs
    by_contra hsnul
    exact hnul (List.any_eq_true.mpr ⟨s, hs, by simpa using hsnul⟩)
  split
  · next hsymbols =>
      rw [ne_eq, unknownSymbols_eq_nil] at hsymbols
      simp only [not_forall, not_exists, not_and] at hsymbols
      obtain ⟨s, hs, hnone⟩ := hsymbols
      exact .refuses (Or.inr (Or.inr rfl)) (Or.inl ⟨hfree, s, hs, hnone⟩)
  next hsymbols =>
  rw [not_not, unknownSymbols_eq_nil] at hsymbols
  have hknown : ∀ entry ∈ input.entries, SymbolKnown env entry := by
    intro entry hentry s hs
    have hmem : s ∈ symbolsOf input := List.mem_filterMap.mpr ⟨entry, hentry, hs⟩
    exact ⟨hfree s hmem, hsymbols s hmem⟩
  have hlater : RefusedLater env input ↔ NoRate env input := by
    constructor
    · rintro (⟨-, s, hs, hnone⟩ | ⟨-, hrate⟩)
      · obtain ⟨x, hx, hxs⟩ := hsymbols s hs
        exact absurd hxs (hnone x hx)
      · exact hrate
    · exact fun hrate => Or.inr ⟨hknown, hrate⟩
  rw [hlater]
  exact inserts_resolved hschema hpass hknown hamount

/-! ## The balances -/

namespace Doubles

/-- What the entries on the account come to, rounded after each. -/
def entrySum (a : Uuid) (entries : List TransactionEntryDto) : Int :=
  ((entries.filter (·.account_id = a.text)).map fun e =>
    SIGN e.type * double e.amount_cents).foldl (fun sum x => double (sum + x)) 0

theorem lookup_deltasOf (a : Uuid) (entries : List TransactionEntryDto) :
    ((deltasOf entries).lookup a.text).getD 0 = entrySum a entries := by
  have key : ∀ (es : List TransactionEntryDto) (deltas : List (String × Int)),
      (((es.map readEntry).foldl (fun deltas entry => addDelta entry.account_id
          (SIGN entry.type * entry.amount_cents) deltas) deltas).lookup a.text).getD 0
        = ((es.filter (·.account_id = a.text)).map fun e =>
            SIGN e.type * double e.amount_cents).foldl (fun sum x => double (sum + x))
              ((deltas.lookup a.text).getD 0) := by
    intro es
    induction es with
    | nil => exact fun _ => rfl
    | cons e es ih =>
        intro deltas
        have haccount : (readEntry e).account_id = e.account_id := rfl
        rw [List.map_cons, List.foldl_cons, ih, addDelta, lookup_setDelta, newDelta, haccount]
        by_cases he : e.account_id = a.text
        · rw [if_pos he.symm, List.filter_cons_of_pos (by simpa using he), ← he]
          rfl
        · rw [if_neg (Ne.symm he), List.filter_cons_of_neg (by simpa using he)]
  exact key entries []

/-- Doubles or integers, the accounts stand in the same order. -/
theorem keys_deltasOf (entries : List TransactionEntryDto) :
    (deltasOf entries).map (·.1) = (Ref.deltasOf (entries.map sentEntry)).map (·.1) := by
  have key : ∀ (es : List TransactionEntryDto) (deltas deltas' : List (String × Int)),
      deltas.map (·.1) = deltas'.map (·.1) →
      ((es.map readEntry).foldl (fun deltas entry => addDelta entry.account_id
          (SIGN entry.type * entry.amount_cents) deltas) deltas).map (·.1)
        = ((es.map sentEntry).foldl (fun deltas entry => TransactionsService.addDelta
            entry.account_id (SIGN entry.type * entry.amount_cents) deltas) deltas').map
              (·.1) := by
    intro es
    induction es with
    | nil => exact fun _ _ h => h
    | cons e es ih =>
        intro deltas deltas' h
        rw [List.map_cons, List.map_cons, List.foldl_cons, List.foldl_cons]
        refine ih _ _ ?_
        -- Setting a delta is adding what it is more than before.
        have hset : ∀ v, setDelta e.account_id v deltas = TransactionsService.addDelta
            e.account_id (v - (deltas.lookup e.account_id).getD 0) deltas := by
          intro v
          rw [← setDelta_add, add_sub_cancel]
        rw [addDelta, readEntry, sentEntry, hset, TransactionsService.keys_addDelta,
          TransactionsService.keys_addDelta, h]
  exact key entries [] [] rfl

theorem keys_sentDeltas (entries : List TransactionEntryDto) :
    (sentDeltas entries).map (·.1) = (Ref.deltasOf (entries.map sentEntry)).map (·.1) := by
  rw [← keys_deltasOf, sentDeltas, List.map_map]
  rfl

end Doubles

/-- Every balance has room for what is sent of its entries' sum. -/
def BalancesFit (d : LedgerDb) (input : CreateTransactionsDto) : Prop :=
  ∀ a row, d.get (.account a) = some row →
    inBigint (row.balanceCents + bigintText (Doubles.entrySum a input.entries)) = true

theorem nodup_deltasOf (entries : List TransactionEntryDto) :
    ((deltasOf entries).map (·.1)).Nodup := by
  have key : ∀ (entries : List TransactionEntryDto) (deltas : List (String × Int)),
      (deltas.map (·.1)).Nodup →
        ((entries.foldl (fun deltas entry => TransactionsService.addDelta entry.account_id
          (SIGN entry.type * entry.amount_cents) deltas) deltas).map (·.1)).Nodup := by
    intro entries
    induction entries with
    | nil => exact fun _ h => h
    | cons entry entries ih =>
        intro deltas h
        rw [List.foldl_cons]
        refine ih _ ?_
        rw [TransactionsService.keys_addDelta]
        split
        · exact h
        · next hnew =>
            rw [← List.concat_eq_append]
            exact (List.nodup_concat _ _).mpr ⟨hnew, h⟩
  exact key entries [] List.nodup_nil

/-- Deltas of the accounts the entries name. -/
theorem onAccounts_of_keys (hpass : ∀ entry ∈ input.entries, Passes d user entry)
    {deltas : List (String × Int)}
    (hkeys : deltas.map (·.1) = (deltasOf input.entries).map (·.1)) : OnAccounts d deltas := by
  intro p hp
  have hmem : p.1 ∈ (deltasOf input.entries).map (·.1) := hkeys ▸ List.mem_map_of_mem hp
  obtain ⟨q, hq, hqp⟩ := List.mem_map.mp hmem
  obtain ⟨entry, hentry, heq⟩ := mem_deltasOf hq
  obtain ⟨a, row, ha, hrow, -⟩ := hpass entry hentry
  exact ⟨a, row, by rw [← hqp, ← heq, ha], hrow⟩

theorem lookup_of_mem {deltas : List (String × Int)} (hn : (deltas.map (·.1)).Nodup)
    {p : String × Int} (hp : p ∈ deltas) : deltas.lookup p.1 = some p.2 := by
  induction deltas with
  | nil => simp at hp
  | cons q deltas ih =>
      rw [List.map_cons, List.nodup_cons] at hn
      rw [Doubles.lookup_pair_cons]
      rcases List.mem_cons.mp hp with rfl | hp
      · rw [if_pos rfl]
      · rw [if_neg, ih hn.2 hp]
        rintro hq
        exact hn.1 (hq ▸ List.mem_map_of_mem hp)

theorem deltasFit_sent (hschema : SchemaHolds env d) :
    DeltasFit d (Doubles.sentDeltas input.entries) ↔ BalancesFit d input := by
  have hnodup : ((Doubles.deltasOf input.entries).map (·.1)).Nodup := by
    rw [Doubles.keys_deltasOf]
    exact nodup_deltasOf _
  constructor
  · intro h a row hrow
    rw [← Doubles.lookup_deltasOf]
    cases hlookup : (Doubles.deltasOf input.entries).lookup a.text with
    | none =>
        -- No entry is on the account.
        have haccount := hschema a row hrow
        simp only [accountConstraints, Bool.and_eq_true] at haccount
        rw [Option.getD_none, bigintText_of_safe safe_zero, Int.add_zero]
        exact haccount.1.1.2
    | some delta =>
        obtain ⟨past, rest, hsplit, -⟩ := List.lookup_eq_some_iff.mp hlookup
        refine h (a.text, bigintText delta) (List.mem_map.mpr ⟨(a.text, delta), ?_, rfl⟩) a row
          rfl hrow
        rw [hsplit]
        exact List.mem_append_right _ List.mem_cons_self
  · intro h p hp a row hpa hrow
    obtain ⟨q, hq, rfl⟩ := List.mem_map.mp hp
    have hlookup := lookup_of_mem hnodup hq
    have hsum := Doubles.lookup_deltasOf a input.entries
    rw [← hpa, hlookup, Option.getD_some] at hsum
    rw [hsum]
    exact h a row hrow

/-! ## The answer -/

/-- A problem thrown before anything is written. -/
def BatchRefused (env : Env) (d : LedgerDb) (user : AuthUser)
    (input : CreateTransactionsDto) : Prop :=
  (∃ entry ∈ input.entries, ¬ Passes d user entry) ∨ RefusedLater env input

def EntriesStored (env : Env) (input : CreateTransactionsDto) : Prop :=
  ∀ entry ∈ input.entries, SymbolKnown env entry ∧ Stored env entry

/-- The rows of the batch, and that they meet the columns, CHECKs and foreign
keys. -/
def RowsMeet (env : Env) (d : LedgerDb) (input : CreateTransactionsDto) (ids : Nat → Uuid)
    (now : Instant) : Prop :=
  ∃ rows, insertedRows env (drawnBatch input ids now) now = .ok rows ∧ rowsFit env rows d = true

theorem drawnBatch_ne_nil (h : input.entries ≠ []) : drawnBatch input ids now ≠ [] := by
  intro hnil
  rw [drawnBatch, List.map_eq_nil_iff] at hnil
  have hfst := map_fst_drawn input ids
  rw [hnil] at hfst
  exact h hfst.symm

theorem canInsert_iff (hfresh : FreshIds d input ids) {rows : List (KeyedRow LedgerRow)}
    (hkeys : rows.map (·.1) = (drawn input ids).map (fun e => LedgerKey.transaction e.2)) :
    Prog.canInsert d rows (rowsFit env rows) = true ↔ rowsFit env rows d = true := by
  have hnew : rows.all (fun r => (d.get r.1).isNone) = true := by
    rw [List.all_eq_true]
    intro r hr
    have hmem : r.1 ∈ (drawn input ids).map fun e => LedgerKey.transaction e.2 := by
      rw [← hkeys]
      exact List.mem_map_of_mem hr
    obtain ⟨e, he, hre⟩ := List.mem_map.mp hmem
    rw [← hre, hfresh.new e he]
    rfl
  have hnodup : (rows.map (·.1)).Nodup := by
    have hmap : (drawn input ids).map (fun e => LedgerKey.transaction e.2)
        = ((drawn input ids).map (·.2)).map LedgerKey.transaction := by
      rw [List.map_map]
      rfl
    rw [hkeys, hmap]
    exact hfresh.apart.map fun _ _ h => LedgerKey.transaction.inj h
  simp [Prog.canInsert, hnew, hnodup]

/-- The INSERT touches no account. -/
theorem get_account_inserted {rows : List (KeyedRow LedgerRow)}
    (hkeys : rows.map (·.1) = (drawn input ids).map (fun e => LedgerKey.transaction e.2))
    (a : Uuid) : (((Session.init []).putRows rows : LedgerSession).view d).get (.account a)
      = d.get (.account a) := by
  rw [Session.view_putRows, Session.view_init]
  refine Db.get_writeAll_of_notMem (fun hmem => ?_) d
  rw [List.map_map] at hmem
  have hmem' : LedgerKey.account a ∈ rows.map (·.1) := hmem
  rw [hkeys] at hmem'
  obtain ⟨e, -, he⟩ := List.mem_map.mp hmem'
  exact LedgerKey.noConfusion he

/-- Nothing is booked where the rows cannot be made. -/
theorem exec_book_thrown {β : Type} {s : LedgerSession} (hne : input.entries ≠ [])
    {e : ApiError} (h : insertedRows env (drawnBatch input ids now) now = .error e)
    {deltas : List (String × Int)} (g : List Transaction → LedgerProg β) :
    ((book env now (drawnBatch input ids now, deltas)).bind g).exec d none s
      = (.raised e, s) := by
  rw [book, Prog.bind_eq, Prog.bind_assoc, exec_saveMany (drawnBatch_ne_nil hne), h]

/-- What follows the checks, when every entry passes. -/
theorem exec_book {β : Type} (hfresh : FreshIds d input ids)
    (hne : input.entries ≠ []) (hpass : ∀ entry ∈ input.entries, Passes d user entry)
    {rows : List (KeyedRow LedgerRow)}
    (hrows : insertedRows env (drawnBatch input ids now) now = .ok rows)
    (hkeys : rows.map (·.1) = (drawn input ids).map (fun e => LedgerKey.transaction e.2))
    {deltas : List (String × Int)}
    (hdeltas : deltas.map (·.1) = (deltasOf input.entries).map (·.1))
    (g : List Transaction → LedgerProg β) :
    ((rowsFit env rows d = true ∧ DeltasFit d deltas) ∧ ∃ s', (∀ u, (s'.view d).get
          (.transaction u) = (((Session.init []).putRows rows : LedgerSession).view d).get
            (.transaction u)) ∧
        ((book env now (drawnBatch input ids now, deltas)).bind g).exec d none
          (Session.init []) = (g (drawnBatch input ids now)).exec d none s') ∨
      (¬ (rowsFit env rows d = true ∧ DeltasFit d deltas) ∧ ∃ s',
        ((book env now (drawnBatch input ids now, deltas)).bind g).exec d none
          (Session.init []) = (.aborted, s')) := by
  rw [book, Prog.bind_eq, Prog.bind_assoc, exec_saveMany (drawnBatch_ne_nil hne), hrows]
  dsimp only
  rw [Session.view_init]
  split
  · next hcan =>
      have hfit := (canInsert_iff hfresh hkeys).mp hcan
      have hsame := @get_account_inserted d input ids rows hkeys
      have hon : OnAccounts (((Session.init []).putRows rows : LedgerSession).view d) deltas := by
        intro p hp
        obtain ⟨a, row, ha, hrow⟩ := onAccounts_of_keys hpass hdeltas p hp
        exact ⟨a, row, ha, by rw [hsame, hrow]⟩
      have hiff : DeltasFit (((Session.init []).putRows rows : LedgerSession).view d) deltas ↔
          DeltasFit d deltas := by
        constructor
        · exact fun h p hp a row ha hrow => h p hp a row ha (by rw [hsame, hrow])
        · exact fun h p hp a row ha hrow => h p hp a row ha (by rw [← hsame, hrow])
      rw [Prog.bind_eq, Prog.bind_assoc]
      rcases exec_updateBalances (d := d) (fun _ => g (drawnBatch input ids now)) hon
          (hdeltas ▸ nodup_deltasOf input.entries)
        with ⟨hfits, s', hframe, hrun⟩ | ⟨hover, s', hrun⟩
      · exact Or.inl ⟨⟨hfit, hiff.mp hfits⟩, s', hframe, hrun⟩
      · exact Or.inr ⟨fun h => hover (hiff.mpr h.2), s', hrun⟩
  · next hcan =>
      exact Or.inr ⟨fun h => hcan ((canInsert_iff hfresh hkeys).mpr h.1), _, rfl⟩

/-- What the answer rests on of what the validation pipe lets through. -/
theorem accepted_entries {v : Validators} (hv : v.ReadsUuid) (h : input.accepted v = true) :
    input.entries ≠ [] ∧ ∀ entry ∈ input.entries,
      (∃ u, pgUuidIn entry.account_id = some u) ∧ 0 ≤ entry.amount_cents := by
  simp only [CreateTransactionsDto.accepted, Bool.and_eq_true, decide_eq_true_eq,
    List.all_eq_true] at h
  obtain ⟨hlength, hentries⟩ := h
  constructor
  · intro hnil
    rw [hnil] at hlength
    simp at hlength
  · intro entry hentry
    have haccepted := hentries entry hentry
    simp only [TransactionEntryDto.accepted, Bool.and_eq_true, decide_eq_true_eq] at haccepted
    exact ⟨hv _ haccepted.1.1.1.1.1, haccepted.1.1.1.1.2⟩

theorem alone_fst {α : Type} (p : LedgerProg α) :
    (p.alone d []).1 = (p.exec d none (Session.init [])).1 := by
  rw [Prog.alone]
  split
  · next h => rw [h]
  · next h => rw [h]
  · next h => rw [h]

/-- A batch goes through, or it is refused with one of the problems. -/
def Answered {α : Type} (f : Finish ApiError α) : Prop :=
  (∃ a, f = .committed a) ∨ ∃ e, f = .raised e ∧ Refusal e

/-! ## What is sent

The checks look at no number, so a batch as it is sent is refused as it came. -/

theorem symbolsOf_sentInput : symbolsOf (Doubles.sentInput input) = symbolsOf input := by
  rw [symbolsOf, symbolsOf, Doubles.sentInput, List.filterMap_map]
  rfl

theorem noRate_sentInput : NoRate env (Doubles.sentInput input) ↔ NoRate env input := by
  rw [NoRate, NoRate, Doubles.sentInput, List.map_map, List.mapM_map]
  rfl

theorem batchRefused_sentInput :
    BatchRefused env d user (Doubles.sentInput input) ↔ BatchRefused env d user input := by
  have hpass : (∃ entry ∈ (Doubles.sentInput input).entries, ¬ Passes d user entry) ↔
      ∃ entry ∈ input.entries, ¬ Passes d user entry := by
    simp only [Doubles.sentInput, List.mem_map, exists_exists_and_eq_and]
    rfl
  have hknown : (∀ entry ∈ (Doubles.sentInput input).entries, SymbolKnown env entry) ↔
      ∀ entry ∈ input.entries, SymbolKnown env entry := List.forall_mem_map
  rw [BatchRefused, BatchRefused, hpass, RefusedLater, RefusedLater, hknown, noRate_sentInput,
    UnknownSymbol, UnknownSymbol, symbolsOf_sentInput]

theorem FreshIds.sent (h : FreshIds d input ids) : FreshIds d (Doubles.sentInput input) ids where
  new e he := by
    rw [Doubles.sentInput, Doubles.drawn_map] at he
    obtain ⟨x, hx, rfl⟩ := List.mem_map.mp he
    exact h.new x hx
  apart := by
    rw [Doubles.sentInput, Doubles.drawn_map, List.map_map]
    exact h.apart

/-- What is sent of an accepted batch. -/
theorem sent_entries {v : Validators} (hv : v.ReadsUuid) (h : input.accepted v = true) :
    (Doubles.sentInput input).entries ≠ [] ∧ ∀ entry ∈ (Doubles.sentInput input).entries,
      (∃ u, pgUuidIn entry.account_id = some u) ∧ 0 ≤ entry.amount_cents := by
  obtain ⟨hne, hfield⟩ := accepted_entries hv h
  refine ⟨fun hnil => hne (List.map_eq_nil_iff.mp hnil), List.forall_mem_map.mpr ?_⟩
  intro entry hentry
  obtain ⟨hread, hamount⟩ := hfield entry hentry
  exact ⟨hread, shortest_nonneg (roundInt_nonneg hamount)⟩

/-- The call, once the entries have passed, books what is sent and answers with what was
read. -/
theorem exec_createTransactions
    (hread : ∀ e ∈ (Doubles.sentInput input).entries, ∃ u, pgUuidIn e.account_id = some u) :
    (∃ e, Refusal e ∧ (∃ x ∈ (Doubles.sentInput input).entries, ¬ Passes d user x) ∧
        (Doubles.createTransactions env input user ids now).exec d none (Session.init [])
          = (.raised e, Session.init [])) ∨
      ((∀ x ∈ (Doubles.sentInput input).entries, Passes d user x) ∧
        (Doubles.createTransactions env input user ids now).exec d none (Session.init [])
          = ((book env now (drawnBatch (Doubles.sentInput input) ids now,
              Doubles.sentDeltas input.entries)).bind fun _ =>
              .ret (drawnBatch (Doubles.readInput input) ids now)).exec d none
            (Session.init [])) := by
  have hnames : (Doubles.sentInput input).entries.map (·.account_id)
      = input.entries.map (·.account_id) := by
    rw [Doubles.sentInput, List.map_map]
    rfl
  refine exec_checks hread (fun r => (book env now (r.1, Doubles.sentDeltas input.entries)).bind
    fun _ => .ret (drawnBatch (Doubles.readInput input) ids now)) ?_
  rw [hnames, Doubles.createTransactions_eq]

/-- Of an accepted batch: a problem is thrown or its rows meet the constraints
exactly when a refusal applies or every entry can be stored as it is sent; and it
surfaces as no raw error exactly when, in the second case, the balances have room
besides. -/
theorem create_answered_iff {v : Validators} (hv : v.ReadsUuid) (hschema : SchemaHolds env d)
    (haccepted : input.accepted v = true) (hfresh : FreshIds d input ids) (now : Instant) :
    (((∃ e, ((Doubles.createTransactions env input user ids now).alone d []).1 = .raised e ∧
          Refusal e) ∨ RowsMeet env d (Doubles.sentInput input) ids now) ↔
        BatchRefused env d user input ∨ EntriesStored env (Doubles.sentInput input)) ∧
      (Answered ((Doubles.createTransactions env input user ids now).alone d []).1 ↔
        BatchRefused env d user input ∨
          EntriesStored env (Doubles.sentInput input) ∧ BalancesFit d input) := by
  obtain ⟨hne, hfield⟩ := sent_entries hv haccepted
  rw [alone_fst, ← batchRefused_sentInput]
  rcases @exec_createTransactions env d user input ids now
      fun entry hentry => (hfield entry hentry).1
    with ⟨e, hrefusal, hstop, hrun⟩ | ⟨hpass, hrun⟩
  · rw [hrun]
    exact ⟨iff_of_true (Or.inl ⟨e, rfl, hrefusal⟩) (Or.inl (Or.inl hstop)),
      iff_of_true (Or.inr ⟨e, rfl, hrefusal⟩) (Or.inl (Or.inl hstop))⟩
  rw [hrun]
  have hlater : BatchRefused env d user (Doubles.sentInput input) ↔
      RefusedLater env (Doubles.sentInput input) := by
    constructor
    · rintro (⟨entry, hentry, hnot⟩ | h)
      · exact absurd (hpass entry hentry) hnot
      · exact h
    · exact Or.inr
  rw [hlater]
  have hinserts := @inserts_rows env d user (Doubles.sentInput input) ids now hschema hpass
    fun entry hentry => (hfield entry hentry).2
  generalize hresult : insertedRows env (drawnBatch (Doubles.sentInput input) ids now) now
    = result at hinserts
  cases hinserts with
  | @refuses e he h =>
      rw [exec_book_thrown hne hresult]
      exact ⟨iff_of_true (Or.inl ⟨e, rfl, he⟩) (Or.inl h),
        iff_of_true (Or.inr ⟨e, rfl, he⟩) (Or.inl h)⟩
  | @fails e he h hnot =>
      rw [exec_book_thrown hne hresult]
      constructor
      · refine iff_of_false ?_ (not_or.mpr ⟨h, hnot⟩)
        rintro (⟨e', heq, he'⟩ | ⟨rows, hok, -⟩)
        · obtain rfl := Finish.raised.inj heq
          exact he he'
        · rw [hresult] at hok
          simp at hok
      · refine iff_of_false ?_ (not_or.mpr ⟨h, fun hall => hnot hall.1⟩)
        rintro (⟨a, heq⟩ | ⟨e', heq, he'⟩)
        · simp at heq
        · obtain rfl := Finish.raised.inj heq
          exact he he'
  | @rows rows h hkeys hfit =>
      have hmeet : RowsMeet env d (Doubles.sentInput input) ids now ↔
          rowsFit env rows d = true := by
        constructor
        · rintro ⟨rows', hok, hfit'⟩
          rw [hresult] at hok
          rwa [Except.ok.inj hok]
        · exact fun hfit' => ⟨rows, hresult, hfit'⟩
      rw [hmeet, hfit, or_iff_right h, or_iff_right h, ← deltasFit_sent hschema]
      rcases exec_book hfresh.sent hne hpass hresult hkeys
          (Doubles.keys_sentDeltas input.entries)
          (fun _ => .ret (drawnBatch (Doubles.readInput input) ids now))
        with ⟨⟨hrows, hbalances⟩, s', -, hdone⟩ | ⟨hnot, s', hdone⟩
      · rw [hdone]
        exact ⟨iff_of_true (Or.inr (hfit.mp hrows)) (hfit.mp hrows),
          iff_of_true (Or.inl ⟨_, rfl⟩) ⟨hfit.mp hrows, hbalances⟩⟩
      · rw [hdone]
        constructor
        · rw [or_iff_right (not_exists.mpr fun e h => by simp at h)]
          exact Iff.rfl
        · refine iff_of_false ?_ fun hall => hnot ⟨hfit.mpr hall.1, hall.2⟩
          rintro (⟨a, heq⟩ | ⟨e, heq, -⟩)
          · simp at heq
          · simp at heq

/-! One account with a v4 id, in hryvnias and in dollars. -/

def v4Account : Uuid := 0x11111111111141118111111111111111

def v4Db (currency : String) : LedgerDb :=
  Db.empty.set (.account v4Account) (some ⟨1, currency, "cash", .cash, 300, false, 0⟩)

/-- class-validator on the texts below: a v4 uuid is one with its version and
variant. -/
def sampleValidators : Validators where
  isUUID4 s := (pgUuidIn s).any fun u =>
    u.text = s && u.val / 2 ^ 76 % 16 = 4 && u.val / 2 ^ 62 % 4 = 2
  isISO8601 s := s = "2026-08-25T12:00:00.000Z"
  maxLength n s := decide (s.utf8.length ≤ n)

theorem sampleValidators_reads : sampleValidators.ReadsUuid := by
  intro s hs
  obtain ⟨u, hu, -⟩ := (Option.any_eq_true _ _).mp hs
  exact ⟨u, hu⟩

def v4Entry (currency : String) (quantity : Option Int) : TransactionEntryDto :=
  ⟨v4Account.text, .expense, 100, currency, "2026-08-25T12:00:00.000Z", none, none, quantity⟩

def v4Batch (currency : String) (quantity : Option Int) : CreateTransactionsDto :=
  ⟨[v4Entry currency quantity]⟩

/-- A day on which the dollar is quoted at 1. -/
def parityEnv : Env :=
  { sampleEnv with
    currencies := ["UAH", "USD"]
    fxRates := [⟨"USD", 0, "nbu", Numeric.one⟩] }

theorem v4Db_schema {currency : String} (h : currency ∈ parityEnv.currencies) :
    SchemaHolds parityEnv (v4Db currency) := by
  intro u row hrow
  by_cases hu : u = v4Account
  · subst hu
    rw [v4Db, Db.get_set_self] at hrow
    obtain rfl := Option.some.inj hrow
    simp [accountConstraints, h, hasNul, inBigint]
    decide
  · rw [v4Db, Db.get_set_ne _ _ fun he => hu (LedgerKey.account.inj he)] at hrow
    simp at hrow

theorem v4Batch_fresh (currency c : String) (quantity : Option Int) :
    FreshIds (v4Db c) (v4Batch currency quantity) fun _ => 30 := by
  refine ⟨fun e he => ?_, ?_⟩
  · rw [v4Db, Db.get_set_ne _ _ (by simp)]
    rfl
  · exact List.nodup_singleton _

theorem create_answered_iff_hryvnia :
    (((∃ e, ((Doubles.createTransactions parityEnv (v4Batch "UAH" none) sampleUser
          (fun _ => 30) 0).alone (v4Db "UAH") []).1 = .raised e ∧ Refusal e) ∨
        RowsMeet parityEnv (v4Db "UAH") (Doubles.sentInput (v4Batch "UAH" none))
          (fun _ => 30) 0) ↔
        BatchRefused parityEnv (v4Db "UAH") sampleUser (v4Batch "UAH" none) ∨
          EntriesStored parityEnv (Doubles.sentInput (v4Batch "UAH" none))) ∧
      (Answered ((Doubles.createTransactions parityEnv (v4Batch "UAH" none) sampleUser
          (fun _ => 30) 0).alone (v4Db "UAH") []).1 ↔
        BatchRefused parityEnv (v4Db "UAH") sampleUser (v4Batch "UAH" none) ∨
          EntriesStored parityEnv (Doubles.sentInput (v4Batch "UAH" none)) ∧
            BalancesFit (v4Db "UAH") (v4Batch "UAH" none)) :=
  create_answered_iff sampleValidators_reads (v4Db_schema (by decide)) (by decide +kernel)
    (v4Batch_fresh "UAH" "UAH" none) 0

/-- The map of the deltas rounds what two incomes come to. -/
example : Doubles.entrySum v4Account
    [{ v4Entry "UAH" none with type := .income, amount_cents := 2 ^ 53 },
      { v4Entry "UAH" none with type := .income, amount_cents := 1 }] = 2 ^ 53 := by
  decide +kernel

/-- A quantity of zero passes the validator and every check of the service, and
so does a dollar booked on a day of parity; the database refuses both. -/
theorem accepted_batch_raw_error :
    ((v4Batch "UAH" (some 0)).accepted sampleValidators = true ∧
      SchemaHolds parityEnv (v4Db "UAH") ∧
      FreshIds (v4Db "UAH") (v4Batch "UAH" (some 0)) (fun _ => 30) ∧
      ((Doubles.createTransactions parityEnv (v4Batch "UAH" (some 0)) sampleUser
        (fun _ => 30) 0).alone (v4Db "UAH") []).1 = .aborted) ∧
    ((v4Batch "USD" none).accepted sampleValidators = true ∧
      SchemaHolds parityEnv (v4Db "USD") ∧
      FreshIds (v4Db "USD") (v4Batch "USD" none) (fun _ => 30) ∧
      ((Doubles.createTransactions parityEnv (v4Batch "USD" none) sampleUser
        (fun _ => 30) 0).alone (v4Db "USD") []).1 = .aborted) :=
  ⟨⟨by decide +kernel, v4Db_schema (by decide), v4Batch_fresh "UAH" "UAH" (some 0),
      by decide +kernel⟩,
    ⟨by decide +kernel, v4Db_schema (by decide), v4Batch_fresh "USD" "USD" none,
      by decide +kernel⟩⟩

end InvestApi.Ref
