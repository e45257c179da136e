import InvestApi.Ref.LedgerSystem

/-!
# What a committed call has written

`Wrote` says it in cases: which rows a call that commits puts, as a function
of the rows committed at that moment. It is the abstract ledger's step. The
theorems below read it off each body, statement by statement, with other
calls committing in between.

What carries every proof is the same: a row a call depends on is either one
it holds, so nobody else has touched it, or an account it has seen, and no
call ever removes an account.
-/

namespace InvestApi.Ref

open InvestApi.Pg

def HasAccount (d : LedgerDb) (u : Uuid) : Prop :=
  ∃ row, d.get (.account u) = some row

/-- The columns, CHECKs and foreign keys of `transactions`, one by one. -/
theorem transactionConstraints_iff {env : Env} {d : LedgerDb} {row : TransactionRow} :
    transactionConstraints env d row = true ↔
      (∀ s, row.description = some s → s.length ≤ 500 ∧ hasNul s = false) ∧
      (∀ p, row.unitPrice = some p → 0 < p.scaled ∧ p.fits = true) ∧
      (∀ q, row.quantityMicro = some q → 0 < q ∧ q < 2 ^ 63) ∧
      0 < row.fxRate.scaled ∧ row.fxRate.scaled < 10 ^ 20 ∧
      (0 ≤ row.amountCents ∧ row.amountCents < 2 ^ 63) ∧
      (row.currency = "UAH" ↔ row.fxRate = Numeric.one) ∧
      (row.type == .buy || row.type == .sell) = row.instrumentId.isSome ∧
      (∃ a, d.get (.account row.accountId) = some a ∧ a.currency = row.currency) ∧
      row.instrumentId.all (fun i => env.instruments.any (·.id = i)) = true ∧
      (∀ c, row.categoryId = some c → c ∈ env.categories) ∧
      row.currency ∈ env.currencies := by
  simp only [transactionConstraints, Bool.and_eq_true, Option.all_eq_true, Option.any_eq_true,
    decide_eq_true_eq, beq_iff_eq, decide_eq_decide, Bool.not_eq_true', Numeric.fits, inBigint,
    and_assoc]
  constructor
  · rintro ⟨hdesc, hprice, hqty, hrate, _, hfits, hamount, _, hbig, hrest⟩
    refine ⟨hdesc, hprice, fun q hq => ?_, hrate, hfits, hamount, hbig, hrest⟩
    have hq' := hqty q hq
    omega
  · rintro ⟨hdesc, hprice, hqty, hrate, hfits, hamount, hbig, hrest⟩
    refine ⟨hdesc, hprice, fun q hq => ?_, hrate, ?_, hfits, hamount, ?_, hbig, hrest⟩
    · have hq' := hqty q hq
      omega
    · omega
    · omega

/-- The foreign key is one of the constraints. -/
theorem transactionConstraints_account {env : Env} {d : LedgerDb} {row : TransactionRow}
    (h : transactionConstraints env d row = true) : HasAccount d row.accountId := by
  obtain ⟨-, -, -, -, -, -, -, -, ⟨a, ha, -⟩, -⟩ := transactionConstraints_iff.mp h
  exact ⟨a, ha⟩

theorem transactionConstraints_amount {env : Env} {d : LedgerDb}
    {row : TransactionRow} (h : transactionConstraints env d row = true) :
    0 ≤ row.amountCents := by
  simp only [transactionConstraints, Bool.and_eq_true, decide_eq_true_eq] at h
  obtain ⟨⟨⟨⟨⟨⟨⟨⟨_, hamount⟩, _⟩, _⟩, _⟩, _⟩, _⟩, _⟩, _⟩ := h
  exact hamount

theorem transactionConstraints_congr {env : Env} {d : LedgerDb} {row : TransactionRow}
    (d' : LedgerDb)
    (h : d.get (.account row.accountId) = d'.get (.account row.accountId)) :
    transactionConstraints env d row = transactionConstraints env d' row := by
  unfold transactionConstraints
  rw [h]

/-- The foreign key of `transactions`. -/
def Linked (d : LedgerDb) : Prop :=
  ∀ t row, d.get (.transaction t) = some row → HasAccount d row.accountId

/-- No account is gone. -/
def Persist (d d' : LedgerDb) : Prop :=
  ∀ u, HasAccount d u → HasAccount d' u

/-- The updates of `deltas`, one after the other. -/
inductive Bumped : LedgerDb → List (String × Int) → List (Write LedgerRow) → Prop
  | nil {d} : Bumped d [] []
  | cons {d id delta u row rest ws} (hu : pgUuidIn id = some u)
      (hrow : d.get (.account u) = some row)
      (hrest : Bumped (d.set (.account u)
        (some { row with balanceCents := row.balanceCents + delta })) rest ws) :
      Bumped d ((id, delta) :: rest)
        (⟨.account u, some { row with balanceCents := row.balanceCents + delta }⟩
          :: ws)

/-- What an entry of a batch is stored as, as far as the books go. -/
structure Posts (account_id : String) (type : TransactionType)
    (amount_cents : Int) (r : Uuid × TransactionRow) : Prop where
  account : pgUuidIn account_id = some r.2.accountId
  type_eq : r.2.type = type
  amount : r.2.amountCents = amount_cents
  status : r.2.status = .posted

def rowWrites (rows : List (Uuid × TransactionRow)) : List (Write LedgerRow) :=
  rows.map fun r => ⟨.transaction r.1, some r.2⟩

/-- What the batch moves each account by. -/
def deltasOf (entries : List TransactionEntryDto) : List (String × Int) :=
  entries.foldl (fun deltas entry =>
    TransactionsService.addDelta entry.account_id
      (SIGN entry.type * entry.amount_cents) deltas) []

/-- The entries with the ids randomUUID draws for them. -/
def drawn (input : CreateTransactionsDto) (ids : Nat → Uuid) :
    List (TransactionEntryDto × Uuid) :=
  input.entries.zipIdx.map fun (entry, n) => (entry, ids n)

theorem map_fst_drawn (input : CreateTransactionsDto) (ids : Nat → Uuid) :
    (drawn input ids).map (·.1) = input.entries := by
  rw [drawn, List.map_map]
  exact List.zipIdx_map_fst 0 input.entries

theorem mem_drawn {input : CreateTransactionsDto} {ids : Nat → Uuid}
    {e : TransactionEntryDto × Uuid} (h : e ∈ drawn input ids) : e.1 ∈ input.entries := by
  rw [← map_fst_drawn input ids]
  exact List.mem_map_of_mem h

theorem id_of_drawn {input : CreateTransactionsDto} {ids : Nat → Uuid}
    {e : TransactionEntryDto × Uuid} (h : e ∈ drawn input ids) :
    ∃ n < input.entries.length, ids n = e.2 := by
  obtain ⟨⟨entry, n⟩, hn, rfl⟩ := List.mem_map.mp h
  have hlt := List.snd_lt_of_mem_zipIdx hn
  exact ⟨n, by omega, rfl⟩

/-- The batch the loop over the entries collects. -/
def drawnBatch (input : CreateTransactionsDto) (ids : Nat → Uuid) (now : Instant) :
    List Transaction :=
  (drawn input ids).map fun e => TransactionsService.toBatch e.1 e.2 now

/-- What follows the checks. -/
def book (env : Env) (now : Instant) (r : List Transaction × List (String × Int)) :
    LedgerProg (List Transaction) := do
  TransactionsRepository.saveMany env r.1 now
  r.2.forM fun (id, delta) => AccountsRepository.updateBalance id delta
  return r.1

/-- `create` loads the accounts, checks the entries, and books what they make. -/
theorem create_eq (env : Env) (input : CreateTransactionsDto) (user : AuthUser)
    (ids : Nat → Uuid) (now : Instant) :
    TransactionsService.create env input user ids now
      = (AccountsRepository.findByIds (input.entries.map (·.account_id)).eraseDups).bind
        fun accounts => (orThrow (TransactionsService.collect accounts user now
          (drawn input ids) [] [])).bind (book env now) := rfl

/-- What a status change moves the balance by when it crosses the line. -/
def crossing (t : TransactionRow) (status : TransactionStatus) : Int :=
  if status = .posted then SIGN t.type * t.amountCents
  else -(SIGN t.type * t.amountCents)

/-- The rate of an account's currency, as `resolveFxRate` answers it. -/
def rateOf (env : Env) (currency : String) : Option Numeric :=
  if currency = "UAH" then some Numeric.one
  else (Checkout.latestRate env currency).map (·.rate)

def debited (row : AccountRow) (cost : Int) : AccountRow :=
  { row with balanceCents := row.balanceCents - cost }

theorem bigintParam_ret {x : Number} {n : Int} (h : bigintParam x = .ret n) :
    x.den = 1 ∧ x.num = n ∧ inBigint n = true := by
  rw [bigintParam] at h
  split at h
  · next hden =>
      split at h
      · next hfit =>
          injection h with h
          exact ⟨hden, h, h ▸ hfit⟩
      · simp at h
  · simp at h

theorem bigintParam_eq {x : Number} {n : Int} (h : bigintParam x = .ret n) :
    (n : Number) = x := by
  obtain ⟨hden, rfl, -⟩ := bigintParam_ret h
  exact Rat.coe_int_num_of_den_eq_one hden

/-- The account row `row` pays `cost`: what a checkout asks of its input. -/
structure Debits (request : CheckoutRequest) (u : Uuid) (row : AccountRow)
    (cost : Int) : Prop where
  quantity : Checkout.quantityOk request = true
  account : uuidParam request.accountId = .ret u
  cost_eq : bigintParam (Checkout.sentCost request) = .ret cost
  enough : row.balanceCents ≥ cost
  fits : inBigint (row.balanceCents - cost) = true

/-- The order row of a checkout that debited `row`. -/
def Orders (env : Env) (request : CheckoutRequest) (draw : CheckoutDraw)
    (u : Uuid) (row : AccountRow) (cost : Int) (order : TransactionRow) : Prop :=
  ∃ rate instrumentId quantityMicro, rateOf env row.currency = some rate ∧
    uuidParam request.instrumentId = .ret instrumentId ∧
    bigintParam (request.quantity * 1000000) = .ret quantityMicro ∧
    order = Checkout.orderRow u instrumentId row.currency cost rate
      quantityMicro request draw.now

/-- A checkout over the rows `d`: the account row it debits, the order it
stores. -/
structure Buys (env : Env) (request : CheckoutRequest) (draw : CheckoutDraw)
    (d : LedgerDb) (u : Uuid) (row : AccountRow) (cost : Int)
    (order : TransactionRow) : Prop extends Debits request u row cost where
  row_eq : d.get (.account u) = some row
  order_eq : Orders env request draw u row cost order
  order_ok : transactionConstraints env
    (d.set (.account u) (some (debited row cost))) order = true
  order_new : d.get (.transaction draw.orderId) = none
  job_new : d.get (.job draw.jobId) = none

def boughtWrites (request : CheckoutRequest) (draw : CheckoutDraw) (u : Uuid)
    (row : AccountRow) (cost : Int) (order : TransactionRow) :
    List (Write LedgerRow) :=
  [⟨.account u, some (debited row cost)⟩, ⟨.transaction draw.orderId, some order⟩,
    ⟨.job draw.jobId, some (Checkout.jobRow request draw)⟩]

def bought (request : CheckoutRequest) (draw : CheckoutDraw) (row : AccountRow)
    (cost : Int) : CheckoutSuccess where
  orderId := draw.orderId
  jobId := draw.jobId
  balanceCents := double (row.balanceCents - cost)
  costCents := Checkout.costCents request
  currency := row.currency

/-- What a call that committed as `r` over the rows `d` wrote. -/
inductive Wrote (env : Env) (d : LedgerDb) :
    LedgerCall → LedgerReply → List (Write LedgerRow) → Prop
  | created {input user id now account}
      (hacc : account.balance_cents = input.opening_balance_cents)
      (hnew : d.get (.account id) = none) :
      Wrote env d (.createAccount input user id now) (.account account)
        [⟨.account id, some (AccountsRepository.toRow account user.id now)⟩]
  | booked {input user ids now batch rows ws}
      (hrows : List.Forall₂ (fun entry => Posts entry.account_id entry.type
        entry.amount_cents) input.entries rows)
      (hnew : ∀ r ∈ rows, d.get (.transaction r.1) = none)
      (hn : (rows.map (·.1)).Nodup)
      (hacc : ∀ r ∈ rows, HasAccount d r.2.accountId)
      (hws : Bumped (d.writeAll (rowWrites rows)) (deltasOf input.entries) ws) :
      Wrote env d (.createTransactions input user ids now)
        (.transactions batch) (rowWrites rows ++ ws)
  | kept {orderId status user u t} (hu : pgUuidIn orderId = some u)
      (ht : d.get (.transaction u) = some t) (hs : t.status = status) :
      Wrote env d (.changeStatus orderId status user) (.changed false)
        [⟨.transaction u, some t⟩]
  | relabelled {orderId status user u t} (hu : pgUuidIn orderId = some u)
      (ht : d.get (.transaction u) = some t) (hs : t.status ≠ status)
      (hside : t.status = .posted ↔ status = .posted) :
      Wrote env d (.changeStatus orderId status user) (.changed true)
        [⟨.transaction u, some t⟩, ⟨.transaction u, some { t with status := status }⟩]
  | crossed {orderId status user u t row} (hu : pgUuidIn orderId = some u)
      (ht : d.get (.transaction u) = some t)
      (hside : ¬(t.status = .posted ↔ status = .posted))
      (hrow : d.get (.account t.accountId) = some row) :
      Wrote env d (.changeStatus orderId status user) (.changed true)
        [⟨.transaction u, some t⟩,
          ⟨.transaction u, some { t with status := status }⟩,
          ⟨.account t.accountId, some { row with
            balanceCents := row.balanceCents + crossing t status }⟩]
  | bought {request draw u row cost order}
      (h : Buys env request draw d u row cost order) :
      Wrote env d (.checkout request draw)
        (.checkout (bought request draw row cost))
        (boughtWrites request draw u row cost order)

end InvestApi.Ref
