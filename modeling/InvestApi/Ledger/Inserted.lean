import InvestApi.Fx.Snapshot
import InvestApi.Isolation.Batch
import InvestApi.Ledger.Deadlock
import InvestApi.Ref.Transactions

/-!
# A batch on its own

What `TransactionsService.create` does with nobody else about. The statements
before the INSERT change nothing, so what happens to them is a function of the
tables: `insertedRows` is the rows the INSERT gets, or what is thrown on the way
to it. After it the balances are updated one by one, each on an account the
checks have found, and the last of them is the last thing that can fail.
-/

namespace InvestApi.Ref

open InvestApi.Pg InvestApi.Isolation

/-! ## The statements before the INSERT -/

theorem orThrow_mapM {α β : Type} {f : α → LedgerProg β} {g : α → Except ApiError β}
    (h : ∀ a, f a = orThrow (g a)) (l : List α) : l.mapM f = orThrow (l.mapM g) := by
  induction l with
  | nil => rfl
  | cons a l ih =>
      rw [List.mapM_cons, List.mapM_cons, h, ih]
      cases g a with
      | error e => rfl
      | ok b =>
          cases l.mapM g with
          | error e => rfl
          | ok bs => rfl

def uuidIn (s : String) : Except ApiError Uuid :=
  match pgUuidIn s with
  | none => .error (.db "22P02")
  | some u => .ok u

theorem uuidParam_eq (s : String) : uuidParam s = orThrow (uuidIn s) := by
  unfold uuidParam uuidIn
  cases pgUuidIn s with
  | none => rfl
  | some u => rfl

def dateIn (env : Env) (text : String) : Except ApiError Instant :=
  match env.newDate text with
  | none => .error (.error "Invalid time value")
  | some t => .ok t

theorem bookedDate_eq (env : Env) (tx : Transaction) :
    TransactionsRepository.bookedDate env tx = orThrow (dateIn env tx.booked_at) := by
  unfold TransactionsRepository.bookedDate dateIn
  cases env.newDate tx.booked_at with
  | none => rfl
  | some t => rfl

/-- The rows of a batch whose symbols are known, or what its dates and rates
throw. -/
def resolvedRows (env : Env) (transactions : List Transaction) (now : Instant) :
    Except ApiError (List (KeyedRow LedgerRow)) := do
  let dates ← transactions.mapM fun tx => dateIn env tx.booked_at
  let rates ← FxRatesService.getEffectiveRates env.fxRates env.cache
    ((transactions.map (·.currency)).zip dates)
  let accountIds ← transactions.mapM fun tx => uuidIn tx.account_id
  return TransactionsRepository.batchRows env rates now
    (transactions.zip (accountIds.zip dates))

theorem resolvedRows_ok {env : Env} {transactions : List Transaction} {now : Instant}
    {krows : List (KeyedRow LedgerRow)} :
    resolvedRows env transactions now = .ok krows ↔ ∃ dates rates accountIds,
      transactions.mapM (fun tx => dateIn env tx.booked_at) = .ok dates ∧
      FxRatesService.getEffectiveRates env.fxRates env.cache
        ((transactions.map (·.currency)).zip dates) = .ok rates ∧
      transactions.mapM (fun tx => uuidIn tx.account_id) = .ok accountIds ∧
      krows = TransactionsRepository.batchRows env rates now
        (transactions.zip (accountIds.zip dates)) := by
  unfold resolvedRows
  cases transactions.mapM fun tx => dateIn env tx.booked_at with
  | error e => simp [bind, Except.bind]
  | ok dates =>
      cases hrates : FxRatesService.getEffectiveRates env.fxRates env.cache
          ((transactions.map (·.currency)).zip dates) with
      | error e => simp [bind, Except.bind, hrates]
      | ok rates =>
          cases transactions.mapM fun tx => uuidIn tx.account_id with
          | error e => simp [bind, Except.bind, hrates]
          | ok accountIds => simp [bind, Except.bind, hrates, pure, Except.pure, eq_comm]

/-- The rows the INSERT of `saveMany` gets, or what is thrown on the way. -/
def insertedRows (env : Env) (transactions : List Transaction) (now : Instant) :
    Except ApiError (List (KeyedRow LedgerRow)) :=
  if (transactions.filterMap (·.instrument_symbol)).any hasNul then
    .error (.db "22021")
  else if TransactionsRepository.unknownSymbols env transactions ≠ [] then
    .error (.problem 422 "instrument-not-found" ("unknown instrument_symbol: "
      ++ ", ".intercalate (TransactionsRepository.unknownSymbols env transactions)))
  else resolvedRows env transactions now

/-- Rows are made of the entries once every symbol is an instrument's. -/
theorem resolved_of_inserted {env : Env} {transactions : List Transaction} {now : Instant}
    {krows : List (KeyedRow LedgerRow)} (h : insertedRows env transactions now = .ok krows) :
    TransactionsRepository.unknownSymbols env transactions = [] ∧
      resolvedRows env transactions now = .ok krows := by
  rw [insertedRows] at h
  split at h
  · cases h
  split at h
  · cases h
  next hunknown => exact ⟨not_not.mp hunknown, h⟩

/-- The constraints the INSERT of `saveMany` checks. -/
def rowsFit (env : Env) (rows : List (KeyedRow LedgerRow)) (d : LedgerDb) : Bool :=
  rows.all fun
    | ⟨.transaction _, row⟩ => transactionConstraints env d row
    | _ => true

variable {env : Env} {d : LedgerDb} {s : LedgerSession} {β : Type}

theorem exec_saveMany {transactions : List Transaction} (hne : transactions ≠ []) (now : Instant)
    (g : Unit → LedgerProg β) :
    ((TransactionsRepository.saveMany env transactions now).bind g).exec d none s
      = match insertedRows env transactions now with
        | .error e => (.raised e, s)
        | .ok rows =>
            if Prog.canInsert (s.view d) rows (rowsFit env rows) then
              (g ()).exec d none (s.putRows rows)
            else (.aborted, s) := by
  have hempty : transactions.isEmpty = false := by simpa using hne
  unfold TransactionsRepository.saveMany insertedRows
  rw [hempty]
  simp only [Bool.false_eq_true, if_false]
  split
  · rfl
  simp only [Prog.bind_eq, Prog.query, Prog.bind, Prog.exec]
  split
  · rfl
  unfold resolvedRows
  rw [orThrow_mapM (bookedDate_eq env), orThrow_mapM fun tx : Transaction =>
    uuidParam_eq tx.account_id]
  cases transactions.mapM fun tx => dateIn env tx.booked_at with
  | error e => rfl
  | ok dates =>
      cases hrates : FxRatesService.getEffectiveRates env.fxRates env.cache
          ((transactions.map (·.currency)).zip dates) with
      | error e => simp [orThrow, Prog.bind, Prog.exec, hrates, bind, Except.bind]
      | ok rates =>
          cases hids : transactions.mapM fun tx => uuidIn tx.account_id with
          | error e => simp [orThrow, Prog.bind, Prog.exec, hrates, bind, Except.bind]
          | ok accountIds =>
              simp only [orThrow, Prog.bind, Prog.exec, hrates, bind, Except.bind, pure,
                Except.pure, Option.map_none]
              rfl

/-! ## The updates after it -/

/-- `updateBalance` on an account that is there fails on an overflow alone. -/
theorem exec_updateBalance {a : Uuid} {row : AccountRow} {delta : Int}
    (hrow : (s.view d).get (.account a) = some row) (g : Unit → LedgerProg β) :
    ((AccountsRepository.updateBalance a.text delta).bind g).exec d none s
      = if inBigint (row.balanceCents + delta) then
          (g ()).exec d none ((s.tag .updateBalance).put (.account a)
            (some { row with balanceCents := row.balanceCents + delta }))
        else (.aborted, s) := by
  have hu : uuidParam a.text = .ret a := uuidParam_eq_ret.mpr (pgUuidIn_text a)
  simp only [AccountsRepository.updateBalance, Prog.bind_eq, hu, Prog.bind]
  rw [Prog.exec_update_only]
  simp only [hrow, if_true, AccountsRepository.addToBalance]
  by_cases hfit : inBigint (row.balanceCents + delta) = true
  · simp only [hfit, if_true]
  · simp only [hfit, Bool.false_eq_true, if_false]

/-- Every delta is of an account the session sees. -/
def OnAccounts (d : LedgerDb) (deltas : List (String × Int)) : Prop :=
  ∀ p ∈ deltas, ∃ a row, p.1 = Uuid.text a ∧ d.get (.account a) = some row

/-- Every balance has room for its delta. -/
def DeltasFit (d : LedgerDb) (deltas : List (String × Int)) : Prop :=
  ∀ p ∈ deltas, ∀ a row, p.1 = Uuid.text a → d.get (.account a) = some row →
    inBigint (row.balanceCents + p.2) = true

theorem get_transaction_put {a : Uuid} (row : AccountRow) (t : LedgerStmt) (u : Uuid) :
    (((s.tag t).put (.account a) (some row)).view d).get (.transaction u)
      = (s.view d).get (.transaction u) := by
  rw [Session.view_put, Session.view_tag, Db.get_set_ne _ _ (by simp)]

/-- Another account's update leaves the rest of the deltas as they were. -/
theorem get_account_put {a b : Uuid} (h : a ≠ b) (row : AccountRow) (t : LedgerStmt) :
    (((s.tag t).put (.account a) (some row)).view d).get (.account b)
      = (s.view d).get (.account b) := by
  rw [Session.view_put, Session.view_tag, Db.get_set_ne _ _ fun he =>
    h (LedgerKey.account.inj he).symm]

/-- The updates go through or one overflows; no transaction is touched. -/
theorem exec_updateBalances (g : PUnit → LedgerProg β) : ∀ {deltas : List (String × Int)}
    {s : LedgerSession}, OnAccounts (s.view d) deltas → (deltas.map (·.1)).Nodup →
      (DeltasFit (s.view d) deltas ∧ ∃ s', (∀ u, (s'.view d).get (.transaction u)
            = (s.view d).get (.transaction u)) ∧
          ((deltas.forM fun p => AccountsRepository.updateBalance p.1 p.2).bind g).exec d none s
            = (g ⟨⟩).exec d none s') ∨
        (¬ DeltasFit (s.view d) deltas ∧ ∃ s', ((deltas.forM fun p =>
          AccountsRepository.updateBalance p.1 p.2).bind g).exec d none s = (.aborted, s')) := by
  intro deltas
  induction deltas with
  | nil =>
      intro s _ _
      exact Or.inl ⟨by simp [DeltasFit], s, fun _ => rfl, rfl⟩
  | cons p deltas ih =>
      intro s hon hnodup
      rw [List.map_cons, List.nodup_cons] at hnodup
      obtain ⟨a, row, hp, hrow⟩ := hon p List.mem_cons_self
      -- The other deltas are of other accounts.
      have hother : ∀ q ∈ deltas, ∀ b, q.1 = Uuid.text b → a ≠ b := by
        intro q hq b hb hab
        subst hab
        exact hnodup.1 (hp ▸ hb ▸ List.mem_map_of_mem hq)
      rw [List.forM, Prog.bind_eq, Prog.bind_assoc, hp, exec_updateBalance hrow]
      split
      · next hfit =>
          have hon' : OnAccounts (((s.tag .updateBalance).put (.account a)
              (some { row with balanceCents := row.balanceCents + p.2 })).view d) deltas := by
            intro q hq
            obtain ⟨b, row', hb, hrow'⟩ := hon q (List.mem_cons_of_mem _ hq)
            exact ⟨b, row', hb, by rw [get_account_put (hother q hq b hb), hrow']⟩
          have hiff : DeltasFit (s.view d) (p :: deltas) ↔
              DeltasFit (((s.tag .updateBalance).put (.account a)
                (some { row with balanceCents := row.balanceCents + p.2 })).view d) deltas := by
            constructor
            · intro h q hq b row' hb hrow'
              rw [get_account_put (hother q hq b hb)] at hrow'
              exact h q (List.mem_cons_of_mem _ hq) b row' hb hrow'
            · intro h q hq b row' hb hrow'
              rcases List.mem_cons.mp hq with rfl | hq
              · obtain rfl := Uuid.text_injective (hp.symm.trans hb)
                rw [hrow] at hrow'
                obtain rfl := Option.some.inj hrow'
                exact hfit
              · refine h q hq b row' hb ?_
                rw [get_account_put (hother q hq b hb), hrow']
          rw [hiff]
          refine (ih hon' hnodup.2).imp_left fun h => ?_
          obtain ⟨hfits, s', hframe, hrun⟩ := h
          exact ⟨hfits, s', fun u => (hframe u).trans (get_transaction_put _ _ u), hrun⟩
      · next hover =>
          exact Or.inr ⟨fun h => hover (h p List.mem_cons_self a row hp hrow), s, rfl⟩

/-! ## The checks before them -/

/-- An entry the loop lets through: on an account of the caller's, in its
currency, with an instrument exactly when its type needs one. -/
def Passes (d : LedgerDb) (user : AuthUser) (entry : TransactionEntryDto) : Prop :=
  ∃ a row, a.text = entry.account_id ∧ d.get (.account a) = some row ∧
    row.userId = user.id ∧ row.currency = entry.currency ∧
    TransactionsService.needsInstrument entry.type = TransactionsService.hasSymbol entry

/-- The problems a batch is refused with. -/
def Refusal : ApiError → Prop
  | .problem status _ _ => status = 403 ∨ status = 404 ∨ status = 422
  | _ => False

variable {accounts : List OwnedAccount} {user : AuthUser} {names : List String}

theorem checkEntry_ok_iff (hl : Loads names d accounts) {entry : TransactionEntryDto}
    (hname : entry.account_id ∈ names) :
    TransactionsService.checkEntry accounts user entry = .ok () ↔ Passes d user entry := by
  constructor
  · intro h
    rw [TransactionsService.checkEntry] at h
    split at h
    · simp at h
    next acc hfind =>
    obtain ⟨row, hrow, hacc⟩ := hl.sound acc (List.mem_of_find?_eq_some hfind)
    have hid : acc.id.text = entry.account_id := by simpa using List.find?_some hfind
    split at h
    · simp at h
    next howner =>
    have huser : acc.user_id = user.id := by
      by_contra hne
      rw [assertOwner, if_pos hne] at howner
      simp at howner
    split at h
    · simp at h
    next hcurrency =>
    split at h
    · simp at h
    next hsymbol =>
    rw [hacc] at huser hcurrency
    exact ⟨acc.id, row, hid, hrow, huser, not_not.mp hcurrency, not_not.mp hsymbol⟩
  · rintro ⟨a, row, ha, hrow, huser, hcurrency, hsymbol⟩
    have hcurrency' : ¬ (AccountsRepository.toDomain a row).currency ≠ entry.currency :=
      not_not.mpr hcurrency
    have howner : assertOwner (AccountsRepository.toDomain a row).user_id user
        ("account " ++ (AccountsRepository.toDomain a row).id.text) = .ok () := by
      rw [assertOwner]
      exact if_neg (not_not.mpr huser)
    rw [TransactionsService.checkEntry, ← ha, hl.find_some (ha ▸ hname) hrow]
    dsimp only
    rw [howner]
    dsimp only
    rw [if_neg hcurrency', if_neg (not_not.mpr hsymbol)]

theorem checkEntry_error {entry : TransactionEntryDto} {e : ApiError}
    (h : TransactionsService.checkEntry accounts user entry = .error e) : Refusal e := by
  rw [TransactionsService.checkEntry] at h
  split at h
  · obtain rfl := Except.error.inj h
    exact Or.inr (Or.inl rfl)
  · split at h
    · next howner =>
        obtain rfl := Except.error.inj h
        rw [assertOwner] at howner
        split at howner
        · obtain rfl := Except.error.inj howner
          exact Or.inl rfl
        · simp at howner
    · split at h
      · obtain rfl := Except.error.inj h
        exact Or.inr (Or.inr rfl)
      · split at h
        · obtain rfl := Except.error.inj h
          exact Or.inr (Or.inr rfl)
        · simp at h

/-- The loop stops at the first entry that does not pass. -/
theorem collect_cases (now : Instant) : ∀ {es : List (TransactionEntryDto × Uuid)}
    {batch : List Transaction} {deltas : List (String × Int)},
      (∃ e, TransactionsService.collect accounts user now es batch deltas = .error e ∧
          Refusal e ∧ ∃ x ∈ es, TransactionsService.checkEntry accounts user x.1 ≠ .ok ()) ∨
        (∃ r, TransactionsService.collect accounts user now es batch deltas = .ok r ∧
          ∀ x ∈ es, TransactionsService.checkEntry accounts user x.1 = .ok ()) := by
  intro es
  induction es with
  | nil =>
      intro batch deltas
      exact Or.inr ⟨_, rfl, by simp⟩
  | cons x es ih =>
      intro batch deltas
      obtain ⟨entry, id⟩ := x
      rw [TransactionsService.collect]
      cases hx : TransactionsService.checkEntry accounts user entry with
      | error e =>
          exact Or.inl ⟨e, rfl, checkEntry_error hx, _, List.mem_cons_self, by simp [hx]⟩
      | ok _ =>
          rcases @ih (batch ++ [TransactionsService.toBatch entry id now])
              (TransactionsService.addDelta entry.account_id
                (SIGN entry.type * entry.amount_cents) deltas)
            with ⟨e, he, hrefused, y, hy, hcheck⟩ | ⟨r, hr, hall⟩
          · exact Or.inl ⟨e, he, hrefused, y, List.mem_cons_of_mem _ hy, hcheck⟩
          · refine Or.inr ⟨r, hr, fun y hy => ?_⟩
            rcases List.mem_cons.mp hy with rfl | hy
            · exact hx
            · exact hall y hy

theorem findByIds_reads {texts : List String} (h : ∀ t ∈ texts, ∃ u, pgUuidIn t = some u) :
    ∃ f : LedgerDb → List OwnedAccount, (∀ d, Loads texts d (f d)) ∧
      ∀ {β : Type} (d : LedgerDb) (g : List OwnedAccount → LedgerProg β),
        ((AccountsRepository.findByIds texts).bind g).exec d none (Session.init [])
          = (g (f d)).exec d none (Session.init []) := by
  have hret : ∀ l : List String, (∀ t ∈ l, ∃ u, pgUuidIn t = some u) →
      ∃ us, l.mapM uuidParam = .ret us := by
    intro l
    induction l with
    | nil => exact fun _ => ⟨[], rfl⟩
    | cons t l ih =>
        intro hl
        obtain ⟨u, hu⟩ := hl t List.mem_cons_self
        obtain ⟨us, hus⟩ := ih fun t' ht' => hl t' (List.mem_cons_of_mem _ ht')
        exact ⟨u :: us, by rw [List.mapM_cons, uuidParam_eq_ret.mpr hu, hus]; rfl⟩
  refine (findByIds_cases texts).resolve_left ?_
  rintro ⟨e, he⟩
  rw [AccountsRepository.findByIds] at he
  split at he
  · simp at he
  · obtain ⟨us, hus⟩ := hret texts h
    rw [hus] at he
    simp [Prog.query, Prog.bind] at he

/-- `create` in two parts: what the checks say, and what follows them. -/
theorem exec_checks {input : CreateTransactionsDto} {ids : Nat → Uuid} {now : Instant}
    (hread : ∀ e ∈ input.entries, ∃ u, pgUuidIn e.account_id = some u)
    (g : List Transaction × List (String × Int) → LedgerProg β) {p : LedgerProg β}
    (hp : p = (AccountsRepository.findByIds (input.entries.map (·.account_id)).eraseDups).bind
      fun accounts => (orThrow (TransactionsService.collect accounts user now
        (drawn input ids) [] [])).bind g) :
    (∃ e, Refusal e ∧ (∃ x ∈ input.entries, ¬ Passes d user x) ∧
        p.exec d none (Session.init []) = (.raised e, Session.init [])) ∨
      ((∀ x ∈ input.entries, Passes d user x) ∧
        p.exec d none (Session.init [])
          = (g (drawnBatch input ids now, deltasOf input.entries)).exec d none
            (Session.init [])) := by
  obtain ⟨f, hloads, hexec⟩ := @findByIds_reads (input.entries.map (·.account_id)).eraseDups (by
    intro t ht
    rw [List.mem_eraseDups] at ht
    obtain ⟨e, he, rfl⟩ := List.mem_map.mp ht
    exact hread e he)
  have run : p.exec d none (Session.init [])
      = ((orThrow (TransactionsService.collect (f d) user now (drawn input ids) [] [])).bind
        g).exec d none (Session.init []) := hp ▸ hexec d _
  have hcheck : ∀ x ∈ input.entries,
      TransactionsService.checkEntry (f d) user x = .ok () ↔ Passes d user x := by
    intro x hx
    refine checkEntry_ok_iff (hloads d) ?_
    rw [List.mem_eraseDups]
    exact List.mem_map_of_mem hx
  rw [run]
  rcases @collect_cases (f d) user now (drawn input ids) [] []
    with ⟨e, he, hrefused, x, hx, hstop⟩ | ⟨r, hr, hall⟩
  · rw [he]
    exact Or.inl ⟨e, hrefused,
      ⟨x.1, mem_drawn hx, fun hp => hstop ((hcheck x.1 (mem_drawn hx)).mpr hp)⟩, rfl⟩
  · refine Or.inr ⟨fun x hx => ?_, ?_⟩
    · rw [← map_fst_drawn input ids] at hx
      obtain ⟨y, hy, rfl⟩ := List.mem_map.mp hx
      exact (hcheck y.1 (mem_drawn hy)).mp (hall y hy)
    · have hparts := TransactionsService.collect_ok hr
      rw [List.nil_append, map_fst_drawn] at hparts
      rw [hr, hparts]
      rfl

end InvestApi.Ref
