import InvestApi.Isolation.Requests

/-!
# A batch of transactions, twice

`TransactionsService.create` loads the accounts of its entries and checks the
entries in order. Over two databases that agree for the caller the checks come
out the same up to the first entry on an account that only the first database
has, and it is somebody else's there. Where every entry passes, every account of
the batch is the caller's, and so is all that is written.
-/

namespace InvestApi.Isolation

open InvestApi.Pg InvestApi.Ref

/-- `accounts` are the accounts of `d` among those the texts `ids` name. -/
structure Loads (ids : List String) (d : LedgerDb) (accounts : List OwnedAccount) : Prop where
  sound : ∀ acc ∈ accounts, ∃ row, d.get (.account acc.id) = some row
    ∧ acc = AccountsRepository.toDomain acc.id row
  complete : ∀ a row, a.text ∈ ids → d.get (.account a) = some row →
    AccountsRepository.toDomain a row ∈ accounts

section

variable {u : Uuid} {draws : List LedgerKey} {d d' : LedgerDb} {ids : List String}
  {accounts accounts' : List OwnedAccount} {user : AuthUser}

theorem mem_whereIdIn {us : List Uuid} {acc : OwnedAccount} :
    acc ∈ AccountsRepository.whereIdIn us d
      ↔ ∃ a row, a ∈ us ∧ d.get (.account a) = some row
        ∧ AccountsRepository.toDomain a row = acc := by
  rw [AccountsRepository.whereIdIn, List.mem_filterMap]
  constructor
  · rintro ⟨k, _, hk⟩
    cases k with
    | account a =>
        dsimp only at hk
        split at hk
        · next ha =>
            obtain ⟨row, hrow, hacc⟩ := Option.map_eq_some_iff.mp hk
            exact ⟨a, row, ha, hrow, hacc⟩
        · exact absurd hk (by simp)
    | transaction _ => exact absurd hk (by simp)
    | job _ => exact absurd hk (by simp)
  · rintro ⟨a, row, ha, hrow, hacc⟩
    refine ⟨.account a, (d.mem_keys _).mpr (by rw [hrow]; rfl), ?_⟩
    dsimp only
    rw [if_pos ha, hrow, Option.map_some, hacc]

theorem loads_whereIdIn {us : List Uuid}
    (hus : List.Forall₂ (fun text a => uuidParam text = .ret a) ids us) :
    Loads ids d (AccountsRepository.whereIdIn us d) where
  sound acc hacc := by
    obtain ⟨a, row, _, hrow, rfl⟩ := mem_whereIdIn.mp hacc
    exact ⟨row, hrow, rfl⟩
  complete a row htext hrow := by
    refine mem_whereIdIn.mpr ⟨a, row, ?_, hrow, rfl⟩
    induction hus with
    | nil => simp at htext
    | @cons text b ids us hb _ ih =>
        rcases List.mem_cons.mp htext with rfl | htext
        · have hread := uuidParam_eq_ret.mp hb
          rw [pgUuidIn_text] at hread
          injection hread with hread
          rw [hread]
          exact List.mem_cons_self
        · exact List.mem_cons_of_mem _ (ih htext)

/-- `findByIds` throws on a malformed id, and otherwise answers the accounts. -/
theorem findByIds_cases (ids : List String) :
    (∃ e, AccountsRepository.findByIds ids = .raise e)
      ∨ ∃ f : LedgerDb → List OwnedAccount, (∀ d, Loads ids d (f d))
        ∧ ∀ {β : Type} (d : LedgerDb) (g : List OwnedAccount → LedgerProg β),
          ((AccountsRepository.findByIds ids).bind g).exec d none (Session.init [])
            = (g (f d)).exec d none (Session.init []) := by
  rw [AccountsRepository.findByIds]
  split
  · next hempty =>
      refine Or.inr ⟨fun _ => [], fun d => ⟨by simp, ?_⟩, fun _ _ => rfl⟩
      intro a row htext
      rw [List.isEmpty_iff.mp hempty] at htext
      simp at htext
  · rcases Prog.mapM_value uuidParam_value ids with ⟨us, hus, hall⟩ | ⟨e, he⟩
    · refine Or.inr ⟨AccountsRepository.whereIdIn us, fun d => loads_whereIdIn hall, ?_⟩
      intro β d g
      rw [hus]
      rfl
    · refine Or.inl ⟨e, ?_⟩
      rw [he]
      rfl

/-! ## The loop over the entries -/

theorem Loads.find_some (h : Loads ids d accounts) {a : Uuid} {row : AccountRow}
    (htext : a.text ∈ ids) (hrow : d.get (.account a) = some row) :
    accounts.find? (fun acc => acc.id.text = a.text)
      = some (AccountsRepository.toDomain a row) := by
  cases hfind : accounts.find? (fun acc => acc.id.text = a.text) with
  | none =>
      have hnone := List.find?_eq_none.mp hfind _ (h.complete a row htext hrow)
      simp [AccountsRepository.toDomain] at hnone
  | some acc =>
      have hid : acc.id.text = a.text := by simpa using List.find?_some hfind
      obtain ⟨row', hrow', hacc⟩ := h.sound acc (List.mem_of_find?_eq_some hfind)
      rw [Uuid.text_injective hid] at hrow' hacc
      rw [hrow] at hrow'
      injection hrow' with hrow'
      rw [hacc, ← hrow']

theorem Loads.find_none (h : Loads ids d accounts) {text : String}
    (hnone : ∀ a, a.text = text → d.get (.account a) = none) :
    accounts.find? (fun acc => acc.id.text = text) = none := by
  rw [List.find?_eq_none]
  intro acc hacc hid
  obtain ⟨row, hrow, _⟩ := h.sound acc hacc
  rw [hnone acc.id (by simpa using hid)] at hrow
  exact absurd hrow (by simp)

/-- What one check answers in the two databases. -/
inductive PairedCheck {α : Type} (u : Uuid) (names : List LedgerKey) (d d' : LedgerDb) :
    Except ApiError α → Except ApiError α → Prop
  | same (x) : PairedCheck u names d d' x x
  | refused {k what code} (hk : k ∈ names) (hforeign : Foreign d u k)
      (hgone : d'.get k = none) :
      PairedCheck u names d d'
        (.error (.problem 403 "forbidden" (what ++ " belongs to another user")))
        (.error (.problem 404 code (what ++ " was not found")))

/-- A program that comes down to such a check, in one database and in the other. -/
theorem PairedCheck.paired {α β : Type} {names : List LedgerKey} {x x' : Except ApiError α}
    (hc : PairedCheck u names d d' x x') {p : LedgerProg β} {f : α → LedgerProg β}
    {s : LedgerSession} (hd : p.exec d none s = ((orThrow x).bind f).exec d none s)
    (hd' : p.exec d' none s = ((orThrow x').bind f).exec d' none s)
    (hf : ∀ a, x = .ok a → Paired u names draws d d' (f a) s) :
    Paired u names draws d d' p s := by
  cases hc with
  | same x =>
      refine Paired.of_exec ?_ hd hd'
      cases x with
      | error e => exact .raise e
      | ok a => exact hf a rfl
  | refused hk hforeign hgone => exact .of_hidden hk hforeign hgone hd hd' rfl rfl

theorem pairedCheck_entry (h : Agree user.id d d') (hl : Loads ids d accounts)
    (hl' : Loads ids d' accounts') {entry : TransactionEntryDto}
    (htext : entry.account_id ∈ ids) {names : List LedgerKey}
    (hname : ∀ a, pgUuidIn entry.account_id = some a → LedgerKey.account a ∈ names) :
    PairedCheck user.id names d d' (TransactionsService.checkEntry accounts user entry)
      (TransactionsService.checkEntry accounts' user entry) := by
  rw [TransactionsService.checkEntry, TransactionsService.checkEntry]
  by_cases hcanon : ∃ a : Uuid, a.text = entry.account_id
  · obtain ⟨a, ha⟩ := hcanon
    rw [← ha] at htext ⊢
    have hone : ∀ b : Uuid, b.text = a.text → b = a := fun b hb => Uuid.text_injective hb
    cases h.seenAccount a with
    | own hd hd' hu =>
        rw [hl.find_some htext hd, hl'.find_some htext hd']
        exact .same _
    | absent hd hd' =>
        rw [hl.find_none fun b hb => by rw [hone b hb, hd],
          hl'.find_none fun b hb => by rw [hone b hb, hd']]
        exact .same _
    | @foreign row row' hd hu hd' hu' =>
        rw [hl.find_some htext hd, hl'.find_some htext hd']
        dsimp only
        rw [show assertOwner (AccountsRepository.toDomain a row).user_id user _ = _ from
          assertOwner_foreign hu _, show assertOwner
          (AccountsRepository.toDomain a row').user_id user _ = _ from assertOwner_foreign hu' _]
        exact .same _
    | @hidden row hd hu hd' =>
        have hforeign : Foreign d user.id (.account a) := ⟨row, hd, hu⟩
        rw [hl.find_some htext hd, hl'.find_none fun b hb => by rw [hone b hb, hd']]
        dsimp only
        rw [show assertOwner (AccountsRepository.toDomain a row).user_id user _ = _ from
          assertOwner_foreign hu _]
        exact .refused (hname a (by rw [← ha, pgUuidIn_text])) hforeign hd'
  · have hnone : ∀ (d : LedgerDb) (a : Uuid), a.text = entry.account_id →
        d.get (.account a) = none := fun d a ha => absurd ⟨a, ha⟩ hcanon
    rw [hl.find_none (hnone d), hl'.find_none (hnone d')]
    exact .same _

theorem pairedCheck_collect (h : Agree user.id d d') (hl : Loads ids d accounts)
    (hl' : Loads ids d' accounts') {names : List LedgerKey} (now : Instant) :
    ∀ {es : List (TransactionEntryDto × Uuid)} (batch : List Transaction)
      (deltas : List (String × Int)), (∀ e ∈ es, e.1.account_id ∈ ids) →
      (∀ e ∈ es, ∀ a, pgUuidIn e.1.account_id = some a → LedgerKey.account a ∈ names) →
      PairedCheck user.id names d d'
        (TransactionsService.collect accounts user now es batch deltas)
        (TransactionsService.collect accounts' user now es batch deltas)
  | [], batch, deltas, _, _ => .same _
  | (entry, id) :: es, batch, deltas, hids, hnames => by
      have hentry := pairedCheck_entry h hl hl' (hids _ List.mem_cons_self)
        (hnames _ List.mem_cons_self)
      rw [TransactionsService.collect, TransactionsService.collect]
      generalize TransactionsService.checkEntry accounts user entry = x at hentry ⊢
      generalize TransactionsService.checkEntry accounts' user entry = x' at hentry ⊢
      cases hentry with
      | same =>
          cases x with
          | error e => exact .same _
          | ok _ =>
              exact pairedCheck_collect h hl hl' now _ _
                (fun e he => hids e (List.mem_cons_of_mem _ he))
                fun e he => hnames e (List.mem_cons_of_mem _ he)
      | refused hk hforeign hgone => exact .refused hk hforeign hgone

/-- An entry that passes is on an account of the caller's. -/
theorem owns_of_checkEntry (hl : Loads ids d accounts) {entry : TransactionEntryDto}
    (hok : TransactionsService.checkEntry accounts user entry = .ok ()) {a : Uuid}
    (ha : pgUuidIn entry.account_id = some a) : Owns d user.id a := by
  rw [TransactionsService.checkEntry] at hok
  cases hfind : accounts.find? (fun acc => acc.id.text = entry.account_id) with
  | none =>
      rw [hfind] at hok
      exact absurd hok (by simp)
  | some acc =>
      rw [hfind] at hok
      obtain ⟨row, hrow, hacc⟩ := hl.sound acc (List.mem_of_find?_eq_some hfind)
      have hid : acc.id.text = entry.account_id := by simpa using List.find?_some hfind
      rw [← hid, pgUuidIn_text] at ha
      injection ha with ha
      refine ⟨row, by rw [← ha, hrow], ?_⟩
      by_contra hu
      have hu' : acc.user_id ≠ user.id := by
        rw [hacc]
        exact hu
      dsimp only at hok
      rw [assertOwner_foreign hu'] at hok
      exact absurd hok (by simp)

theorem owns_of_collect (hl : Loads ids d accounts) {now : Instant} {r} :
    ∀ {es : List (TransactionEntryDto × Uuid)} {batch : List Transaction}
      {deltas : List (String × Int)},
      TransactionsService.collect accounts user now es batch deltas = .ok r →
      ∀ e ∈ es, ∀ a, pgUuidIn e.1.account_id = some a → Owns d user.id a
  | [], _, _, _ => by simp
  | (entry, id) :: es, batch, deltas, hok => by
      rw [TransactionsService.collect] at hok
      cases hentry : TransactionsService.checkEntry accounts user entry with
      | error e =>
          rw [hentry] at hok
          exact absurd hok (by simp)
      | ok _ =>
          rw [hentry] at hok
          intro e he a ha
          rcases List.mem_cons.mp he with rfl | he
          · exact owns_of_checkEntry hl hentry ha
          · exact owns_of_collect hl hok e he a ha

/-! ## The rows of the batch -/

theorem mem_batchRows {env : Env} {rates : List (String × Numeric)} {now : Instant}
    {r : KeyedRow LedgerRow} {transactions : List Transaction} {accountIds : List Uuid}
    (h : List.Forall₂ (fun tx a => uuidParam tx.account_id = .ret a) transactions accountIds) :
    ∀ {dates : List Instant}, r ∈ TransactionsRepository.batchRows env rates now
        (transactions.zip (accountIds.zip dates)) →
      ∃ tx ∈ transactions, ∃ a date, uuidParam tx.account_id = .ret a
        ∧ r = ⟨.transaction tx.id, TransactionsRepository.toRow env rates tx a date now⟩ := by
  induction h with
  | nil => intro dates hr; simp [TransactionsRepository.batchRows] at hr
  | @cons tx a transactions accountIds hta _ ih =>
      intro dates hr
      cases dates with
      | nil => simp [TransactionsRepository.batchRows] at hr
      | cons date dates =>
          rw [List.zip_cons_cons, List.zip_cons_cons, TransactionsRepository.batchRows,
            List.map_cons, List.mem_cons] at hr
          rcases hr with rfl | hr
          · exact ⟨tx, List.mem_cons_self, a, date, hta, rfl⟩
          · obtain ⟨tx', htx', rest⟩ := ih hr
            exact ⟨tx', List.mem_cons_of_mem _ htx', rest⟩

theorem within_saveMany (env : Env) {transactions : List Transaction} (now : Instant)
    (hdraws : ∀ tx ∈ transactions, LedgerKey.transaction tx.id ∈ draws)
    (hown : ∀ tx ∈ transactions, ∀ a, pgUuidIn tx.account_id = some a → Owns d u a) :
    (TransactionsRepository.saveMany env transactions now).Within (OwnKey d u draws)
      (OwnRow d u) := by
  rw [TransactionsRepository.saveMany]
  split
  · exact .ret ()
  split
  · exact .raise _
  refine .select (fun _ _ _ => rfl) fun _ => ?_
  show Prog.Within _ _ (ite _ _ _)
  split
  · exact .raise _
  rcases Prog.mapM_value (bookedDate_value env) transactions
    with ⟨dates, hdates, _⟩ | ⟨e, he⟩
  swap
  · rw [he]
    exact .raise e
  rw [hdates]
  refine .select (fun _ _ _ => rfl) fun _ => ?_
  refine (within_orThrow _).bind fun rates => ?_
  rcases Prog.mapM_value (fun tx : Transaction => uuidParam_value tx.account_id)
    transactions with ⟨accountIds, hids, ha⟩ | ⟨e, he⟩
  swap
  · rw [he]
    exact .raise e
  rw [hids]
  refine .insert (fun r hr => ?_) (fun d₁ d₂ heq => ?_) (.ret ())
  · obtain ⟨tx, htx, a, date, hta, rfl⟩ := mem_batchRows ha hr
    exact ⟨Or.inr (hdraws tx htx), hown tx htx a (uuidParam_eq_ret.mp hta)⟩
  · rw [Bool.eq_iff_iff, List.all_eq_true, List.all_eq_true]
    refine forall₂_congr fun r hr => ?_
    obtain ⟨tx, htx, a, date, hta, rfl⟩ := mem_batchRows ha hr
    dsimp only
    rw [transactionConstraints_congr d₂ (heq _ (Or.inl (hown tx htx a
      (uuidParam_eq_ret.mp hta))))]

theorem within_book (env : Env) (now : Instant) {es : List (TransactionEntryDto × Uuid)} {r}
    (hok : TransactionsService.collect accounts user now es [] [] = .ok r)
    (hdraws : ∀ e ∈ es, LedgerKey.transaction e.2 ∈ draws)
    (hown : ∀ e ∈ es, ∀ a, pgUuidIn e.1.account_id = some a → Owns d u a) :
    (book env now r).Within (OwnKey d u draws) (OwnRow d u) := by
  have hr := TransactionsService.collect_ok hok
  rw [List.nil_append] at hr
  rw [hr, book]
  refine (within_saveMany env now (fun tx htx => ?_) fun tx htx a ha => ?_).bind fun _ =>
    (Prog.Within.forM fun p hp => ?_).bind fun _ => .ret _
  · obtain ⟨e, he, rfl⟩ := List.mem_map.mp htx
    exact hdraws e he
  · obtain ⟨e, he, rfl⟩ := List.mem_map.mp htx
    exact hown e he a ha
  · refine within_updateBalance p.2 fun a ha => ?_
    obtain ⟨entry, hentry, hid⟩ := mem_deltasOf hp
    obtain ⟨e, he, rfl⟩ := List.mem_map.mp hentry
    exact hown e he a (hid ▸ ha)

theorem paired_createTransactions (env : Env) (h : Agree user.id d d')
    (input : CreateTransactionsDto) (ids : Nat → Uuid) (now : Instant)
    (hfresh : ∀ k ∈ (Request.createTransactions input user ids now).draws, d.get k = none) :
    Paired user.id (Request.createTransactions input user ids now).names
      (Request.createTransactions input user ids now).draws d d'
      (TransactionsService.create env input user ids now) (Session.init []) := by
  have hmem : ∀ e ∈ drawn input ids, e.1 ∈ input.entries
      ∧ LedgerKey.transaction e.2 ∈ (Request.createTransactions input user ids now).draws := by
    intro e he
    obtain ⟨n, hn, hid⟩ := id_of_drawn he
    exact ⟨mem_drawn he, List.mem_map.mpr ⟨n, List.mem_range.mpr hn, congrArg _ hid⟩⟩
  rcases findByIds_cases (input.entries.map (·.account_id)).eraseDups
    with ⟨e, he⟩ | ⟨f, hloads, hexec⟩
  · rw [TransactionsService.create, he]
    exact .raise e
  have run : ∀ d, (TransactionsService.create env input user ids now).exec d none
      (Session.init [])
        = ((orThrow (TransactionsService.collect (f d) user now (drawn input ids) [] [])).bind
          (book env now)).exec d none (Session.init []) := fun d => hexec d _
  have hids : ∀ e ∈ drawn input ids,
      e.1.account_id ∈ (input.entries.map (·.account_id)).eraseDups := by
    intro e he
    rw [List.mem_eraseDups]
    exact List.mem_map_of_mem (hmem e he).1
  have hnames : ∀ e ∈ drawn input ids, ∀ a, pgUuidIn e.1.account_id = some a →
      LedgerKey.account a ∈ (Request.createTransactions input user ids now).names :=
    fun e he a ha => List.mem_map_of_mem (List.mem_filterMap.mpr ⟨e.1, (hmem e he).1, ha⟩)
  refine (pairedCheck_collect h (hloads d) (hloads d') now [] [] hids hnames).paired
    (run d) (run d') fun r hok => ?_
  exact .of_within h hfresh (within_book env now hok (fun e he => (hmem e he).2)
    (owns_of_collect (hloads d) hok)) (.nil _ _)

end

end InvestApi.Isolation
