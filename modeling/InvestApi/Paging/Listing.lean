import InvestApi.Ref.Transactions

/-!
# What a list endpoint answers

`Listing` is one of the two keyset lists: which rows it is about, the instant
that leads their key, and what a row becomes on the wire. `Listing.page` is the
page a single snapshot gives.

`Reads` says of a request that it ends in an error or in a page, the page being
that of the snapshot its last SELECT read. Both services' `list` read so, from
the first page and from any cursor they have issued.
-/

namespace InvestApi.Paging

open InvestApi.Pg InvestApi.Ref

/-- The instant a row's key starts with. A job is in no list. -/
def sortInstant : (k : LedgerKey) → LedgerRow k → Instant
  | .account _, row => row.createdAt
  | .transaction _, row => row.bookedAt
  | .job _, row => row.createdAt

structure Listing (ρ T : Type) where
  table : Uuid → LedgerKey
  rows : LedgerDb → List (Uuid × ρ)
  instant : ρ → Instant
  wire : Uuid × ρ → T
  id : T → Uuid
  time : T → String
  table_injective : ∀ {u u'}, table u = table u' → u = u'
  nodup : ∀ d, ((rows d).map (·.1)).Nodup
  stored : ∀ {d r}, r ∈ rows d →
    ∃ v, d.get (table r.1) = some v ∧ sortInstant _ v = instant r.2
  id_wire : ∀ r, id (wire r) = r.1
  time_wire : ∀ r, time (wire r) = toISOString (instant r.2)

namespace Listing

variable {ρ T : Type} (L : Listing ρ T)

def key (r : Uuid × ρ) : SortKey := toLex ((L.instant r.2).timestamptz, r.1)

/-- The cursor a full page ends with. -/
def cursor (r : Uuid × ρ) : String := encodeCursor (toISOString (L.instant r.2)) r.1.text

def page (limit : Nat) (after : Option SortKey) (d : LedgerDb) : Page T :=
  let rows := Keyset.page L.key limit after (L.rows d)
  { items := rows.map L.wire
    next_cursor := if rows.length = limit then rows.getLast?.map L.cursor else none }

theorem next_cursor_full {limit : Nat} {after : Option SortKey} {d : LedgerDb}
    {r : Uuid × ρ} (hpage : Keyset.page L.key limit after (L.rows d) = [r])
    (hlimit : limit = 1) : (L.page limit after d).next_cursor = some (L.cursor r) := by
  rw [page, hpage, hlimit]
  rfl

theorem next_cursor_short {limit : Nat} {after : Option SortKey} {d : LedgerDb}
    (hshort : (Keyset.page L.key limit after (L.rows d)).length < limit) :
    (L.page limit after d).next_cursor = none := by
  rw [page]
  exact if_neg (by omega)

theorem nodup_key (d : LedgerDb) : ((L.rows d).map L.key).Nodup := by
  have hids := L.nodup d
  rw [List.Nodup, List.pairwise_map] at hids ⊢
  refine hids.imp fun hne heq => hne ?_
  exact congrArg (fun k : SortKey => (ofLex k).2) heq

end Listing

/-- Postgres reads the text of `t` as `t`. -/
def ReadsBack (env : Env) (t : Instant) : Prop :=
  env.pgTimestamptzIn (toISOString t) = some t.timestamptz

/-- The cursors a client following the pages has, and where they stand. -/
inductive CursorAt (env : Env) : Option String → Option SortKey → Prop
  | first : CursorAt env none none
  | issued {t : Instant} (u : Uuid) (ht : ReadsBack env t) :
      CursorAt env (some (encodeCursor (toISOString t) u.text))
        (some (toLex (t.timestamptz, u)))

theorem truthy_encodeCursor (sortKey id : String) :
    truthy (some (encodeCursor sortKey id)) = some (encodeCursor sortKey id) := by
  have hne : (encodeCursor sortKey id).isEmpty = false := by
    by_contra h
    have hempty : encodeCursor sortKey id = "" := by simpa using h
    have hread := decodeCursor_encodeCursor sortKey id
    rw [hempty, show decodeCursor "" = .error badCursor from rfl] at hread
    exact absurd hread (by simp)
  rw [truthy, Option.filter_some, hne]
  rfl

/-- A cursor of the server's own reaches the comparison as the key it names. -/
theorem CursorAt.params {env : Env} {cursor : Option String} {after : Option SortKey}
    (h : CursorAt env cursor after) :
    ∃ payload, cursorArgument cursor = .ok payload
      ∧ cursorParams env payload = .ret after := by
  cases h with
  | first => exact ⟨none, rfl, rfl⟩
  | @issued t u ht =>
      refine ⟨some ⟨toISOString t, u.text⟩, ?_, ?_⟩
      · rw [cursorArgument, truthy_encodeCursor]
        dsimp only
        rw [decodeCursor_encodeCursor]
        rfl
      · have hc : timestamptzParam env (toISOString t) = .ret t.timestamptz := by
          rw [timestamptzParam, ht]
        have hid : uuidParam u.text = .ret u := by rw [uuidParam, pgUuidIn_text]
        rw [cursorParams]
        dsimp only
        rw [hc, hid]
        rfl

/-- Whatever it reads on the way, the request ends in an error or in the page
of the snapshot it read last. -/
inductive Reads {T : Type} (page : LedgerDb → Page T) : LedgerProg (Page T) → Prop
  | raise (e : ApiError) : Reads page (.raise e)
  | last : Reads page (.query page)
  | check {next : LedgerDb → LedgerProg (Page T)} (h : ∀ d, Reads page (next d)) :
      Reads page (.select next)

/-- A query that tells the key of each row it makes gives a key once. -/
theorem map_filterMap_sublist {α β : Type} {f : α → Option β} {g : β → α}
    (h : ∀ a b, f a = some b → g b = a) : ∀ l : List α, ((l.filterMap f).map g).Sublist l
  | [] => by simp
  | a :: l => by
      have ih := map_filterMap_sublist h l
      rw [List.filterMap_cons]
      cases hf : f a with
      | none => exact ih.cons a
      | some b =>
          rw [List.map_cons, h a b hf]
          exact ih.cons_cons a

theorem nodup_ids {β : Type} {d : LedgerDb} {f : LedgerKey → Option (Uuid × β)}
    (table : Uuid → LedgerKey) (h : ∀ k r, f k = some r → table r.1 = k) :
    ((d.keys.filterMap f).map (·.1)).Nodup := by
  have hkeys : (((d.keys.filterMap f).map (·.1)).map table).Nodup := by
    rw [List.map_map]
    exact d.nodup.sublist (map_filterMap_sublist h d.keys)
  exact hkeys.of_map _

/-! ## The accounts of a user -/

theorem mem_ownedAccounts {userId : Uuid} {d : LedgerDb} {r : Uuid × AccountRow} :
    r ∈ AccountsRepository.ownedBy userId d
      ↔ d.get (.account r.1) = some r.2 ∧ r.2.userId = userId := by
  rw [AccountsRepository.ownedBy, List.mem_filterMap]
  constructor
  · rintro ⟨k, _, hk⟩
    match k with
    | .account u =>
        obtain ⟨row, hrow, hif⟩ := Option.bind_eq_some_iff.mp hk
        split at hif
        · next howner =>
            injection hif with hif
            subst hif
            exact ⟨hrow, howner⟩
        · exact absurd hif (by simp)
    | .transaction _ => exact absurd hk (by simp)
    | .job _ => exact absurd hk (by simp)
  · rintro ⟨hrow, howner⟩
    refine ⟨.account r.1, (d.mem_keys _).mpr (by rw [hrow]; rfl), ?_⟩
    dsimp only
    rw [hrow, Option.bind_some, if_pos howner]

def accounts (user : AuthUser) : Listing AccountRow Account where
  table := .account
  rows := AccountsRepository.ownedBy user.id
  instant row := row.createdAt
  wire r := (AccountsRepository.toDomain r.1 r.2).toAccount
  id := (·.id)
  time := (·.created_at)
  table_injective h := LedgerKey.account.inj h
  nodup d := by
    refine nodup_ids .account fun k r hk => ?_
    match k with
    | .account u =>
        obtain ⟨row, _, hif⟩ := Option.bind_eq_some_iff.mp hk
        split at hif
        · injection hif with hif
          rw [← hif]
        · exact absurd hif (by simp)
    | .transaction _ => exact absurd hk (by simp)
    | .job _ => exact absurd hk (by simp)
  stored h := ⟨_, (mem_ownedAccounts.mp h).1, rfl⟩
  id_wire _ := rfl
  time_wire _ := rfl

theorem accountsList_eq {env : Env} {cursor : Option String} {after : Option SortKey}
    (user : AuthUser) (limit : Nat) (h : CursorAt env cursor after) :
    AccountsService.list env user limit cursor
      = .query ((accounts user).page limit after) := by
  obtain ⟨payload, harg, hparams⟩ := h.params
  rw [AccountsService.list, harg]
  simp only [orThrow, AccountsRepository.findPage, Prog.bind_eq, Prog.bind, hparams,
    Prog.query, Prog.pure_eq]
  congr 1
  funext d
  rw [Listing.page, List.length_map, List.map_map, List.getLast?_map]
  simp only [Option.map_map]
  rfl

theorem reads_accounts {env : Env} {cursor : Option String} {after : Option SortKey}
    (user : AuthUser) (limit : Nat) (h : CursorAt env cursor after) :
    Reads ((accounts user).page limit after)
      (AccountsService.list env user limit cursor) := by
  rw [accountsList_eq user limit h]
  exact .last

/-! ## The transactions of a user -/

theorem mem_ownedTransactions {userId : Uuid} {account : Option Uuid} {d : LedgerDb}
    {r : Uuid × TransactionRow} :
    r ∈ TransactionsRepository.ownedBy userId account d
      ↔ d.get (.transaction r.1) = some r.2
        ∧ (∃ owner, d.get (.account r.2.accountId) = some owner ∧ owner.userId = userId)
        ∧ ∀ a, account = some a → r.2.accountId = a := by
  have hif : ∀ row : TransactionRow,
      ((d.get (.account row.accountId)).any (fun owner => owner.userId = userId)
        && account.all (fun a => row.accountId = a)) = true
      ↔ (∃ owner, d.get (.account row.accountId) = some owner ∧ owner.userId = userId)
        ∧ ∀ a, account = some a → row.accountId = a := by
    intro row
    rw [Bool.and_eq_true, Option.any_eq_true, Option.all_eq_true]
    simp only [decide_eq_true_eq]
  rw [TransactionsRepository.ownedBy, List.mem_filterMap]
  constructor
  · rintro ⟨k, _, hk⟩
    match k with
    | .transaction u =>
        obtain ⟨row, hrow, hk⟩ := Option.bind_eq_some_iff.mp hk
        split at hk
        · next howner =>
            injection hk with hk
            subst hk
            exact ⟨hrow, (hif row).mp howner⟩
        · exact absurd hk (by simp)
    | .account _ => exact absurd hk (by simp)
    | .job _ => exact absurd hk (by simp)
  · rintro ⟨hrow, howner⟩
    refine ⟨.transaction r.1, (d.mem_keys _).mpr (by rw [hrow]; rfl), ?_⟩
    dsimp only
    rw [hrow, Option.bind_some, if_pos ((hif r.2).mpr howner)]

def transactions (env : Env) (user : AuthUser) (account : Option Uuid) :
    Listing TransactionRow TransactionResponse where
  table := .transaction
  rows := TransactionsRepository.ownedBy user.id account
  instant row := row.bookedAt
  wire r := TransactionsService.toWire env (TransactionsRepository.toDomain env r.1 r.2)
  id := (·.id)
  time := (·.booked_at)
  table_injective h := LedgerKey.transaction.inj h
  nodup d := by
    refine nodup_ids .transaction fun k r hk => ?_
    match k with
    | .transaction u =>
        obtain ⟨row, _, hk⟩ := Option.bind_eq_some_iff.mp hk
        split at hk
        · injection hk with hk
          rw [← hk]
        · exact absurd hk (by simp)
    | .account _ => exact absurd hk (by simp)
    | .job _ => exact absurd hk (by simp)
  stored h := ⟨_, (mem_ownedTransactions.mp h).1, rfl⟩
  id_wire _ := rfl
  time_wire _ := rfl

/-- The account the optional filter names. -/
def filterAccount (accountId : Option String) : Option Uuid :=
  (truthy accountId).bind pgUuidIn

theorem accountParam_cases (accountId : Option String) :
    TransactionsRepository.accountParam (truthy accountId) = .ret (filterAccount accountId)
      ∨ ∃ e, TransactionsRepository.accountParam (truthy accountId) = .raise e := by
  rw [filterAccount]
  cases truthy accountId with
  | none => exact Or.inl rfl
  | some a =>
      rw [TransactionsRepository.accountParam, uuidParam, Option.bind_some]
      cases pgUuidIn a with
      | none => exact Or.inr ⟨_, rfl⟩
      | some u => exact Or.inl rfl

/-- The check on the account reads one snapshot; what follows it reads its own. -/
theorem reads_checkAccount {T : Type} {page : LedgerDb → Page T} (user : AuthUser)
    (accountId : Option String) {rest : LedgerProg (Page T)} (h : Reads page rest) :
    Reads page ((TransactionsService.checkAccount user accountId).bind fun _ => rest) := by
  match accountId with
  | none => exact h
  | some a =>
      rw [TransactionsService.checkAccount, AccountsRepository.findById, uuidParam]
      cases pgUuidIn a with
      | none => exact .raise _
      | some u =>
          refine .check fun d => ?_
          dsimp only [Prog.bind]
          cases d.get (.account u) with
          | none => exact .raise _
          | some row =>
              simp only [Option.map_some, assertOwner]
              split
              · exact .raise _
              · exact h

theorem transactionsList_eq {env : Env} {cursor : Option String}
    {after : Option SortKey} (user : AuthUser) (limit : Nat) {accountId : Option String}
    (h : CursorAt env cursor after)
    (haccount : TransactionsRepository.accountParam (truthy accountId)
      = .ret (filterAccount accountId)) :
    TransactionsService.list env user limit cursor accountId
      = (TransactionsService.checkAccount user (truthy accountId)).bind fun _ =>
          .query ((transactions env user (filterAccount accountId)).page limit after) := by
  obtain ⟨payload, harg, hparams⟩ := h.params
  rw [TransactionsService.list, harg]
  simp only [orThrow, TransactionsRepository.findPage, Prog.bind_eq, Prog.bind, haccount,
    hparams, Prog.query, Prog.pure_eq]
  congr 1
  funext _
  congr 1
  funext d
  rw [Listing.page, List.length_map, List.map_map, List.getLast?_map]
  simp only [Option.map_map]
  rfl

theorem reads_transactions {env : Env} {cursor : Option String} {after : Option SortKey}
    (user : AuthUser) (limit : Nat) (accountId : Option String)
    (h : CursorAt env cursor after) :
    Reads ((transactions env user (filterAccount accountId)).page limit after)
      (TransactionsService.list env user limit cursor accountId) := by
  rcases accountParam_cases accountId with haccount | ⟨e, haccount⟩
  · rw [transactionsList_eq user limit h haccount]
    exact reads_checkAccount user _ .last
  · obtain ⟨payload, harg, _⟩ := h.params
    rw [TransactionsService.list, harg]
    refine reads_checkAccount user _ ?_
    simp only [orThrow, TransactionsRepository.findPage, Prog.bind_eq, Prog.bind, haccount]
    exact .raise e

end InvestApi.Paging
