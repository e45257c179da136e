import InvestApi.Isolation.Agree
import InvestApi.Ledger.Booking
import InvestApi.Paging.Listing
import InvestApi.Ref.Requests

/-!
# One request, twice

A request of `u` over two databases that agree for `u` does the same in both, or
it names a row of somebody else that only the first one has: then it is
forbidden there and finds nothing here. The operations reach their rows in three
ways, and each is looked at once: a query for `u`'s rows finds the same rows, a
row loaded by id is the caller's in both or is refused, and what is written
afterwards is written to rows of `u` by a program that reads no others.
-/

namespace InvestApi.Isolation

open InvestApi.Pg InvestApi.Ref

/-- The row at `k` belongs to somebody other than `u`. -/
def Foreign (d : LedgerDb) (u : Uuid) : LedgerKey → Prop
  | .account id => ∃ row, d.get (.account id) = some row ∧ row.userId ≠ u
  | .transaction id => ∃ t row, d.get (.transaction id) = some t
      ∧ d.get (.account t.accountId) = some row ∧ row.userId ≠ u
  | .job _ => False

/-- The answers to a request that names a row of somebody else's, where the row
is and where it is not. -/
inductive Refused {α : Type} (u : Uuid) (names : List LedgerKey) (d d' : LedgerDb) :
    Finish ApiError α → Finish ApiError α → Prop
  | mk {k what code} (hk : k ∈ names) (hforeign : Foreign d u k) (hgone : d'.get k = none) :
      Refused u names d d'
        (.raised (.problem 403 "forbidden" (what ++ " belongs to another user")))
        (.raised (.problem 404 code (what ++ " was not found")))

inductive Paired {α : Type} (u : Uuid) (names draws : List LedgerKey) (d d' : LedgerDb)
    (p : LedgerProg α) (s : LedgerSession) : Prop
  | same (h : p.Twice (OwnKey d u draws) (OwnRow d u) d d' s)
  | failed {e t t'} (hd : p.exec d none s = (.raised e, t))
      (hd' : p.exec d' none s = (.raised e, t'))
  | refused (h : Refused u names d d' (p.exec d none s).1 (p.exec d' none s).1)

section

variable {α β : Type} {u : Uuid} {names draws : List LedgerKey} {d d' : LedgerDb}
  {s : LedgerSession}

theorem Paired.ret (a : α) : Paired u names draws d d' (.ret a) s :=
  .same (.stop rfl rfl (List.append_nil _).symm (.nil _ _))

theorem Paired.raise (e : ApiError) : Paired u names draws d d' (.raise e : LedgerProg α) s :=
  .same (.stop rfl rfl (List.append_nil _).symm (.nil _ _))

theorem Refused.bind {p : LedgerProg α} (f : α → LedgerProg β)
    (h : Refused u names d d' (p.exec d none s).1 (p.exec d' none s).1) :
    Refused u names d d' ((p.bind f).exec d none s).1 ((p.bind f).exec d' none s).1 := by
  rw [Prog.exec_bind, Prog.exec_bind]
  generalize p.exec d none s = x at h ⊢
  generalize p.exec d' none s = x' at h ⊢
  obtain ⟨r, t⟩ := x
  obtain ⟨r', t'⟩ := x'
  cases h with
  | mk hk hforeign hgone => exact .mk hk hforeign hgone

theorem Paired.bind {p : LedgerProg α} {f : α → LedgerProg β}
    (h : Paired u names draws d d' p s)
    (hf : ∀ a s', p.exec d none s = (.committed a, s') →
      Paired u names draws d d' (f a) s') :
    Paired u names draws d d' (p.bind f) s := by
  cases h with
  | refused h => exact .refused (h.bind f)
  | @failed e t t' hd hd' =>
      have hr := Prog.exec_bind p f d s
      have hr' := Prog.exec_bind p f d' s
      rw [hd] at hr
      rw [hd'] at hr'
      exact .failed hr hr'
  | same h =>
      cases hp : p.exec d none s with
      | mk r s' =>
          cases r with
          | committed a =>
              cases hf a s' hp with
              | same hfa =>
                  refine .same (h.bind fun a' s'' h' => ?_)
                  rw [hp] at h'
                  injection h' with h₁ h₂
                  injection h₁ with h₁
                  subst h₁ h₂
                  exact hfa
              | failed hd hd' =>
                  have hr := Prog.exec_bind p f d s
                  have hr' := Prog.exec_bind p f d' s
                  rw [← h.same] at hr'
                  rw [hp] at hr hr'
                  exact .failed (hr.trans hd) (hr'.trans hd')
              | refused hfa =>
                  refine .refused ?_
                  have hp' := h.same
                  rw [hp] at hp'
                  rw [Prog.exec_bind, Prog.exec_bind, hp, ← hp']
                  exact hfa
          | raised e => exact .same (h.bind fun a' s'' h' => by rw [hp] at h'; simp at h')
          | aborted => exact .same (h.bind fun a' s'' h' => by rw [hp] at h'; simp at h')

/-- What becomes of the answer does not matter. -/
theorem Paired.map {p : LedgerProg α} (f : α → β) (h : Paired u names draws d d' p s) :
    Paired u names draws d d' (p.bind fun a => .ret (f a)) s :=
  h.bind fun _ _ _ => .ret _

/-- A check that asks the database nothing. -/
theorem Paired.check {p : LedgerProg α} {f : α → LedgerProg β}
    (hp : (∃ a, p = .ret a) ∨ ∃ e, p = .raise e)
    (hf : ∀ a, Paired u names draws d d' (f a) s) :
    Paired u names draws d d' (p.bind f) s := by
  rcases hp with ⟨a, rfl⟩ | ⟨e, rfl⟩
  · exact hf a
  · exact .raise e

theorem orThrow_check (x : Except ApiError α) :
    (∃ a, (orThrow x) = .ret a) ∨ ∃ e, (orThrow x) = .raise e := by
  cases x with
  | ok a => exact Or.inl ⟨a, rfl⟩
  | error e => exact Or.inr ⟨e, rfl⟩

/-! ## Rows loaded by id -/

/-- What the two databases may hold under one account id. -/
inductive SeenAccount (u : Uuid) (d d' : LedgerDb) (a : Uuid) : Prop
  | own {row} (hd : d.get (.account a) = some row) (hd' : d'.get (.account a) = some row)
      (hu : row.userId = u)
  | absent (hd : d.get (.account a) = none) (hd' : d'.get (.account a) = none)
  | foreign {row row'} (hd : d.get (.account a) = some row) (hu : row.userId ≠ u)
      (hd' : d'.get (.account a) = some row') (hu' : row'.userId ≠ u)
  | hidden {row} (hd : d.get (.account a) = some row) (hu : row.userId ≠ u)
      (hd' : d'.get (.account a) = none)

theorem Agree.seenAccount (h : Agree u d d') (a : Uuid) : SeenAccount u d d' a := by
  cases hd : d.get (.account a) with
  | none => exact .absent hd (h.fewer _ hd)
  | some row =>
      by_cases hu : row.userId = u
      · exact .own hd ((h.account a row hu).mp hd) hu
      · cases hd' : d'.get (.account a) with
        | none => exact .hidden hd hu hd'
        | some row' =>
            refine .foreign hd hu hd' fun hu' => hu ?_
            have hboth := (h.account a row' hu').mpr hd'
            rw [hd] at hboth
            injection hboth with hboth
            rw [hboth, hu']

/-- And under one transaction id, with its owner. -/
inductive SeenTransaction (u : Uuid) (d d' : LedgerDb) (a : Uuid) : Prop
  | own {t row} (hd : d.get (.transaction a) = some t)
      (hacc : d.get (.account t.accountId) = some row)
      (hd' : d'.get (.transaction a) = some t)
      (hacc' : d'.get (.account t.accountId) = some row) (hu : row.userId = u)
  | absent (hd : d.get (.transaction a) = none) (hd' : d'.get (.transaction a) = none)
  | foreign {t row t' row'} (hd : d.get (.transaction a) = some t)
      (hacc : d.get (.account t.accountId) = some row) (hu : row.userId ≠ u)
      (hd' : d'.get (.transaction a) = some t')
      (hacc' : d'.get (.account t'.accountId) = some row') (hu' : row'.userId ≠ u)
  | hidden {t row} (hd : d.get (.transaction a) = some t)
      (hacc : d.get (.account t.accountId) = some row) (hu : row.userId ≠ u)
      (hd' : d'.get (.transaction a) = none)

theorem Agree.seenTransaction (h : Agree u d d') (a : Uuid) : SeenTransaction u d d' a := by
  cases hd : d.get (.transaction a) with
  | none => exact .absent hd (h.fewer _ hd)
  | some t =>
      obtain ⟨row, hrow⟩ := h.linked a t hd
      by_cases hu : row.userId = u
      · have hboth := (h.transaction a t).mp ⟨hd, row, hrow, hu⟩
        exact .own hd hrow hboth.1 ((h.account _ row hu).mp hrow) hu
      · cases hd' : d'.get (.transaction a) with
        | none => exact .hidden hd hrow hu hd'
        | some t' =>
            obtain ⟨row', hrow'⟩ := h.linked' a t' hd'
            refine .foreign hd hrow hu hd' hrow' fun hu' => hu ?_
            obtain ⟨ht, row'', hrow'', hu''⟩ :=
              (h.transaction a t').mpr ⟨hd', row', hrow', hu'⟩
            rw [hd] at ht
            injection ht with ht
            rw [← ht, hrow] at hrow''
            injection hrow'' with hrow''
            rw [hrow'', hu'']

theorem assertOwner_own {owner : Uuid} {user : AuthUser} (hu : owner = user.id)
    (what : String) : assertOwner owner user what = .ok () :=
  if_neg fun hne => hne hu

theorem assertOwner_foreign {owner : Uuid} {user : AuthUser} (hu : owner ≠ user.id)
    (what : String) : assertOwner owner user what
      = .error (.problem 403 "forbidden" (what ++ " belongs to another user")) :=
  if_pos hu

/-- A program that comes down to one in `d` and to the same one in `d'`. -/
theorem Paired.of_exec {p q : LedgerProg α} (h : Paired u names draws d d' q s)
    (hd : p.exec d none s = q.exec d none s) (hd' : p.exec d' none s = q.exec d' none s) :
    Paired u names draws d d' p s := by
  cases h with
  | same h => exact .same (h.of_eq hd hd' (List.append_nil _).symm (.nil _ _))
  | failed h h' => exact .failed (hd.trans h) (hd'.trans h')
  | refused h =>
      refine .refused ?_
      rw [hd, hd']
      exact h

/-- A program that is refused in `d` and finds nothing in `d'`. -/
theorem Paired.of_hidden {p q q' : LedgerProg α} {k : LedgerKey} {what code : String}
    (hk : k ∈ names) (hforeign : Foreign d u k) (hgone : d'.get k = none)
    (hd : p.exec d none s = q.exec d none s) (hd' : p.exec d' none s = q'.exec d' none s)
    (hq : q = .raise (.problem 403 "forbidden" (what ++ " belongs to another user")))
    (hq' : q' = .raise (.problem 404 code (what ++ " was not found"))) :
    Paired u names draws d d' p s := by
  refine .refused ?_
  rw [hd, hd', hq, hq']
  exact .mk hk hforeign hgone

theorem exec_findById {id : String} {a : Uuid} (ha : pgUuidIn id = some a)
    {x : Option AccountRow} (hx : d.get (.account a) = x)
    (f : Option OwnedAccount → LedgerProg β) :
    ((AccountsRepository.findById id).bind f).exec d none (Session.init [])
      = (f (x.map (AccountsRepository.toDomain a))).exec d none (Session.init []) := by
  rw [AccountsRepository.findById, uuidParam, ha, ← hx]
  rfl

/-- An account loaded by its id and then compared: 404 for no such row, 403 for
somebody else's. -/
theorem paired_ownAccount {user : AuthUser} (h : Agree user.id d d') {id : String}
    (hname : ∀ a, pgUuidIn id = some a → LedgerKey.account a ∈ names)
    {f : Option OwnedAccount → LedgerProg β} {g : OwnedAccount → LedgerProg β}
    (hnone : f none = .raise (accountNotFound id))
    (hsome : ∀ acc, f (some acc)
      = (orThrow (assertOwner acc.user_id user ("account " ++ id))).bind fun _ => g acc)
    (hg : ∀ acc, Paired user.id names draws d d' (g acc) (Session.init [])) :
    Paired user.id names draws d d' ((AccountsRepository.findById id).bind f)
      (Session.init []) := by
  cases ha : pgUuidIn id with
  | none =>
      rw [AccountsRepository.findById, uuidParam, ha]
      exact .raise _
  | some a =>
      have hown : ∀ row : AccountRow, row.userId = user.id →
          f (some (AccountsRepository.toDomain a row))
            = g (AccountsRepository.toDomain a row) := by
        intro row hu
        rw [hsome]
        exact congrArg (fun x => (orThrow x).bind fun _ => g _) (assertOwner_own hu _)
      have hbad : ∀ row : AccountRow, row.userId ≠ user.id →
          f (some (AccountsRepository.toDomain a row))
            = .raise (.problem 403 "forbidden"
                ("account " ++ id ++ " belongs to another user")) := by
        intro row hu
        rw [hsome]
        exact congrArg (fun x => (orThrow x).bind fun _ => g _) (assertOwner_foreign hu _)
      cases h.seenAccount a with
      | @own row hd hd' hu =>
          refine Paired.of_exec ?_ (exec_findById ha hd f) (exec_findById ha hd' f)
          rw [Option.map_some, hown row hu]
          exact hg _
      | absent hd hd' =>
          refine Paired.of_exec ?_ (exec_findById ha hd f) (exec_findById ha hd' f)
          rw [Option.map_none, hnone]
          exact .raise _
      | @foreign row row' hd hu hd' hu' =>
          have hr := exec_findById ha hd f
          have hr' := exec_findById ha hd' f
          rw [Option.map_some, hbad row hu] at hr
          rw [Option.map_some, hbad row' hu'] at hr'
          exact Paired.of_exec (.raise _) hr hr'
      | @hidden row hd hu hd' =>
          exact .of_hidden (hname a ha) ⟨row, hd, hu⟩ hd' (exec_findById ha hd f)
            (exec_findById ha hd' f) (hbad row hu) hnone

theorem paired_getAccount {user : AuthUser} (h : Agree user.id d d') (accountId : String) :
    Paired user.id ((pgUuidIn accountId).toList.map .account) draws d d'
      (AccountsService.getById accountId user) (Session.init []) := by
  rw [AccountsService.getById]
  refine paired_ownAccount h ?_ rfl (fun _ => rfl) fun acc => .ret acc.toAccount
  intro a ha
  rw [ha]
  simp

theorem paired_checkAccount {user : AuthUser} (h : Agree user.id d d')
    {accountId : Option String} (hname : ∀ id a, accountId = some id → pgUuidIn id = some a →
      LedgerKey.account a ∈ names) {rest : LedgerProg β}
    (hrest : Paired user.id names draws d d' rest (Session.init [])) :
    Paired user.id names draws d d'
      ((TransactionsService.checkAccount user accountId).bind fun _ => rest)
      (Session.init []) := by
  match accountId with
  | none => exact hrest
  | some id =>
      rw [TransactionsService.checkAccount, Prog.bind_eq, Prog.bind_assoc]
      exact paired_ownAccount h (fun a ha => hname id a rfl ha) rfl (fun _ => rfl)
        fun _ => hrest

/-- The body of `getById` on a transaction that is there, down to its check. -/
theorem exec_getTransaction (env : Env) (user : AuthUser) {transactionId : String} {a : Uuid}
    (ha : pgUuidIn transactionId = some a) {t : TransactionRow} {row : AccountRow}
    (ht : d.get (.transaction a) = some t) (hrow : d.get (.account t.accountId) = some row) :
    (TransactionsService.getById env transactionId user).exec d none (Session.init [])
      = ((orThrow (assertOwner row.userId user ("transaction " ++ transactionId))).bind
          fun _ => .ret (TransactionsService.toWire env
            (TransactionsRepository.toDomain env a t))).exec d none (Session.init []) := by
  simp only [TransactionsService.getById, TransactionsRepository.findById,
    AccountsRepository.findById, uuidParam, ha, Prog.bind_eq, Prog.bind, Prog.query, Prog.exec,
    Session.view_init, ht, Option.map_some, TransactionsRepository.toDomain, pgUuidIn_text,
    hrow, Option.map_none]
  rfl

theorem exec_getTransaction_none (env : Env) (user : AuthUser) {transactionId : String}
    {a : Uuid} (ha : pgUuidIn transactionId = some a) (ht : d.get (.transaction a) = none) :
    (TransactionsService.getById env transactionId user).exec d none (Session.init [])
      = (Prog.raise (.problem 404 "transaction-not-found"
          ("transaction " ++ transactionId ++ " was not found")) : LedgerProg
            TransactionResponse).exec d none (Session.init []) := by
  simp only [TransactionsService.getById, TransactionsRepository.findById, uuidParam, ha,
    Prog.bind_eq, Prog.bind, Prog.query, Prog.exec, Session.view_init, ht, Option.map_none]

theorem paired_getTransaction {env : Env} {user : AuthUser} (h : Agree user.id d d')
    (transactionId : String) :
    Paired user.id ((pgUuidIn transactionId).toList.map .transaction) draws d d'
      (TransactionsService.getById env transactionId user) (Session.init []) := by
  cases ha : pgUuidIn transactionId with
  | none =>
      rw [TransactionsService.getById, TransactionsRepository.findById, uuidParam, ha]
      exact .raise _
  | some a =>
      cases h.seenTransaction a with
      | own hd hacc hd' hacc' hu =>
          refine Paired.of_exec ?_ (exec_getTransaction env user ha hd hacc)
            (exec_getTransaction env user ha hd' hacc')
          exact .check (orThrow_check _) fun _ => .ret _
      | absent hd hd' =>
          exact Paired.of_exec (.raise _) (exec_getTransaction_none env user ha hd)
            (exec_getTransaction_none env user ha hd')
      | foreign hd hacc hu hd' hacc' hu' =>
          have hr := exec_getTransaction env user ha hd hacc
          have hr' := exec_getTransaction env user ha hd' hacc'
          rw [assertOwner_foreign hu] at hr
          rw [assertOwner_foreign hu'] at hr'
          exact Paired.of_exec (.raise _) hr hr'
      | @hidden t row hd hacc hu hd' =>
          have hforeign : Foreign d user.id (.transaction a) := ⟨t, row, hd, hacc, hu⟩
          refine .of_hidden (by simp) hforeign hd'
            (exec_getTransaction env user ha hd hacc)
            (exec_getTransaction_none env user ha hd') ?_ rfl
          rw [assertOwner_foreign hu]
          rfl

/-! ## Queries for the user's rows -/

theorem paired_query {f : LedgerDb → α} (hf : f d = f d') (g : α → β) :
    Paired u names draws d d' ((Prog.query f).bind fun a => .ret (g a)) (Session.init []) := by
  have hd' : ((Prog.query f).bind fun a => .ret (g a) : LedgerProg β).exec d' none
      (Session.init []) = (.committed (g (f d)), Session.init []) := by
    rw [hf]
    rfl
  exact .same (.stop rfl hd' (List.append_nil _).symm (.nil _ _))

theorem cursorParams_check (env : Env) (cursor : Option CursorPayload) :
    (∃ a, cursorParams env cursor = .ret a) ∨ ∃ e, cursorParams env cursor = .raise e := by
  match cursor with
  | none => exact Or.inl ⟨none, rfl⟩
  | some payload =>
      rw [cursorParams, timestamptzParam]
      cases env.pgTimestamptzIn payload.c with
      | none => exact Or.inr ⟨_, rfl⟩
      | some t =>
          rcases uuidParam_value payload.id with ⟨a, ha⟩ | ⟨e, he⟩
          · rw [ha]
            exact Or.inl ⟨_, rfl⟩
          · rw [he]
            exact Or.inr ⟨_, rfl⟩

theorem Agree.perm_accounts {user : AuthUser} (h : Agree user.id d d') :
    (AccountsRepository.ownedBy user.id d).Perm (AccountsRepository.ownedBy user.id d') := by
  have hn := fun d => ((Paging.accounts user).nodup d).of_map
  refine (List.perm_ext_iff_of_nodup (hn d) (hn d')).mpr fun r => ?_
  show r ∈ AccountsRepository.ownedBy user.id d ↔ r ∈ AccountsRepository.ownedBy user.id d'
  rw [Paging.mem_ownedAccounts, Paging.mem_ownedAccounts]
  exact and_congr_left fun hu => h.account r.1 r.2 hu

theorem Agree.perm_transactions {user : AuthUser} (env : Env) (h : Agree user.id d d')
    (account : Option Uuid) :
    (TransactionsRepository.ownedBy user.id account d).Perm
      (TransactionsRepository.ownedBy user.id account d') := by
  have hn := fun d => ((Paging.transactions env user account).nodup d).of_map
  refine (List.perm_ext_iff_of_nodup (hn d) (hn d')).mpr fun r => ?_
  show r ∈ TransactionsRepository.ownedBy user.id account d
    ↔ r ∈ TransactionsRepository.ownedBy user.id account d'
  rw [Paging.mem_ownedTransactions, Paging.mem_ownedTransactions, ← and_assoc, ← and_assoc]
  exact and_congr_left fun _ => h.transaction r.1 r.2

theorem paired_listAccounts {env : Env} {user : AuthUser} (h : Agree user.id d d')
    (limit : Nat) (cursor : Option String) :
    Paired user.id names draws d d' (AccountsService.list env user limit cursor)
      (Session.init []) := by
  have hpage : ∀ after, Keyset.page AccountsRepository.sortKey limit after
        (AccountsRepository.ownedBy user.id d)
      = Keyset.page AccountsRepository.sortKey limit after
        (AccountsRepository.ownedBy user.id d') :=
    fun after => Keyset.page_perm h.perm_accounts ((Paging.accounts user).nodup_key d)
  rw [AccountsService.list]
  refine .check (orThrow_check _) fun payload => ?_
  rw [AccountsRepository.findPage, Prog.bind_eq, Prog.bind_eq, Prog.bind_assoc]
  refine .check (cursorParams_check env payload) fun after => ?_
  refine paired_query ?_ _
  rw [hpage]

theorem paired_listTransactions {env : Env} {user : AuthUser} (h : Agree user.id d d')
    (limit : Nat) (cursor accountId : Option String) :
    Paired user.id (((truthy accountId).bind pgUuidIn).toList.map .account) draws d d'
      (TransactionsService.list env user limit cursor accountId) (Session.init []) := by
  have hpage : ∀ account after, Keyset.page TransactionsRepository.sortKey limit after
        (TransactionsRepository.ownedBy user.id account d)
      = Keyset.page TransactionsRepository.sortKey limit after
        (TransactionsRepository.ownedBy user.id account d') :=
    fun account after => Keyset.page_perm (h.perm_transactions env account)
      ((Paging.transactions env user account).nodup_key d)
  rw [TransactionsService.list]
  refine paired_checkAccount h (fun id a hid ha => ?_) ?_
  · rw [hid, Option.bind_some, ha]
    simp
  refine .check (orThrow_check _) fun payload => ?_
  rw [TransactionsRepository.findPage, Prog.bind_eq, Prog.bind_eq, Prog.bind_assoc]
  refine .check ?_ fun account => ?_
  · rcases Paging.accountParam_cases accountId with ha | ha
    · exact Or.inl ⟨_, ha⟩
    · exact Or.inr ha
  rw [Prog.bind_eq, Prog.bind_assoc]
  refine .check (cursorParams_check env payload) fun after => ?_
  refine paired_query ?_ _
  rw [hpage]

/-! ## Writes to the user's rows -/

/-- A program within the user's rows, after a session that has kept to them. -/
theorem Paired.of_within (h : Agree u d d') (hfresh : ∀ k ∈ draws, d.get k = none)
    {p : LedgerProg α} (hp : p.Within (OwnKey d u draws) (OwnRow d u))
    (hs : Confined (OwnKey d u draws) (OwnRow d u) s.writes) :
    Paired u names draws d d' p s :=
  .same (hp.twice (h.eqOn hfresh) (hs.allIn (allIn_own hfresh)))

theorem within_orThrow {S : LedgerKey → Prop} {I : (k : LedgerKey) → LedgerRow k → Prop}
    (x : Except ApiError α) : (orThrow x).Within S I := by
  cases x with
  | ok a => exact .ret a
  | error e => exact .raise e

theorem within_updateBalance {id : String} (delta : Int)
    (hown : ∀ a, pgUuidIn id = some a → Owns d u a) :
    (AccountsRepository.updateBalance id delta).Within (OwnKey d u draws) (OwnRow d u) := by
  rw [AccountsRepository.updateBalance, uuidParam]
  cases ha : pgUuidIn id with
  | none => exact .raise _
  | some a =>
      refine Prog.Within.only (p := fun _ _ => true) (Or.inl (hown a ha)) (fun _ _ _ => rfl)
        (fun row row' hI hact => ?_) (fun row => ?_) (fun _ _ _ _ => rfl) fun _ _ => .ret ()
      · simp only [AccountsRepository.addToBalance] at hact
        split at hact
        · injection hact with hact
          rw [← hact]
          exact hI
        · exact absurd hact (by simp)
      · simp only [AccountsRepository.addToBalance]
        split
        · simp
        · simp

theorem within_setStatus {a : Uuid} {t : TransactionRow} (status : TransactionStatus)
    (ht : d.get (.transaction a) = some t) (hown : Owns d u t.accountId) :
    (OrdersService.setStatus a status).Within (OwnKey d u draws) (OwnRow d u) := by
  refine Prog.Within.only (p := fun _ _ => true) (Or.inl ⟨t, ht, hown⟩) (fun _ _ _ => rfl)
    (fun row row' hI hact => ?_) (fun row => by simp [OrdersService.setStatusRow])
    (fun _ _ _ _ => rfl) fun _ _ => .ret ()
  simp only [OrdersService.setStatusRow, RowAct.put.injEq] at hact
  rw [← hact]
  exact hI

theorem paired_createAccount {env : Env} {user : AuthUser} (h : Agree user.id d d')
    (input : CreateAccountDto) (id : Uuid) (now : Instant)
    (hfresh : d.get (.account id) = none) :
    Paired user.id names [.account id] d d' (AccountsService.create env input user id now)
      (Session.init []) := by
  have hdraws : ∀ k ∈ [LedgerKey.account id], d.get k = none := by
    intro k hk
    rw [List.mem_singleton] at hk
    rw [hk]
    exact hfresh
  let row := AccountsRepository.toRow ⟨id, input.name, input.type, input.currency,
    input.opening_balance_cents, toISOString now⟩ user.id now
  -- Nobody has the id, so `save` inserts.
  have run : ∀ d : LedgerDb, d.get (.account id) = none →
      (AccountsService.create env input user id now).exec d none (Session.init [])
        = (Prog.insert [⟨.account id, row⟩] (fun _ => accountConstraints env row)
            (.ret (⟨id, input.name, input.type, input.currency,
              input.opening_balance_cents, toISOString now⟩ : Account)) :
            LedgerProg Account).exec d none (Session.init []) := by
    intro d hd
    simp only [AccountsService.create, AccountsRepository.save, Prog.bind_eq, Prog.bind,
      Prog.query, Prog.exec, Session.view_init, hd]
    rfl
  refine Paired.of_exec ?_ (run d hfresh) (run d' (h.fewer _ hfresh))
  refine .of_within h hdraws (.insert (fun r hr => ?_) (fun _ _ _ => rfl) (.ret _)) (.nil _ _)
  rw [List.mem_singleton] at hr
  subst hr
  exact ⟨Or.inr (by simp), rfl⟩

/-- What `changeStatus` does with the order it has locked. -/
def withOrder (orderId : String) (status : TransactionStatus) (user : AuthUser) (u : Uuid)
    (order : LockedOrder) : LedgerProg Bool := do
  orThrow (assertOwner order.user_id user ("order " ++ orderId))
  if order.status = status then
    return false
  else
    OrdersService.setStatus u status
    if (order.status == .posted) ≠ (status == .posted) then
      let booked := SIGN order.type * order.amount_cents
      AccountsRepository.updateBalance order.account_id
        (if status = .posted then booked else -booked)
      return true
    else
      return true

theorem changeStatus_eq (user : AuthUser) (status : TransactionStatus) {orderId : String}
    {a : Uuid} (ha : pgUuidIn orderId = some a) :
    OrdersService.changeStatus orderId status user
      = (OrdersService.lockOrder a).bind fun
        | none => .raise (.problem 404 "order-not-found" ("order " ++ orderId ++ " was not found"))
        | some order => withOrder orderId status user a order := by
  rw [OrdersService.changeStatus, uuidParam, ha]
  rfl

theorem exec_lockOrder (a : Uuid) (f : Option LockedOrder → LedgerProg β) :
    ((OrdersService.lockOrder a).bind f).exec d none (Session.init [])
      = match d.get (.transaction a) with
        | none => (f none).exec d none ((Session.init []).tag .lockOrder)
        | some t =>
            if (d.get (.account t.accountId)).isSome then
              (f (OrdersService.lockedOrder d [⟨.transaction a, t⟩])).exec d none
                (((Session.init []).tag .lockOrder).put (.transaction a) (some t))
            else (f none).exec d none ((Session.init []).tag .lockOrder) := by
  have run := @Prog.exec_update_only LedgerKey _ LedgerRow LedgerStmt ApiError β d .lockOrder
    (.transaction a) (fun d t => (d.get (.account t.accountId)).isSome)
    (fun _ row => .put row) (fun snap rows => f (OrdersService.lockedOrder snap rows))
    (Session.init [])
  rw [Session.view_init] at run
  refine Eq.trans run ?_
  cases d.get (.transaction a) with
  | none => rfl
  | some t => rfl

theorem exec_changeStatus (user : AuthUser) (status : TransactionStatus) {orderId : String}
    {a : Uuid} (ha : pgUuidIn orderId = some a) {t : TransactionRow} {row : AccountRow}
    (ht : d.get (.transaction a) = some t) (hrow : d.get (.account t.accountId) = some row) :
    (OrdersService.changeStatus orderId status user).exec d none (Session.init [])
      = (withOrder orderId status user a ⟨t.status, t.type, t.amountCents,
          t.accountId.text, row.userId⟩).exec d none
          (((Session.init []).tag .lockOrder).put (.transaction a) (some t)) := by
  rw [changeStatus_eq user status ha, exec_lockOrder, ht]
  dsimp only
  rw [hrow, Option.isSome_some, if_pos rfl, OrdersService.lockedOrder, hrow]
  rfl

theorem exec_changeStatus_none (user : AuthUser) (status : TransactionStatus)
    {orderId : String} {a : Uuid} (ha : pgUuidIn orderId = some a)
    (ht : d.get (.transaction a) = none) :
    (OrdersService.changeStatus orderId status user).exec d none (Session.init [])
      = (.raised (.problem 404 "order-not-found" ("order " ++ orderId ++ " was not found")),
          (Session.init []).tag .lockOrder) := by
  rw [changeStatus_eq user status ha, exec_lockOrder, ht]
  rfl

theorem within_withOrder (orderId : String) (status : TransactionStatus) (user : AuthUser)
    {a : Uuid} {t : TransactionRow} (owner : Uuid) (ht : d.get (.transaction a) = some t)
    (hown : Owns d u t.accountId) :
    (withOrder orderId status user a ⟨t.status, t.type, t.amountCents, t.accountId.text,
      owner⟩).Within (OwnKey d u draws) (OwnRow d u) := by
  refine (within_orThrow _).bind fun _ => ?_
  dsimp only
  split
  · exact .ret false
  · refine (within_setStatus status ht hown).bind fun _ => ?_
    split
    · refine (within_updateBalance _ fun b hb => ?_).bind fun _ => .ret true
      rw [pgUuidIn_text] at hb
      injection hb with hb
      rw [← hb]
      exact hown
    · exact .ret true

theorem withOrder_foreign {orderId : String} {status : TransactionStatus} {user : AuthUser}
    {a : Uuid} {order : LockedOrder} (hu : order.user_id ≠ user.id) :
    withOrder orderId status user a order
      = .raise (.problem 403 "forbidden" ("order " ++ orderId ++ " belongs to another user")) := by
  rw [withOrder, assertOwner_foreign hu]
  rfl

theorem paired_changeStatus {user : AuthUser} (h : Agree user.id d d') (orderId : String)
    (status : TransactionStatus) :
    Paired user.id ((pgUuidIn orderId).toList.map .transaction) [] d d'
      (OrdersService.changeStatus orderId status user) (Session.init []) := by
  cases ha : pgUuidIn orderId with
  | none =>
      rw [OrdersService.changeStatus, uuidParam, ha]
      exact .raise _
  | some a =>
      have hnone : ∀ k ∈ ([] : List LedgerKey), d.get k = none := by simp
      cases h.seenTransaction a with
      | @own t row hd hacc hd' hacc' hu =>
          have hown : Owns d user.id t.accountId := ⟨row, hacc, hu⟩
          have hlock : Confined (OwnKey d user.id []) (OwnRow d user.id)
              [(⟨.transaction a, some t⟩ : Write LedgerRow)] :=
            .single (Or.inl ⟨t, hd, hown⟩) hown
          have hwithin : (withOrder orderId status user a ⟨t.status, t.type, t.amountCents,
              t.accountId.text, row.userId⟩).Within (OwnKey d user.id []) (OwnRow d user.id) :=
            within_withOrder orderId status user row.userId hd hown
          have htwice := hwithin.twice (h.eqOn hnone) (s := ((Session.init []).tag
            .lockOrder).put (.transaction a) (some t)) (hlock.allIn (allIn_own hnone))
          exact .same (htwice.of_eq (exec_changeStatus user status ha hd hacc)
            (exec_changeStatus user status ha hd' hacc') rfl hlock)
      | absent hd hd' =>
          exact .same (.stop (exec_changeStatus_none user status ha hd)
            (exec_changeStatus_none user status ha hd') (List.append_nil _).symm (.nil _ _))
      | @foreign t row t' row' hd hacc hu hd' hacc' hu' =>
          have hr := exec_changeStatus user status ha hd hacc
          have hr' := exec_changeStatus user status ha hd' hacc'
          rw [withOrder_foreign hu] at hr
          rw [withOrder_foreign hu'] at hr'
          exact .failed hr hr'
      | @hidden t row hd hacc hu hd' =>
          have hforeign : Foreign d user.id (.transaction a) := ⟨t, row, hd, hacc, hu⟩
          have hr := exec_changeStatus user status ha hd hacc
          rw [withOrder_foreign hu] at hr
          refine .refused ?_
          rw [hr, exec_changeStatus_none user status ha hd']
          exact .mk (by simp) hforeign hd'

end

end InvestApi.Isolation
