import InvestApi.Isolation.Batch
import InvestApi.Paging.Walk

/-!
# Users do not interfere

Two runs from the same rows: everybody's requests one after the other, and those
of one user alone. The databases stay in agreement for that user, request by
request: one of theirs is taken by both runs, one of somebody else's by the first
run only. What they are answered differs in one case only, which `Refused`
names.
-/

namespace InvestApi.Isolation

open InvestApi.Pg InvestApi.Ref

section Request

variable {env : Env} {u v : Uuid} {d d' : LedgerDb}

theorem paired_body (env : Env) (r : Request) (h : Agree r.user.id d d')
    (hfresh : ∀ k ∈ r.draws, d.get k = none) :
    Paired r.user.id r.names r.draws d d' (r.body env) (Session.init []) := by
  match r with
  | .listAccounts user limit cursor => exact (paired_listAccounts h limit cursor).map _
  | .createAccount input user id now =>
      exact (paired_createAccount h input id now (hfresh _ List.mem_cons_self)).map _
  | .getAccount accountId user => exact (paired_getAccount h accountId).map _
  | .listTransactions user limit cursor accountId =>
      exact (paired_listTransactions h limit cursor accountId).map _
  | .createTransactions input user ids now =>
      exact (paired_createTransactions env h input ids now hfresh).map _
  | .getTransaction transactionId user => exact (paired_getTransaction h transactionId).map _
  | .changeStatus orderId status user => exact (paired_changeStatus h orderId status).map _

/-- The request is refused over `d`. -/
def Raises {α : Type} (d : LedgerDb) (p : LedgerProg α) : Prop :=
  ∃ e t, p.exec d none (Session.init []) = (.raised e, t)

theorem Raises.bind {α β : Type} {p : LedgerProg α} (h : Raises d p) (f : α → LedgerProg β) :
    Raises d (p.bind f) := by
  obtain ⟨e, t, h⟩ := h
  exact ⟨e, t, by rw [Prog.exec_bind, h]⟩

theorem raises_ownAccount {β : Type} {user : AuthUser} {id : String} {a : Uuid}
    (ha : a ∈ (pgUuidIn id).toList) (hforeign : Foreign d user.id (.account a))
    {f : Option OwnedAccount → LedgerProg β} {g : OwnedAccount → LedgerProg β}
    (hsome : ∀ acc, f (some acc)
      = (orThrow (assertOwner acc.user_id user ("account " ++ id))).bind fun _ => g acc) :
    Raises d ((AccountsRepository.findById id).bind f) := by
  obtain ⟨row, hrow, hu⟩ := hforeign
  have hrun := exec_findById (Option.mem_toList.mp ha) hrow f
  rw [Option.map_some, hsome, show assertOwner (AccountsRepository.toDomain a row).user_id
    user _ = _ from assertOwner_foreign hu _] at hrun
  exact ⟨_, _, hrun⟩

theorem raises_getTransaction {user : AuthUser} {transactionId : String} {a : Uuid}
    (ha : a ∈ (pgUuidIn transactionId).toList) (hforeign : Foreign d user.id (.transaction a)) :
    Raises d (TransactionsService.getById env transactionId user) := by
  obtain ⟨t, row, ht, hrow, hu⟩ := hforeign
  have hrun := exec_getTransaction env user (Option.mem_toList.mp ha) ht hrow
  rw [assertOwner_foreign hu] at hrun
  exact ⟨_, _, hrun⟩

theorem raises_changeStatus {user : AuthUser} {status : TransactionStatus} {orderId : String}
    {a : Uuid} (ha : a ∈ (pgUuidIn orderId).toList)
    (hforeign : Foreign d user.id (.transaction a)) :
    Raises d (OrdersService.changeStatus orderId status user) := by
  obtain ⟨t, row, ht, hrow, hu⟩ := hforeign
  have hrun := exec_changeStatus user status (Option.mem_toList.mp ha) ht hrow
  rw [withOrder_foreign hu] at hrun
  exact ⟨_, _, hrun⟩

theorem raises_createTransactions {input : CreateTransactionsDto} {user : AuthUser}
    {ids : Nat → Uuid} {now : Instant} {entry : TransactionEntryDto}
    (hentry : entry ∈ input.entries) {a : Uuid} (ha : pgUuidIn entry.account_id = some a)
    (hforeign : Foreign d user.id (.account a)) :
    Raises d (TransactionsService.create env input user ids now) := by
  rcases findByIds_cases (input.entries.map (·.account_id)).eraseDups
    with ⟨e, he⟩ | ⟨f, hloads, hexec⟩
  · rw [TransactionsService.create, he]
    exact ⟨_, _, rfl⟩
  · have hrun : (TransactionsService.create env input user ids now).exec d none
        (Session.init []) = ((orThrow (TransactionsService.collect (f d) user now
          (drawn input ids) [] [])).bind (book env now)).exec d none (Session.init []) :=
      hexec d _
    cases hok : TransactionsService.collect (f d) user now (drawn input ids) [] [] with
    | error e =>
        rw [hok] at hrun
        exact ⟨_, _, hrun⟩
    | ok r =>
        have hmem : ∃ e ∈ drawn input ids, e.1 = entry := by
          rw [← map_fst_drawn input ids] at hentry
          exact List.mem_map.mp hentry
        obtain ⟨e, he, rfl⟩ := hmem
        obtain ⟨row, hrow, hu⟩ := owns_of_collect (hloads d) hok e he a ha
        obtain ⟨row', hrow', hu'⟩ := hforeign
        rw [hrow] at hrow'
        injection hrow' with hrow'
        exact absurd (hrow' ▸ hu) hu'

theorem raises_listTransactions {user : AuthUser} {limit : Nat}
    {cursor accountId : Option String} {a : Uuid}
    (ha : a ∈ ((truthy accountId).bind pgUuidIn).toList)
    (hforeign : Foreign d user.id (.account a)) :
    Raises d (TransactionsService.list env user limit cursor accountId) := by
  rw [TransactionsService.list]
  cases hid : truthy accountId with
  | none =>
      rw [hid] at ha
      simp at ha
  | some id =>
      rw [hid] at ha
      have hcheck : Raises d (TransactionsService.checkAccount user (some id)) :=
        raises_ownAccount (g := fun _ => .ret ()) ha hforeign fun acc =>
          (Prog.bind_ret (orThrow (assertOwner acc.user_id user ("account " ++ id)))).symm
      exact hcheck.bind _

/-- A request that names a row of somebody else's is refused. -/
theorem raises_body (env : Env) (r : Request) {k : LedgerKey} (hk : k ∈ r.names)
    (hforeign : Foreign d r.user.id k) : Raises d (r.body env) := by
  match r with
  | .listAccounts _ _ _ => simp [Request.names] at hk
  | .createAccount _ _ _ _ => simp [Request.names] at hk
  | .getAccount accountId user =>
      obtain ⟨a, ha, rfl⟩ := List.mem_map.mp hk
      have hget : Raises d (AccountsService.getById accountId user) :=
        raises_ownAccount ha hforeign fun _ => rfl
      exact hget.bind _
  | .listTransactions user limit cursor accountId =>
      obtain ⟨a, ha, rfl⟩ := List.mem_map.mp hk
      exact (raises_listTransactions ha hforeign).bind _
  | .createTransactions input user ids now =>
      obtain ⟨a, ha, rfl⟩ := List.mem_map.mp hk
      obtain ⟨entry, hentry, hread⟩ := List.mem_filterMap.mp ha
      exact (raises_createTransactions hentry hread hforeign).bind _
  | .getTransaction transactionId user =>
      obtain ⟨a, ha, rfl⟩ := List.mem_map.mp hk
      exact (raises_getTransaction ha hforeign).bind _
  | .changeStatus orderId status user =>
      obtain ⟨a, ha, rfl⟩ := List.mem_map.mp hk
      exact (raises_changeStatus ha hforeign).bind _

/-! ## One request -/

theorem alone_own {r : Request} (hu : r.user.id = u) (h : Agree u d d')
    (hfresh : ∀ k ∈ r.draws, d.get k = none) :
    (((r.body env).alone d []).1 = ((r.body env).alone d' []).1
      ∨ Refused u r.names d d' ((r.body env).alone d []).1 ((r.body env).alone d' []).1)
    ∧ Agree u ((r.body env).alone d []).2 ((r.body env).alone d' []).2 := by
  subst hu
  cases paired_body env r h hfresh with
  | same htwice =>
      obtain ⟨ws, hws, hc⟩ := htwice.confined
      have hsame := htwice.same
      rw [Prog.alone, Prog.alone]
      cases hp : (r.body env).exec d none (Session.init []) with
      | mk f s =>
          rw [hp] at hsame hws
          rw [← hsame]
          cases f with
          | committed a =>
              refine ⟨Or.inl rfl, ?_⟩
              have hwrites : s.writes = ws := hws
              show Agree _ (d.writeAll s.writes) (d'.writeAll s.writes)
              rw [hwrites]
              exact h.own hfresh hc
          | raised e => exact ⟨Or.inl rfl, h⟩
          | aborted => exact ⟨Or.inl rfl, h⟩
  | failed hd hd' =>
      rw [Prog.alone, Prog.alone, hd, hd']
      exact ⟨Or.inl rfl, h⟩
  | refused href =>
      rw [Prog.alone, Prog.alone]
      generalize (r.body env).exec d none (Session.init []) = x at href ⊢
      generalize (r.body env).exec d' none (Session.init []) = x' at href ⊢
      obtain ⟨f, s⟩ := x
      obtain ⟨f', s'⟩ := x'
      cases href with
      | mk hk hforeign hgone => exact ⟨Or.inr (.mk hk hforeign hgone), h⟩

theorem alone_other (env : Env) {r : Request} (hne : r.user.id ≠ u) (h : Agree u d d')
    (hfresh : ∀ k ∈ r.draws, d.get k = none) :
    Agree u ((r.body env).alone d []).2 d' := by
  have hpaired := paired_body env r (Agree.refl h.linked) hfresh
  rw [Prog.alone]
  cases hp : (r.body env).exec d none (Session.init []) with
  | mk f s =>
      cases f with
      | raised e => exact h
      | aborted => exact h
      | committed a =>
          cases hpaired with
          | same htwice =>
              obtain ⟨ws, hws, hc⟩ := htwice.confined
              rw [hp] at hws
              have hwrites : s.writes = ws := hws
              show Agree u (d.writeAll s.writes) d'
              rw [hwrites]
              exact h.other hne hfresh hc
          | failed hd _ =>
              rw [hp] at hd
              exact absurd hd (by simp)
          | refused href =>
              rw [hp] at href
              cases href

end Request

/-! ## The runs -/

/-- The same request in the two runs, and what it was answered. -/
structure Alike (u : Uuid) (x x' : Served) : Prop where
  request : x.request = x'.request
  response : x.response = x'.response
    ∨ Refused u x.request.names x.before x'.before x.response x'.response
  foreign : ∀ k ∈ x.request.names, Foreign x.before u k → ∃ e, x.response = .raised e

/-- The rows of `u` in the two databases. -/
structure SameRows (u : Uuid) (d d' : LedgerDb) : Prop where
  account : ∀ id row, row.userId = u →
    (d.get (.account id) = some row ↔ d'.get (.account id) = some row)
  transaction : ∀ id t,
    (d.get (.transaction id) = some t ∧ Owns d u t.accountId
      ↔ d'.get (.transaction id) = some t ∧ Owns d' u t.accountId)

theorem serve_agree {env : Env} {u : Uuid} : ∀ {reqs : List Request} {d d' : LedgerDb},
    Agree u d d' →
    (∀ x ∈ (serve env d reqs).1, ∀ k ∈ x.request.draws, x.before.get k = none) →
    List.Forall₂ (Alike u) ((serve env d reqs).1.filter fun x => x.request.user.id = u)
        (serve env d' (reqs.filter fun r => r.user.id = u)).1
      ∧ Agree u (serve env d reqs).2
        (serve env d' (reqs.filter fun r => r.user.id = u)).2
  | [], d, d', h, _ => ⟨.nil, h⟩
  | r :: rs, d, d', h, hfresh => by
      have hdraws : ∀ k ∈ r.draws, d.get k = none := hfresh _ List.mem_cons_self
      have hrest := fun x hx => hfresh x (List.mem_cons_of_mem _ hx)
      by_cases hu : r.user.id = u
      · obtain ⟨hresp, hagree⟩ := alone_own hu h hdraws
        obtain ⟨hall, hlast⟩ := serve_agree hagree hrest
        rw [List.filter_cons_of_pos (by simpa using hu)]
        refine ⟨?_, hlast⟩
        show List.Forall₂ _ (List.filter _ (_ :: _)) (_ :: _)
        rw [List.filter_cons_of_pos (by simpa using hu)]
        refine .cons ⟨rfl, hresp, fun k hk hforeign => ?_⟩ hall
        obtain ⟨e, t, hraise⟩ := raises_body env r hk (hu ▸ hforeign)
        refine ⟨e, ?_⟩
        show ((r.body env).alone d []).1 = _
        rw [Prog.alone, hraise]
      · have hagree := alone_other env hu h hdraws
        obtain ⟨hall, hlast⟩ := serve_agree hagree hrest
        rw [List.filter_cons_of_neg (by simpa using hu)]
        refine ⟨?_, hlast⟩
        show List.Forall₂ _ (List.filter _ (_ :: _)) _
        rw [List.filter_cons_of_neg (by simpa using hu)]
        exact hall

/-- With the requests of everybody else left out, a user is answered the same and
has the same rows at the end. An id that is somebody else's is the exception: it
is forbidden in the one run and not found in the other. -/
theorem users_isolated {env : Env} {u : Uuid} {d : LedgerDb} (hlink : Linked d)
    {reqs : List Request}
    (hfresh : ∀ x ∈ (serve env d reqs).1, ∀ k ∈ x.request.draws, x.before.get k = none) :
    List.Forall₂ (Alike u) ((serve env d reqs).1.filter fun x => x.request.user.id = u)
        (serve env d (reqs.filter fun r => r.user.id = u)).1
      ∧ SameRows u (serve env d reqs).2
        (serve env d (reqs.filter fun r => r.user.id = u)).2 := by
  obtain ⟨hall, hagree⟩ := serve_agree (Agree.refl hlink) hfresh
  exact ⟨hall, hagree.account, hagree.transaction⟩

/-! Two users: the second asks for an account of the first, which is there in the
one run only. -/

def twoUsersEnv : Env := { Paging.pageEnv with users := [1, 2] }

def caller (u : Uuid) : AuthUser := ⟨u, .member, 0, 0, 0⟩

def sampleRequests : List Request :=
  [.createAccount ⟨.ofString "cash", .cash, "UAH", 100⟩ (caller 1) 7 0,
    .createAccount ⟨.ofString "card", .bank, "UAH", 50⟩ (caller 2) 8 0,
    .getAccount (Uuid.text 7) (caller 2)]

theorem users_isolated_sample :
    List.Forall₂ (Alike 2)
        ((serve twoUsersEnv Db.empty sampleRequests).1.filter fun x => x.request.user.id = 2)
        (serve twoUsersEnv Db.empty (sampleRequests.filter fun r => r.user.id = 2)).1
      ∧ SameRows 2 (serve twoUsersEnv Db.empty sampleRequests).2
        (serve twoUsersEnv Db.empty (sampleRequests.filter fun r => r.user.id = 2)).2 := by
  have hlink : Linked Db.empty := by simp [Linked]
  have hfresh : ∀ x ∈ (serve twoUsersEnv Db.empty sampleRequests).1,
      ∀ k ∈ x.request.draws, x.before.get k = none := by
    decide +kernel
  exact users_isolated hlink hfresh

end InvestApi.Isolation
