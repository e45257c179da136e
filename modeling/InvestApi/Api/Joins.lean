import InvestApi.Auth.LoggedOut
import InvestApi.Isolation.Entitled
import InvestApi.Ledger.RawError
import InvestApi.Orders.Events
import InvestApi.Ref.Api

/-!
# What a join answers

A join looks at the session tables, then at the order, then at its account, and
each look is at another moment. What carries the proof is that the answers do
not age: a verdict on a token is given once, an order that is there stays there,
on its account, and the account stays with its owner. So a join answers what
`getById` at one moment would have answered, before it began if the order was
not there, and as it ends if it was.
-/

namespace InvestApi.Ref

open InvestApi.Pg InvestApi.Lts InvestApi.Isolation

variable {κ ρ ι σ : Type}

/-- The user an order belongs to. -/
def ownerOf (d : LedgerDb) (orderId : String) : Option Uuid :=
  (pgUuidIn orderId).bind fun t =>
    (d.get (.transaction t)).bind fun row =>
      (d.get (.account row.accountId)).map (·.userId)

namespace OrdersGateway

/-- What `getById` in one moment makes a join say. -/
def atOrder (d : LedgerDb) (orderId : String) (user : AuthUser) : JoinAck :=
  match ownerOf d orderId with
  | none => .refused "transaction-not-found"
  | some owner => if owner = user.id then .joined (orderRoom orderId) else .refused "forbidden"

/-- What a join says that looks at everything in one moment. -/
def atomically (validators : Validators) (d : LedgerDb) (message : JoinMessage σ) :
    Option AuthUser → JoinAck
  | none => .refused "unauthorized"
  | some user =>
      match message.orderId.filter validators.isUUID4 with
      | none => .refused "transaction-not-found"
      | some orderId => atOrder d orderId user

end OrdersGateway

section Owner

variable {d d' : LedgerDb} {orderId : String} {v : Uuid}

theorem ownerOf_eq_some :
    ownerOf d orderId = some v ↔ ∃ t, pgUuidIn orderId = some t ∧ OwnsOrder d v t := by
  simp only [ownerOf, Option.bind_eq_some_iff, Option.map_eq_some_iff]
  rfl

theorem ownerOf_keeps (h : Keeps d d') (hv : ownerOf d orderId = some v) :
    ownerOf d' orderId = some v := by
  obtain ⟨t, ht, hown⟩ := ownerOf_eq_some.mp hv
  exact ownerOf_eq_some.mpr ⟨t, ht, h.ownsOrder hown⟩

/-- A word on the order that is right in `d`, or was when the join began. -/
def Settles (d₁ d : LedgerDb) (orderId : String) (user : AuthUser) (ack : JoinAck) : Prop :=
  ack = OrdersGateway.atOrder d₁ orderId user ∨ ack = OrdersGateway.atOrder d orderId user

variable {d₁ : LedgerDb} {user : AuthUser} {ack : JoinAck}

/-- Such a word does not age: where `d` has the order so has `d'`, and where it
has not `d₁` had it not either. -/
theorem Settles.keeps (h : Settles d₁ d orderId user ack) (h₁ : Keeps d₁ d)
    (hkeeps : Keeps d d') : Settles d₁ d' orderId user ack := by
  rcases h with h | h
  · exact Or.inl h
  · cases hv : ownerOf d orderId with
    | some v =>
        right
        rw [h, OrdersGateway.atOrder, OrdersGateway.atOrder, hv, ownerOf_keeps hkeeps hv]
    | none =>
        left
        have hnone : ownerOf d₁ orderId = none := by
          by_contra hsome
          obtain ⟨v, hv₁⟩ := Option.ne_none_iff_exists'.mp hsome
          simp [ownerOf_keeps h₁ hv₁] at hv
        rw [h, OrdersGateway.atOrder, OrdersGateway.atOrder, hv, hnone]

/-- The same of what the whole join says. -/
theorem settled_keeps {validators : Validators} {message : JoinMessage σ}
    {caller : Option AuthUser} (h₁ : Keeps d₁ d) (hkeeps : Keeps d d')
    (h : ack = OrdersGateway.atomically validators d₁ message caller ∨
      ack = OrdersGateway.atomically validators d message caller) :
    ack = OrdersGateway.atomically validators d₁ message caller ∨
      ack = OrdersGateway.atomically validators d' message caller := by
  cases caller with
  | none => exact Or.inl (h.elim id id)
  | some user =>
      simp only [OrdersGateway.atomically] at h ⊢
      cases ho : message.orderId.filter validators.isUUID4 with
      | none =>
          rw [ho] at h
          exact Or.inl (h.elim id id)
      | some orderId =>
          rw [ho] at h
          exact Settles.keeps h h₁ hkeeps

end Owner

/-! ## `getById`, a look at a time -/

section GetById

variable (env : Env) (user : AuthUser) (orderId : String)

/-- What follows the look at the account. -/
def withAccount (tx : Transaction) : Option OwnedAccount → LedgerProg TransactionResponse
  | none => .raise (.error "account is undefined")
  | some account =>
      (orThrow (assertOwner account.user_id user ("transaction " ++ orderId))).bind fun _ =>
        .ret (TransactionsService.toWire env tx)

/-- What follows the look at the transaction. -/
def withTransaction : Option Transaction → LedgerProg TransactionResponse
  | none =>
      .raise (.problem 404 "transaction-not-found"
        ("transaction " ++ orderId ++ " was not found"))
  | some tx => (AccountsRepository.findById tx.account_id).bind (withAccount env user orderId tx)

variable {env user orderId}

theorem getById_eq {t : Uuid} (ht : pgUuidIn orderId = some t) :
    TransactionsService.getById env orderId user = .select fun d =>
      withTransaction env user orderId
        ((d.get (.transaction t)).map (TransactionsRepository.toDomain env t)) := by
  have hret := uuidParam_eq_ret.mpr ht
  simp only [TransactionsService.getById, TransactionsRepository.findById, hret, Prog.bind_eq,
    Prog.bind, Prog.query]
  rfl

theorem findById_eq {tx : Transaction} {a : Uuid} (ha : tx.account_id = a.text) :
    (AccountsRepository.findById tx.account_id).bind (withAccount env user orderId tx)
      = .select fun d => withAccount env user orderId tx
          ((d.get (.account a)).map (AccountsRepository.toDomain a)) := by
  have hret : uuidParam tx.account_id = .ret a :=
    uuidParam_eq_ret.mpr (by rw [ha]; exact pgUuidIn_text a)
  simp only [AccountsRepository.findById, hret, Prog.bind_eq, Prog.bind, Prog.query]

variable {d₁ d d' : LedgerDb} {t : Uuid} {rest : LedgerProg TransactionResponse}

variable (env user orderId t d₁ d) in
/-- Where `getById` for the order `t` stands that began at `d₁`. -/
inductive Loading : LedgerProg TransactionResponse → Prop
  | transaction : Loading (TransactionsService.getById env orderId user)
  /-- The transaction is there, on the account that is looked for. -/
  | account {tx row} (hrow : d.get (.transaction t) = some row)
      (htx : tx.account_id = row.accountId.text) :
      Loading ((AccountsRepository.findById tx.account_id).bind (withAccount env user orderId tx))
  | refused {e} (h : Settles d₁ d orderId user (OrdersGateway.refusal e)) : Loading (.raise e)
  | joined {tx} (h : Settles d₁ d orderId user (.joined (orderRoom orderId))) :
      Loading (.ret tx)

theorem Loading.keeps (h : Loading env user orderId d₁ d t rest) (h₁ : Keeps d₁ d)
    (hkeeps : Keeps d d') : Loading env user orderId d₁ d' t rest := by
  cases h with
  | transaction => exact .transaction
  | @account tx row hrow htx =>
      obtain ⟨row', hrow', ha⟩ := hkeeps.transaction t row hrow
      exact .account hrow' (by rw [ha]; exact htx)
  | refused h => exact .refused (h.keeps h₁ hkeeps)
  | joined h => exact .joined (h.keeps h₁ hkeeps)

theorem Loading.select (hlink : Linked d) (ht : pgUuidIn orderId = some t)
    (h : Loading env user orderId d₁ d t rest) {next : LedgerDb → LedgerProg TransactionResponse}
    (hrest : rest = .select next) : Loading env user orderId d₁ d t (next d) := by
  cases h with
  | transaction =>
      rw [getById_eq ht] at hrest
      rw [← Prog.select.inj hrest]
      show Loading env user orderId d₁ d t (withTransaction env user orderId
        ((d.get (.transaction t)).map (TransactionsRepository.toDomain env t)))
      cases hrow : d.get (.transaction t) with
      | none =>
          refine .refused (Or.inr ?_)
          have hnone : ownerOf d orderId = none := by simp [ownerOf, ht, hrow]
          rw [OrdersGateway.atOrder, hnone]
          rfl
      | some row => exact .account hrow rfl
  | @account tx row hrow htx =>
      rw [findById_eq htx] at hrest
      rw [← Prog.select.inj hrest]
      obtain ⟨acc, hacc⟩ := hlink t row hrow
      have howner : ownerOf d orderId = some acc.userId :=
        ownerOf_eq_some.mpr ⟨t, ht, row, hrow, acc, hacc, rfl⟩
      simp only [hacc, Option.map_some, withAccount]
      by_cases hmine : acc.userId = user.id
      · have hok : assertOwner (AccountsRepository.toDomain row.accountId acc).user_id user
            ("transaction " ++ orderId) = .ok () := if_neg (not_not.mpr hmine)
        rw [hok]
        refine .joined (Or.inr ?_)
        rw [OrdersGateway.atOrder, howner]
        exact (if_pos hmine).symm
      · have hno : assertOwner (AccountsRepository.toDomain row.accountId acc).user_id user
            ("transaction " ++ orderId) = .error (.problem 403 "forbidden"
              ("transaction " ++ orderId ++ " belongs to another user")) :=
          assertOwner_foreign hmine _
        rw [hno]
        refine .refused (Or.inr ?_)
        rw [OrdersGateway.atOrder, howner]
        exact (if_neg hmine).symm
  | refused h => cases hrest
  | joined h => cases hrest

theorem Loading.raise {e : ApiError} (ht : pgUuidIn orderId = some t)
    (h : Loading env user orderId d₁ d t (.raise e)) :
    Settles d₁ d orderId user (OrdersGateway.refusal e) := by
  generalize hrest : Prog.raise e = rest at h
  cases h with
  | transaction =>
      rw [getById_eq ht] at hrest
      cases hrest
  | account hrow htx =>
      rw [findById_eq htx] at hrest
      cases hrest
  | refused h =>
      cases hrest
      exact h
  | joined h => cases hrest

theorem Loading.ret {tx : TransactionResponse} (ht : pgUuidIn orderId = some t)
    (h : Loading env user orderId d₁ d t (.ret tx)) :
    Settles d₁ d orderId user (.joined (orderRoom orderId)) := by
  generalize hrest : Prog.ret tx = rest at h
  cases h with
  | transaction =>
      rw [getById_eq ht] at hrest
      cases hrest
  | account hrow htx =>
      rw [findById_eq htx] at hrest
      cases hrest
  | refused h => cases hrest
  | joined h =>
      cases hrest
      exact h

end GetById

/-! ## One join -/

section Join

variable {A : Api κ ρ ι σ} {s s' : ApiWorld κ ρ ι σ} {r : ρ} {message : JoinMessage σ}
  {d₁ : LedgerDb} {phase : JoinPhase} {faulted : Prop}

/-- What is known of the join `r` that began at `d₁`; `faulted` says that one of
its SELECTs has failed. -/
inductive JoinSound (A : Api κ ρ ι σ) (d₁ : LedgerDb) (r : ρ) (message : JoinMessage σ)
    (faulted : Prop) (s : ApiWorld κ ρ ι σ) : JoinPhase → Prop
  | verifying : JoinSound A d₁ r message faulted s .verifying
  | loading {orderId user rest t}
      (hverdict : OrdersGateway.verdict message (s.sessions.phases r) = some (some user))
      (horder : message.orderId.filter A.validators.isUUID4 = some orderId)
      (ht : pgUuidIn orderId = some t) (h : Loading A.env user orderId d₁ s.db t rest) :
      JoinSound A d₁ r message faulted s (.loading orderId user rest)
  | internal {user}
      (hverdict : OrdersGateway.verdict message (s.sessions.phases r) = some (some user))
      (hfault : faulted) : JoinSound A d₁ r message faulted s (.acked (.refused "internal"))
  | acked {user ack}
      (hverdict : OrdersGateway.verdict message (s.sessions.phases r) = some user)
      (h : ack = OrdersGateway.atomically A.validators d₁ message user ∨
        ack = OrdersGateway.atomically A.validators s.db message user) :
      JoinSound A d₁ r message faulted s (.acked ack)

/-- Nothing that others do makes it wrong. -/
theorem JoinSound.keeps (h : JoinSound A d₁ r message faulted s phase) {faulted' : Prop}
    (hfault : faulted → faulted') (h₁ : Keeps d₁ s.db) (hkeeps : Keeps s.db s'.db)
    (hv : ∀ user, OrdersGateway.verdict message (s.sessions.phases r) = some user →
      OrdersGateway.verdict message (s'.sessions.phases r) = some user) :
    JoinSound A d₁ r message faulted' s' phase := by
  cases h with
  | verifying => exact .verifying
  | loading hverdict horder ht h =>
      exact .loading (hv _ hverdict) horder ht (h.keeps h₁ hkeeps)
  | internal hverdict h => exact .internal (hv _ hverdict) (hfault h)
  | acked hverdict h => exact .acked (hv _ hverdict) (settled_keeps h₁ hkeeps h)

theorem JoinSound.enter (hvalid : A.validators.ReadsUuid) {user : Option AuthUser}
    (hverdict : OrdersGateway.verdict message (s.sessions.phases r) = some user) :
    JoinSound A d₁ r message faulted s
      (OrdersGateway.enter A.validators A.env message user) := by
  cases user with
  | none => exact .acked hverdict (Or.inl rfl)
  | some user =>
      unfold OrdersGateway.enter
      cases ho : message.orderId with
      | none =>
          refine .acked hverdict (Or.inl ?_)
          simp [OrdersGateway.atomically, ho]
      | some orderId =>
          dsimp only
          by_cases hid : A.validators.isUUID4 orderId = true
          · rw [if_pos hid]
            obtain ⟨t, ht⟩ := hvalid orderId hid
            exact .loading hverdict (by simp [ho, hid]) ht .transaction
          · rw [if_neg hid]
            refine .acked hverdict (Or.inl ?_)
            simp [OrdersGateway.atomically, ho, Option.filter, hid]

theorem Settles.acked {orderId : String} {user : AuthUser} {ack : JoinAck}
    (h : Settles d₁ s.db orderId user ack)
    (horder : message.orderId.filter A.validators.isUUID4 = some orderId) :
    ack = OrdersGateway.atomically A.validators d₁ message (some user) ∨
      ack = OrdersGateway.atomically A.validators s.db message (some user) := by
  simp only [OrdersGateway.atomically, horder]
  exact h

/-- What a join does at its turn. -/
inductive JoinMove (A : Api κ ρ ι σ) (s : ApiWorld κ ρ ι σ) (t : ApiTurn ρ ι σ) (r : ρ) :
    JoinPhase → JoinPhase → Prop
  | enter {message user} (hm : A.joins r = some message)
      (hverdict : OrdersGateway.verdict message (s.sessions.phases r) = some user) :
      JoinMove A s t r .verifying (OrdersGateway.enter A.validators A.env message user)
  | query {orderId user next} :
      JoinMove A s t r (.loading orderId user (.select next)) (.loading orderId user (next s.db))
  | fault {orderId user next} (ht : t = .fault r) :
      JoinMove A s t r (.loading orderId user (.select next)) (.acked (.refused "internal"))
  | refuse {orderId user e} :
      JoinMove A s t r (.loading orderId user (.raise e)) (.acked (OrdersGateway.refusal e))
  | join {orderId user tx} :
      JoinMove A s t r (.loading orderId user (.ret tx)) (.acked (.joined (orderRoom orderId)))

theorem JoinSound.move (hvalid : A.validators.ReadsUuid) (hlink : Linked s.db)
    (hm : A.joins r = some message) {phase' : JoinPhase} {t : ApiTurn ρ ι σ}
    (h : JoinSound A d₁ r message faulted s phase) (hmove : JoinMove A s t r phase phase') :
    JoinSound A d₁ r message (faulted ∨ t = .fault r) s phase' := by
  cases hmove with
  | enter hm' hverdict =>
      obtain rfl := Option.some.inj (hm.symm.trans hm')
      exact .enter hvalid hverdict
  | query =>
      cases h with
      | loading hverdict horder ht h => exact .loading hverdict horder ht (h.select hlink ht rfl)
  | fault hfault =>
      cases h with
      | loading hverdict horder ht h => exact .internal hverdict (Or.inr hfault)
  | refuse =>
      cases h with
      | loading hverdict horder ht h => exact .acked hverdict ((h.raise ht).acked horder)
  | join =>
      cases h with
      | loading hverdict horder ht h => exact .acked hverdict ((h.ret ht).acked horder)

end Join

/-! ## Where the parts of a run go -/

section Step

variable [DecidableEq κ] [DecidableEq ρ] [DecidableEq ι] [DecidableEq σ]
  {A : Api κ ρ ι σ} {s s' : ApiWorld κ ρ ι σ} {t : ApiTurn ρ ι σ}
  {clock : Instant} {d : LedgerDb} {r : ρ} {message : JoinMessage σ}

theorem ApiStep.sessions (h : ApiStep A s t s') : s'.sessions = s.sessions ∨
    ∃ t', SessionStep A.sessions s.sessions t' s'.sessions := by
  cases h with
  | session h => exact Or.inr ⟨_, h⟩
  | event h hstart => exact Or.inl rfl
  | enter hr hm hguard hverdict => exact Or.inl rfl
  | query hr => exact Or.inl rfl
  | fault hr => exact Or.inl rfl
  | refuse hr => exact Or.inl rfl
  | join hr hm => exact Or.inl rfl
  | disconnect => exact Or.inl rfl

theorem ApiStep.events (h : ApiStep A s t s') : s'.events = s.events ∨
    ∃ t', EventStep A.env A.calls s.events t' s'.events := by
  cases h with
  | session h => exact Or.inl rfl
  | event h hstart => exact Or.inr ⟨_, h⟩
  | enter hr hm hguard hverdict => exact Or.inl rfl
  | query hr => exact Or.inl rfl
  | fault hr => exact Or.inl rfl
  | refuse hr => exact Or.inl rfl
  | join hr hm => exact Or.inl rfl
  | disconnect => exact Or.inl rfl

theorem sessions_reach (h : Reachable (ApiStep A) (.boot clock d) s) :
    Reachable (SessionStep A.sessions) (.boot clock) s.sessions :=
  h.project ApiWorld.sessions fun _ _ _ hstep => hstep.sessions

theorem events_reach (h : Reachable (ApiStep A) (.boot clock d) s) :
    Reachable (EventStep A.env A.calls) (.boot d) s.events :=
  h.project ApiWorld.events fun _ _ _ hstep => hstep.events

theorem ledger_reach (h : Reachable (ApiStep A) (.boot clock d) s) :
    Pg.Reach (ledgerSystem A.env A.calls) (State.init d) s.events.ledger :=
  (Accounted.of_reach (events_reach h)).reach

theorem linked_reach (hlink : Linked d) (h : Reachable (ApiStep A) (.boot clock d) s) :
    Linked s.db :=
  ((ownDiscipline A.env A.calls fun _ _ => True).discipline.sound hlink (ledger_reach h)).inv

theorem ApiStep.ledger (h : ApiStep A s t s') : s'.events.ledger = s.events.ledger ∨
    Step (ledgerSystem A.env A.calls) (fun _ _ => True) s.events.ledger s'.events.ledger := by
  rcases h.events with hsame | ⟨t', hstep⟩
  · exact Or.inl (congrArg EventWorld.ledger hsame)
  · generalize s'.events = ev at hstep ⊢
    cases hstep with
    | ledger h => exact Or.inr h
    | resume hf hr => exact Or.inl EventWorld.resume_ledger

theorem ApiStep.keeps (hlink : Linked d) (hs : Reachable (ApiStep A) (.boot clock d) s)
    (h : ApiStep A s t s') : Keeps s.db s'.db := by
  rcases h.ledger with hsame | hstep
  · rw [ApiWorld.db, ApiWorld.db, hsame]
    exact .refl _
  · exact keeps_of_reach hlink (ledger_reach hs) (.single hstep)

omit [DecidableEq σ] in
/-- A verdict is given once. -/
theorem verdict_stays {S : Sessions κ ρ} {a a' : SessionState κ ρ} {t : SessionTurn ρ}
    (h : SessionStep S a t a') {user : Option AuthUser}
    (hv : OrdersGateway.verdict message (a.phases r) = some user) :
    OrdersGateway.verdict message (a'.phases r) = some user := by
  cases h with
  | tick h => exact hv
  | call h hnow => exact hv
  | @verify r' hr =>
      by_cases e : r = r'
      · subst e
        by_cases htoken : message.hasToken = true
        · simp [OrdersGateway.verdict, htoken, hr] at hv
        · simpa [OrdersGateway.verdict, htoken] using hv
      · simpa [SessionState.verify, e] using hv
  | @ask r' since checkedAt hr =>
      by_cases e : r = r'
      · subst e
        by_cases htoken : message.hasToken = true
        · simp [OrdersGateway.verdict, htoken, hr] at hv
        · simpa [OrdersGateway.verdict, htoken] using hv
      · simpa [SessionState.ask, e] using hv
  | @query r' since checkedAt now hr =>
      by_cases e : r = r'
      · subst e
        by_cases htoken : message.hasToken = true
        · simp [OrdersGateway.verdict, htoken, hr] at hv
        · simpa [OrdersGateway.verdict, htoken] using hv
      · simpa [SessionState.query, e] using hv

theorem ApiStep.verdict (h : ApiStep A s t s') {user : Option AuthUser}
    (hv : OrdersGateway.verdict message (s.sessions.phases r) = some user) :
    OrdersGateway.verdict message (s'.sessions.phases r) = some user := by
  rcases h.sessions with hsame | ⟨t', hstep⟩
  · rw [hsame]
    exact hv
  · exact verdict_stays hstep hv

/-- A step leaves a join alone, or is its turn. -/
theorem ApiStep.joins (h : ApiStep A s t s') (r : ρ) :
    s'.joins r = s.joins r ∨ s'.db = s.db ∧ s'.sessions = s.sessions ∧
      JoinMove A s t r (s.joins r) (s'.joins r) := by
  cases h with
  | session h => exact Or.inl rfl
  | event h hstart => exact Or.inl rfl
  | @enter r' message user hr hm hguard hverdict =>
      by_cases e : r = r'
      · subst e
        refine Or.inr ⟨rfl, rfl, ?_⟩
        simp only [ApiWorld.setJoin, Function.update_self, hr]
        exact .enter hm hverdict
      · exact Or.inl (by simp [ApiWorld.setJoin, e])
  | @query r' orderId user next hr =>
      by_cases e : r = r'
      · subst e
        refine Or.inr ⟨rfl, rfl, ?_⟩
        simp only [ApiWorld.setJoin, Function.update_self, hr]
        exact .query
      · exact Or.inl (by simp [ApiWorld.setJoin, e])
  | @fault r' orderId user next hr =>
      by_cases e : r = r'
      · subst e
        refine Or.inr ⟨rfl, rfl, ?_⟩
        simp only [ApiWorld.setJoin, Function.update_self, hr]
        exact .fault rfl
      · exact Or.inl (by simp [ApiWorld.setJoin, e])
  | @refuse r' orderId user err hr =>
      by_cases e : r = r'
      · subst e
        refine Or.inr ⟨rfl, rfl, ?_⟩
        simp only [ApiWorld.setJoin, Function.update_self, hr]
        exact .refuse
      · exact Or.inl (by simp [ApiWorld.setJoin, e])
  | @join r' message orderId user tx hr hm =>
      by_cases e : r = r'
      · subst e
        refine Or.inr ⟨rfl, rfl, ?_⟩
        simp only [ApiWorld.setJoin, ApiWorld.setSocket, Function.update_self, hr]
        exact .join
      · exact Or.inl (by simp [ApiWorld.setJoin, ApiWorld.setSocket, e])
  | disconnect => exact Or.inl rfl

/-- A step of the API, whoever's turn it is, keeps what is known of a join. -/
theorem JoinSound.step (hvalid : A.validators.ReadsUuid) (hlink : Linked d)
    (hs : Reachable (ApiStep A) (.boot clock d) s) (hm : A.joins r = some message)
    {d₁ : LedgerDb} (h₁ : Keeps d₁ s.db) {faulted : Prop}
    (h : JoinSound A d₁ r message faulted s (s.joins r)) (hstep : ApiStep A s t s') :
    JoinSound A d₁ r message (faulted ∨ t = .fault r) s' (s'.joins r) := by
  have hkeeps : Keeps s.db s'.db := hstep.keeps hlink hs
  rcases hstep.joins r with hsame | ⟨_, _, hmove⟩
  · rw [hsame]
    exact h.keeps Or.inl h₁ hkeeps fun _ => hstep.verdict
  · exact (h.move hvalid (linked_reach hlink hs) hm hmove).keeps id h₁ hkeeps
      fun _ => hstep.verdict

theorem joinSound_of_trace (hvalid : A.validators.ReadsUuid) (hlink : Linked d)
    {s₁ : ApiWorld κ ρ ι σ} (hs₁ : Reachable (ApiStep A) (.boot clock d) s₁)
    (hm : A.joins r = some message) (hr : s₁.joins r = .verifying)
    {past : List (ApiTurn ρ ι σ)} (h : Trace (ApiStep A) (fun _ _ => True) s₁ past s) :
    Reachable (ApiStep A) (.boot clock d) s ∧ Keeps s₁.db s.db ∧
      JoinSound A s₁.db r message (.fault r ∈ past) s (s.joins r) := by
  refine h.invariant (I := fun past s => Reachable (ApiStep A) (.boot clock d) s ∧
      Keeps s₁.db s.db ∧ JoinSound A s₁.db r message (.fault r ∈ past) s (s.joins r))
    ⟨hs₁, .refl _, ?_⟩ fun past s t s' ih _ hstep => ?_
  · rw [hr]
    exact .verifying
  · obtain ⟨hs, hkeeps, hsound⟩ := ih
    refine ⟨hs.then t hstep, hkeeps.trans (hstep.keeps hlink hs), ?_⟩
    have hnext := hsound.step hvalid hlink hs hm hkeeps hstep
    refine hnext.keeps (fun hfault => ?_) (hkeeps.trans (hstep.keeps hlink hs)) (.refl _)
      fun _ hv => hv
    rcases hfault with hold | hnow
    · exact List.mem_cons_of_mem t hold
    · rw [hnow]
      exact List.mem_cons_self

/-- A join answers what one look at everything would have made it answer, at its
start or at its end; or a SELECT of its own has failed. -/
theorem join_answers (hvalid : A.validators.ReadsUuid) (hlink : Linked d)
    {s₁ : ApiWorld κ ρ ι σ} (hs₁ : Reachable (ApiStep A) (.boot clock d) s₁)
    (hm : A.joins r = some message) (hr : s₁.joins r = .verifying)
    {past : List (ApiTurn ρ ι σ)} (h : Trace (ApiStep A) (fun _ _ => True) s₁ past s)
    {ack : JoinAck} (hack : s.joins r = .acked ack) :
    ∃ user, OrdersGateway.verdict message (s.sessions.phases r) = some user ∧
      (ack = OrdersGateway.atomically A.validators s₁.db message user ∨
        ack = OrdersGateway.atomically A.validators s.db message user ∨
        ack = .refused "internal" ∧ user.isSome = true ∧ .fault r ∈ past) := by
  obtain ⟨_, _, hsound⟩ := joinSound_of_trace hvalid hlink hs₁ hm hr h
  rw [hack] at hsound
  cases hsound with
  | internal hverdict hfault => exact ⟨_, hverdict, Or.inr (Or.inr ⟨rfl, rfl, hfault⟩)⟩
  | acked hverdict h =>
      rcases h with h | h
      · exact ⟨_, hverdict, Or.inl h⟩
      · exact ⟨_, hverdict, Or.inr (Or.inl h)⟩

end Step

/-! ## Schedules

Time stands still in them and no session begins or ends. -/

def JoinPhase.ack : JoinPhase → Option JoinAck
  | .verifying => none
  | .loading _ _ _ => none
  | .acked ack => some ack

theorem JoinPhase.ack_eq_some {phase : JoinPhase} {ack : JoinAck} :
    phase.ack = some ack ↔ phase = .acked ack := by
  cases phase with
  | verifying => simp [JoinPhase.ack]
  | loading orderId user rest => simp [JoinPhase.ack]
  | acked ack' => simp [JoinPhase.ack]

inductive ApiMove (ρ ι : Type) where
  | verify (r : ρ)
  | ask (r : ρ)
  | check (r : ρ)
  | event (m : EventMove ι)
  | enter (r : ρ)
  | query (r : ρ)
  | answer (r : ρ)

namespace ApiMove

def turn : ApiMove ρ ι → ApiTurn ρ ι σ
  | .verify r => .session (.verify r)
  | .ask r => .session (.ask r)
  | .check r => .session (.query r)
  | .event m => .event m.turn
  | .enter r => .enter r
  | .query r => .query r
  | .answer r => .answer r

end ApiMove

/-- `MayStart` as a check. -/
def Api.mayStart (A : Api κ ρ ι σ) (s : ApiWorld κ ρ ι σ) (i : ι) : Bool :=
  (A.calls i).route.all fun route =>
    decide ((A.sessions.requests (A.request i)).guard = .validate) &&
      (s.sessions.phases (A.request i)).passport.any fun passport =>
        match guards route passport with
        | .ok user => decide (user = (A.calls i).user)
        | .error _ => false

theorem Api.mayStart_sound {A : Api κ ρ ι σ} {s : ApiWorld κ ρ ι σ} {i : ι}
    (h : A.mayStart s i = true) : A.MayStart s i := by
  intro route hroute
  simp only [mayStart, hroute, Option.all_some, Bool.and_eq_true, decide_eq_true_eq,
    Option.any_eq_true] at h
  obtain ⟨hguard, passport, hpass, hok⟩ := h
  refine ⟨hguard, passport, hpass, ?_⟩
  split at hok
  · next user hg => rw [hg, of_decide_eq_true hok]
  · simp at hok

section Fire

variable [DecidableEq κ] [DecidableEq ρ] [DecidableEq ι] [Fintype ι] [DecidableEq σ]

/-- A move as a function, where it is possible. -/
def ApiWorld.fire (A : Api κ ρ ι σ) (s : ApiWorld κ ρ ι σ) :
    ApiMove ρ ι → Option (ApiWorld κ ρ ι σ)
  | .verify r =>
      match s.sessions.phases r with
      | .waiting => some { s with sessions := s.sessions.verify A.sessions r }
      | _ => none
  | .ask r =>
      match s.sessions.phases r with
      | .verified since checkedAt =>
          some { s with sessions := s.sessions.ask r since checkedAt }
      | _ => none
  | .check r =>
      match s.sessions.phases r with
      | .asking since checkedAt now =>
          some { s with sessions := s.sessions.query A.sessions r since checkedAt now }
      | _ => none
  | .event m =>
      match s.events.fire A.env A.calls m with
      | some ev =>
          if ∀ i, (s.events.ledger.live i).isNone = true → (ev.ledger.live i).isSome = true →
              A.mayStart s i = true then some (s.publish ev)
          else none
      | none => none
  | .enter r =>
      match s.joins r, A.joins r with
      | .verifying, some message =>
          match OrdersGateway.verdict message (s.sessions.phases r) with
          | some user =>
              if (A.sessions.requests r).guard = .verifyAccess then
                some (s.setJoin r (OrdersGateway.enter A.validators A.env message user))
              else none
          | none => none
      | _, _ => none
  | .query r =>
      match s.joins r with
      | .loading orderId user (.select next) =>
          some (s.setJoin r (.loading orderId user (next s.db)))
      | _ => none
  | .answer r =>
      match s.joins r, A.joins r with
      | .loading _ _ (.raise e), _ => some (s.setJoin r (.acked (OrdersGateway.refusal e)))
      | .loading orderId _ (.ret _), some message =>
          some ((s.setJoin r (.acked (.joined (orderRoom orderId)))).setSocket message.client
            ((s.sockets message.client).join (orderRoom orderId)))
      | _, _ => none

theorem ApiWorld.fire_sound {A : Api κ ρ ι σ} {s s' : ApiWorld κ ρ ι σ} {m : ApiMove ρ ι}
    (h : s.fire A m = some s') : ApiStep A s m.turn s' := by
  cases m with
  | verify r =>
      simp only [fire] at h
      split at h
      · next hr => exact Option.some.inj h ▸ .session (.verify hr)
      · simp at h
  | ask r =>
      simp only [fire] at h
      split at h
      · next since checkedAt hr => exact Option.some.inj h ▸ .session (.ask hr)
      · simp at h
  | check r =>
      simp only [fire] at h
      split at h
      · next since checkedAt now hr => exact Option.some.inj h ▸ .session (.query hr)
      · simp at h
  | event m =>
      simp only [fire] at h
      split at h
      · next ev hev =>
          split at h
          · next hstart =>
              refine Option.some.inj h ▸ .event (EventWorld.fire_sound hev) fun i hnone hsome => ?_
              exact Api.mayStart_sound
                (hstart i (by simp [hnone]) (Option.isSome_iff_ne_none.mpr hsome))
          · simp at h
      · simp at h
  | enter r =>
      simp only [fire] at h
      split at h
      · next message hr hm =>
          split at h
          · next user hverdict =>
              split at h
              · next hguard => exact Option.some.inj h ▸ .enter hr hm hguard hverdict
              · simp at h
          · simp at h
      · simp at h
  | query r =>
      simp only [fire] at h
      split at h
      · next orderId user next hr => exact Option.some.inj h ▸ .query hr
      · simp at h
  | answer r =>
      simp only [fire] at h
      split at h
      · next hr => exact Option.some.inj h ▸ .refuse hr
      · next orderId _ tx message hr hm => exact Option.some.inj h ▸ .join hr hm
      · simp at h

end Fire

/-! A user, an order, and a socket that joins it. -/

instance neZero_one : NeZero 1 := ⟨one_ne_zero⟩

def sampleApi : Api (Fin 2) (Fin 2) (Fin 1) (Fin 1) where
  sessions := {
    sampleSessions with
    requests := fun r => ⟨if r = 0 then .verifyAccess else .validate, 11⟩ }
  env := sampleEnv
  validators := sampleValidators
  calls _ := .changeStatus sampleOrder.text .failed acceptedUser
  request _ := 1
  joins r := if r = 0 then some ⟨0, true, some sampleOrder.text⟩ else none

theorem sampleApi_next (s : ApiWorld (Fin 2) (Fin 2) (Fin 1) (Fin 1))
    (m : ApiMove (Fin 2) (Fin 1)) (s' : ApiWorld (Fin 2) (Fin 2) (Fin 1) (Fin 1))
    (h : s.fire sampleApi m = some s') :
    Next (ApiStep sampleApi) (fun _ _ => True) s s' :=
  ⟨m.turn, trivial, ApiWorld.fire_sound h⟩

def joining : List (ApiMove (Fin 2) (Fin 1)) :=
  [.verify 0, .ask 0, .check 0, .enter 0, .query 0, .query 0, .answer 0]

def sampleJoin : JoinMessage (Fin 1) := ⟨0, true, some sampleOrder.text⟩

theorem join_answers_sample :
    ∃ past s user, Trace (ApiStep sampleApi) (fun _ _ => True) (.boot 0 orderDb) past s ∧
      OrdersGateway.verdict sampleJoin (s.sessions.phases 0) = some user ∧
      (JoinAck.joined (orderRoom sampleOrder.text)
          = OrdersGateway.atomically sampleValidators orderDb sampleJoin user ∨
        JoinAck.joined (orderRoom sampleOrder.text)
          = OrdersGateway.atomically sampleValidators s.db sampleJoin user ∨
        JoinAck.joined (orderRoom sampleOrder.text) = .refused "internal" ∧
          user.isSome = true ∧ .fault 0 ∈ past) := by
  have hrun : (follow (ApiWorld.fire sampleApi) joining (.boot 0 orderDb)).any
      (fun s => (s.joins 0).ack = some (.joined (orderRoom sampleOrder.text))) = true := by
    decide +kernel
  obtain ⟨s, hr, hp⟩ := exists_follow sampleApi_next _ _ _ hrun
  obtain ⟨past, htrace⟩ := Reach.exists_trace hr
  have hack : s.joins 0 = .acked (.joined (orderRoom sampleOrder.text)) :=
    JoinPhase.ack_eq_some.mp (of_decide_eq_true hp)
  have hm : sampleApi.joins 0 = some sampleJoin := rfl
  obtain ⟨user, hverdict, h⟩ :=
    join_answers sampleValidators_reads linked_orderDb .refl hm rfl htrace hack
  exact ⟨past, s, user, htrace, hverdict, h⟩

end InvestApi.Ref
