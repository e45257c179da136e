import InvestApi.Ledger.Alone
import InvestApi.Ledger.Books

/-!
# Concurrent checkouts are linearizable

The serial order is the order in which the calls end. A call that commits
holds its account's row from the debit on, so at its COMMIT it is as if it
had run just then. A call that was refused for lack of money saw too little
some time before it rolls back; no other checkout ever raises a balance, so
it would see too little at the rollback as well. An aborted call has done
nothing.

What a call costs is what it sends. That is the product of its unit price and its
quantity as far as JavaScript multiplies them exactly and spells them in full.
-/

namespace InvestApi.Ref

open InvestApi.Pg

variable {ι : Type}

def checkouts (requests : ι → CheckoutRequest) (draws : ι → CheckoutDraw) :
    ι → LedgerCall :=
  fun i => .checkout (requests i) (draws i)

/-- A run of the calls one after the other: each entry of the log is what its
call answers alone, or an abort that changes nothing. -/
inductive Serial (env : Env) (calls : ι → LedgerCall) (d : LedgerDb) :
    List (ι × Finish ApiError LedgerReply) → LedgerDb → Prop
  | nil : Serial env calls d [] d
  | call {log i finish d₁ d₂} (h : Serial env calls d log d₁)
      (ha : ((calls i).body env).alone d₁ (calls i).draws = (finish, d₂)) :
      Serial env calls d (log ++ [(i, finish)]) d₂
  | abort {log i d₁} (h : Serial env calls d log d₁) :
      Serial env calls d (log ++ [(i, .aborted)]) d₁

/-! ## What checkouts do to each other -/

/-- No account appears and no balance rises. -/
def Falls (d d' : LedgerDb) : Prop :=
  ∀ u row', d'.get (.account u) = some row' →
    ∃ row, d.get (.account u) = some row ∧ row'.balanceCents ≤ row.balanceCents

theorem Falls.trans {d d' d'' : LedgerDb} (h : Falls d d') (h' : Falls d' d'') :
    Falls d d'' := by
  intro u row'' hrow''
  obtain ⟨row', hrow', hle'⟩ := h' u row'' hrow''
  obtain ⟨row, hrow, hle⟩ := h u row' hrow'
  exact ⟨row, hrow, hle'.trans hle⟩

theorem Poor.of_falls {d d' : LedgerDb} {u : Uuid} {cost : Int}
    (h : Poor d u cost) (hf : Falls d d') : Poor d' u cost := by
  intro row' hrow'
  obtain ⟨row, hrow, hle⟩ := hf u row' hrow'
  have hlt := h row hrow
  omega

abbrev CheckoutG (_ : LedgerSession) (w w' : LedgerWorld ι) : Prop :=
  Persist w.db w'.db ∧ Falls w.db w'.db

abbrev CheckoutR : LedgerSession → LedgerWorld ι → LedgerWorld ι → Prop :=
  LockRely (fun _ => True) CheckoutG

theorem falls_refl (d : LedgerDb) : Falls d d :=
  fun _ row' h => ⟨row', h, le_refl _⟩

theorem checkoutRely : LedgerRely (CheckoutR (ι := ι)) where
  refl _ _ := ⟨trivial, fun _ _ => rfl, fun _ hu => hu, falls_refl _⟩
  trans _ _ _ _ h h' :=
    ⟨trivial, fun k hk => (h'.2.1 k hk).trans (h.2.1 k hk),
      fun u hu => h'.2.2.1 u (h.2.2.1 u hu), h.2.2.2.trans h'.2.2.2⟩
  held h := h.2.1
  persist h := h.2.2.1

section Refused

variable {env : Env} {request : CheckoutRequest} {draw : CheckoutDraw}
  {e : ApiError} {w : LedgerWorld ι} {s : LedgerSession}

/-- What a refused checkout saw is still so when it rolls back. -/
theorem Refused.alone (h : Refused CheckoutR env request e w s) :
    ((LedgerCall.checkout request draw).body env).alone w.db []
      = (.raised e, w.db) := by
  cases h with
  | quantity h =>
      simp [Prog.alone, LedgerCall.body, Checkout.body, h, Prog.bind, Prog.exec]
  | accountId h hu =>
      simp [Prog.alone, LedgerCall.body, Checkout.body, h, Prog.bind, Prog.exec,
        Checkout.transaction, Checkout.debitAccount, hu]
  | cost h hu hc =>
      simp [Prog.alone, LedgerCall.body, Checkout.body, h, Prog.bind, Prog.exec,
        Checkout.transaction, Checkout.debitAccount, hu, hc]
  | short h hu hc hpoor h₁ hfound h₂ =>
      have hpoor' := hpoor.of_falls (h₁.2.2.2.trans h₂.2.2.2)
      obtain ⟨row, hrow⟩ := h₂.2.2.1 _ hfound
      rw [alone_poor h hu hc hpoor', hrow]
      rfl
  | @missing u cost w₂ _ _ h hu hc hgone h₂ =>
      -- An account that is there now was there when it was looked for.
      have hnone : w.db.get (.account u) = none := by
        cases hrow' : w.db.get (.account u) with
        | none => rfl
        | some row' =>
            obtain ⟨row, hrow, _⟩ := h₂.2.2.2 u row' hrow'
            exact absurd ⟨row, hrow⟩ hgone
      have hpoor : Poor w.db u cost := by
        intro row hrow
        rw [hnone] at hrow
        simp at hrow
      rw [alone_poor h hu hc hpoor, hnone]
      rfl
  | stopped h hrow hstop => exact alone_stopped h hrow hstop

/-- A call refused for lack of money finds, as it rolls back, an account with
less than its cost. -/
theorem Refused.short_now
    (h : Refused CheckoutR env request (.checkoutRejected .insufficient_funds) w s) :
    ∃ u cost row, pgUuidIn request.accountId = some u ∧
      bigintParam (Checkout.sentCost request) = .ret cost ∧
      w.db.get (.account u) = some row ∧ row.balanceCents < cost := by
  generalize he : ApiError.checkoutRejected .insufficient_funds = e at h
  cases h with
  | quantity h => simp [Checkout.badQuantity] at he
  | accountId h hu =>
      obtain ⟨code, rfl⟩ := uuidParam_raise hu
      simp at he
  | cost h hu hc =>
      obtain ⟨code, rfl⟩ := bigintParam_raise hc
      simp at he
  | short h hu hc hpoor h₁ hfound h₂ =>
      obtain ⟨row, hrow⟩ := h₂.2.2.1 _ hfound
      exact ⟨_, _, row, uuidParam_eq_ret.mp hu, hc, hrow,
        hpoor.of_falls (h₁.2.2.2.trans h₂.2.2.2) row hrow⟩
  | missing h hu hc hgone h₂ => simp at he
  | stopped h hrow hstop =>
      cases hstop with
      | rate hrate => simp at he
      | instrument hrate hi =>
          obtain ⟨code, rfl⟩ := uuidParam_raise hi
          simp at he
      | quantity hrate hi hm =>
          obtain ⟨code, rfl⟩ := bigintParam_raise hm
          simp at he

end Refused

/-! ## What a checkout leaves -/

section Bought

variable {env : Env} {request : CheckoutRequest} {draw : CheckoutDraw}
  {d : LedgerDb} {u : Uuid} {row : AccountRow} {cost : Int}
  {order : TransactionRow}

theorem get_transaction_bought (t : Uuid) :
    (d.writeAll (boughtWrites request draw u row cost order)).get (.transaction t)
      = if t = draw.orderId then some order else d.get (.transaction t) := by
  by_cases h : t = draw.orderId
  · subst h; simp [boughtWrites]
  · simp [boughtWrites, h]

theorem get_job_bought (j : Uuid) :
    (d.writeAll (boughtWrites request draw u row cost order)).get (.job j)
      = if j = draw.jobId then some (Checkout.jobRow request draw)
        else d.get (.job j) := by
  by_cases h : j = draw.jobId
  · subst h; simp [boughtWrites]
  · simp [boughtWrites, h]

theorem balanceOf_bought (hrow : d.get (.account u) = some row) (a : Uuid) :
    balanceOf (d.writeAll (boughtWrites request draw u row cost order)) a
      = balanceOf d a - if u = a then cost else 0 := by
  by_cases h : u = a
  · subst h
    simp [boughtWrites, balanceOf, hrow, debited]
  · have hne : a ≠ u := Ne.symm h
    simp [boughtWrites, balanceOf, h, hne]

theorem Falls.of_bought (h : Buys env request draw d u row cost order) :
    Falls d (d.writeAll (boughtWrites request draw u row cost order)) := by
  have hcost : 0 ≤ cost := by
    have hamount := transactionConstraints_amount h.order_ok
    obtain ⟨rate, i, q, _, _, _, rfl⟩ := h.order_eq
    exact hamount
  intro a row' hrow'
  by_cases ha : a = u
  · subst ha
    simp only [boughtWrites, Db.writeAll_cons, Db.writeAll_nil] at hrow'
    simp only [ne_eq, reduceCtorEq, not_false_eq_true, Db.get_set_ne,
      Db.get_set_self, Option.some.injEq] at hrow'
    refine ⟨row, h.row_eq, ?_⟩
    rw [← hrow', debited]
    dsimp only
    omega
  · simp [boughtWrites, ha] at hrow'
    exact ⟨row', hrow', le_refl _⟩

end Bought

/-! ## The serial order -/

/-- What the successful calls on account `a` cost together. -/
def spent (cost : CheckoutRequest → Number) (requests : ι → CheckoutRequest)
    (log : List (ι × Finish ApiError LedgerReply)) (a : Uuid) : Number :=
  (log.map fun entry =>
    match entry.2 with
    | .committed _ =>
        if pgUuidIn (requests entry.1).accountId = some a then cost (requests entry.1) else 0
    | _ => 0).sum

/-- The finished calls of `w` explained by the order in which they ended, as
far as a caller or a reader of the tables can tell. -/
structure Linearized (env : Env) (cost : CheckoutRequest → Number)
    (requests : ι → CheckoutRequest) (draws : ι → CheckoutDraw) (d₀ : LedgerDb)
    (w : LedgerWorld ι) : Prop where
  serial : Serial env (checkouts requests draws) d₀ w.log w.db
  /-- A successful call has its order, posted and for its cost. -/
  order : ∀ i s, (i, .committed (.checkout s)) ∈ w.log → ∃ t,
    w.db.get (.transaction s.orderId) = some t ∧ t.type = .buy ∧
    t.status = .posted ∧ pgUuidIn (requests i).accountId = some t.accountId ∧
    (t.amountCents : Number) = cost (requests i)
  /-- A successful call has its receipt job. -/
  job : ∀ i s, (i, .committed (.checkout s)) ∈ w.log → ∃ j,
    w.db.get (.job s.jobId) = some j ∧ j.type = "order_receipt" ∧
    j.payload.order_id = s.orderId
  /-- No other transaction rows have come, none has changed. -/
  orders : ∀ t, w.db.get (.transaction t) = d₀.get (.transaction t) ∨
    d₀.get (.transaction t) = none ∧
      ∃ i s, (i, .committed (.checkout s)) ∈ w.log ∧ s.orderId = t
  /-- No other jobs have come, none has changed; a new one names the order of
  the call it belongs to. -/
  jobs : ∀ j, w.db.get (.job j) = d₀.get (.job j) ∨
    d₀.get (.job j) = none ∧
      ∃ i s, (i, .committed (.checkout s)) ∈ w.log ∧ s.jobId = j
  /-- Orders and jobs belong to one call each. -/
  apart : ∀ i s i' s', (i, .committed (.checkout s)) ∈ w.log →
    (i', .committed (.checkout s')) ∈ w.log →
    s.orderId = s'.orderId ∨ s.jobId = s'.jobId → i = i' ∧ s = s'
  balance : ∀ a, (balanceOf w.db a : Number)
    = balanceOf d₀ a - spent cost requests w.log a
  /-- Who was refused for lack of money had too little at its place. -/
  refused : ∀ pre post i,
    w.log = pre ++ (i, .raised (.checkoutRejected .insufficient_funds)) :: post →
    ∃ d u row, Serial env (checkouts requests draws) d₀ pre d ∧
      pgUuidIn (requests i).accountId = some u ∧
      d.get (.account u) = some row ∧ (row.balanceCents : Number) < cost (requests i)

section Linear

variable {env : Env} {cost : CheckoutRequest → Number} {requests : ι → CheckoutRequest}
  {draws : ι → CheckoutDraw} {d₀ : LedgerDb} {w : LedgerWorld ι}

theorem Linearized.init : Linearized env cost requests draws d₀ ⟨d₀, []⟩ where
  serial := .nil
  order _ _ h := by simp at h
  job _ _ h := by simp at h
  orders _ := Or.inl rfl
  jobs _ := Or.inl rfl
  apart _ _ _ _ h := by simp at h
  balance _ := by simp [spent]
  refused _ _ _ h := by simp at h

/-- Where an entry stands in a log that has just grown. -/
theorem concat_eq_split {α : Type} {log pre post : List α} {x y : α}
    (h : log ++ [x] = pre ++ y :: post) :
    (pre = log ∧ y = x) ∨ ∃ post', log = pre ++ y :: post' := by
  rcases List.eq_nil_or_concat post with rfl | ⟨post', z, rfl⟩
  · obtain ⟨h, h'⟩ := List.append_inj' h rfl
    exact Or.inl ⟨h.symm, (List.head_eq_of_cons_eq h').symm⟩
  · have h' : log ++ [x] = (pre ++ y :: post') ++ [z] := by
      rw [h]; simp
    exact Or.inr ⟨post', (List.append_inj' h' rfl).1⟩

/-- A call that ends without committing adds its entry and nothing else. -/
theorem Linearized.note (h : Linearized env cost requests draws d₀ w) {i : ι}
    {finish : Finish ApiError LedgerReply} (hno : ∀ r, finish ≠ .committed r)
    (hserial : Serial env (checkouts requests draws) d₀ (w.log ++ [(i, finish)]) w.db)
    (hshort : finish = .raised (.checkoutRejected .insufficient_funds) →
      ∃ u row, pgUuidIn (requests i).accountId = some u ∧
        w.db.get (.account u) = some row ∧
        (row.balanceCents : Number) < cost (requests i)) :
    Linearized env cost requests draws d₀ (w.note i finish) := by
  have hold : ∀ {j s}, (j, .committed (.checkout s)) ∈ w.log ++ [(i, finish)] →
      (j, Finish.committed (LedgerReply.checkout s)) ∈ w.log := by
    intro j s hmem
    rcases List.mem_append.mp hmem with hmem | hmem
    · exact hmem
    · obtain ⟨_, hf⟩ := Prod.mk.inj (List.mem_singleton.mp hmem)
      exact absurd hf.symm (hno _)
  exact
  { serial := hserial
    order := fun j s hj => h.order j s (hold hj)
    job := fun j s hj => h.job j s (hold hj)
    orders := by
      intro t
      rcases h.orders t with ho | ⟨hn, j, s, hj, hs⟩
      · exact Or.inl ho
      · exact Or.inr ⟨hn, j, s, List.mem_append_left _ hj, hs⟩
    jobs := by
      intro t
      rcases h.jobs t with ho | ⟨hn, j, s, hj, hs⟩
      · exact Or.inl ho
      · exact Or.inr ⟨hn, j, s, List.mem_append_left _ hj, hs⟩
    apart := fun j s j' s' hj hj' => h.apart j s j' s' (hold hj) (hold hj')
    balance := by
      intro a
      have hzero : spent cost requests (w.log ++ [(i, finish)]) a
          = spent cost requests w.log a := by
        cases finish with
        | committed r => exact absurd rfl (hno r)
        | raised e => simp [spent]
        | aborted => simp [spent]
      rw [World.note_db, World.note_log, hzero]
      exact h.balance a
    refused := by
      intro pre post j hsplit
      rw [World.note_log] at hsplit
      rcases concat_eq_split hsplit with ⟨rfl, heq⟩ | ⟨post', hlog⟩
      · obtain ⟨rfl, hf⟩ := Prod.mk.inj heq
        obtain ⟨u, row, hu, hrow, hlt⟩ := hshort hf.symm
        exact ⟨w.db, u, row, h.serial, hu, hrow, hlt⟩
      · exact h.refused pre post' j hlog }

/-- A call that commits is, from then on, the last of the serial order. -/
theorem Linearized.commit (h : Linearized env cost requests draws d₀ w) {i : ι}
    {u : Uuid} {row : AccountRow} {amount : Int} {order : TransactionRow}
    (hb : Buys env (requests i) (draws i) w.db u row amount order)
    (hcost : (amount : Number) = cost (requests i)) :
    Linearized env cost requests draws d₀
      ⟨w.db.writeAll (boughtWrites (requests i) (draws i) u row amount order),
        w.log ++ [(i, .committed
          (.checkout (bought (requests i) (draws i) row amount)))]⟩ := by
  have hacc := uuidParam_eq_ret.mp hb.account
  obtain ⟨rate, inst, q, _, _, _, horder⟩ := id hb.order_eq
  -- An entry of the longer log is an old one or this one.
  have hmem : ∀ {j s}, (j, Finish.committed (LedgerReply.checkout s)) ∈ w.log
      ++ [(i, .committed (.checkout (bought (requests i) (draws i) row amount)))] →
      (j, Finish.committed (LedgerReply.checkout s)) ∈ w.log ∨
        j = i ∧ s = bought (requests i) (draws i) row amount := by
    intro j s hj
    rcases List.mem_append.mp hj with hj | hj
    · exact Or.inl hj
    · have heq := List.mem_singleton.mp hj
      simp only [Prod.mk.injEq, Finish.committed.injEq,
        LedgerReply.checkout.injEq] at heq
      exact Or.inr heq
  -- Its ids are new, so they are not those of an earlier call.
  have hids : ∀ {j s}, (j, Finish.committed (LedgerReply.checkout s)) ∈ w.log →
      s.orderId ≠ (draws i).orderId ∧ s.jobId ≠ (draws i).jobId := by
    intro j s hj
    obtain ⟨t, ht, _⟩ := h.order j s hj
    obtain ⟨t', ht', _⟩ := h.job j s hj
    constructor
    · intro he
      rw [he, hb.order_new] at ht
      simp at ht
    · intro he
      rw [he, hb.job_new] at ht'
      simp at ht'
  exact
  { serial := .call h.serial (alone_bought hb)
    order := by
      intro j s hj
      rcases hmem hj with hj | ⟨rfl, rfl⟩
      · obtain ⟨t, ht, hrest⟩ := h.order j s hj
        refine ⟨t, ?_, hrest⟩
        rw [get_transaction_bought, if_neg (hids hj).1, ht]
      · refine ⟨order, ?_, ?_⟩
        · rw [get_transaction_bought]
          simp [bought]
        · rw [horder, Checkout.orderRow]
          exact ⟨rfl, rfl, hacc, hcost⟩
    job := by
      intro j s hj
      rcases hmem hj with hj | ⟨rfl, rfl⟩
      · obtain ⟨t, ht, hrest⟩ := h.job j s hj
        refine ⟨t, ?_, hrest⟩
        rw [get_job_bought, if_neg (hids hj).2, ht]
      · refine ⟨Checkout.jobRow (requests j) (draws j), ?_, rfl, rfl⟩
        rw [get_job_bought]
        simp [bought]
    orders := by
      intro t
      dsimp only
      rw [get_transaction_bought]
      by_cases ht : t = (draws i).orderId
      · refine Or.inr ⟨?_, i, _, List.mem_append_right _ List.mem_cons_self, ht.symm⟩
        rcases h.orders t with ho | ⟨hn, _⟩
        · rw [← ho, ht, hb.order_new]
        · exact hn
      · rw [if_neg ht]
        rcases h.orders t with ho | ⟨hn, j, s, hj, hs⟩
        · exact Or.inl ho
        · exact Or.inr ⟨hn, j, s, List.mem_append_left _ hj, hs⟩
    jobs := by
      intro t
      dsimp only
      rw [get_job_bought]
      by_cases ht : t = (draws i).jobId
      · refine Or.inr ⟨?_, i, _, List.mem_append_right _ List.mem_cons_self, ht.symm⟩
        rcases h.jobs t with ho | ⟨hn, _⟩
        · rw [← ho, ht, hb.job_new]
        · exact hn
      · rw [if_neg ht]
        rcases h.jobs t with ho | ⟨hn, j, s, hj, hs⟩
        · exact Or.inl ho
        · exact Or.inr ⟨hn, j, s, List.mem_append_left _ hj, hs⟩
    apart := by
      intro j s j' s' hj hj' hsame
      rcases hmem hj with hold | ⟨rfl, rfl⟩
      · rcases hmem hj' with hold' | ⟨rfl, rfl⟩
        · exact h.apart j s j' s' hold hold' hsame
        · rcases hsame with he | he
          · exact absurd he (hids hold).1
          · exact absurd he (hids hold).2
      · rcases hmem hj' with hold' | ⟨rfl, rfl⟩
        · rcases hsame with he | he
          · exact absurd he.symm (hids hold').1
          · exact absurd he.symm (hids hold').2
        · exact ⟨rfl, rfl⟩
    balance := by
      intro a
      have hspent : spent cost requests (w.log ++ [(i, .committed (.checkout
          (bought (requests i) (draws i) row amount)))]) a
          = spent cost requests w.log a + if u = a then (amount : Number) else 0 := by
        simp [spent, hacc, hcost]
      dsimp only
      rw [balanceOf_bought hb.row_eq, hspent, Int.cast_sub, h.balance a]
      split
      · ring
      · simp
    refused := by
      intro pre post j hsplit
      rcases concat_eq_split hsplit with ⟨_, heq⟩ | ⟨post', hlog⟩
      · simp at heq
      · exact h.refused pre post' j hlog }

/-- The jobs of a run name each order once. -/
theorem Linearized.job_unique (h : Linearized env cost requests draws d₀ w) {i : ι}
    {s : CheckoutSuccess} (hi : (i, .committed (.checkout s)) ∈ w.log) {j : Uuid}
    {row : JobRow} (hrow : w.db.get (.job j) = some row)
    (hnew : d₀.get (.job j) = none) (hname : row.payload.order_id = s.orderId) :
    j = s.jobId := by
  rcases h.jobs j with ho | ⟨_, i', s', hi', hj⟩
  · rw [hrow, hnew] at ho
    simp at ho
  · obtain ⟨row', hrow', _, hname'⟩ := h.job i' s' hi'
    rw [hj, hrow, Option.some.injEq] at hrow'
    rw [← hrow', hname] at hname'
    obtain ⟨_, rfl⟩ := h.apart i s i' s' hi hi' (Or.inl hname')
    exact hj.symm

end Linear

/-! ## Every run -/

theorem checkoutDiscipline (env : Env) (requests : ι → CheckoutRequest)
    (draws : ι → CheckoutDraw) (C : LedgerState ι → ι → Prop) :
    LockDiscipline (ledgerSystem env (checkouts requests draws)) C
      (fun _ => True) CheckoutG
      (fun i r w s => Wrote env w.db (checkouts requests draws i) r s.writes)
      (fun i e w s => Refused CheckoutR env (requests i) e w s) where
  refl _ w := ⟨fun _ hu => hu, falls_refl w.db⟩
  trans _ _ _ _ h h' := ⟨fun u hu => h'.1 u (h.1 u hu), h.2.trans h'.2⟩
  start _ _ _ _ _ _ :=
    wp_checkout checkoutRely (fun _ _ _ h => h) fun _ _ _ h => h
  commit st i r σ _ _ _ _ hq := by
    refine ⟨trivial, fun _ _ _ _ _ => ⟨hq.persist, ?_⟩⟩
    dsimp only [checkouts] at hq
    generalize hws : σ.writes = ws at hq
    cases hq with
    | bought h =>
        dsimp only [World.commit, Session.view]
        rw [hws]
        exact .of_bought h
  rollback w _ _ _ _ _ := ⟨trivial, fun _ => ⟨fun _ hu => hu, falls_refl w.db⟩⟩
  abort w _ _ := ⟨trivial, fun _ => ⟨fun _ hu => hu, falls_refl w.db⟩⟩

/-- Whatever names the integers sent names the costs of the serial order. -/
theorem linearized_of_reach [DecidableEq ι] {env : Env} {cost : CheckoutRequest → Number}
    {requests : ι → CheckoutRequest} {draws : ι → CheckoutDraw} {d₀ : LedgerDb}
    (hcost : ∀ i n, bigintParam (Checkout.sentCost (requests i)) = .ret n →
      (n : Number) = cost (requests i))
    {st : LedgerState ι}
    (hr : Reach (ledgerSystem env (checkouts requests draws)) (State.init d₀) st) :
    Linearized env cost requests draws d₀ st.toWorld := by
  have hends := (checkoutDiscipline env requests draws _).discipline.ends
    (fun _ _ => True) (fun _ _ h => h) trivial hr
  generalize st.toWorld = w at hends
  induction hends with
  | refl => exact .init
  | tail _ hstep ih =>
      cases hstep with
      | @commit i r σ _ _ hq =>
          dsimp only [checkouts] at hq
          dsimp only [World.commit, Session.view]
          generalize σ.writes = ws at hq
          cases hq with
          | bought h => exact ih.commit h (hcost i _ h.cost_eq)
      | @rollback i e σ _ he =>
          refine ih.note (by simp) (.call ih.serial he.alone) fun hf => ?_
          injection hf with hf
          subst hf
          obtain ⟨u, n, row, hu, hc, hrow, hlt⟩ := he.short_now
          refine ⟨u, row, hu, hrow, ?_⟩
          rw [← hcost i n hc]
          exact Int.cast_lt.mpr hlt
      | abort _ => exact ih.note (by simp) (.abort ih.serial) (by simp)

/-- The product of a request's two numbers. -/
def Checkout.product (request : CheckoutRequest) : Number :=
  request.unitPriceCents * request.quantity

/-- Where JavaScript sends an integer for the cost, it is the product. -/
def Checkout.SendsProduct (request : CheckoutRequest) : Prop :=
  (sentCost request).den = 1 → sentCost request = product request

theorem Checkout.SendsProduct.eq {request : CheckoutRequest} (h : SendsProduct request) {n : Int}
    (hn : bigintParam (sentCost request) = .ret n) : (n : Number) = product request := by
  have hsent := bigintParam_eq hn
  rw [← h (by rw [← hsent, Rat.den_intCast])]
  exact hsent

/-- Concurrent checkouts are linearizable: the order in which the calls ended
is a serial order that explains every outcome, every row and every balance. The
costs are what the calls send, and the products where these are sent exactly. -/
theorem checkouts_linearizable [DecidableEq ι] {env : Env}
    {requests : ι → CheckoutRequest} {draws : ι → CheckoutDraw} {d₀ : LedgerDb}
    {st : LedgerState ι}
    (hr : Reach (ledgerSystem env (checkouts requests draws)) (State.init d₀) st) :
    (st.log.map (·.1)).Nodup ∧
      Linearized env Checkout.sentCost requests draws d₀ st.toWorld ∧
      (∀ i s, (i, .committed (.checkout s)) ∈ st.log → ∀ j row,
        st.db.get (.job j) = some row → d₀.get (.job j) = none →
        row.payload.order_id = s.orderId → j = s.jobId) ∧
      ((∀ i, Checkout.SendsProduct (requests i)) →
        Linearized env Checkout.product requests draws d₀ st.toWorld) := by
  have hlin := linearized_of_reach (fun _ _ hn => bigintParam_eq hn) hr
  exact ⟨hr.log_nodup.1, hlin, fun _ _ hi _ _ => hlin.job_unique hi,
    fun hsends => linearized_of_reach (fun i _ hn => (hsends i).eq hn) hr⟩

/-! Two calls race for 300 cents, 200 each: the second one's statement has
found the row good before the first one's debit is committed. -/

def raceRequest (_ : Fin 4) : CheckoutRequest :=
  ⟨Uuid.text 7, Uuid.text 5, 2, 100, none⟩

def raceDraw (i : Fin 4) : CheckoutDraw :=
  ⟨Fin.ofNat _ (30 + i.val), Fin.ofNat _ (40 + i.val), 0⟩

def raceSchedule : List (Turn (Fin 4)) :=
  [.start 0, .start 1] ++ turns 0 2 ++ turns 1 1 ++ turns 0 3 ++ [.finish 0]
    ++ turns 1 3 ++ [.finish 1]

theorem checkouts_linearizable_race :
    ∃ st, Reach (ledgerSystem sampleEnv (checkouts raceRequest raceDraw))
        (State.init sampleDb) st ∧
      Linearized sampleEnv Checkout.product raceRequest raceDraw sampleDb st.toWorld ∧
      decide (st.log = [(0, .committed (.checkout ⟨30, 40, 100, 200, "UAH"⟩)),
        (1, .raised (.checkoutRejected .insufficient_funds))]) = true := by
  have hrun : (path (ledgerSystem sampleEnv (checkouts raceRequest raceDraw))
      raceSchedule (State.init sampleDb)).any (fun st => decide (st.log
        = [(0, .committed (.checkout ⟨30, 40, 100, 200, "UAH"⟩)),
          (1, .raised (.checkoutRejected .insufficient_funds))])) = true := by
    decide +kernel
  obtain ⟨st, hr, hp⟩ := exists_reach raceSchedule _ hrun
  have hsends : Checkout.sentCost ⟨Uuid.text 7, Uuid.text 5, 2, 100, none⟩
      = Checkout.product ⟨Uuid.text 7, Uuid.text 5, 2, 100, none⟩ := by
    decide +kernel
  exact ⟨st, hr, (checkouts_linearizable hr).2.2.2 fun _ _ => hsends, hp⟩

/-! 2097152 units at 549755813888 cents cost 2 ^ 60, and what is sent is 24 more. -/

def largeRequest (_ : Fin 4) : CheckoutRequest :=
  ⟨Uuid.text 7, Uuid.text 5, 2 ^ 21, 2 ^ 39, none⟩

def largeDb (balance : Int) : LedgerDb :=
  Db.empty.set (.account 7) (some ⟨1, "UAH", "cash", .cash, balance, false, 0⟩)

def largeSchedule (n : Nat) : List (Turn (Fin 4)) := [.start 0] ++ turns 0 n ++ [.finish 0]

theorem Serial.nil_iff {env : Env} {calls : ι → LedgerCall} {d d' : LedgerDb}
    (h : Serial env calls d [] d') : d' = d := by
  generalize hlog : ([] : List (ι × Finish ApiError LedgerReply)) = log at h
  cases h with
  | nil => rfl
  | call _ _ => simp at hlog
  | abort _ => simp at hlog

/-- A balance of the product is refused. Of twice the product more than the product is
debited. -/
theorem large_checkout_not_linearizable :
    (∃ st, Reach (ledgerSystem sampleEnv (checkouts largeRequest raceDraw))
        (State.init (largeDb (2 ^ 60))) st ∧
      st.log = [(0, .raised (.checkoutRejected .insufficient_funds))] ∧
      ¬Linearized sampleEnv Checkout.product largeRequest raceDraw (largeDb (2 ^ 60))
        st.toWorld) ∧
    ∃ st, Reach (ledgerSystem sampleEnv (checkouts largeRequest raceDraw))
        (State.init (largeDb (2 ^ 61))) st ∧
      balanceOf st.db 7 = 2 ^ 61 - (2 ^ 60 + 24) ∧
      ¬Linearized sampleEnv Checkout.product largeRequest raceDraw (largeDb (2 ^ 61))
        st.toWorld := by
  have hproduct : Checkout.product (largeRequest 0) = ((2 ^ 60 : Int) : Number) := by
    decide +kernel
  constructor
  · have hrun : (path (ledgerSystem sampleEnv (checkouts largeRequest raceDraw))
        (largeSchedule 3) (State.init (largeDb (2 ^ 60)))).any (fun st => decide (st.log
          = [(0, .raised (.checkoutRejected .insufficient_funds))])) = true := by
      decide +kernel
    obtain ⟨st, hr, hp⟩ := exists_reach (largeSchedule 3) _ hrun
    have hlog := of_decide_eq_true hp
    refine ⟨st, hr, hlog, fun hlin => ?_⟩
    obtain ⟨d, u, row, hserial, hu, hrow, hlt⟩ := hlin.refused [] [] 0 hlog
    obtain rfl := hserial.nil_iff
    obtain rfl := Option.some.inj ((pgUuidIn_text 7).symm.trans hu)
    rw [largeDb, Db.get_set_self, Option.some.injEq] at hrow
    rw [← hrow, hproduct] at hlt
    exact lt_irrefl _ hlt
  · have hrun : (path (ledgerSystem sampleEnv (checkouts largeRequest raceDraw))
        (largeSchedule 5) (State.init (largeDb (2 ^ 61)))).any (fun st => decide (
          balanceOf st.db 7 = 2 ^ 61 - (2 ^ 60 + 24) ∧
            spent Checkout.product largeRequest st.log 7 = ((2 ^ 60 : Int) : Number))) = true := by
      decide +kernel
    obtain ⟨st, hr, hp⟩ := exists_reach (largeSchedule 5) _ hrun
    obtain ⟨hbalance, hspent⟩ := of_decide_eq_true hp
    refine ⟨st, hr, hbalance, fun hlin => ?_⟩
    have hfell := hlin.balance 7
    have hopening : balanceOf (largeDb (2 ^ 61)) 7 = 2 ^ 61 := by decide +kernel
    rw [show st.toWorld.db = st.db from rfl, show st.toWorld.log = st.log from rfl, hbalance,
      hspent, hopening, ← Int.cast_sub, Int.cast_inj] at hfell
    exact absurd hfell (by decide)

end InvestApi.Ref
