import InvestApi.Pg.Progress
import InvestApi.Ledger.Booking
import InvestApi.Ledger.Books

/-!
# When the ledger's calls cannot deadlock

A status change locks the order's row and then the account's, a checkout the
account's row while it holds nothing but the ids it has drawn. Both climb
from transactions and jobs to accounts. A batch updates its accounts in the
order in which its entries first name them, which is the client's order: the
rows of one batch climb along that order, and nothing makes the orders of two
batches agree.

So what decides is the union of these orders over all calls. While it has no
cycle there is no deadlock. With one there can be: two batches over the same
two accounts, one in each order, are enough. And where nothing can deadlock
everything ends.
-/

namespace InvestApi.Ref

open InvestApi.Pg

/-- The entries of a batch name account `a` first, and `b` first after it. -/
def LedgerCall.NamesBefore (call : LedgerCall) (a b : Uuid) : Prop :=
  match call with
  | .createTransactions input _ _ _ =>
      [a.text, b.text].Sublist (input.entries.map (·.account_id)).eraseDups
  | _ => False

/-- Some call names `a` before `b`. -/
def NamedBefore {ι : Type} (calls : ι → LedgerCall) (a b : Uuid) : Prop :=
  ∃ i, (calls i).NamesBefore a b

/-- The order in which the calls ask for rows. -/
inductive LockedBefore {ι : Type} (calls : ι → LedgerCall) : LedgerKey → LedgerKey → Prop
  | transaction {u a} : LockedBefore calls (.transaction u) (.account a)
  | job {u a} : LockedBefore calls (.job u) (.account a)
  | account {a b} (h : NamedBefore calls a b) :
      LockedBefore calls (.account a) (.account b)

/-! ## The order of the deltas -/

theorem TransactionsService.keys_addDelta (id : String) (x : Int)
    (deltas : List (String × Int)) :
    (addDelta id x deltas).map (·.1)
      = if id ∈ deltas.map (·.1) then deltas.map (·.1) else deltas.map (·.1) ++ [id] := by
  induction deltas with
  | nil => rfl
  | cons p deltas ih =>
      rw [addDelta]
      by_cases hp : p.1 = id
      · simp [hp]
      · have hp' : id ≠ p.1 := Ne.symm hp
        rw [if_neg hp, List.map_cons, ih]
        by_cases hid : id ∈ deltas.map (·.1)
        · rw [if_pos hid, List.map_cons, if_pos (List.mem_cons_of_mem _ hid)]
        · rw [if_neg hid, List.map_cons, if_neg (by simp [hp', hid]), List.cons_append]

/-- The deltas stand in the order in which the entries first name their
accounts. -/
theorem keys_deltasOf (entries : List TransactionEntryDto) :
    (deltasOf entries).map (·.1) = (entries.map (·.account_id)).eraseDups := by
  have key : ∀ (entries : List TransactionEntryDto) (deltas : List (String × Int)),
      (entries.foldl (fun deltas entry =>
          TransactionsService.addDelta entry.account_id
            (SIGN entry.type * entry.amount_cents) deltas) deltas).map (·.1)
        = deltas.map (·.1) ++ ((entries.map (·.account_id)).filter
            fun id => decide (id ∉ deltas.map (·.1))).eraseDups := by
    intro entries
    induction entries with
    | nil => intro deltas; simp
    | cons e entries ih =>
        intro deltas
        rw [List.foldl_cons, ih, TransactionsService.keys_addDelta, List.map_cons]
        by_cases he : e.account_id ∈ deltas.map (·.1)
        · rw [if_pos he, List.filter_cons_of_neg (by simpa using he)]
        · rw [if_neg he, List.filter_cons_of_pos (by simpa using he),
            List.eraseDups_cons, List.append_assoc, List.singleton_append,
            List.filter_filter]
          congr 3
          refine List.filter_congr fun id _ => ?_
          rw [Bool.eq_iff_iff]
          simp only [List.mem_append, List.mem_singleton, not_or, Bool.and_eq_true,
            Bool.not_eq_true', beq_eq_false_iff_ne, decide_eq_true_eq]
          exact And.comm
  have h := key entries []
  simp only [List.map_nil, List.nil_append, List.not_mem_nil, not_false_eq_true,
    decide_true, List.filter_true] at h
  exact h

/-- A batch that passes its checks names every account the way Postgres prints
its id. -/
theorem TransactionsService.collect_canonical {accounts : List OwnedAccount}
    {user : AuthUser} {now : Instant} {es : List (TransactionEntryDto × Uuid)} :
    ∀ {batch : List Transaction} {deltas : List (String × Int)} {r},
      collect accounts user now es batch deltas = .ok r →
        ∀ e ∈ es, ∃ a : Uuid, e.1.account_id = a.text := by
  induction es with
  | nil => simp
  | cons e es ih =>
      intro batch deltas r h
      rw [collect] at h
      split at h
      · simp at h
      · next hcheck =>
          rw [List.forall_mem_cons]
          refine ⟨?_, ih h⟩
          unfold checkEntry at hcheck
          split at hcheck
          · simp at hcheck
          · next account hfind =>
              have hid := List.find?_some hfind
              rw [decide_eq_true_eq] at hid
              exact ⟨account.id, hid.symm⟩

section Bodies

variable {ι : Type} {env : Env} {calls : ι → LedgerCall} {held : List LedgerKey}

/-- An account is above whatever is none. -/
theorem above_account (h : ∀ a, LedgerKey.account a ∉ held) (u : Uuid) :
    Above (LockedBefore calls) held (.account u) := by
  refine Or.inr fun k hk => ?_
  cases k with
  | account a => exact absurd hk (h a)
  | transaction t => exact .transaction
  | job j => exact .job

theorem climbs_uuidParam {text : String} {Q : Uuid → List LedgerKey → Prop}
    (hQ : ∀ u, pgUuidIn text = some u → Q u held) :
    (uuidParam text).Climbs (LockedBefore calls) Q held := by
  rcases uuidParam_value text with ⟨u, hu⟩ | ⟨e, he⟩
  · rw [hu]
    exact hQ u (uuidParam_eq_ret.mp hu)
  · rw [he]
    trivial

theorem climbs_bigintParam {x : Number} {Q : Int → List LedgerKey → Prop}
    (hQ : ∀ n, Q n held) : (bigintParam x).Climbs (LockedBefore calls) Q held := by
  rcases bigintParam_value x with ⟨n, hn⟩ | ⟨e, he⟩
  · rw [hn]; exact hQ n
  · rw [he]; trivial

theorem climbs_orThrow {α : Type} {x : Except ApiError α}
    {Q : α → List LedgerKey → Prop} (hQ : ∀ a, x = .ok a → Q a held) :
    (orThrow x).Climbs (LockedBefore calls) Q held := by
  rcases orThrow_value x with ⟨a, hx, ha⟩ | ⟨e, he⟩
  · rw [ha]; exact hQ a hx
  · rw [he]; trivial

theorem climbs_mapM {α β : Type} {f : β → LedgerProg α} {l : List β}
    {Q : List α → List LedgerKey → Prop}
    (hf : ∀ b, (∃ a, f b = .ret a) ∨ ∃ e, f b = .raise e) (hQ : ∀ as, Q as held) :
    (l.mapM f).Climbs (LockedBefore calls) Q held := by
  rcases Prog.mapM_value hf l with ⟨as, has, _⟩ | ⟨e, he⟩
  · rw [has]; exact hQ as
  · rw [he]; trivial

/-- `updateBalance` asks for the account it names. -/
theorem climbs_updateBalance {id : String} {delta : Int}
    (h : ∀ u, pgUuidIn id = some u → Above (LockedBefore calls) held (.account u)) :
    (AccountsRepository.updateBalance id delta).Climbs (LockedBefore calls)
      (fun _ held' => ∀ k ∈ held', k ∈ held ∨ ∃ u, pgUuidIn id = some u ∧ k = .account u)
      held := by
  refine (climbs_uuidParam (Q := fun u held' => pgUuidIn id = some u ∧ held = held')
    fun u hu => ⟨hu, rfl⟩).bind ?_
  rintro u _ ⟨hu, rfl⟩
  refine Prog.climbs_only (h u hu) ?_ ?_ ?_
  · exact fun _ k hk => Or.inl hk
  · intro _ k hk
    rcases List.mem_cons.mp hk with rfl | hk
    · exact Or.inr ⟨u, hu, rfl⟩
    · exact Or.inl hk
  · intro _ _ k hk
    rcases List.mem_cons.mp hk with rfl | hk
    · exact Or.inr ⟨u, hu, rfl⟩
    · exact Or.inl hk

theorem climbs_findByIds {ids : List String} {Q : List OwnedAccount → List LedgerKey → Prop}
    (hQ : ∀ accounts, Q accounts held) :
    (AccountsRepository.findByIds ids).Climbs (LockedBefore calls) Q held := by
  simp only [AccountsRepository.findByIds, Prog.bind_eq]
  split
  · exact hQ _
  · refine (climbs_mapM uuidParam_value (Q := fun _ held' => held = held')
      fun _ => rfl).bind ?_
    rintro us _ rfl d
    exact hQ _

/-- `saveMany` asks for no row but those it inserts. -/
theorem climbs_saveMany {transactions : List Transaction} {now : Instant}
    (h : ∀ tx ∈ transactions, LedgerKey.transaction tx.id ∈ held) :
    (TransactionsRepository.saveMany env transactions now).Climbs (LockedBefore calls)
      (fun _ held' => ∀ k ∈ held', k ∈ held) held := by
  simp only [TransactionsRepository.saveMany, Prog.bind_eq, Prog.query, Prog.bind]
  split
  · exact fun _ hk => hk
  split
  · trivial
  intro d
  split
  · trivial
  refine (climbs_mapM (bookedDate_value env) (Q := fun _ held' => held = held')
    fun _ => rfl).bind ?_
  rintro dates _ rfl d'
  refine (climbs_orThrow (Q := fun _ held' => held = held') fun _ _ => rfl).bind ?_
  rintro rates _ rfl
  refine (climbs_mapM (fun tx : Transaction => uuidParam_value tx.account_id)
    (Q := fun _ held' => held = held') fun _ => rfl).bind ?_
  rintro accountIds _ rfl
  have hrows : ∀ x ∈ TransactionsRepository.batchRows env rates now
      (transactions.zip (accountIds.zip dates)), x.1 ∈ held := by
    intro x hx
    obtain ⟨p, hp, rfl⟩ := List.mem_map.mp hx
    exact h p.1 (List.of_mem_zip hp).1
  refine ⟨fun x hx => Or.inl (hrows x hx), fun k hk => ?_⟩
  rcases List.mem_append.mp hk with hk | hk
  · obtain ⟨x, hx, rfl⟩ := List.mem_map.mp (List.mem_reverse.mp hk)
    exact hrows x hx
  · exact hk

/-- The loop over the deltas: what is held besides the ids drawn are accounts
of deltas already done, and the next one comes after each of them. -/
theorem climbs_updateBalances {i : ι} {input : CreateTransactionsDto}
    {user : AuthUser} {ids : Nat → Uuid} {now : Instant}
    (hi : calls i = .createTransactions input user ids now)
    (hcanon : ∀ p ∈ deltasOf input.entries, ∃ a : Uuid, p.1 = a.text)
    (hheld : ∀ a, LedgerKey.account a ∉ held) :
    ((deltasOf input.entries).forM fun p =>
        AccountsRepository.updateBalance p.1 p.2).Climbs (LockedBefore calls)
      (fun _ _ => True) held := by
  refine (Prog.climbs_forM (I := fun l held' => ∃ done, done ++ l = deltasOf input.entries ∧
    ∀ a, LedgerKey.account a ∈ held' → a.text ∈ done.map (·.1)) ?_
    ⟨[], rfl, fun a ha => absurd ha (hheld a)⟩).mono fun _ _ _ => trivial
  rintro p l held' ⟨done, hdone, hacc⟩
  obtain ⟨b, hb⟩ := hcanon p (by rw [← hdone]; simp)
  have hread : pgUuidIn p.1 = some b := by rw [hb, pgUuidIn_text]
  refine (climbs_updateBalance ?_).mono ?_
  · intro u hu
    obtain rfl : b = u := Option.some.inj (hread.symm.trans hu)
    refine Or.inr fun k hk => ?_
    cases k with
    | transaction t => exact .transaction
    | job j => exact .job
    | account a =>
        refine .account ⟨i, ?_⟩
        show LedgerCall.NamesBefore (calls i) a b
        rw [hi]
        show [a.text, b.text].Sublist (input.entries.map (·.account_id)).eraseDups
        rw [← keys_deltasOf, ← hdone, List.map_append, List.map_cons, hb]
        have hfirst := List.singleton_sublist.mpr (hacc a hk)
        exact hfirst.append (List.singleton_sublist.mpr List.mem_cons_self)
  · intro _ held'' hnew
    refine ⟨done ++ [p], by simpa using hdone, fun a ha => ?_⟩
    rw [List.map_append, List.mem_append]
    rcases hnew _ ha with hold | ⟨u, hu, he⟩
    · exact Or.inl (hacc a hold)
    · obtain rfl : b = u := Option.some.inj (hread.symm.trans hu)
      injection he with he
      subst he
      exact Or.inr (by simp [hb])

theorem climbs_createTransactions {i : ι} {input : CreateTransactionsDto}
    {user : AuthUser} {ids : Nat → Uuid} {now : Instant}
    (hi : calls i = .createTransactions input user ids now) :
    (TransactionsService.create env input user ids now).Climbs (LockedBefore calls)
      (fun _ _ => True) (LedgerCall.createTransactions input user ids now).randomIds := by
  rw [create_eq]
  refine (climbs_findByIds (Q := fun _ held' => LedgerCall.randomIds
    (.createTransactions input user ids now) = held') fun _ => rfl).bind ?_
  rintro accounts _ rfl
  refine (climbs_orThrow (Q := fun r held' => TransactionsService.collect accounts user now
      (drawn input ids) [] [] = .ok r ∧
      LedgerCall.randomIds (.createTransactions input user ids now) = held')
    fun _ hr => ⟨hr, rfl⟩).bind ?_
  rintro ⟨batch, deltas⟩ _ ⟨hcollect, rfl⟩
  obtain ⟨hbatch, hdeltas⟩ := Prod.mk.inj (TransactionsService.collect_ok hcollect)
  rw [map_fst_drawn] at hdeltas
  replace hdeltas : deltas = deltasOf input.entries := hdeltas
  rw [book]
  refine (climbs_saveMany ?_).bind ?_
  · intro tx htx
    rw [hbatch, List.nil_append] at htx
    obtain ⟨e, he, rfl⟩ := List.mem_map.mp htx
    obtain ⟨n, hn, hid⟩ := id_of_drawn he
    exact List.mem_map.mpr ⟨n, List.mem_range.mpr hn, congrArg _ hid⟩
  · intro _ held' hheld
    rw [hdeltas]
    refine (climbs_updateBalances hi ?_ ?_).bind fun _ _ _ => trivial
    · intro p hp
      obtain ⟨entry, hentry, heq⟩ := mem_deltasOf hp
      rw [← map_fst_drawn input ids] at hentry
      obtain ⟨e, he, rfl⟩ := List.mem_map.mp hentry
      obtain ⟨a, ha⟩ := TransactionsService.collect_canonical hcollect e he
      exact ⟨a, heq.symm.trans ha⟩
    · intro a ha
      have hmem := hheld _ ha
      simp [LedgerCall.randomIds] at hmem

theorem climbs_changeStatus {orderId : String} {status : TransactionStatus}
    {user : AuthUser} :
    (OrdersService.changeStatus orderId status user).Climbs (LockedBefore calls)
      (fun _ _ => True) [] := by
  simp only [OrdersService.changeStatus, Prog.bind_eq, Prog.pure_eq]
  refine (climbs_uuidParam (Q := fun _ held' => [] = held') fun _ _ => rfl).bind ?_
  rintro u _ rfl
  have hlock : (OrdersService.lockOrder u).Climbs (LockedBefore calls)
      (fun order held' => order.isSome = true → [LedgerKey.transaction u] = held') [] := by
    refine Prog.climbs_only (Or.inr (by simp)) ?_ ?_ ?_
    · exact fun _ h => by simp [OrdersService.lockedOrder] at h
    · exact fun _ h => by simp [OrdersService.lockedOrder] at h
    · exact fun _ _ _ => rfl
  refine hlock.bind ?_
  intro order held' hheld
  cases order with
  | none => trivial
  | some order =>
      obtain rfl := hheld rfl
      refine (climbs_orThrow (Q := fun _ held' => [LedgerKey.transaction u] = held')
        fun _ _ => rfl).bind ?_
      rintro _ _ rfl
      split
      · trivial
      have hset : (OrdersService.setStatus u status).Climbs (LockedBefore calls)
          (fun _ held' => ∀ k ∈ held', k = LedgerKey.transaction u)
          [LedgerKey.transaction u] :=
        Prog.climbs_only (Or.inl List.mem_cons_self)
          (fun _ k hk => by simpa using hk) (fun _ k hk => by simpa using hk)
          (fun _ _ k hk => by simpa using hk)
      refine hset.bind ?_
      intro _ held' hheld
      have hacc : ∀ a, LedgerKey.account a ∉ held' := by
        intro a ha
        simpa using hheld _ ha
      split
      · exact (climbs_updateBalance fun a _ => above_account hacc a).bind
          fun _ _ _ => trivial
      · trivial

theorem climbs_debitAccount {accountId : String} {costCents : Number}
    (hheld : ∀ a, LedgerKey.account a ∉ held) :
    (Checkout.debitAccount accountId costCents).Climbs (LockedBefore calls)
      (fun _ held' => ∀ k ∈ held, k ∈ held') held := by
  simp only [Checkout.debitAccount, Prog.bind_eq, Prog.pure_eq]
  refine (climbs_uuidParam (Q := fun _ held' => held = held') fun _ _ => rfl).bind ?_
  rintro u _ rfl
  refine (climbs_bigintParam (Q := fun _ held' => held = held') fun _ => rfl).bind ?_
  rintro cost _ rfl
  have hrow : (Checkout.debit u cost).Climbs (LockedBefore calls)
      (fun _ held' => ∀ k ∈ held, k ∈ held') held :=
    Prog.climbs_only (above_account hheld u) (fun _ _ hk => hk)
      (fun _ _ hk => List.mem_cons_of_mem _ hk)
      (fun _ _ _ hk => List.mem_cons_of_mem _ hk)
  refine hrow.bind ?_
  intro row held' hmore
  cases row with
  | none => exact fun _ => trivial
  | some row => exact hmore

theorem climbs_resolveFxRate {currency : String} {Q : Numeric → List LedgerKey → Prop}
    (hQ : ∀ rate, Q rate held) :
    (Checkout.resolveFxRate env currency).Climbs (LockedBefore calls) Q held := by
  rw [Checkout.resolveFxRate]
  split
  · exact hQ _
  · intro d
    cases Checkout.latestRate env currency with
    | none => trivial
    | some row => exact hQ _

/-- An INSERT of one row under an id that is held waits for nobody. -/
theorem climbs_insert {k : LedgerKey} {row : LedgerRow k} {check : LedgerDb → Bool}
    (hk : k ∈ held) :
    (Prog.insert [⟨k, row⟩] check (.ret ()) : LedgerProg Unit).Climbs (LockedBefore calls)
      (fun _ held' => ∀ k ∈ held, k ∈ held') held := by
  refine ⟨fun x hx => ?_, fun k hk => List.mem_append_right _ hk⟩
  rw [List.mem_singleton] at hx
  subst hx
  exact Or.inl hk

theorem climbs_insertOrder {request : CheckoutRequest} {costCents : Number}
    {currency : String} {fxRate : Numeric} {draw : CheckoutDraw}
    (hk : LedgerKey.transaction draw.orderId ∈ held) :
    (Checkout.insertOrder env request costCents currency fxRate draw).Climbs
      (LockedBefore calls) (fun _ held' => ∀ k ∈ held, k ∈ held') held := by
  simp only [Checkout.insertOrder, Prog.bind_eq]
  refine (climbs_uuidParam (Q := fun _ held' => held = held') fun _ _ => rfl).bind ?_
  rintro accountId _ rfl
  refine (climbs_uuidParam (Q := fun _ held' => held = held') fun _ _ => rfl).bind ?_
  rintro instrumentId _ rfl
  refine (climbs_bigintParam (Q := fun _ held' => held = held') fun _ => rfl).bind ?_
  rintro cost _ rfl
  refine (climbs_bigintParam (Q := fun _ held' => held = held') fun _ => rfl).bind ?_
  rintro quantityMicro _ rfl
  exact climbs_insert hk

theorem climbs_checkout {request : CheckoutRequest} {draw : CheckoutDraw} :
    (Checkout.body env request draw).Climbs (LockedBefore calls) (fun _ _ => True)
      (LedgerCall.checkout request draw).randomIds := by
  rw [Checkout.body]
  split
  swap
  · trivial
  simp only [Checkout.transaction, Prog.bind_eq, Prog.pure_eq]
  refine (climbs_debitAccount fun a ha => by simp [LedgerCall.randomIds] at ha).bind ?_
  intro debited held hheld
  refine (climbs_resolveFxRate (Q := fun _ held' => held = held') fun _ => rfl).bind ?_
  rintro fxRate _ rfl
  refine (climbs_insertOrder (hheld _ (by simp [LedgerCall.randomIds]))).bind ?_
  intro _ held' hmore
  refine (climbs_insert (hmore _ (hheld _ (by simp [LedgerCall.randomIds])))).bind ?_
  exact fun _ _ _ => trivial

/-- `save` looks at the row it was drawn and at no other. -/
theorem climbs_save {account : Account} {userId : Uuid} {createdAt : Instant}
    (hk : LedgerKey.account account.id ∈ held) :
    (AccountsRepository.save env account userId createdAt).Climbs (LockedBefore calls)
      (fun _ _ => True) held := by
  simp only [AccountsRepository.save, Prog.bind_eq, Prog.query, Prog.bind]
  intro d
  dsimp only
  split
  · exact Prog.climbs_only (Or.inl hk) (fun _ => trivial) (fun _ => trivial)
      fun _ _ => trivial
  · exact (climbs_insert hk).mono fun _ _ _ => trivial

theorem climbs_createAccount {input : CreateAccountDto} {user : AuthUser} {id : Uuid}
    {now : Instant} :
    (AccountsService.create env input user id now).Climbs (LockedBefore calls)
      (fun _ _ => True) [.account id] :=
  (climbs_save List.mem_cons_self).bind fun _ _ _ => trivial

end Bodies

/-! ## Every run -/

section Runs

variable {ι : Type} {env : Env} {calls : ι → LedgerCall}

/-- A chain of rows that starts at an account stays on accounts, and is a
chain of names. -/
theorem named_of_locked {a : Uuid} {k : LedgerKey}
    (h : Relation.TransGen (LockedBefore calls) (.account a) k) :
    ∃ b, k = .account b ∧ Relation.TransGen (NamedBefore calls) a b := by
  induction h with
  | single h =>
      cases h with
      | account h => exact ⟨_, rfl, .single h⟩
  | tail _ h ih =>
      obtain ⟨b, rfl, hab⟩ := ih
      cases h with
      | account h => exact ⟨_, rfl, hab.tail h⟩

theorem locked_above {k k' : LedgerKey} (h : Relation.TransGen (LockedBefore calls) k k') :
    ∃ a, k' = .account a := by
  cases h with
  | single h => cases h <;> exact ⟨_, rfl⟩
  | tail _ h => cases h <;> exact ⟨_, rfl⟩

theorem ledger_lockOrder (h : ∀ a, ¬ Relation.TransGen (NamedBefore calls) a a) :
    LockOrder (uuidSystem env calls) (LockedBefore calls) where
  acyclic := by
    intro k hk
    obtain ⟨a, rfl⟩ := locked_above hk
    obtain ⟨b, hb, hab⟩ := named_of_locked hk
    injection hb with hb
    subst hb
    exact h a hab
  climbs := by
    intro i
    show ((calls i).body env).Climbs _ _ (calls i).randomIds
    cases hi : calls i with
    | createAccount input user id now =>
        exact climbs_createAccount.bind fun _ _ _ => trivial
    | createTransactions input user ids now =>
        exact (climbs_createTransactions hi).bind fun _ _ _ => trivial
    | changeStatus orderId status user =>
        exact climbs_changeStatus.bind fun _ _ _ => trivial
    | checkout request draw => exact climbs_checkout.bind fun _ _ _ => trivial

variable [DecidableEq ι]

/-- Unless the batches name some accounts in a circle, no reachable state has a
cycle of waiting calls. -/
theorem ledger_not_deadlocked (h : ∀ a, ¬ Relation.TransGen (NamedBefore calls) a a)
    {d : LedgerDb} {st : LedgerState ι}
    (hr : Reach (uuidSystem env calls) (State.init d) st) : ¬ st.Deadlocked :=
  (ledger_lockOrder h).not_deadlocked hr

/-- So, whatever has been interleaved or aborted so far, from there every schedule
comes to an end, and at its end every call has answered. -/
theorem ledger_calls_finish [Finite ι]
    (h : ∀ a, ¬ Relation.TransGen (NamedBefore calls) a a) {d : LedgerDb}
    {st : LedgerState ι} (hr : Reach (uuidSystem env calls) (State.init d) st) :
    Lts.Finishes (Goes (uuidSystem env calls)) st (State.Done (uuidSystem env calls)) :=
  (ledger_lockOrder h).finishes hr

end Runs

/-! Two batches over two accounts. In opposite orders each books its first
entry's account and asks for the other's. -/

def crossedDb : LedgerDb :=
  sampleDb.set (.account 8) (some ⟨1, "UAH", "card", .cash, 300, false, 0⟩)

def crossedEntry (account : Uuid) : TransactionEntryDto :=
  { sampleEntry .income 50 with account_id := account.text }

def batchOf (accounts : List Uuid) (first : Nat) : LedgerCall :=
  .createTransactions ⟨accounts.map crossedEntry⟩ sampleUser
    (fun n => Fin.ofNat _ (n + first)) 0

def crossedCalls : Fin 2 → LedgerCall
  | 0 => batchOf [7, 8] 20
  | 1 => batchOf [8, 7] 30

def alignedCalls : Fin 2 → LedgerCall
  | 0 => batchOf [7, 8] 20
  | 1 => batchOf [7, 8] 30

/-- Both batches have their rows in, and the first account of call 0 is booked;
call 1 goes on for `n` statements. -/
def crossedSchedule (n : Nat) : List (Turn (Fin 2)) :=
  [.start 0, .start 1] ++ List.replicate 8 (.run 0) ++ List.replicate n (.run 1)

theorem ledger_deadlocks :
    ∃ st, Reach (uuidSystem sampleEnv crossedCalls) (State.init crossedDb) st ∧
      st.Deadlocked := by
  have hrun : (path (uuidSystem sampleEnv crossedCalls) (crossedSchedule 8)
      (State.init crossedDb)).any
        (fun st => decide (st.WaitsFor 0 1 ∧ st.WaitsFor 1 0)) = true := by
    decide +kernel
  obtain ⟨st, hr, hp⟩ := exists_reach (crossedSchedule 8) _ hrun
  obtain ⟨h01, h10⟩ := of_decide_eq_true hp
  exact ⟨st, hr, 0, .tail (.single h01) h10⟩

theorem names_batchOf {accounts : List Uuid} {first : Nat} {a b : Uuid} :
    (batchOf accounts first).NamesBefore a b ↔
      [a.text, b.text].Sublist (accounts.map Uuid.text).eraseDups := by
  simp only [batchOf, LedgerCall.NamesBefore, List.map_map]
  rfl

theorem named_aligned {a b : Uuid} (h : NamedBefore alignedCalls a b) : a = 7 ∧ b = 8 := by
  have hkeys : ([7, 8].map Uuid.text).eraseDups = [Uuid.text 7, Uuid.text 8] := by
    decide +kernel
  have hbatch : ∀ i, ∃ first, alignedCalls i = batchOf [7, 8] first
    | 0 => ⟨20, rfl⟩
    | 1 => ⟨30, rfl⟩
  obtain ⟨i, hi⟩ := h
  obtain ⟨first, hfirst⟩ := hbatch i
  rw [hfirst, names_batchOf, hkeys] at hi
  have heq := hi.eq_of_length (by simp)
  simp only [List.cons.injEq, and_true] at heq
  exact ⟨Uuid.text_injective heq.1, Uuid.text_injective heq.2⟩

theorem aligned_acyclic (a : Uuid) : ¬ Relation.TransGen (NamedBefore alignedCalls) a a := by
  intro ha
  have hfirst : a = 7 := by
    obtain ⟨b, hb, _⟩ := Relation.TransGen.head'_iff.mp ha
    exact (named_aligned hb).1
  have hlast : a = 8 := by
    obtain ⟨b, _, hb⟩ := Relation.TransGen.tail'_iff.mp ha
    exact (named_aligned hb).2
  exact absurd (hfirst.symm.trans hlast) (by decide)

theorem aligned_waits :
    ∃ st, Reach (uuidSystem sampleEnv alignedCalls) (State.init crossedDb) st ∧
      decide (st.WaitsFor 1 0) = true := by
  have hrun : (path (uuidSystem sampleEnv alignedCalls) (crossedSchedule 5)
      (State.init crossedDb)).any (fun st => decide (st.WaitsFor 1 0)) = true := by
    decide +kernel
  exact exists_reach (crossedSchedule 5) _ hrun

/-- With the two batches in one order the second waits for the first, and that
is all. -/
theorem ledger_not_deadlocked_sample :
    ∃ st, Reach (uuidSystem sampleEnv alignedCalls) (State.init crossedDb) st ∧
      ¬ st.Deadlocked ∧ decide (st.WaitsFor 1 0) = true := by
  obtain ⟨st, hr, hp⟩ := aligned_waits
  exact ⟨st, hr, ledger_not_deadlocked aligned_acyclic hr, hp⟩

/-- From where the second waits both come to an end. -/
theorem ledger_calls_finish_aligned :
    ∃ st, Reach (uuidSystem sampleEnv alignedCalls) (State.init crossedDb) st ∧
      Lts.Finishes (Goes (uuidSystem sampleEnv alignedCalls)) st
        (State.Done (uuidSystem sampleEnv alignedCalls)) ∧
      decide (st.WaitsFor 1 0) = true := by
  obtain ⟨st, hr, hp⟩ := aligned_waits
  exact ⟨st, hr, ledger_calls_finish aligned_acyclic hr, hp⟩

end InvestApi.Ref
