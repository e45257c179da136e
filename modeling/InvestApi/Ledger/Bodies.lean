import InvestApi.Ledger.Writes

/-!
# The bodies write what `Wrote` says

One theorem for each operation: whatever the other calls commit between its
statements, when it is about to commit its session has written what `Wrote`
says over the rows committed at that moment.
-/

namespace InvestApi.Ref

open InvestApi.Pg

variable {ι : Type}

/-- What a session of the ledger relies on while others commit. -/
structure LedgerRely
    (R : LedgerSession → LedgerWorld ι → LedgerWorld ι → Prop) : Prop where
  refl : ∀ {s w w'}, R s w w' → ∀ s', R s' w' w'
  trans : ∀ s w w' w'', R s w w' → R s w' w'' → R s w w''
  held : ∀ {s w w'}, R s w w' → ∀ k ∈ s.locks, w'.db.get k = w.db.get k
  persist : ∀ {s w w'}, R s w w' → Persist w.db w'.db

variable {R : LedgerSession → LedgerWorld ι → LedgerWorld ι → Prop}

theorem LedgerRely.get_view (hR : LedgerRely R) {s : LedgerSession}
    {w w' : LedgerWorld ι} (h : R s w w') {k : LedgerKey} (hk : k ∈ s.locks) :
    (s.view w'.db).get k = (s.view w.db).get k :=
  Db.get_writeAll_congr (hR.held h k hk) s.writes

/-- An account the session sees it keeps seeing. -/
theorem LedgerRely.account_stays (hR : LedgerRely R) {s : LedgerSession}
    {w w' : LedgerWorld ι} (h : R s w w') (hs : s.Held) {u : Uuid}
    (hu : HasAccount (s.view w.db) u) : HasAccount (s.view w'.db) u := by
  by_cases hk : LedgerKey.account u ∈ s.locks
  · unfold HasAccount
    rw [hR.get_view h hk]
    exact hu
  · unfold HasAccount at hu ⊢
    rw [Session.get_view_of_notMem hs hk] at hu ⊢
    exact hR.persist h u hu

section Params

variable {β : Type} {Q : β → LedgerWorld ι → LedgerSession → Prop}
  {E : ApiError → LedgerWorld ι → LedgerSession → Prop}
  {w : LedgerWorld ι} {s : LedgerSession}

theorem uuidParam_value (text : String) :
    (∃ u, uuidParam text = .ret u) ∨ ∃ e, uuidParam text = .raise e := by
  unfold uuidParam
  split
  · exact Or.inr ⟨_, rfl⟩
  · exact Or.inl ⟨_, rfl⟩

theorem uuidParam_eq_ret {text : String} {u : Uuid} :
    uuidParam text = .ret u ↔ pgUuidIn text = some u := by
  unfold uuidParam
  split
  · next h => simp [h]
  · next v h => simp [h]

theorem bigintParam_value (x : Number) :
    (∃ n, bigintParam x = .ret n) ∨ ∃ e, bigintParam x = .raise e := by
  unfold bigintParam
  split
  · split
    · exact Or.inl ⟨_, rfl⟩
    · exact Or.inr ⟨_, rfl⟩
  · exact Or.inr ⟨_, rfl⟩

/-- What a bad parameter raises is an error of the database. -/
theorem uuidParam_raise {text : String} {e : ApiError}
    (h : uuidParam text = .raise e) : ∃ code, e = .db code := by
  unfold uuidParam at h
  split at h
  · injection h with h
    exact ⟨_, h.symm⟩
  · simp at h

theorem bigintParam_raise {x : Number} {e : ApiError}
    (h : bigintParam x = .raise e) : ∃ code, e = .db code := by
  unfold bigintParam at h
  split at h
  · split at h
    · simp at h
    · injection h with h
      exact ⟨_, h.symm⟩
  · injection h with h
    exact ⟨_, h.symm⟩

theorem orThrow_value {α : Type} (x : Except ApiError α) :
    (∃ a, x = .ok a ∧ orThrow x = .ret a) ∨ ∃ e, orThrow x = .raise e := by
  cases x with
  | ok a => exact Or.inl ⟨a, rfl, rfl⟩
  | error e => exact Or.inr ⟨e, rfl⟩

theorem bookedDate_value (env : Env) (tx : Transaction) :
    (∃ t, TransactionsRepository.bookedDate env tx = .ret t) ∨
      ∃ e, TransactionsRepository.bookedDate env tx = .raise e := by
  unfold TransactionsRepository.bookedDate
  split
  · exact Or.inr ⟨_, rfl⟩
  · exact Or.inl ⟨_, rfl⟩

end Params

section UpdateBalance

variable {Q : Unit → LedgerWorld ι → LedgerSession → Prop}
  {E : ApiError → LedgerWorld ι → LedgerSession → Prop}

/-- `updateBalance` on an account the session sees: it adds to the balance
the row has when the lock is taken. -/
theorem wp_updateBalance (hR : LedgerRely R) {id : String} {delta : Int}
    {u : Uuid} (hu : pgUuidIn id = some u) {w : LedgerWorld ι}
    {s : LedgerSession} (hs : s.Held) (hacc : HasAccount (s.view w.db) u)
    (hq : ∀ w' row, R (s.tag .updateBalance) w w' →
      (s.view w'.db).get (.account u) = some row →
      Stable R (Q ()) w' ((s.tag .updateBalance).put (.account u)
        (some { row with balanceCents := row.balanceCents + delta }))) :
    (AccountsRepository.updateBalance id delta).wp R Q E w s := by
  have hret := uuidParam_eq_ret.mpr hu
  simp only [AccountsRepository.updateBalance, hret, Prog.bind_eq, Prog.bind]
  refine Prog.wp_update_only hR.trans ?_ ?_
  · intro hmiss
    obtain ⟨row, hrow⟩ := hacc
    simp [hrow] at hmiss
  · intro _ w' hw'
    obtain ⟨row, hrow⟩ := hR.account_stays hw' (by exact hs) hacc
    rw [Session.view_tag] at hrow
    by_cases hfit : inBigint (row.balanceCents + delta) = true
    · simp only [hrow, AccountsRepository.addToBalance, hfit, if_true]
      exact hq w' row hw' hrow
    · simp only [hrow, AccountsRepository.addToBalance, hfit]
      trivial

end UpdateBalance

/-! ## AccountsService.create -/

section Create

variable {Q : LedgerReply → LedgerWorld ι → LedgerSession → Prop}
  {E : ApiError → LedgerWorld ι → LedgerSession → Prop} {env : Env}

/-- `save` of an id that is nobody's inserts. -/
theorem wp_save {Q : Unit → LedgerWorld ι → LedgerSession → Prop}
    {account : Account} {userId : Uuid} {createdAt : Instant}
    {w : LedgerWorld ι} {s : LedgerSession}
    (hnew : (s.view w.db).get (.account account.id) = none)
    (hq : ∀ w', R s w w' → Stable R (Q ()) w' (s.put (.account account.id)
      (some (AccountsRepository.toRow account userId createdAt)))) :
    (AccountsRepository.save env account userId createdAt).wp R Q E w s := by
  simp only [AccountsRepository.save, Prog.bind_eq, Prog.query, Prog.bind,
    Prog.wp, hnew]
  intro w' hw' _ _ _
  exact hq w' hw'

theorem wp_createAccount (hR : LedgerRely R) {input : CreateAccountDto}
    {user : AuthUser} {id : Uuid} {now : Instant} {w : LedgerWorld ι}
    (hnew : w.db.get (.account id) = none)
    (hq : ∀ r w s, Wrote env w.db (.createAccount input user id now) r s.writes →
      Q r w s) :
    ((LedgerCall.createAccount input user id now).body env).wp R Q E w
      (Session.init [.account id]) := by
  simp only [LedgerCall.body, AccountsService.create, Prog.bind_eq,
    Prog.pure_eq, Prog.wp_bind]
  refine wp_save (by simpa using hnew) fun w₁ hw₁ w₂ hw₂ => ?_
  refine hq _ _ _ (.created rfl ?_)
  rw [hR.held hw₂ _ (by simp), hR.held hw₁ _ (by simp), hnew]

end Create

/-! ## OrdersService.changeStatus -/

section ChangeStatus

variable {Q : LedgerReply → LedgerWorld ι → LedgerSession → Prop}
  {E : ApiError → LedgerWorld ι → LedgerSession → Prop} {env : Env}

/-- `lockOrder` answers an order only with its row locked, and what it says
of the order is what the locked row says. -/
theorem wp_lockOrder (hR : LedgerRely R) {Q : Option LockedOrder →
      LedgerWorld ι → LedgerSession → Prop} {u : Uuid} {w : LedgerWorld ι}
    {s : LedgerSession}
    (hnone : ∀ w' s', Q none w' s')
    (hsome : ∀ w' t order, (s.view w'.db).get (.transaction u) = some t →
      order.status = t.status → order.type = t.type →
      order.amount_cents = t.amountCents →
      pgUuidIn order.account_id = some t.accountId →
      Stable R (Q (some order)) w'
        ((s.tag .lockOrder).put (.transaction u) (some t))) :
    (OrdersService.lockOrder u).wp R Q E w s := by
  refine Prog.wp_update_only hR.trans ?_ ?_
  · intro _ w' _
    exact hnone w' _
  · intro hmine w' _
    cases ht : (s.view w'.db).get (.transaction u) with
    | none => exact fun w'' _ => hnone w'' _
    | some t =>
        dsimp only
        cases ha : (s.view w.db).get (.account t.accountId) with
        | none =>
            have hlock : OrdersService.lockedOrder (s.view w.db)
                [⟨.transaction u, t⟩] = none := by
              simp [OrdersService.lockedOrder, ha]
            rw [hlock]
            exact fun w'' _ => hnone w'' _
        | some a =>
            have hlock : OrdersService.lockedOrder (s.view w.db)
                [⟨.transaction u, t⟩] = some ⟨t.status, t.type, t.amountCents,
                  t.accountId.text, a.userId⟩ := by
              simp [OrdersService.lockedOrder, ha]
            rw [hlock]
            exact hsome w' t _ ht rfl rfl rfl (pgUuidIn_text _)

/-- `setStatus` on a row the session holds. -/
theorem wp_setStatus (hR : LedgerRely R) {Q : Unit → LedgerWorld ι →
      LedgerSession → Prop} {u : Uuid} {status : TransactionStatus}
    {w : LedgerWorld ι} {s : LedgerSession} {t : TransactionRow}
    (hmine : LedgerKey.transaction u ∈ s.locks)
    (ht : (s.view w.db).get (.transaction u) = some t)
    (hq : ∀ w', R (s.tag .setStatus) w w' → Stable R (Q ()) w'
      ((s.tag .setStatus).put (.transaction u)
        (some { t with status := status }))) :
    (OrdersService.setStatus u status).wp R Q E w s := by
  refine Prog.wp_update_only hR.trans ?_ ?_
  · intro hmiss
    simp [ht] at hmiss
  · intro _ w' hw'
    have ht' : (s.view w'.db).get (.transaction u) = some t := by
      have h := hR.get_view hw' (k := .transaction u) (by simpa using hmine)
      simpa [ht] using h
    simp only [ht', OrdersService.setStatusRow]
    exact hq w' hw'

theorem wp_changeStatus (hR : LedgerRely R)
    (hlinked : ∀ {s w w'}, R s w w' → Linked w'.db) {orderId : String}
    {status : TransactionStatus} {user : AuthUser} {w : LedgerWorld ι}
    (hq : ∀ r w s, Wrote env w.db (.changeStatus orderId status user) r s.writes →
      Q r w s)
    (hE : ∀ e w s, E e w s) :
    ((LedgerCall.changeStatus orderId status user).body env).wp R Q E w
      (Session.init []) := by
  simp only [LedgerCall.body, OrdersService.changeStatus, Prog.bind_eq,
    Prog.pure_eq, Prog.wp_bind]
  rcases uuidParam_value orderId with ⟨u, hu⟩ | ⟨e, he⟩
  swap
  · rw [he]; exact hE _ _ _
  rw [hu, Prog.wp, Prog.wp_bind]
  have hu' := uuidParam_eq_ret.mp hu
  refine wp_lockOrder hR ?_ ?_
  · intro _ _
    exact hE _ _ _
  intro w₁ t order ht hstatus htype hamount haccount w₂ hw₂
  have ht₁ : w₁.db.get (.transaction u) = some t := by simpa using ht
  have ht₂ : w₂.db.get (.transaction u) = some t := by
    rw [hR.held hw₂ _ (by simp), ht₁]
  obtain ⟨row₂, hrow₂⟩ := hlinked hw₂ u t ht₂
  dsimp only
  rw [Prog.wp_bind]
  rcases orThrow_value (assertOwner order.user_id user ("order " ++ orderId))
    with ⟨_, _, hown⟩ | ⟨e, he⟩
  swap
  · rw [he]; exact hE _ _ _
  rw [hown]
  simp only [Prog.wp, hstatus]
  split
  · next hs => exact hq _ _ _ (by simpa using .kept hu' ht₂ hs)
  next hs =>
  rw [Prog.wp_bind]
  refine wp_setStatus hR (t := t) (by simp) (by simp) ?_
  intro w₃ hw₃ w₄ hw₄
  have ht₄ : w₄.db.get (.transaction u) = some t := by
    rw [hR.held hw₄ _ (by simp), hR.held hw₃ _ (by simp), ht₂]
  have hrow₄ : HasAccount w₄.db t.accountId :=
    hR.persist hw₄ _ (hR.persist hw₃ _ ⟨row₂, hrow₂⟩)
  split
  · next hside =>
      have hside' : ¬(t.status = .posted ↔ status = .posted) := by
        simpa using hside
      rw [htype, hamount, Prog.wp_bind]
      refine wp_updateBalance hR haccount ?_ ?_ ?_
      · exact ((((Session.held_init _).tag _).put _ _).tag _).put _ _
      · simpa [HasAccount] using hrow₄
      · intro w₅ row hw₅ hrow w₆ hw₆
        have ht₆ : w₆.db.get (.transaction u) = some t := by
          rw [hR.held hw₆ _ (by simp), hR.held hw₅ _ (by simp), ht₄]
        have hrow₆ : w₆.db.get (.account t.accountId) = some row := by
          rw [hR.held hw₆ _ (by simp)]
          simpa using hrow
        refine hq _ _ _ ?_
        simpa [crossing] using .crossed hu' ht₆ hside' hrow₆
  · next hside =>
      have hside' : t.status = .posted ↔ status = .posted := by
        simpa using hside
      exact hq _ _ _ (by simpa using .relabelled hu' ht₄ hs hside')

end ChangeStatus

end InvestApi.Ref
