import InvestApi.Isolation.Runs
import InvestApi.Ledger.Books

/-!
# Whoever commits was entitled to

Each of the three services loads a row, compares its owner with the caller and
goes on. Between the look and the COMMIT others commit, and what the caller was
told has to stay true: no call gives an account to another user or books a
transaction on another account. So at its COMMIT a call still owns what it
checked, and everything it writes is its caller's.
-/

namespace InvestApi.Isolation

open InvestApi.Pg InvestApi.Ref

variable {ι : Type}

/-! ## What stays -/

/-- No account has gone or changed hands, no transaction has gone or moved to
another account. -/
structure Keeps (d d' : LedgerDb) : Prop where
  account : ∀ a row, d.get (.account a) = some row →
    ∃ row', d'.get (.account a) = some row' ∧ row'.userId = row.userId
  transaction : ∀ t row, d.get (.transaction t) = some row →
    ∃ row', d'.get (.transaction t) = some row' ∧ row'.accountId = row.accountId

/-- The order `t` is on an account of user `u`. -/
def OwnsOrder (d : LedgerDb) (u t : Uuid) : Prop :=
  ∃ row, d.get (.transaction t) = some row ∧ Owns d u row.accountId

theorem Keeps.refl (d : LedgerDb) : Keeps d d :=
  ⟨fun _ row hrow => ⟨row, hrow, rfl⟩, fun _ row hrow => ⟨row, hrow, rfl⟩⟩

section Keeps

variable {d d' d'' : LedgerDb} {u : Uuid}

theorem Keeps.trans (h : Keeps d d') (h' : Keeps d' d'') : Keeps d d'' where
  account a row hrow := by
    obtain ⟨row', hrow', hu⟩ := h.account a row hrow
    obtain ⟨row'', hrow'', hu'⟩ := h'.account a row' hrow'
    exact ⟨row'', hrow'', hu'.trans hu⟩
  transaction t row hrow := by
    obtain ⟨row', hrow', ha⟩ := h.transaction t row hrow
    obtain ⟨row'', hrow'', ha'⟩ := h'.transaction t row' hrow'
    exact ⟨row'', hrow'', ha'.trans ha⟩

theorem Keeps.persist (h : Keeps d d') : Persist d d' := by
  rintro a ⟨row, hrow⟩
  obtain ⟨row', hrow', _⟩ := h.account a row hrow
  exact ⟨row', hrow'⟩

theorem Keeps.owns (h : Keeps d d') {a : Uuid} (hown : Owns d u a) : Owns d' u a := by
  obtain ⟨row, hrow, hu⟩ := hown
  obtain ⟨row', hrow', hu'⟩ := h.account a row hrow
  exact ⟨row', hrow', hu'.trans hu⟩

theorem Keeps.ownsOrder (h : Keeps d d') {t : Uuid} (hown : OwnsOrder d u t) :
    OwnsOrder d' u t := by
  obtain ⟨row, hrow, ha⟩ := hown
  obtain ⟨row', hrow', hacc⟩ := h.transaction t row hrow
  exact ⟨row', hrow', hacc ▸ h.owns ha⟩

theorem owns_unique {v a : Uuid} (h : Owns d u a) (h' : Owns d v a) : u = v := by
  obtain ⟨row, hrow, hu⟩ := h
  obtain ⟨row', hrow', hv⟩ := h'
  obtain rfl := Option.some.inj (hrow.symm.trans hrow')
  exact hu.symm.trans hv

theorem ownsOrder_unique {v t : Uuid} (h : OwnsOrder d u t) (h' : OwnsOrder d v t) :
    u = v := by
  obtain ⟨row, hrow, hown⟩ := h
  obtain ⟨row', hrow', hown'⟩ := h'
  obtain rfl := Option.some.inj (hrow.symm.trans hrow')
  exact owns_unique hown hown'

/-- Putting an account row in an older one's place. -/
theorem Keeps.set_account (h : Keeps d d') {a : Uuid} {row' : AccountRow}
    (hrow : ∀ row, d'.get (.account a) = some row → row'.userId = row.userId) :
    Keeps d (d'.set (.account a) (some row')) where
  account b row hb := by
    obtain ⟨mid, hmid, hu⟩ := h.account b row hb
    by_cases e : b = a
    · subst e
      exact ⟨row', by simp, (hrow mid hmid).trans hu⟩
    · exact ⟨mid, by simpa [e] using hmid, hu⟩
  transaction t row ht := by
    obtain ⟨mid, hmid, ha⟩ := h.transaction t row ht
    exact ⟨mid, by simpa using hmid, ha⟩

theorem Keeps.set_transaction (h : Keeps d d') {t : Uuid} {row' : TransactionRow}
    (hrow : ∀ row, d'.get (.transaction t) = some row → row'.accountId = row.accountId) :
    Keeps d (d'.set (.transaction t) (some row')) where
  account a row ha := by
    obtain ⟨mid, hmid, hu⟩ := h.account a row ha
    exact ⟨mid, by simpa using hmid, hu⟩
  transaction v row hv := by
    obtain ⟨mid, hmid, ha⟩ := h.transaction v row hv
    by_cases e : v = t
    · subst e
      exact ⟨row', by simp, (hrow mid hmid).trans ha⟩
    · exact ⟨mid, by simpa [e] using hmid, ha⟩

theorem Keeps.set_job (h : Keeps d d') (j : Uuid) (row : Option JobRow) :
    Keeps d (d'.set (.job j) row) where
  account a row ha := by
    obtain ⟨mid, hmid, hu⟩ := h.account a row ha
    exact ⟨mid, by simpa using hmid, hu⟩
  transaction t row ht := by
    obtain ⟨mid, hmid, ha⟩ := h.transaction t row ht
    exact ⟨mid, by simpa using hmid, ha⟩

end Keeps

/-! ## What a commit keeps -/

theorem get_writeAll_some {d : LedgerDb} {ws : List (Write LedgerRow)}
    (hsome : ∀ w ∈ ws, w.2.isSome = true) {k : LedgerKey} {row : LedgerRow k}
    (hrow : d.get k = some row) :
    ∃ row', (d.writeAll ws).get k = some row' ∧ (row' = row ∨ ⟨k, some row'⟩ ∈ ws) := by
  have hkept : ((d.writeAll ws).get k).isSome = true :=
    Db.isSome_writeAll hsome (by rw [hrow]; rfl)
  obtain ⟨row', hrow'⟩ := Option.isSome_iff_exists.mp hkept
  refine ⟨row', hrow', ?_⟩
  rcases Db.get_writeAll_cases hrow' with hold | hnew
  · rw [hrow] at hold
    exact Or.inl (Option.some.inj hold).symm
  · exact Or.inr hnew

theorem keeps_bumped {d : LedgerDb} {deltas : List (String × Int)}
    {ws : List (Write LedgerRow)} (h : Bumped d deltas ws) : Keeps d (d.writeAll ws) := by
  induction h with
  | nil => exact .refl _
  | @cons d id delta u row rest ws hu hrow hrest ih =>
      rw [Db.writeAll_cons]
      refine Keeps.trans (Keeps.set_account (.refl d) fun old hold => ?_) ih
      rw [hrow] at hold
      rw [← Option.some.inj hold]

/-- New rows take nothing away. -/
theorem keeps_rowWrites {d : LedgerDb} {rows : List (Uuid × TransactionRow)}
    (hnew : ∀ r ∈ rows, d.get (.transaction r.1) = none) :
    Keeps d (d.writeAll (rowWrites rows)) := by
  have hsome : ∀ w ∈ rowWrites rows, w.2.isSome = true := by
    intro w hw
    obtain ⟨r, _, rfl⟩ := List.mem_map.mp hw
    rfl
  refine ⟨fun a row hrow => ?_, fun t row hrow => ?_⟩
  · obtain ⟨row', hrow', hcase⟩ := get_writeAll_some hsome hrow
    rcases hcase with rfl | hmem
    · exact ⟨row', hrow', rfl⟩
    · obtain ⟨r, _, heq⟩ := List.mem_map.mp hmem
      exact absurd (congrArg Sigma.fst heq) (by simp)
  · obtain ⟨row', hrow', hcase⟩ := get_writeAll_some hsome hrow
    rcases hcase with rfl | hmem
    · exact ⟨row', hrow', rfl⟩
    · obtain ⟨r, hr, heq⟩ := List.mem_map.mp hmem
      have hkey : r.1 = t := LedgerKey.transaction.inj (congrArg Sigma.fst heq)
      have hnone := hnew r hr
      rw [hkey, hrow] at hnone
      simp at hnone

section Wrote

variable {env : Env} {d : LedgerDb} {c : LedgerCall} {r : LedgerReply}
  {ws : List (Write LedgerRow)}

theorem keeps_wrote (h : Wrote env d c r ws) : Keeps d (d.writeAll ws) := by
  cases h with
  | created hacc hnew =>
      refine Keeps.set_account (.refl d) fun row hrow => ?_
      rw [hnew] at hrow
      simp at hrow
  | booked hrows hnew hn hacc hws =>
      rw [Db.writeAll_append]
      exact (keeps_rowWrites hnew).trans (keeps_bumped hws)
  | kept hu ht hs =>
      refine Keeps.set_transaction (.refl d) fun row hrow => ?_
      rw [ht] at hrow
      rw [← Option.some.inj hrow]
  | @relabelled orderId status user u t hu ht hs hside =>
      have hlock : Keeps d (d.set (.transaction u) (some t)) := by
        refine Keeps.set_transaction (.refl d) fun row hrow => ?_
        rw [ht] at hrow
        rw [← Option.some.inj hrow]
      refine hlock.set_transaction fun row hrow => ?_
      rw [Db.get_set_self] at hrow
      rw [← Option.some.inj hrow]
  | @crossed orderId status user u t acc hu ht hside hacc =>
      have hlock : Keeps d (d.set (.transaction u) (some t)) := by
        refine Keeps.set_transaction (.refl d) fun row hrow => ?_
        rw [ht] at hrow
        rw [← Option.some.inj hrow]
      have hset : Keeps d ((d.set (.transaction u) (some t)).set (.transaction u)
          (some { t with status := status })) := by
        refine hlock.set_transaction fun row hrow => ?_
        rw [Db.get_set_self] at hrow
        rw [← Option.some.inj hrow]
      refine hset.set_account fun row hrow => ?_
      have hold : d.get (.account t.accountId) = some row := by simpa using hrow
      rw [hacc] at hold
      rw [← Option.some.inj hold]
  | @bought request draw u acc cost order h =>
      have hdebit : Keeps d (d.set (.account u) (some (debited acc cost))) := by
        refine Keeps.set_account (.refl d) fun row hrow => ?_
        rw [h.row_eq] at hrow
        rw [← Option.some.inj hrow]
        rfl
      refine (hdebit.set_transaction fun row hrow => ?_).set_job _ _
      have hnone : d.get (.transaction draw.orderId) = some row := by simpa using hrow
      rw [h.order_new] at hnone
      simp at hnone

end Wrote

/-! ## What a call has checked -/

/-- What the caller owns when the call commits; the checkout script has no
caller. -/
def Entitled (d : LedgerDb) : LedgerCall → Prop
  | .createAccount _ _ _ _ => True
  | .createTransactions input user _ _ =>
      ∀ entry ∈ input.entries, ∀ a, pgUuidIn entry.account_id = some a → Owns d user.id a
  | .changeStatus orderId _ user =>
      ∀ t, pgUuidIn orderId = some t → OwnsOrder d user.id t
  | .checkout _ _ => True

theorem Entitled.keeps {d d' : LedgerDb} {c : LedgerCall} (h : Entitled d c)
    (hkeeps : Keeps d d') : Entitled d' c := by
  cases c with
  | createAccount input user id now => trivial
  | createTransactions input user ids now =>
      exact fun entry hentry a ha => hkeeps.owns (h entry hentry a ha)
  | changeStatus orderId status user => exact fun t ht => hkeeps.ownsOrder (h t ht)
  | checkout request draw => trivial

/-- The sessions rely on their locks, on the foreign key and on owners
staying. -/
abbrev KeepsR : LedgerSession → LedgerWorld ι → LedgerWorld ι → Prop :=
  LockRely (fun w => Linked w.db) fun _ w w' => Keeps w.db w'.db

theorem keepsRely : LedgerRely (KeepsR (ι := ι)) where
  refl h _ := ⟨h.1, fun _ _ => rfl, .refl _⟩
  trans _ _ _ _ h h' :=
    ⟨h'.1, fun k hk => (h'.2.1 k hk).trans (h.2.1 k hk), h.2.2.trans h'.2.2⟩
  held h := h.2.1
  persist h := h.2.2.persist

section Bodies

variable {env : Env} {w : LedgerWorld ι}

theorem entitled_stays (c : LedgerCall) (s : LedgerSession) (w w' : LedgerWorld ι)
    (hR : KeepsR s w w') (h : Entitled w.db c) : Entitled w'.db c :=
  h.keeps hR.2.2

theorem assertOwner_ok {owner : Uuid} {user : AuthUser} {what : String}
    (h : assertOwner owner user what = .ok ()) : owner = user.id := by
  by_contra hne
  rw [assertOwner_foreign hne] at h
  simp at h

/-- The answer of `lockOrder` names the owner of the locked order. -/
theorem wp_lockOrder_owner {Q : Option LockedOrder → LedgerWorld ι → LedgerSession → Prop}
    {u : Uuid} (hnone : ∀ w' s', Q none w' s')
    (hsome : ∀ w' order s', (∃ t, w'.db.get (.transaction u) = some t ∧
      Owns w'.db order.user_id t.accountId) → Q (some order) w' s') :
    (OrdersService.lockOrder u).wp KeepsR Q (fun _ _ _ => True) w (Session.init []) := by
  refine Prog.wp_update_only keepsRely.trans ?_ ?_
  · intro _ w' _
    exact hnone w' _
  · intro _ w' hw'
    simp only [Session.view_init]
    cases ht : w'.db.get (.transaction u) with
    | none => exact fun w'' _ => hnone w'' _
    | some t =>
        dsimp only
        cases ha : w.db.get (.account t.accountId) with
        | none =>
            have hlock : OrdersService.lockedOrder w.db [⟨.transaction u, t⟩] = none := by
              simp [OrdersService.lockedOrder, ha]
            rw [hlock]
            exact fun w'' _ => hnone w'' _
        | some a =>
            have hlock : OrdersService.lockedOrder w.db [⟨.transaction u, t⟩]
                = some ⟨t.status, t.type, t.amountCents, t.accountId.text, a.userId⟩ := by
              simp [OrdersService.lockedOrder, ha]
            rw [hlock]
            intro w'' hw''
            refine hsome w'' _ _ ⟨t, ?_, ?_⟩
            · rw [hw''.2.1 _ (by simp), ht]
            · exact hw''.2.2.owns (hw'.2.2.owns ⟨a, ha, rfl⟩)

theorem wp_entitled_changeStatus (orderId : String) (status : TransactionStatus)
    (user : AuthUser) :
    ((LedgerCall.changeStatus orderId status user).body env).wp KeepsR
      (fun _ w _ => Entitled w.db (.changeStatus orderId status user)) (fun _ _ _ => True) w
      (Session.init []) := by
  simp only [LedgerCall.body, OrdersService.changeStatus, Prog.bind_eq,
    Prog.pure_eq, Prog.wp_bind]
  rcases uuidParam_value orderId with ⟨u, hu⟩ | ⟨e, he⟩
  swap
  · rw [he]
    trivial
  rw [hu, Prog.wp, Prog.wp_bind]
  refine wp_lockOrder_owner (fun _ _ => trivial) ?_
  rintro w₁ order s₁ ⟨t, ht, hown⟩
  dsimp only
  rw [Prog.wp_bind]
  rcases orThrow_value (assertOwner order.user_id user ("order " ++ orderId))
    with ⟨_, hok, hret⟩ | ⟨e, he⟩
  swap
  · rw [he]
    trivial
  rw [hret]
  have hmine : Entitled w₁.db (.changeStatus orderId status user) := by
    intro v hv
    rw [uuidParam_eq_ret.mp hu, Option.some.injEq] at hv
    subst hv
    exact ⟨t, ht, assertOwner_ok hok ▸ hown⟩
  exact Prog.wp_bind.mp (Prog.wp_of_stays (entitled_stays _) _ hmine)

theorem wp_findByIds_loads {Q : List OwnedAccount → LedgerWorld ι → LedgerSession → Prop}
    {ids : List String} (hq : ∀ accounts (w₀ w' : LedgerWorld ι), Loads ids w₀.db accounts →
      Keeps w₀.db w'.db → Q accounts w' (Session.init [])) :
    (AccountsRepository.findByIds ids).wp KeepsR Q (fun _ _ _ => True) w
      (Session.init []) := by
  simp only [AccountsRepository.findByIds, Prog.bind_eq]
  split
  · next hempty =>
      refine hq [] w w ⟨by simp, fun a row htext => ?_⟩ (.refl _)
      rw [List.isEmpty_iff.mp hempty] at htext
      simp at htext
  · rw [Prog.wp_bind]
    rcases Prog.mapM_value uuidParam_value ids with ⟨us, hus, hall⟩ | ⟨e, he⟩
    · rw [hus]
      intro w' hw'
      rw [Session.view_init]
      exact hq _ w w' (loads_whereIdIn hall) hw'.2.2
    · rw [he]
      trivial

theorem wp_entitled_createTransactions (input : CreateTransactionsDto) (user : AuthUser)
    (ids : Nat → Uuid) (now : Instant) :
    ((LedgerCall.createTransactions input user ids now).body env).wp KeepsR
      (fun _ w _ => Entitled w.db (.createTransactions input user ids now))
      (fun _ _ _ => True) w (Session.init []) := by
  simp only [LedgerCall.body, create_eq, Prog.bind_eq, Prog.pure_eq, Prog.wp_bind]
  refine wp_findByIds_loads fun accounts w₀ w₁ hloads hkeeps => ?_
  rcases orThrow_value (TransactionsService.collect accounts user now
      (drawn input ids) [] []) with ⟨r, hcollect, hret⟩ | ⟨e, he⟩
  swap
  · rw [he]
    trivial
  rw [hret]
  have hmine : Entitled w₁.db (.createTransactions input user ids now) := by
    intro entry hentry a ha
    rw [← map_fst_drawn input ids] at hentry
    obtain ⟨e, he, rfl⟩ := List.mem_map.mp hentry
    exact hkeeps.owns (owns_of_collect hloads hcollect e he a ha)
  exact Prog.wp_bind.mp (Prog.wp_of_stays (entitled_stays _) _ hmine)

end Bodies

/-! ## The ledger with its callers -/

/-- What a committed call has written, and that it was its caller's. -/
structure WroteOwn (env : Env) (d : LedgerDb) (c : LedgerCall) (r : LedgerReply)
    (ws : List (Write LedgerRow)) : Prop where
  wrote : Wrote env d c r ws
  entitled : Entitled d c

theorem ownDiscipline (env : Env) (calls : ι → LedgerCall) (C : LedgerState ι → ι → Prop) :
    LockDiscipline (ledgerSystem env calls) C (fun w => Linked w.db)
      (fun _ w w' => Keeps w.db w'.db)
      (fun i r w s => WroteOwn env w.db (calls i) r s.writes) (fun _ _ _ _ => True) where
  refl _ _ := .refl _
  trans _ _ _ _ h h' := h.trans h'
  start i w hlink hfresh w' hw' := by
    dsimp only [ledgerSystem] at hfresh hw' ⊢
    have hboth : ∀ {c : LedgerCall} {draws : List LedgerKey},
        (c.body env).wp KeepsR (fun r w s => Wrote env w.db c r s.writes)
          (fun _ _ _ => True) w' (Session.init draws) →
        (c.body env).wp KeepsR (fun _ w _ => Entitled w.db c)
          (fun _ _ _ => True) w' (Session.init draws) →
        (c.body env).wp KeepsR (fun r w s => WroteOwn env w.db c r s.writes)
          (fun _ _ _ => True) w' (Session.init draws) := by
      intro c draws hwrote hown
      exact Prog.wp_mono (fun _ _ _ h => ⟨h.1, h.2⟩) (fun _ _ _ _ => trivial)
        (Prog.wp_and hwrote hown)
    cases hi : calls i with
    | createAccount input user id now =>
        rw [hi] at hfresh hw'
        have hmine : LedgerKey.account id
            ∈ (LedgerCall.createAccount input user id now).draws :=
          List.mem_singleton_self _
        have hnew : w'.db.get (.account id) = none := by
          rw [hw'.2.1 _ hmine]
          exact Option.isNone_iff_eq_none.mp (hfresh _ hmine)
        exact hboth (wp_createAccount keepsRely hnew fun _ _ _ h => h)
          (Prog.wp_of_stays (entitled_stays _) _ trivial)
    | createTransactions input user ids now =>
        exact hboth (wp_createTransactions keepsRely (fun _ _ _ h => h)
          fun _ _ _ => trivial) (wp_entitled_createTransactions _ _ _ _)
    | changeStatus orderId status user =>
        exact hboth (wp_changeStatus keepsRely (fun h => h.1) (fun _ _ _ h => h)
          fun _ _ _ => trivial) (wp_entitled_changeStatus _ _ _)
    | checkout request draw =>
        exact hboth (wp_checkout keepsRely (fun _ _ _ h => h) fun _ _ _ _ => trivial)
          (Prog.wp_of_stays (entitled_stays _) _ trivial)
  commit st i r σ hlock hlink hi hc hq :=
    ⟨hq.wrote.linked hlink, fun _ _ _ _ _ => keeps_wrote hq.wrote⟩
  rollback _ _ _ _ hlink _ := ⟨hlink, fun _ => .refl _⟩
  abort _ _ hlink := ⟨hlink, fun _ => .refl _⟩

/-! ## The rows of somebody else -/

/-- A write that neither touches a row of user `u` nor makes one. -/
def Elsewhere (d : LedgerDb) (u : Uuid) : Write LedgerRow → Prop
  | ⟨.account a, row⟩ => ¬Owns d u a ∧ ∀ r, row = some r → r.userId ≠ u
  | ⟨.transaction t, row⟩ => ¬OwnsOrder d u t ∧ ∀ r, row = some r → ¬Owns d u r.accountId
  | ⟨.job _, _⟩ => True

section Elsewhere

variable {d : LedgerDb} {u : Uuid} {ws : List (Write LedgerRow)}

theorem get_writeAll_eq (h : ∀ w ∈ ws, Elsewhere d u w) {k : LedgerKey}
    (hk : ∀ row, ¬Elsewhere d u ⟨k, row⟩) : (d.writeAll ws).get k = d.get k := by
  refine Db.get_writeAll_of_notMem (fun hmem => ?_) d
  obtain ⟨⟨k', row⟩, hw, rfl⟩ := List.mem_map.mp hmem
  exact hk row (h _ hw)

theorem account_elsewhere (h : ∀ w ∈ ws, Elsewhere d u w) {a : Uuid} {row : AccountRow}
    (hu : row.userId = u) :
    d.get (.account a) = some row ↔ (d.writeAll ws).get (.account a) = some row := by
  constructor
  · intro hrow
    rw [get_writeAll_eq (k := .account a) h fun r hr => hr.1 ⟨row, hrow, hu⟩]
    exact hrow
  · intro hrow
    rcases Db.get_writeAll_cases hrow with hold | hnew
    · exact hold
    · exact absurd hu ((h _ hnew).2 row rfl)

theorem owns_elsewhere (h : ∀ w ∈ ws, Elsewhere d u w) {a : Uuid} :
    Owns d u a ↔ Owns (d.writeAll ws) u a :=
  exists_congr fun _ => and_congr_left (account_elsewhere h)

theorem sameRows_elsewhere (h : ∀ w ∈ ws, Elsewhere d u w) :
    SameRows u d (d.writeAll ws) where
  account _ _ hu := account_elsewhere h hu
  transaction t row := by
    rw [← owns_elsewhere h]
    refine and_congr_left fun hown => ⟨fun hrow => ?_, fun hrow => ?_⟩
    · rw [get_writeAll_eq (k := .transaction t) h fun r hr => hr.1 ⟨row, hrow, hown⟩]
      exact hrow
    · rcases Db.get_writeAll_cases hrow with hold | hnew
      · exact hold
      · exact absurd hown ((h _ hnew).2 row rfl)

theorem SameRows.refl (d : LedgerDb) : SameRows u d d :=
  ⟨fun _ _ _ => Iff.rfl, fun _ _ => Iff.rfl⟩

theorem SameRows.trans {d' d'' : LedgerDb} (h : SameRows u d d') (h' : SameRows u d' d'') :
    SameRows u d d'' where
  account id row hu := (h.account id row hu).trans (h'.account id row hu)
  transaction id t := (h.transaction id t).trans (h'.transaction id t)

theorem SameRows.owns {d' : LedgerDb} (h : SameRows u d d') {a : Uuid} :
    Owns d u a ↔ Owns d' u a :=
  exists_congr fun row => and_congr_left fun hu => h.account a row hu

end Elsewhere

/-- A call of another user; a checkout of another user's account. -/
def ByOther (u : Uuid) (d : LedgerDb) : LedgerCall → Prop
  | .createAccount _ user _ _ => user.id ≠ u
  | .createTransactions _ user _ _ => user.id ≠ u
  | .changeStatus _ _ user => user.id ≠ u
  | .checkout request _ => ∀ a, pgUuidIn request.accountId = some a → ¬Owns d u a

section Wrote

variable {env : Env} {d : LedgerDb} {c : LedgerCall} {r : LedgerReply}
  {ws : List (Write LedgerRow)} {u : Uuid}

/-- The updates of a batch are on accounts of their user. -/
theorem elsewhere_bumped {d₀ : LedgerDb} {v : Uuid} (hne : v ≠ u)
    {deltas : List (String × Int)} (h : Bumped d deltas ws) :
    (∀ a, Owns d₀ v a → Owns d v a) →
    (∀ p ∈ deltas, ∀ a, pgUuidIn p.1 = some a → Owns d₀ v a) →
      ∀ w ∈ ws, Elsewhere d₀ u w := by
  induction h with
  | nil => simp
  | @cons d id delta a row rest ws ha hrow hrest ih =>
      intro hkeep hown w hw
      have hmine := hown _ List.mem_cons_self a ha
      have hrow' : row.userId = v := by
        obtain ⟨row', hrow', hv⟩ := hkeep a hmine
        rw [hrow, Option.some.injEq] at hrow'
        rw [hrow']
        exact hv
      rcases List.mem_cons.mp hw with rfl | hw
      · refine ⟨fun hu => hne (owns_unique hmine hu), fun r hr => ?_⟩
        rw [← Option.some.inj hr]
        show row.userId ≠ u
        rw [hrow']
        exact hne
      · refine ih (fun b hb => ?_) (fun p hp => hown p (List.mem_cons_of_mem _ hp)) w hw
        refine Keeps.owns (Keeps.set_account (.refl d) fun old hold => ?_) (hkeep b hb)
        rw [hrow] at hold
        rw [← Option.some.inj hold]

theorem WroteOwn.elsewhere (h : WroteOwn env d c r ws) (hother : ByOther u d c) :
    ∀ w ∈ ws, Elsewhere d u w := by
  obtain ⟨hwrote, hown⟩ := h
  cases hwrote with
  | @created input user id now account hacc hnew =>
      intro w hw
      rw [List.mem_singleton.mp hw]
      refine ⟨fun howns => ?_, fun r hr => ?_⟩
      · obtain ⟨row, hrow, _⟩ := howns
        rw [hnew] at hrow
        simp at hrow
      · rw [← Option.some.inj hr]
        exact hother
  | @booked input user ids now batch rows ws hrows hnew hn hacc hws =>
      have hentry : ∀ r ∈ rows, Owns d user.id r.2.accountId := by
        intro r hr
        obtain ⟨entry, hentry, hpost⟩ := (mem_of_forall₂ hrows).2 r hr
        exact hown entry hentry _ hpost.account
      intro w hw
      rcases List.mem_append.mp hw with hw | hw
      · obtain ⟨r, hr, rfl⟩ := List.mem_map.mp hw
        refine ⟨fun howns => ?_, fun row hrow hu => ?_⟩
        · obtain ⟨row, hrow, _⟩ := howns
          rw [hnew r hr] at hrow
          simp at hrow
        · rw [← Option.some.inj hrow] at hu
          exact hother (owns_unique (hentry r hr) hu)
      · refine elsewhere_bumped hother hws (fun a ha => (keeps_rowWrites hnew).owns ha) ?_ w hw
        intro p hp a ha
        obtain ⟨entry, hentry, heq⟩ := mem_deltasOf hp
        exact hown entry hentry a (heq ▸ ha)
  | @kept orderId status user t row ht hrow hs =>
      have hmine := hown t ht
      intro w hw
      rw [List.mem_singleton.mp hw]
      refine ⟨fun hu => hother (ownsOrder_unique hmine hu), fun r hr hu => ?_⟩
      rw [← Option.some.inj hr] at hu
      exact hother (ownsOrder_unique hmine ⟨row, hrow, hu⟩)
  | @relabelled orderId status user t row ht hrow hs hside =>
      have hmine := hown t ht
      intro w hw
      have hw' : w = ⟨.transaction t, some row⟩
          ∨ w = ⟨.transaction t, some { row with status := status }⟩ := by simpa using hw
      rcases hw' with rfl | rfl
      · refine ⟨fun hu => hother (ownsOrder_unique hmine hu), fun r hr hu => ?_⟩
        rw [← Option.some.inj hr] at hu
        exact hother (ownsOrder_unique hmine ⟨row, hrow, hu⟩)
      · refine ⟨fun hu => hother (ownsOrder_unique hmine hu), fun r hr hu => ?_⟩
        rw [← Option.some.inj hr] at hu
        exact hother (ownsOrder_unique hmine ⟨row, hrow, hu⟩)
  | @crossed orderId status user t row acc ht hrow hside hacc =>
      have hmine := hown t ht
      have haccount : Owns d user.id row.accountId := by
        obtain ⟨row', hrow', hmine'⟩ := hmine
        rw [hrow, Option.some.injEq] at hrow'
        rw [hrow']
        exact hmine'
      intro w hw
      have hw' : w = ⟨.transaction t, some row⟩
          ∨ w = ⟨.transaction t, some { row with status := status }⟩
          ∨ w = ⟨.account row.accountId, some { acc with
              balanceCents := acc.balanceCents + crossing row status }⟩ := by simpa using hw
      rcases hw' with rfl | rfl | rfl
      · refine ⟨fun hu => hother (ownsOrder_unique hmine hu), fun r hr hu => ?_⟩
        rw [← Option.some.inj hr] at hu
        exact hother (owns_unique haccount hu)
      · refine ⟨fun hu => hother (ownsOrder_unique hmine hu), fun r hr hu => ?_⟩
        rw [← Option.some.inj hr] at hu
        exact hother (owns_unique haccount hu)
      · refine ⟨fun hu => hother (owns_unique haccount hu), fun r hr hu => ?_⟩
        rw [← Option.some.inj hr] at hu
        exact hother (owns_unique haccount ⟨acc, hacc, hu⟩)
  | @bought request draw a acc cost order h =>
      have hnot := hother a (uuidParam_eq_ret.mp h.account)
      obtain ⟨rate, i, q, _, _, _, rfl⟩ := h.order_eq
      intro w hw
      simp only [boughtWrites, List.mem_cons, List.not_mem_nil, or_false] at hw
      rcases hw with rfl | rfl | rfl
      · refine ⟨hnot, fun r hr hu => hnot ⟨acc, h.row_eq, ?_⟩⟩
        rw [← Option.some.inj hr] at hu
        exact hu
      · refine ⟨fun howns => ?_, fun r hr hu => hnot ?_⟩
        · obtain ⟨row, hrow, _⟩ := howns
          rw [h.order_new] at hrow
          simp at hrow
        · rw [← Option.some.inj hr] at hu
          exact hu
      · trivial

end Wrote

/-! ## Runs -/

section Runs

variable [DecidableEq ι] {env : Env} {calls : ι → LedgerCall} {d : LedgerDb}
  {C : LedgerState ι → ι → Prop} {st st' : LedgerState ι}

/-- A step of any run commits nothing, or what its caller owns. -/
theorem wroteOwn_of_step (hlink : Linked d)
    (hr : Pg.Reach (ledgerSystem env calls) (State.init d) st)
    (h : Step (ledgerSystem env calls) C st st') :
    st'.db = st.db ∨ ∃ i r ws, C st i ∧ st'.db = st.db.writeAll ws ∧
      st'.log = st.log ++ [(i, .committed r)] ∧ WroteOwn env st.db (calls i) r ws := by
  have hsound := (ownDiscipline env calls fun _ _ => True).discipline.sound hlink hr
  cases h with
  | start hl hg hd => exact Or.inl rfl
  | run hl ht => exact Or.inl rfl
  | @commit i r σ hl hc =>
      have hq := hsound.live i _ hl st.toWorld ⟨hsound.inv, fun _ _ => rfl, .refl _⟩
      exact Or.inr ⟨i, r, σ.writes, hc, rfl, rfl, hq⟩
  | rollback hl => exact Or.inl rfl
  | abort hl => exact Or.inl rfl

theorem keeps_of_reach (hlink : Linked d)
    (hr : Pg.Reach (ledgerSystem env calls) (State.init d) st)
    (hrun : Pg.Reach (ledgerSystem env calls) st st') : Keeps st.db st'.db := by
  induction hrun with
  | refl => exact .refl _
  | tail hmid hstep ih =>
      rcases wroteOwn_of_step hlink (hr.trans hmid) hstep with
        hsame | ⟨i, r, ws, _, hdb, _, hwrote⟩
      · rw [hsame]
        exact ih
      · rw [hdb]
        exact ih.trans (keeps_wrote hwrote.wrote)

/-- Whoever has committed was entitled to it, in tables that the present ones have
kept. -/
theorem wroteOwn_of_committed (hlink : Linked d)
    (hr : Pg.Reach (ledgerSystem env calls) (State.init d) st) {i : ι} {reply : LedgerReply}
    (hi : (i, .committed reply) ∈ st.log) :
    ∃ d₀ ws, WroteOwn env d₀ (calls i) reply ws ∧ Keeps d₀ st.db := by
  induction hr with
  | refl => simp [State.init] at hi
  | @tail mid last hmid hstep ih =>
      have hkeeps : Keeps mid.db last.db := keeps_of_reach hlink hmid (.single hstep)
      have old : (i, Finish.committed reply) ∈ mid.log →
          ∃ d₀ ws, WroteOwn env d₀ (calls i) reply ws ∧ Keeps d₀ last.db := by
        intro hmem
        obtain ⟨d₀, ws, hwrote, hkept⟩ := ih hmem
        exact ⟨d₀, ws, hwrote, hkept.trans hkeeps⟩
      rcases hstep.log_cases with hsame | ⟨k, f, hlog, hcommit⟩
      · exact old (hsame ▸ hi)
      · rw [hlog] at hi
        rcases List.mem_append.mp hi with hold | hnew
        · exact old hold
        · obtain ⟨rfl, rfl⟩ := Prod.mk.inj (List.mem_singleton.mp hnew)
          obtain ⟨σ, hl⟩ := hcommit reply rfl
          have hsound := (ownDiscipline env calls fun _ _ => True).discipline.sound hlink hmid
          have hq := hsound.live i _ hl mid.toWorld ⟨hsound.inv, fun _ _ => rfl, .refl _⟩
          exact ⟨mid.db, σ.writes, hq, hkeeps⟩

/-- Whatever runs at the same time: as long as only others commit, the accounts
and transactions of a user are what they were. -/
theorem others_leave_rows {u : Uuid} (hlink : Linked d)
    (hr : Pg.Reach (ledgerSystem env calls) (State.init d) st)
    (hrun : ReachUnder (ledgerSystem env calls) (fun st i => ByOther u st.db (calls i)) st st') :
    SameRows u st.db st'.db := by
  induction hrun with
  | refl => exact .refl _
  | @tail mid _ hmid hstep ih =>
      have hmid' : Pg.Reach (ledgerSystem env calls) st mid :=
        Relation.ReflTransGen.mono (fun _ _ h => h.imp fun _ _ _ _ _ _ => trivial) _ _ hmid
      rcases wroteOwn_of_step hlink (hr.trans hmid') hstep with
        hsame | ⟨i, r, ws, hother, hdb, _, hwrote⟩
      · rw [hsame]
        exact ih
      · rw [hdb]
        exact ih.trans (sameRows_elsewhere (hwrote.elsewhere hother))

end Runs

/-! Two users with an account each, and a batch of the first one. -/

def neighboursDb : LedgerDb :=
  sampleDb.set (.account 8) (some ⟨2, "UAH", "cash", .cash, 900, false, 0⟩)

def batchCalls (_ : Fin 4) : LedgerCall := sampleCalls 1

theorem others_leave_rows_neighbours :
    ∃ st, ReachUnder (ledgerSystem sampleEnv batchCalls)
        (fun st i => ByOther 2 st.db (batchCalls i)) (State.init neighboursDb) st ∧
      SameRows 2 neighboursDb st.db ∧
      decide ((st.db.get (.account 7)).map (·.balanceCents) = some 330) = true := by
  have hlink : Linked neighboursDb := by
    intro t row hrow
    simp [neighboursDb, sampleDb] at hrow
  have hother : ∀ st : LedgerState (Fin 4), true = true →
      ∀ i, ByOther 2 st.db (batchCalls i) := by
    intro st _ i
    show (1 : Uuid) ≠ 2
    decide
  have hrun : (((State.init neighboursDb :: path (ledgerSystem sampleEnv batchCalls)
      ([.start 1] ++ turns 1 7 ++ [.finish 1]) (State.init neighboursDb)).all fun _ => true)
      && (path (ledgerSystem sampleEnv batchCalls) ([.start 1] ++ turns 1 7 ++ [.finish 1])
        (State.init neighboursDb)).any fun st =>
          decide ((st.db.get (.account 7)).map (·.balanceCents) = some 330)) = true := by
    decide +kernel
  obtain ⟨st, hr, hp⟩ := exists_reachUnder (fun _ => true) hother _ _ hrun
  exact ⟨st, hr, others_leave_rows hlink .refl hr, hp⟩

end InvestApi.Isolation
