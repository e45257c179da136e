import InvestApi.Codec.Traverse
import InvestApi.Ledger.Bodies

/-!
# A batch of transactions writes what `Wrote` says

`TransactionsService.create` inserts the rows of the batch and then adds one
sum per account to the balances. The loop over the sums is an induction on
them; its invariant is that every account still to be updated is there, and
that what has been written so far is `Bumped`.
-/

namespace InvestApi.Ref

open InvestApi.Pg

/-! ## The loop over the entries -/

namespace TransactionsService

theorem collect_ok {accounts : List OwnedAccount} {user : AuthUser}
    {now : Instant} {es : List (TransactionEntryDto × Uuid)} :
    ∀ {batch : List Transaction} {deltas : List (String × Int)} {r},
      collect accounts user now es batch deltas = .ok r →
        r = (batch ++ es.map (fun e => toBatch e.1 e.2 now),
          (es.map (·.1)).foldl (fun deltas entry => addDelta entry.account_id
            (SIGN entry.type * entry.amount_cents) deltas) deltas) := by
  induction es with
  | nil =>
      intro batch deltas r h
      simp only [collect, Except.ok.injEq] at h
      simp [← h]
  | cons e es ih =>
      intro batch deltas r h
      rw [collect] at h
      split at h
      · simp at h
      · rw [ih h]
        simp

theorem mem_addDelta {id : String} {x : Int} {deltas : List (String × Int)}
    {p : String × Int} (h : p ∈ addDelta id x deltas) :
    p.1 = id ∨ ∃ q ∈ deltas, q.1 = p.1 := by
  induction deltas with
  | nil =>
      simp only [addDelta, List.mem_singleton] at h
      exact Or.inl (by rw [h])
  | cons q deltas ih =>
      rw [addDelta] at h
      split at h
      · next hk =>
          rcases List.mem_cons.mp h with h | h
          · exact Or.inl (by rw [h, hk])
          · exact Or.inr ⟨p, List.mem_cons_of_mem _ h, rfl⟩
      · rcases List.mem_cons.mp h with h | h
        · exact Or.inr ⟨q, List.mem_cons_self, by rw [h]⟩
        · rcases ih h with h | ⟨q', hq', he⟩
          · exact Or.inl h
          · exact Or.inr ⟨q', List.mem_cons_of_mem _ hq', he⟩

end TransactionsService

/-- A delta is some entry's account. -/
theorem mem_deltasOf {entries : List TransactionEntryDto} {p : String × Int}
    (h : p ∈ deltasOf entries) : ∃ e ∈ entries, e.account_id = p.1 := by
  have key : ∀ (entries : List TransactionEntryDto) deltas,
      p ∈ entries.foldl (fun deltas entry =>
        TransactionsService.addDelta entry.account_id
          (SIGN entry.type * entry.amount_cents) deltas) deltas →
      (∃ e ∈ entries, e.account_id = p.1) ∨ ∃ q ∈ deltas, q.1 = p.1 := by
    intro entries
    induction entries with
    | nil => exact fun deltas h => Or.inr ⟨p, h, rfl⟩
    | cons e entries ih =>
        intro deltas h
        rw [List.foldl_cons] at h
        rcases ih _ h with ⟨e', he', heq⟩ | ⟨q, hq, heq⟩
        · exact Or.inl ⟨e', List.mem_cons_of_mem _ he', heq⟩
        · rcases TransactionsService.mem_addDelta hq with h | ⟨q', hq', he⟩
          · exact Or.inl ⟨e, List.mem_cons_self, by rw [← h, heq]⟩
          · exact Or.inr ⟨q', hq', he.trans heq⟩
  rcases key entries [] h with h | ⟨q, hq, _⟩
  · exact h
  · simp at hq

variable {ι : Type} {R : LedgerSession → LedgerWorld ι → LedgerWorld ι → Prop}
  {E : ApiError → LedgerWorld ι → LedgerSession → Prop} {env : Env}

/-! ## The statements -/

theorem wp_findByIds {Q : List OwnedAccount → LedgerWorld ι → LedgerSession → Prop}
    {ids : List String} {w : LedgerWorld ι} {s : LedgerSession}
    (hq : ∀ accounts w, Q accounts w s) (hE : ∀ e w s, E e w s) :
    (AccountsRepository.findByIds ids).wp R Q E w s := by
  simp only [AccountsRepository.findByIds, Prog.bind_eq]
  split
  · exact hq _ _
  · rw [Prog.wp_bind]
    rcases Prog.mapM_value uuidParam_value ids with ⟨us, hus, _⟩ | ⟨e, he⟩
    · rw [hus]
      exact fun w' _ => hq _ w'
    · rw [he]
      exact hE _ _ _

def keyed (rows : List (Uuid × TransactionRow)) : List (KeyedRow LedgerRow) :=
  rows.map fun r => ⟨.transaction r.1, r.2⟩

theorem map_fst_keyed (rows : List (Uuid × TransactionRow)) :
    (keyed rows).map (·.1) = rows.map fun r => LedgerKey.transaction r.1 := by
  simp [keyed]

theorem keyed_writes (rows : List (Uuid × TransactionRow)) :
    (keyed rows).map (fun r => (⟨r.1, some r.2⟩ : Write LedgerRow))
      = rowWrites rows := by
  rw [keyed, List.map_map]
  rfl

theorem get_account_rowWrites (d : LedgerDb) (rows : List (Uuid × TransactionRow))
    (u : Uuid) : (d.writeAll (rowWrites rows)).get (.account u)
      = d.get (.account u) := by
  refine Db.get_writeAll_of_notMem ?_ d
  simp [rowWrites]

theorem batchRows_posts (rates : List (String × Numeric)) (now : Instant)
    {transactions : List Transaction} {accountIds : List Uuid}
    {dates : List Instant}
    (ha : List.Forall₂ (fun tx a => uuidParam tx.account_id = .ret a)
      transactions accountIds)
    (hd : List.Forall₂ (fun tx t => TransactionsRepository.bookedDate env tx = .ret t)
      transactions dates) :
    ∃ rows, TransactionsRepository.batchRows env rates now
        (transactions.zip (accountIds.zip dates)) = keyed rows ∧
      List.Forall₂ (fun tx => Posts tx.account_id tx.type tx.amount_cents)
        transactions rows := by
  induction ha generalizing dates with
  | nil => exact ⟨[], rfl, .nil⟩
  | @cons tx a transactions accountIds hta _ ih =>
      cases hd with
      | @cons _ date _ dates _ hd =>
          obtain ⟨rows, hrows, hall⟩ := ih hd
          refine ⟨(tx.id, TransactionsRepository.toRow env rates tx a date now)
            :: rows, ?_, .cons ⟨uuidParam_eq_ret.mp hta, rfl, rfl, rfl⟩ hall⟩
          simp only [TransactionsRepository.batchRows, keyed] at hrows ⊢
          simp only [List.zip_cons_cons, List.map_cons, hrows]

/-- `saveMany` inserts one row for each transaction of the batch, each booked
on an account that is there. -/
theorem wp_saveMany {Q : Unit → LedgerWorld ι → LedgerSession → Prop}
    {transactions : List Transaction} {now : Instant} {w : LedgerWorld ι}
    {s : LedgerSession}
    (hnil : transactions = [] → Q () w s)
    (hq : ∀ w' rows,
      List.Forall₂ (fun tx => Posts tx.account_id tx.type tx.amount_cents)
        transactions rows →
      (∀ r ∈ rows, (s.view w'.db).get (.transaction r.1) = none) →
      (rows.map (·.1)).Nodup →
      (∀ r ∈ rows, HasAccount (s.view w'.db) r.2.accountId) →
      Stable R (Q ()) w' (s.putRows (keyed rows)))
    (hE : ∀ e w s, E e w s) :
    (TransactionsRepository.saveMany env transactions now).wp R Q E w s := by
  simp only [TransactionsRepository.saveMany, Prog.bind_eq, Prog.query, Prog.bind]
  split
  · next hempty => exact hnil (List.isEmpty_iff.mp hempty)
  split
  · exact hE _ _ _
  intro w₁ _
  split
  · exact hE _ _ _
  rw [Prog.wp_bind]
  rcases Prog.mapM_value (bookedDate_value env) transactions
    with ⟨dates, hdates, hd⟩ | ⟨e, he⟩
  swap
  · rw [he]; exact hE _ _ _
  rw [hdates]
  intro w₂ _
  rw [Prog.wp_bind]
  rcases orThrow_value (FxRatesService.getEffectiveRates env.fxRates env.cache
      ((transactions.map (·.currency)).zip dates)) with ⟨rates, _, hr⟩ | ⟨e, he⟩
  swap
  · rw [he]; exact hE _ _ _
  rw [hr, Prog.wp, Prog.wp_bind]
  rcases Prog.mapM_value (fun tx : Transaction => uuidParam_value tx.account_id)
    transactions with ⟨accountIds, hids, ha⟩ | ⟨e, he⟩
  swap
  · rw [he]; exact hE _ _ _
  rw [hids, Prog.wp]
  obtain ⟨rows, hrows, hall⟩ := batchRows_posts rates now ha hd
  rw [hrows]
  intro hnew hn hc
  rw [map_fst_keyed] at hn
  refine hq w₂ rows hall ?_ ?_ ?_
  · intro r hr
    exact hnew ⟨.transaction r.1, r.2⟩ (List.mem_map_of_mem hr)
  · refine List.Nodup.of_map LedgerKey.transaction ?_
    rw [List.map_map]
    exact hn
  · intro r hr
    have hall := List.all_eq_true.mp hc ⟨.transaction r.1, r.2⟩
      (List.mem_map_of_mem hr)
    exact transactionConstraints_account hall

/-- The loop over the deltas, each on an account the session sees. -/
theorem wp_updateBalances (hR : LedgerRely R)
    {Q : PUnit → LedgerWorld ι → LedgerSession → Prop} :
    ∀ {deltas : List (String × Int)} {w : LedgerWorld ι} {s : LedgerSession},
      s.Held →
      (∀ p ∈ deltas, ∃ u, pgUuidIn p.1 = some u ∧ HasAccount (s.view w.db) u) →
      (∀ w' s' ws, (∀ k ∈ s.locks, w'.db.get k = w.db.get k) →
        Persist w.db w'.db → s'.writes = s.writes ++ ws →
        Bumped (s.view w'.db) deltas ws → Q () w' s') →
      (deltas.forM fun p => AccountsRepository.updateBalance p.1 p.2).wp R Q E
        w s := by
  intro deltas
  induction deltas with
  | nil =>
      intro w s _ _ hq
      exact hq w s [] (fun _ _ => rfl) (fun _ h => h) (by simp) .nil
  | cons p deltas ih =>
      intro w s hs hacc hq
      obtain ⟨u, hu, hmine⟩ := hacc p List.mem_cons_self
      rw [List.forM, Prog.bind_eq, Prog.wp_bind]
      refine wp_updateBalance hR hu hs hmine ?_
      intro w₁ row hw₁ hrow w₂ hw₂
      have hs₁ := (hs.tag .updateBalance).put (.account u)
        (some { row with balanceCents := row.balanceCents + p.2 })
      refine ih hs₁ ?_ ?_
      · intro p' hp'
        obtain ⟨u', hu', hmine'⟩ := hacc p' (List.mem_cons_of_mem _ hp')
        refine ⟨u', hu', hR.account_stays hw₂ hs₁ ?_⟩
        have hseen := hR.account_stays hw₁ hs hmine'
        by_cases he : u' = u
        · subst he; simp [HasAccount]
        · simpa [HasAccount, he] using hseen
      · intro w₃ s₃ ws hheld hpers hws hbump
        have hold : ∀ k ∈ s.locks, w₂.db.get k = w.db.get k := by
          intro k hk
          rw [hR.held hw₂ k (by simp [hk]), hR.held hw₁ k hk]
        have hrow₃ : (s.view w₃.db).get (.account u) = some row := by
          rw [← hrow]
          refine Db.get_writeAll_congr ?_ s.writes
          rw [hheld _ (by simp), hR.held hw₂ _ (by simp)]
        have hcons := Bumped.cons hu hrow₃ (by simpa using hbump)
        refine hq w₃ s₃ _ ?_ ?_ (hws.trans (by simp)) hcons
        · exact fun k hk => (hheld k (by simp [hk])).trans (hold k hk)
        · exact fun v hv => hpers v (hR.persist hw₂ v (hR.persist hw₁ v hv))

theorem wp_createTransactions (hR : LedgerRely R)
    {Q : LedgerReply → LedgerWorld ι → LedgerSession → Prop}
    {input : CreateTransactionsDto} {user : AuthUser} {ids : Nat → Uuid}
    {now : Instant} {w : LedgerWorld ι}
    (hq : ∀ r w s,
      Wrote env w.db (.createTransactions input user ids now) r s.writes →
      Q r w s)
    (hE : ∀ e w s, E e w s) :
    ((LedgerCall.createTransactions input user ids now).body env).wp R Q E w
      (Session.init []) := by
  simp only [LedgerCall.body, create_eq, Prog.bind_eq, Prog.pure_eq, Prog.wp_bind]
  refine wp_findByIds ?_ hE
  intro accounts w₁
  rcases orThrow_value (TransactionsService.collect accounts user now
      (drawn input ids) [] [])
    with ⟨⟨batch, deltas⟩, hcollect, hr⟩ | ⟨e, he⟩
  swap
  · rw [he]; exact hE _ _ _
  rw [hr]
  obtain ⟨hbatch, hdeltas⟩ := Prod.mk.inj (TransactionsService.collect_ok hcollect)
  rw [map_fst_drawn] at hdeltas
  replace hdeltas : deltas = deltasOf input.entries := hdeltas
  simp only [book, Prog.bind_eq, Prog.pure_eq, Prog.wp, Prog.wp_bind]
  -- Every row of the batch posts its entry.
  have hposts : ∀ rows, List.Forall₂
      (fun tx => Posts tx.account_id tx.type tx.amount_cents) batch rows →
      List.Forall₂ (fun entry => Posts entry.account_id entry.type
        entry.amount_cents) input.entries rows := by
    intro rows hrows
    rw [hbatch, List.nil_append, List.forall₂_map_left_iff] at hrows
    rw [← map_fst_drawn input ids, List.forall₂_map_left_iff]
    exact hrows
  -- What is left once the rows are in.
  have hbook : ∀ rows (w₂ : LedgerWorld ι), List.Forall₂
      (fun tx => Posts tx.account_id tx.type tx.amount_cents) batch rows →
      (∀ r ∈ rows, w₂.db.get (.transaction r.1) = none) →
      (rows.map (·.1)).Nodup → (∀ r ∈ rows, HasAccount w₂.db r.2.accountId) →
      (deltas.forM fun p => AccountsRepository.updateBalance p.1 p.2).wp R
        (fun _ => Q (.transactions batch)) E w₂
        ((Session.init []).putRows (keyed rows)) := by
    intro rows w₂ hrows hnew hn hacc
    have hview : ∀ w : LedgerWorld ι, ((Session.init []).putRows (keyed rows)
        : LedgerSession).view w.db = w.db.writeAll (rowWrites rows) := by
      intro w
      rw [Session.view_putRows, keyed_writes, Session.view_init]
    refine wp_updateBalances hR ((Session.held_init _).putRows _) ?_ ?_
    · intro p hp
      rw [hdeltas] at hp
      obtain ⟨entry, hentry, heq⟩ := mem_deltasOf hp
      obtain ⟨r, hr, hpost⟩ := (mem_of_forall₂ (hposts rows hrows)).1 entry hentry
      refine ⟨r.2.accountId, by rw [← heq]; exact hpost.account, ?_⟩
      rw [hview, HasAccount, get_account_rowWrites]
      exact hacc r hr
    · intro w₃ s₃ ws hheld hpers hws hbump
      rw [hview, hdeltas] at hbump
      have hwritten : s₃.writes = rowWrites rows ++ ws := by
        rw [hws, Session.writes_putRows, keyed_writes, Session.writes_init,
          List.nil_append]
      refine hq _ _ _ (hwritten ▸ .booked (hposts rows hrows) ?_ hn ?_ hbump)
      · intro r hr
        rw [hheld _ (Session.mem_locks_putRows.mpr (Or.inr ?_)), hnew r hr]
        rw [map_fst_keyed]
        exact List.mem_map_of_mem hr
      · exact fun r hr => hpers _ (hacc r hr)
  refine wp_saveMany ?_ ?_ hE
  · intro hnil
    have hnone := hbook [] w₁ (by rw [hnil]; exact .nil) (by simp) (by simp)
      (by simp)
    exact Prog.wp_bind.mpr hnone
  · intro w₂ rows hrows hnew hn hacc w₃ hw₃
    refine Prog.wp_bind.mpr (hbook rows w₃ hrows ?_ hn ?_)
    · intro r hr
      rw [hR.held hw₃ _ (Session.mem_locks_putRows.mpr (Or.inr ?_))]
      · exact hnew r hr
      · rw [map_fst_keyed]
        exact List.mem_map_of_mem hr
    · exact fun r hr => hR.persist hw₃ _ (hacc r hr)

end InvestApi.Ref
