import InvestApi.Ledger.Deadlock
import InvestApi.Ledger.Doubles
import InvestApi.Ledger.Linear
import InvestApi.Pg.Draws
import InvestApi.Ref.DemoRace

/-!
# The race sells what there is

Whatever the schedule, the balance is the start less what was sold, nobody is
refused while it still covers one unit, and each sale has its order and its job. So
once all have answered exactly the units are sold, and the script finds nothing
wrong. That they all answer is `LockOrder.finishes`.
-/

namespace InvestApi.Ref.DemoRace

open InvestApi.Pg

variable {n : Nat} {env : Env} {units : Nat} {price : Int} {draws : Fin n → CheckoutDraw}

/-- The calls of the script. -/
abbrev calls (price : Int) (draws : Fin n → CheckoutDraw) : Fin n → LedgerCall :=
  checkouts (fun _ => request price) draws

/-! ## What `reset` leaves -/

theorem count_eq_zero {p : (k : LedgerKey) → LedgerRow k → Bool} {d : LedgerDb}
    (h : ∀ k row, d.get k = some row → p k row = false) : count p d = 0 :=
  Db.sum_eq_zero fun k row hrow => by rw [h k row hrow]; rfl

theorem get_delete {p : (k : LedgerKey) → LedgerRow k → Bool} {d : LedgerDb} {k : LedgerKey}
    {row : LedgerRow k} (h : (delete p d).get k = some row) :
    d.get k = some row ∧ p k row = false := by
  by_cases hk : k ∈ d.keys.filter fun k => (d.get k).any (p k)
  · have hn : (((d.keys.filter fun k => (d.get k).any (p k)).map
        fun k => (⟨k, none⟩ : Write LedgerRow)).map (·.1)).Nodup := by
      rw [List.map_map]
      exact (List.map_id _).symm ▸ d.nodup.filter _
    have hmem : (⟨k, none⟩ : Write LedgerRow) ∈ (d.keys.filter fun k => (d.get k).any (p k)).map
        fun k => ⟨k, none⟩ := List.mem_map.mpr ⟨k, hk, rfl⟩
    rw [delete, Db.get_writeAll_of_mem hn hmem] at h
    cases h
  · rw [delete, Db.get_writeAll_of_notMem (by simpa using hk)] at h
    refine ⟨h, ?_⟩
    by_contra hp
    refine hk (List.mem_filter.mpr ⟨(d.mem_keys k).mpr (by rw [h]; rfl), ?_⟩)
    rw [h]
    simpa using hp

/-- The tables a run of the script begins with. -/
structure Ready (units : Nat) (price : Int) (d₀ d : LedgerDb) : Prop where
  account : ∃ row₀ row, d₀.get (.account ACCOUNT_ID) = some row₀ ∧
    d.get (.account ACCOUNT_ID) = some row ∧ row.currency = row₀.currency ∧
    row.balanceCents = bigintText (START_BALANCE_CENTS units price)
  others : ∀ k row, k ≠ .account ACCOUNT_ID → d.get k = some row → d₀.get k = some row
  orders : count marked d = 0
  jobs : count receipt d = 0

theorem ready_of_reset {d₀ d : LedgerDb} (h : reset units price d₀ = .ok d) :
    Ready units price d₀ d := by
  rw [reset] at h
  split at h
  · cases h
  next row₀ hrow₀ =>
  dsimp only at h
  split at h
  swap
  · cases h
  obtain rfl := Except.ok.inj h
  have hget : ∀ k row, k ≠ LedgerKey.account ACCOUNT_ID →
      ((delete receipt (delete marked d₀)).set (.account ACCOUNT_ID)
        (some { row₀ with
          balanceCents := bigintText (START_BALANCE_CENTS units price) })).get k = some row →
      d₀.get k = some row ∧ marked k row = false ∧ receipt k row = false := by
    intro k row hk hrow
    rw [Db.get_set_ne _ _ hk] at hrow
    obtain ⟨hrow, hreceipt⟩ := get_delete hrow
    obtain ⟨hrow, hmarked⟩ := get_delete hrow
    exact ⟨hrow, hmarked, hreceipt⟩
  refine ⟨⟨row₀, _, hrow₀, Db.get_set_self _ _ _, rfl, rfl⟩,
    fun k row hk hrow => (hget k row hk hrow).1, count_eq_zero fun k row hrow => ?_,
    count_eq_zero fun k row hrow => ?_⟩
  · by_cases hk : k = .account ACCOUNT_ID
    · subst hk
      rfl
    · exact (hget k row hk hrow).2.1
  · by_cases hk : k = .account ACCOUNT_ID
    · subst hk
      rfl
    · exact (hget k row hk hrow).2.2

/-! ## A sale -/

def isSale (finish : Finish ApiError LedgerReply) : Bool :=
  match resolved finish with
  | some (.ok _) => true
  | _ => false

theorem isSale_raised (e : ApiError) : isSale (.raised e) = false := by
  cases e <;> rfl

theorem isSale_of_resolved {finish : Finish ApiError LedgerReply}
    {result : Except CheckoutRejection CheckoutSuccess} (h : resolved finish = some result) :
    isSale finish = result.isOk := by
  rw [isSale, h]
  cases result <;> rfl

/-- How many calls have bought. -/
def sold (log : List (Fin n × Finish ApiError LedgerReply)) : Nat :=
  log.countP fun entry => isSale entry.2

/-- The account row pays, and the two new rows are there. -/
theorem sum_bought {request : CheckoutRequest} {draw : CheckoutDraw} {d : LedgerDb} {u : Uuid}
    {row : AccountRow} {cost : Int} {order : TransactionRow}
    (h : Buys env request draw d u row cost order) (f : (k : LedgerKey) → LedgerRow k → Int) :
    (d.writeAll (boughtWrites request draw u row cost order)).sum f
      = d.sum f + (f (.account u) (debited row cost) - f (.account u) row)
        + f (.transaction draw.orderId) order
        + f (.job draw.jobId) (Checkout.jobRow request draw) := by
  have horder : (d.set (.account u) (some (debited row cost))).get
      (.transaction draw.orderId) = none := by
    rw [Db.get_set_ne _ _ (by simp), h.order_new]
  have hjob : ((d.set (.account u) (some (debited row cost))).set
      (.transaction draw.orderId) (some order)).get (.job draw.jobId) = none := by
    rw [Db.get_set_ne _ _ (by simp), Db.get_set_ne _ _ (by simp), h.job_new]
  simp only [boughtWrites, Db.writeAll_cons, Db.writeAll_nil]
  rw [Db.sum_set, Db.sum_set, Db.sum_set, horder, hjob, h.row_eq]
  simp only [Db.term_some, Db.term_none]
  ring

theorem sentCost_request (hsafe : Safe price) : Checkout.sentCost (request price) = price := by
  have hproduct : (request price).unitPriceCents * (request price).quantity = price := mul_one _
  have hden : ((request price).unitPriceCents * (request price).quantity).den = 1 := by
    rw [hproduct, Rat.den_intCast]
  rw [Doubles.sentCost_of_safe _ hden, hproduct]
  rw [Doubles.SafeCost, if_pos hden, hproduct, Rat.num_intCast]
  exact hsafe

/-- What a call of the script buys. -/
theorem buys_unit (hsafe : Safe price) {draw : CheckoutDraw} {d : LedgerDb} {u : Uuid}
    {row : AccountRow} {cost : Int} {order : TransactionRow}
    (h : Buys env (request price) draw d u row cost order) :
    u = ACCOUNT_ID ∧ cost = price ∧ order.description = some MARKER := by
  refine ⟨?_, ?_, ?_⟩
  · have hu := uuidParam_eq_ret.mp h.account
    rw [request, pgUuidIn_text] at hu
    exact (Option.some.inj hu).symm
  · have hcost := bigintParam_eq h.cost_eq
    rw [sentCost_request hsafe] at hcost
    exact Int.cast_injective hcost
  · obtain ⟨_, _, _, _, _, _, rfl⟩ := h.order_eq
    rfl

/-- The tables of a race, by its log. -/
structure Sold (price : Int) (draws : Fin n → CheckoutDraw) (d : LedgerDb)
    (w : LedgerWorld (Fin n)) : Prop where
  account : ∃ row₀ row, d.get (.account ACCOUNT_ID) = some row₀ ∧
    w.db.get (.account ACCOUNT_ID) = some row ∧ row.currency = row₀.currency ∧
    row.balanceCents = row₀.balanceCents - sold w.log * price ∧ 0 ≤ row.balanceCents
  others : ∀ a, a ≠ ACCOUNT_ID → w.db.get (.account a) = d.get (.account a)
  orders : count marked w.db = count marked d + sold w.log
  jobs : count receipt w.db = count receipt d + sold w.log
  keys : ∀ k, w.db.get k ≠ none → d.get k ≠ none ∨
    ∃ i ∈ w.log.map (·.1), k ∈ (calls price draws i).randomIds
  /-- Who was refused was refused for the money, and there is still too little. -/
  refused : ∀ i reason, (i, .raised (.checkoutRejected reason)) ∈ w.log →
    ∀ row, w.db.get (.account ACCOUNT_ID) = some row → row.balanceCents < price

section Sold

variable {d : LedgerDb} {w : LedgerWorld (Fin n)}

theorem Sold.init {row : AccountRow} (hrow : d.get (.account ACCOUNT_ID) = some row)
    (hpos : 0 ≤ row.balanceCents) : Sold price draws d ⟨d, []⟩ where
  account := ⟨row, row, hrow, hrow, rfl, by simp [sold], hpos⟩
  others _ _ := rfl
  orders := by simp [sold]
  jobs := by simp [sold]
  keys _ h := Or.inl h
  refused _ _ h := absurd h List.not_mem_nil

theorem Sold.note (h : Sold price draws d w) {i : Fin n} {finish : Finish ApiError LedgerReply}
    (hno : isSale finish = false)
    (hwhy : ∀ reason, finish = .raised (.checkoutRejected reason) →
      ∀ row, w.db.get (.account ACCOUNT_ID) = some row → row.balanceCents < price) :
    Sold price draws d (w.note i finish) := by
  have hsold : sold (w.log ++ [(i, finish)]) = sold w.log := by
    rw [sold, List.countP_append, List.countP_singleton]
    simp [hno, sold]
  exact
  { account := by
      rw [World.note_log, hsold]
      exact h.account
    others := h.others
    orders := by
      rw [World.note_log, hsold]
      exact h.orders
    jobs := by
      rw [World.note_log, hsold]
      exact h.jobs
    keys := by
      intro k hk
      refine (h.keys k hk).imp_right fun hex => ?_
      obtain ⟨j, hj, hmem⟩ := hex
      exact ⟨j, by simp [hj], hmem⟩
    refused := by
      intro j reason hmem
      rcases List.mem_append.mp hmem with hold | hnow
      · exact h.refused j reason hold
      · obtain ⟨_, hfinish⟩ := Prod.mk.inj (List.mem_singleton.mp hnow)
        exact hwhy reason hfinish.symm }

theorem Sold.commit (h : Sold price draws d w) (hprice : 0 < price) (hsafe : Safe price)
    {i : Fin n} {u : Uuid} {row : AccountRow} {cost : Int} {order : TransactionRow}
    (hb : Buys env (request price) (draws i) w.db u row cost order) :
    Sold price draws d
      ⟨w.db.writeAll (boughtWrites (request price) (draws i) u row cost order),
        w.log ++ [(i, .committed (.checkout (bought (request price) (draws i) row cost)))]⟩ := by
  obtain ⟨rfl, rfl, hmarker⟩ := buys_unit hsafe hb
  have hget : ∀ k, (w.db.writeAll (boughtWrites (request cost) (draws i) ACCOUNT_ID row cost
      order)).get k = w.db.get k ∨ k = .account ACCOUNT_ID ∨
        k ∈ (calls cost draws i).randomIds := by
    intro k
    by_cases hk : k ∈ (boughtWrites (request cost) (draws i) ACCOUNT_ID row cost order).map (·.1)
    · right
      simpa [boughtWrites, checkouts, LedgerCall.randomIds] using hk
    · exact Or.inl (Db.get_writeAll_of_notMem hk _)
  have hself : (w.db.writeAll (boughtWrites (request cost) (draws i) ACCOUNT_ID row cost
      order)).get (.account ACCOUNT_ID) = some (debited row cost) := by
    simp [boughtWrites, Db.get_set_ne]
  have hsold : sold (w.log ++ [(i, .committed (.checkout
      (bought (request cost) (draws i) row cost)))]) = sold w.log + 1 := by
    rw [sold, List.countP_append, List.countP_singleton]
    rfl
  obtain ⟨row₀, row', hrow₀, hrow', hcurrency, hbalance, hpos⟩ := h.account
  obtain rfl : row = row' := Option.some.inj (hb.row_eq.symm.trans hrow')
  have hless : (debited row cost).balanceCents = row.balanceCents - cost := rfl
  have henough := hb.enough
  exact
  { account := by
      refine ⟨row₀, _, hrow₀, hself, hcurrency, ?_, ?_⟩
      · rw [hless, hbalance, hsold]
        push_cast
        ring
      · rw [hless]
        omega
    others := by
      intro a ha
      rcases hget (.account a) with hsame | hown | hid
      · exact hsame.trans (h.others a ha)
      · exact absurd (LedgerKey.account.inj hown) ha
      · simp [checkouts, LedgerCall.randomIds] at hid
    orders := by
      rw [hsold, count, sum_bought hb]
      have hold := h.orders
      rw [count] at hold
      rw [hold]
      simp [marked, hmarker, add_assoc]
    jobs := by
      rw [hsold, count, sum_bought hb]
      have hold := h.jobs
      rw [count] at hold
      rw [hold]
      simp [receipt, Checkout.jobRow, add_assoc]
    keys := by
      intro k hk
      rcases hget k with hsame | rfl | hid
      · refine (h.keys k (hsame ▸ hk)).imp_right fun hex => ?_
        obtain ⟨j, hj, hmem⟩ := hex
        exact ⟨j, by simp [hj], hmem⟩
      · exact Or.inl (by simp [hrow₀])
      · exact Or.inr ⟨i, by simp, hid⟩
    refused := by
      intro j reason hmem row₁ hrow₁
      rcases List.mem_append.mp hmem with hold | hnow
      · rw [hself] at hrow₁
        obtain rfl := Option.some.inj hrow₁
        have hlt := h.refused j reason hold row hrow'
        rw [hless]
        omega
      · simp at hnow }

/-- Who is refused finds, as it rolls back, too little for one unit. -/
theorem short_of_refused (h : Sold price draws d w) (hsafe : Safe price)
    {reason : CheckoutRejection} {s : LedgerSession}
    (hrate : ∀ row, d.get (.account ACCOUNT_ID) = some row → rateOf env row.currency ≠ none)
    (he : Refused CheckoutR env (request price) (.checkoutRejected reason) w s) :
    ∀ row, w.db.get (.account ACCOUNT_ID) = some row → row.balanceCents < price := by
  obtain ⟨row₀, row, hrow₀, hrow, hcurrency, -, -⟩ := h.account
  intro row' hrow'
  obtain rfl : row = row' := Option.some.inj (hrow.symm.trans hrow')
  generalize hreason : ApiError.checkoutRejected reason = e at he
  have haccount : ∀ u, uuidParam (request price).accountId = .ret u → u = ACCOUNT_ID := by
    intro u hu
    rw [uuidParam_eq_ret, request, pgUuidIn_text] at hu
    exact (Option.some.inj hu).symm
  cases he with
  | quantity hq => cases hreason
  | accountId hq hu =>
      obtain ⟨code, rfl⟩ := uuidParam_raise hu
      cases hreason
  | cost hq hu hc =>
      obtain ⟨code, rfl⟩ := bigintParam_raise hc
      cases hreason
  | short hq hu hc hpoor h₁ hfound h₂ =>
      obtain rfl := haccount _ hu
      have hcost := bigintParam_eq hc
      rw [sentCost_request hsafe] at hcost
      obtain rfl := Int.cast_injective hcost
      exact hpoor.of_falls (h₁.2.2.2.trans h₂.2.2.2) row hrow
  | missing hq hu hc hgone h₂ =>
      -- No account appears, and this one is there.
      obtain rfl := haccount _ hu
      obtain ⟨old, hold, _⟩ := h₂.2.2.2 _ row hrow
      exact absurd ⟨old, hold⟩ hgone
  | stopped hdebit hfound hstop =>
      obtain rfl := haccount _ hdebit.account
      obtain rfl := Option.some.inj (hrow.symm.trans hfound)
      cases hstop with
      | rate hnone => exact absurd (hcurrency ▸ hnone) (hrate row₀ hrow₀)
      | instrument _ hi =>
          obtain ⟨code, rfl⟩ := uuidParam_raise hi
          cases hreason
      | quantity _ _ hm =>
          obtain ⟨code, rfl⟩ := bigintParam_raise hm
          cases hreason

theorem sold_of_reach {st : LedgerState (Fin n)} {row : AccountRow}
    (hrow : d.get (.account ACCOUNT_ID) = some row) (hpos : 0 ≤ row.balanceCents)
    (hprice : 0 < price) (hsafe : Safe price) (hrate : rateOf env row.currency ≠ none)
    (hr : Reach (ledgerSystem env (calls price draws)) (State.init d) st) :
    Sold price draws d st.toWorld := by
  have hends := (checkoutDiscipline env (fun _ => request price) draws _).discipline.ends
    (fun _ _ => True) (fun _ _ h => h) trivial hr
  generalize st.toWorld = w at hends
  induction hends with
  | refl => exact .init hrow hpos
  | tail _ hstep ih =>
      cases hstep with
      | @commit i r σ _ _ hq =>
          dsimp only [checkouts] at hq
          dsimp only [World.commit, Session.view]
          generalize σ.writes = ws at hq
          cases hq with
          | bought h => exact ih.commit hprice hsafe h
      | @rollback i e σ _ he =>
          refine ih.note (isSale_raised e) fun reason hreason => ?_
          obtain rfl := Finish.raised.inj hreason
          refine short_of_refused ih hsafe (fun row' hrow' => ?_) he
          obtain rfl := Option.some.inj (hrow.symm.trans hrow')
          exact hrate
      | abort _ => exact ih.note rfl (fun reason hreason => by cases hreason)

end Sold

/-! ## The grading -/

/-- All have answered, and unless some threw the script finds nothing wrong. -/
structure Passed (units : Nat) (price : Int) (st : LedgerState (Fin n)) : Prop where
  answered : ∀ i, i ∈ st.log.map (·.1)
  graded : ∀ results : Fin n → Except CheckoutRejection CheckoutSuccess,
    (∀ i, ∃ finish, (i, finish) ∈ st.log ∧ resolved finish = some (results i)) →
    ∃ t, tally (List.ofFn results) st.db = some t ∧ problems units price t = []

/-- The ids the calls draw are nobody's. -/
structure FreshIds (d : LedgerDb) (draws : Fin n → CheckoutDraw) : Prop where
  unused : ∀ i, d.get (.transaction (draws i).orderId) = none ∧
    d.get (.job (draws i).jobId) = none
  orders : Function.Injective fun i => (draws i).orderId
  jobs : Function.Injective fun i => (draws i).jobId

/-- Each call has one entry, so the log is the calls in some order. -/
theorem log_perm {log : List (Fin n × Finish ApiError LedgerReply)}
    (hn : (log.map (·.1)).Nodup) {finish : Fin n → Finish ApiError LedgerReply}
    (h : ∀ i, (i, finish i) ∈ log) : log.Perm (List.ofFn fun i => (i, finish i)) := by
  have hofFn : (List.ofFn fun i => (i, finish i)).Nodup :=
    List.nodup_ofFn.mpr fun i j hij => (Prod.mk.inj hij).1
  refine (List.perm_ext_iff_of_nodup (hn.of_map _) hofFn).mpr fun entry => ?_
  rw [List.mem_ofFn']
  constructor
  · exact fun hmem => ⟨entry.1, List.inj_on_of_nodup_map hn (h entry.1) hmem rfl⟩
  · rintro ⟨i, rfl⟩
    exact h i

theorem sold_eq {log : List (Fin n × Finish ApiError LedgerReply)} (hn : (log.map (·.1)).Nodup)
    {results : Fin n → Except CheckoutRejection CheckoutSuccess}
    (h : ∀ i, ∃ finish, (i, finish) ∈ log ∧ resolved finish = some (results i)) :
    ((List.ofFn results).filter Except.isOk).length = sold log := by
  choose finish hmem hresolved using h
  rw [sold, (log_perm hn hmem).countP_eq, ← List.countP_eq_length_filter, List.ofFn_eq_map,
    List.ofFn_eq_map, List.countP_map, List.countP_map]
  refine List.countP_congr fun i _ => ?_
  simp only [Function.comp_apply, isSale_of_resolved (hresolved i)]

theorem start_eq (hsafe : Safe (units * price)) :
    bigintText (START_BALANCE_CENTS units price) = units * price := by
  rw [START_BALANCE_CENTS, double_of_safe hsafe, bigintText_of_safe hsafe]

section Graded

variable {d₀ d : LedgerDb} {w : LedgerWorld (Fin n)}

/-- Where all have answered and nobody threw, exactly the units are sold. -/
theorem Sold.all_units (h : Sold price draws d w) (hready : Ready units price d₀ d)
    (hunits : units ≤ n) (hprice : 0 < price) (hsafe : Safe (units * price))
    (hn : (w.log.map (·.1)).Nodup)
    {results : Fin n → Except CheckoutRejection CheckoutSuccess}
    (hall : ∀ i, ∃ finish, (i, finish) ∈ w.log ∧ resolved finish = some (results i)) :
    sold w.log = units := by
  obtain ⟨row₀, row, hrow₀, hrow, -, hbalance, hpos⟩ := h.account
  obtain ⟨_, row', _, hrow', _, hstart⟩ := hready.account
  obtain rfl : row' = row₀ := Option.some.inj (hrow'.symm.trans hrow₀)
  rw [hstart, start_eq hsafe, ← sub_mul] at hbalance
  have hle : sold w.log ≤ units := by
    have hnonneg : (0 : Int) ≤ (units : Int) - sold w.log :=
      nonneg_of_mul_nonneg_left (hbalance ▸ hpos) hprice
    omega
  by_contra hne
  have hlt : sold w.log < n := by omega
  -- Somebody was refused, and what is left would still have paid for a unit.
  obtain ⟨i, hi⟩ : ∃ i, (results i).isOk = false := by
    by_contra hno
    push Not at hno
    have hfilter : (List.ofFn results).filter Except.isOk = List.ofFn results :=
      List.filter_eq_self.mpr fun r hr => by
        obtain ⟨i, rfl⟩ := (List.mem_ofFn' _ _).mp hr
        simpa using hno i
    have hsold := sold_eq hn hall
    rw [hfilter, List.length_ofFn] at hsold
    omega
  obtain ⟨finish, hmem, hresolved⟩ := hall i
  have hraised : ∃ reason, finish = .raised (.checkoutRejected reason) := by
    unfold resolved at hresolved
    split at hresolved
    · rw [← Option.some.inj hresolved] at hi
      cases hi
    · exact ⟨_, rfl⟩
    · cases hresolved
  obtain ⟨reason, rfl⟩ := hraised
  have hshort := h.refused i reason hmem row hrow
  have hleft : 1 * price ≤ ((units : Int) - sold w.log) * price :=
    mul_le_mul_of_nonneg_right (by omega) hprice.le
  rw [one_mul, ← hbalance] at hleft
  omega

theorem Sold.graded (h : Sold price draws d w) (hready : Ready units price d₀ d)
    (hunits : units ≤ n) (hprice : 0 < price) (hsafe : Safe (units * price))
    (hsolvent : ∀ a row, d₀.get (.account a) = some row → 0 ≤ row.balanceCents)
    (hn : (w.log.map (·.1)).Nodup)
    {results : Fin n → Except CheckoutRejection CheckoutSuccess}
    (hall : ∀ i, ∃ finish, (i, finish) ∈ w.log ∧ resolved finish = some (results i)) :
    ∃ t, tally (List.ofFn results) w.db = some t ∧ problems units price t = [] := by
  have hsold := h.all_units hready hunits hprice hsafe hn hall
  obtain ⟨row₀, row, hrow₀, hrow, -, hbalance, hpos⟩ := h.account
  obtain ⟨_, row', _, hrow', _, hstart⟩ := hready.account
  obtain rfl : row' = row₀ := Option.some.inj (hrow'.symm.trans hrow₀)
  have hzero : row.balanceCents = 0 := by
    rw [hbalance, hstart, hsold, start_eq hsafe, sub_self]
  have hnegative : count negative w.db = 0 := by
    refine count_eq_zero fun k r hr => ?_
    cases k with
    | account a =>
        refine decide_eq_false (not_lt.mpr ?_)
        by_cases ha : a = ACCOUNT_ID
        · subst ha
          obtain rfl := Option.some.inj (hrow.symm.trans hr)
          exact hpos
        · rw [h.others a ha] at hr
          exact hsolvent a r (hready.others _ r (by simpa using ha) hr)
    | transaction t => rfl
    | job j => rfl
  have horders : count marked w.db = units := by
    rw [h.orders, hready.orders, hsold, zero_add]
  have hjobs : count receipt w.db = units := by
    rw [h.jobs, hready.jobs, hsold, zero_add]
  have hok := (sold_eq hn hall).trans hsold
  refine ⟨_, by rw [tally, hrow]; rfl, ?_⟩
  simp [problems, hok, hzero, hnegative, horders, hjobs, START_BALANCE_CENTS,
    double_of_safe hsafe, double_of_safe safe_zero]

end Graded

/-! ## Every run -/

/-- A call that has not answered has its ids still to itself. -/
theorem Sold.unused {d : LedgerDb} {w : LedgerWorld (Fin n)} (h : Sold price draws d w)
    (hids : FreshIds d draws) {i : Fin n} (hi : i ∉ w.log.map (·.1)) {k : LedgerKey}
    (hk : k ∈ (calls price draws i).randomIds) : w.db.get k = none := by
  by_contra hne
  have hown : ∀ j, k ∈ (calls price draws j).randomIds → j = i := by
    intro j hj
    simp only [calls, checkouts, LedgerCall.randomIds, List.mem_cons, List.not_mem_nil,
      or_false] at hj hk
    rcases hj with rfl | rfl
    · rcases hk with hk | hk
      · exact hids.orders (LedgerKey.transaction.inj hk)
      · cases hk
    · rcases hk with hk | hk
      · cases hk
      · exact hids.jobs (LedgerKey.job.inj hk)
  rcases h.keys k hne with hold | ⟨j, hj, hmem⟩
  · simp only [calls, checkouts, LedgerCall.randomIds, List.mem_cons, List.not_mem_nil,
      or_false] at hk
    rcases hk with rfl | rfl
    · exact hold (hids.unused i).1
    · exact hold (hids.unused i).2
  · exact hi (hown j hmem ▸ hj)

/-- The demo passes, whatever the schedule, while no amount is rounded: every run ends,
and at its end exactly the units are sold, unless some checkout threw. -/
theorem race_passes {d₀ d : LedgerDb} (hreset : reset units price d₀ = .ok d)
    (hunits : units ≤ n) (hprice : 0 < price) (hsafe : Safe price)
    (hstock : Safe (units * price))
    (hsolvent : ∀ a row, d₀.get (.account a) = some row → 0 ≤ row.balanceCents)
    (hrate : ∀ row, d₀.get (.account ACCOUNT_ID) = some row → rateOf env row.currency ≠ none)
    (hids : FreshIds d draws) :
    Lts.Finishes (Goes (uuidSystem env (calls price draws))) (State.init d)
      (Passed units price) := by
  have hready := ready_of_reset hreset
  have hfinish : Lts.Finishes (Goes (uuidSystem env (calls price draws))) (State.init d)
      (State.Done (uuidSystem env (calls price draws))) := by
    refine ledger_calls_finish (fun a ha => ?_) .refl
    obtain ⟨_, ⟨i, hi⟩, _⟩ := Relation.TransGen.head'_iff.mp ha
    exact hi
  refine ⟨hfinish.finite, fun st hgo hstuck => ?_⟩
  have hdone := hfinish.reached st hgo hstuck
  obtain ⟨st', hr', hwithin⟩ := ReachUnder.undrawn (reach_of_goes hgo)
  have hsold : Sold price draws d st.toWorld := by
    obtain ⟨row₀, row, hrow₀, hrow, hcurrency, hstart⟩ := hready.account
    rw [← hwithin.world]
    refine sold_of_reach hrow ?_ hprice hsafe (hcurrency ▸ hrate row₀ hrow₀) hr'
    rw [hstart, start_eq hstock]
    exact mul_nonneg (Int.natCast_nonneg _) hprice.le
  refine ⟨fun i => ?_, fun results hall => ?_⟩
  · rcases hdone.answered i with hin | ⟨k, hk, htaken⟩
    · exact hin
    · by_contra hnot
      have hnone := hsold.unused hids hnot hk
      simp [uuidSystem, ledgerSystem, hnone] at htaken
  · exact hsold.graded hready hunits hprice hstock hsolvent (reach_of_goes hgo).log_nodup.1 hall

/-! The script's own size, over the seed's brokerage account. -/

def seedEnv : Env :=
  { sampleEnv with
    currencies := ["UAH", "USD"]
    instruments := [⟨INSTRUMENT_ID, "AAPL"⟩]
    fxRates := [⟨"USD", 20455, "seed", ⟨416000000000⟩⟩] }

def seedDb : LedgerDb :=
  Db.empty.set (.account ACCOUNT_ID)
    (some ⟨1, "USD", "Interactive Brokers", .brokerage, 3400000, false, 0⟩)

def seedDraws (i : Fin ATTEMPTS) : CheckoutDraw :=
  ⟨Fin.ofNat _ (100 + i.val), Fin.ofNat _ (200 + i.val), 0⟩

theorem ofNat_injective {m : Nat} (hm : m + ATTEMPTS ≤ 2 ^ 128) :
    Function.Injective fun i : Fin ATTEMPTS => (Fin.ofNat (2 ^ 128) (m + i.val) : Uuid) := by
  intro i j h
  have hval := congrArg Fin.val h
  rw [Fin.val_ofNat, Fin.val_ofNat, Nat.mod_eq_of_lt (by omega),
    Nat.mod_eq_of_lt (by omega)] at hval
  exact Fin.ext (by omega)

theorem race_passes_fifty : ∃ d, reset UNITS PRICE_CENTS seedDb = .ok d ∧
    Lts.Finishes (Goes (uuidSystem seedEnv (calls PRICE_CENTS seedDraws))) (State.init d)
      (Passed UNITS PRICE_CENTS) := by
  have hrow : seedDb.get (.account ACCOUNT_ID)
      = some ⟨1, "USD", "Interactive Brokers", .brokerage, 3400000, false, 0⟩ :=
    Db.get_set_self _ _ _
  have honly : ∀ a row, seedDb.get (.account a) = some row → row.balanceCents = 3400000 ∧
      row.currency = "USD" := by
    intro a row h
    by_cases ha : a = ACCOUNT_ID
    · subst ha
      rw [← Option.some.inj (hrow.symm.trans h)]
      exact ⟨rfl, rfl⟩
    · rw [seedDb, Db.get_set_ne _ _ (by simpa using ha)] at h
      cases h
  have hreset : ∃ d, reset UNITS PRICE_CENTS seedDb = .ok d := by
    rw [reset, hrow]
    exact ⟨_, if_pos (by decide +kernel)⟩
  obtain ⟨d, hd⟩ := hreset
  refine ⟨d, hd, race_passes hd (by decide) (by decide) (by decide) (by decide)
    (fun a row h => ?_) (fun row h => ?_)
    ⟨fun i => ?_, ofNat_injective (by decide), ofNat_injective (by decide)⟩⟩
  · rw [(honly a row h).1]
    decide
  · rw [(honly _ row h).2]
    decide
  · have hnone : ∀ k, k ≠ LedgerKey.account ACCOUNT_ID → d.get k = none := by
      intro k hk
      by_contra hne
      obtain ⟨row, hrow'⟩ := Option.ne_none_iff_exists'.mp hne
      have hold := (ready_of_reset hd).others k row hk hrow'
      rw [seedDb, Db.get_set_ne _ _ hk] at hold
      cases hold
    exact ⟨hnone _ (by simp), hnone _ (by simp)⟩

end InvestApi.Ref.DemoRace
