import InvestApi.Ledger.Doubles
import InvestApi.Ledger.ReadBack

/-!
# How far the money stays exact

An amount is a double in JavaScript and a bigint in the tables, and nothing
bounds it: the body's schema and the columns take any 64-bit integer. So the
amounts stay exact in exactly the runs whose requests give safe numbers, sums
on the way included, and whose commits leave every balance they move safe. In
those runs the ledger of doubles does what the ledger of integers does.
-/

namespace InvestApi.Ref

open InvestApi.Pg InvestApi.Codec

/-! ## What is to be safe -/

namespace Doubles

/-- What the loop sets in the deltas map, entry by entry. -/
def partialSums : List TransactionEntryDto → List (String × Int) → List Int
  | [], _ => []
  | entry :: rest, deltas =>
      newDelta entry.account_id (SIGN entry.type * entry.amount_cents) deltas
        :: partialSums rest (addDelta entry.account_id
          (SIGN entry.type * entry.amount_cents) deltas)

/-- A cost, where it is an integer. -/
def costNumbers (request : CheckoutRequest) : List Int :=
  if (Checkout.costCents request).den = 1 then [(Checkout.costCents request).num] else []

end Doubles

/-- The integer amounts of a request that are JavaScript numbers. -/
def LedgerCall.numbers : LedgerCall → List Int
  | .createAccount input _ _ _ => [double input.opening_balance_cents]
  | .createTransactions input _ _ _ =>
      let entries := input.entries.map Doubles.readEntry
      entries.map (·.amount_cents) ++ Doubles.partialSums entries []
  | .changeStatus _ _ _ => []
  | .checkout request _ => Doubles.costNumbers request

/-- A cost that is an integer is the product. -/
def LedgerCall.CostKept : LedgerCall → Prop
  | .checkout request _ => (Checkout.costCents request).den = 1 →
      Checkout.costCents request = request.unitPriceCents * request.quantity
  | _ => True

/-- The amounts in the tables: what bigintTransformer and changeStatus read. -/
inductive AmountIn (d : LedgerDb) : Int → Prop
  | balance {a row} (h : d.get (.account a) = some row) : AmountIn d row.balanceCents
  | order {t row} (h : d.get (.transaction t) = some row) : AmountIn d row.amountCents

def SafeDb (d : LedgerDb) : Prop := ∀ n, AmountIn d n → Safe n

variable {ι : Type} {env : Env} {calls : ι → LedgerCall}

/-- Every integer amount that is a JavaScript number in a run is safe. -/
structure MoneySafe (calls : ι → LedgerCall) (p : List (LedgerState ι)) : Prop where
  requests : ∀ i, ∀ n ∈ (calls i).numbers, Safe n
  costs : ∀ i, (calls i).CostKept
  reads : ∀ st ∈ p, ∀ n, AmountIn st.db n → Safe (double n)

/-- No delta, no cost and no balance is rounded, and the run is one of the ledger on
integers. -/
structure NeverRounded (env : Env) (calls : ι → LedgerCall) (d : LedgerDb)
    (p : List (LedgerState ι)) : Prop where
  deltas : ∀ i input user ids now, calls i = .createTransactions input user ids now →
    Doubles.deltasOf input.entries = deltasOf input.entries
  costs : ∀ i request draw, calls i = .checkout request draw →
    (Checkout.sentCost request).den = 1 →
      Checkout.sentCost request = request.unitPriceCents * request.quantity
  reads : ∀ st ∈ p, ∀ n, AmountIn st.db n → double n = n
  runs : ∀ st ∈ p, Relation.ReflTransGen (Atomic env calls fun _ _ => True)
    ⟨d, []⟩ st.toWorld

/-- What a commit adds to the balance of `a`. -/
def moves (d : LedgerDb) (a : Uuid) : LedgerCall → Int
  | .createAccount _ _ _ _ => 0
  | .createTransactions input _ _ _ => entrySum a input.entries
  | .changeStatus orderId status _ =>
      match (pgUuidIn orderId).bind fun u => d.get (.transaction u) with
      | none => 0
      | some t =>
          if t.accountId = a ∧ ¬(t.status = .posted ↔ status = .posted) then crossing t status
          else 0
  | .checkout request _ =>
      if pgUuidIn request.accountId = some a then
        -(request.unitPriceCents * request.quantity).num
      else 0

/-- The call finds room for what it adds. -/
def Room (calls : ι → LedgerCall) (w : LedgerWorld ι) (i : ι) : Prop :=
  ∀ a row, w.db.get (.account a) = some row →
    Safe (row.balanceCents + moves w.db a (calls i))

/-! ## The numbers of a request -/

namespace Doubles

theorem partialSums_safe {es : List TransactionEntryDto} :
    ∀ {deltas : List (String × Int)} {past : List TransactionEntryDto}, Tracks deltas past →
      (∀ id, Safe (runningSum id past)) →
      ((∀ n ∈ partialSums es deltas, Safe n)
        ↔ ∀ k id, Safe (runningSum id (past ++ es.take k))) := by
  induction es with
  | nil =>
      intro deltas past _ hpast
      simpa [partialSums] using hpast
  | cons e es ih =>
      intro deltas past ht hpast
      -- The sums after `e` are the sums before it and the one it sets.
      have hnext : Safe (runningSum e.account_id (past ++ [e])) →
          ∀ id, Safe (runningSum id (past ++ [e])) := by
        intro h id
        by_cases hid : e.account_id = id
        · exact hid ▸ h
        · have hsame := runningSum_concat id past e
          rw [if_neg hid] at hsame
          rw [hsame, Int.add_zero]
          exact hpast id
      rw [partialSums, List.forall_mem_cons, ht.newDelta, safe_double]
      constructor
      · intro h
        obtain ⟨hhead, hrest⟩ := h
        have htail := (ih (ht.addDelta hhead).2 (hnext hhead)).mp hrest
        intro k id
        cases k with
        | zero => simpa using hpast id
        | succ k =>
            rw [List.take_succ_cons, List.append_cons]
            exact htail k id
      · intro h
        have hhead := h 1 e.account_id
        rw [List.take_succ_cons, List.take_zero] at hhead
        refine ⟨hhead, (ih (ht.addDelta hhead).2 (hnext hhead)).mpr fun k id => ?_⟩
        have hk := h (k + 1) id
        rwa [List.take_succ_cons, List.append_cons] at hk

theorem partialSums_read {es : List TransactionEntryDto} (hs : ∀ e ∈ es, Safe e.amount_cents) :
    ∀ deltas, partialSums (es.map readEntry) deltas = partialSums es deltas := by
  induction es with
  | nil => exact fun _ => rfl
  | cons e es ih =>
      intro deltas
      rw [List.map_cons, partialSums, partialSums, readEntry,
        double_of_safe (hs e List.mem_cons_self),
        ih fun e' he' => hs e' (List.mem_cons_of_mem _ he')]

theorem batch_safe {entries : List TransactionEntryDto} :
    (∀ n ∈ (entries.map readEntry).map (·.amount_cents)
        ++ partialSums (entries.map readEntry) [], Safe n)
      ↔ (∀ e ∈ entries, Safe e.amount_cents) ∧ SafeSums entries := by
  rw [List.forall_mem_append]
  have hamounts : (∀ n ∈ (entries.map readEntry).map (·.amount_cents), Safe n)
      ↔ ∀ e ∈ entries, Safe e.amount_cents := by
    rw [List.forall_mem_map, List.forall_mem_map]
    exact forall₂_congr fun e _ => safe_double
  rw [hamounts]
  refine and_congr_right fun hs => ?_
  rw [partialSums_read hs, partialSums_safe tracks_nil fun _ => safe_zero]
  rfl

theorem cost_safe {request : CheckoutRequest} {draw : CheckoutDraw} :
    (∀ n ∈ costNumbers request, Safe n) ∧ (LedgerCall.checkout request draw).CostKept
      ↔ SafeCost (request.unitPriceCents * request.quantity) := by
  obtain ⟨x, hx⟩ : ∃ x, request.unitPriceCents * request.quantity = x := ⟨_, rfl⟩
  have hcost : Checkout.costCents request = roundTo 53 x := by rw [Checkout.costCents, hx]
  simp only [costNumbers, LedgerCall.CostKept, hcost, hx, SafeCost]
  by_cases hden : x.den = 1
  · have hint : ((x.num : Int) : Number) = x := (Rat.den_eq_one_iff x).mp hden
    have hround : roundTo 53 x = (double x.num : Int) := by
      rw [double, cast_roundInt, hint]
    rw [if_pos hden, hround, Rat.den_intCast, Rat.num_intCast, if_pos rfl,
      List.forall_mem_singleton, safe_double]
    refine and_iff_left_of_imp fun hs _ => ?_
    rw [double_of_safe hs, hint]
  · rw [if_neg hden]
    constructor
    · intro h hone
      exact hden (h.2 hone ▸ hone)
    · intro h
      rw [if_neg h]
      exact ⟨by simp, fun hone => absurd hone h⟩

end Doubles

theorem LedgerCall.numbers_safe (c : LedgerCall) :
    (∀ n ∈ c.numbers, Safe n) ∧ c.CostKept ↔ c.SafeInput := by
  cases c with
  | createAccount input user id now =>
      simp [numbers, CostKept, SafeInput, safe_double]
  | createTransactions input user ids now =>
      exact (and_iff_left trivial).trans Doubles.batch_safe
  | changeStatus orderId status user => simp [numbers, CostKept, SafeInput]
  | checkout request draw => exact Doubles.cost_safe

/-! ## The balances after a commit -/

theorem Bumped.balance {d : LedgerDb} {deltas : List (String × Int)}
    {ws : List (Write LedgerRow)} (h : Bumped d deltas ws) {a : Uuid} :
    ∀ {row}, d.get (.account a) = some row →
      ∃ row', (d.writeAll ws).get (.account a) = some row' ∧
        row'.balanceCents = row.balanceCents + deltaSum a deltas := by
  induction h with
  | nil => exact fun hrow => ⟨_, hrow, by simp [deltaSum]⟩
  | @cons d id delta u old rest ws hu hold hrest ih =>
      intro row hrow
      simp only [deltaSum, List.map_cons, List.sum_cons, hu, Option.some.injEq] at ih ⊢
      rw [Db.writeAll_cons]
      by_cases h : u = a
      · subst h
        obtain rfl := Option.some.inj (hold.symm.trans hrow)
        obtain ⟨row', hget, hbal⟩ := ih (Db.get_set_self _ _ _)
        refine ⟨row', hget, ?_⟩
        rw [hbal, if_pos rfl]
        dsimp only
        omega
      · have hne : LedgerKey.account a ≠ .account u := by
          intro he
          exact h (LedgerKey.account.inj he).symm
        obtain ⟨row', hget, hbal⟩ := ih ((Db.get_set_ne _ _ hne).trans hrow)
        refine ⟨row', hget, ?_⟩
        rw [hbal, if_neg h]
        omega

section Wrote

variable {d : LedgerDb} {c : LedgerCall} {r : LedgerReply} {ws : List (Write LedgerRow)}

/-- An account that is there keeps its row, and its balance moves by `moves`. -/
theorem Wrote.balance (h : Wrote env d c r ws) (hsafe : c.SafeInput) {a : Uuid}
    {row : AccountRow} (hrow : d.get (.account a) = some row) :
    ∃ row', (d.writeAll ws).get (.account a) = some row' ∧
      row'.balanceCents = row.balanceCents + moves d a c := by
  cases h with
  | @created input user id now account hacc hnew =>
      have hne : LedgerKey.account a ≠ .account id := by
        intro he
        rw [← he, hrow] at hnew
        simp at hnew
      refine ⟨row, ?_, by simp [moves]⟩
      rw [Db.writeAll_cons, Db.writeAll_nil, Db.get_set_ne _ _ hne, hrow]
  | booked hrows hnew hn hacc hws =>
      rw [Db.writeAll_append, moves, ← deltaSum_deltasOf]
      exact hws.balance (by rw [get_account_rowWrites, hrow])
  | kept hu ht hs =>
      refine ⟨row, by simp [hrow], ?_⟩
      simp [moves, hu, ht, hs]
  | relabelled hu ht hs hside =>
      refine ⟨row, by simp [hrow], ?_⟩
      simp [moves, hu, ht, hside]
  | @crossed orderId status user u t old hu ht hside hold =>
      by_cases ha : t.accountId = a
      · subst ha
        obtain rfl := Option.some.inj (hold.symm.trans hrow)
        refine ⟨_, by simp; rfl, ?_⟩
        simp [moves, hu, ht, hside]
      · have hne : LedgerKey.account a ≠ .account t.accountId := by
          intro he
          exact ha (LedgerKey.account.inj he).symm
        refine ⟨row, by simp [hne, hrow], ?_⟩
        simp [moves, hu, ht, ha]
  | @bought request draw u old cost order h =>
      have hu := uuidParam_eq_ret.mp h.account
      simp only [moves, hu, (h.toDebits.cost_num hsafe).1, Option.some.injEq]
      by_cases ha : u = a
      · subst ha
        obtain rfl := Option.some.inj (h.row_eq.symm.trans hrow)
        refine ⟨debited old cost, by simp [boughtWrites], ?_⟩
        rw [if_pos rfl]
        exact Int.sub_eq_add_neg
      · have hne : LedgerKey.account a ≠ .account u := by
          intro he
          exact ha (LedgerKey.account.inj he).symm
        refine ⟨row, by simp [boughtWrites, hne, hrow], ?_⟩
        rw [if_neg ha, Int.add_zero]

/-- An account that was not there has been opened with the amount asked for. -/
theorem Wrote.opened (h : Wrote env d c r ws) {a : Uuid} {x : Int}
    (hopens : c.opens = some (a, x)) {row : AccountRow}
    (hrow : (d.writeAll ws).get (.account a) = some row) : row.balanceCents = x := by
  cases h with
  | created hacc hnew =>
      simp only [LedgerCall.opens, Option.some.injEq, Prod.mk.injEq] at hopens
      obtain ⟨rfl, rfl⟩ := hopens
      rw [Db.writeAll_cons, Db.writeAll_nil, Db.get_set_self] at hrow
      rw [← Option.some.inj hrow, ← hacc]
      rfl
  | _ => simp [LedgerCall.opens] at hopens

theorem LedgerCall.SafeInput.opens (hs : c.SafeInput) {a : Uuid} {x : Int}
    (hopens : c.opens = some (a, x)) : Safe x := by
  cases c with
  | createAccount input user id now =>
      simp only [LedgerCall.opens, Option.some.injEq, Prod.mk.injEq] at hopens
      exact hopens.2 ▸ hs
  | _ => simp [LedgerCall.opens] at hopens

theorem SafeDb.safeAmounts (h : SafeDb d) : SafeAmounts d :=
  fun _ _ hrow => h _ (.order hrow)

end Wrote

section Commit

variable {w : LedgerWorld ι} {i : ι} {r : LedgerReply} {ws : List (Write LedgerRow)}

/-- With room, a commit keeps the tables safe. -/
theorem Wrote.safeDb (h : Wrote env w.db (calls i) r ws) (hs : (calls i).SafeInput)
    (hd : SafeDb w.db) (hroom : Room calls w i) : SafeDb (w.db.writeAll ws) := by
  intro n hn
  cases hn with
  | order hrow => exact h.safeAmounts hs hd.safeAmounts _ _ hrow
  | @balance a row' hrow' =>
      rcases h.hasAccount ⟨row', hrow'⟩ with ⟨row, hrow⟩ | ⟨x, hopens⟩
      · obtain ⟨row'', hget, hbal⟩ := h.balance hs hrow
        obtain rfl := Option.some.inj (hrow'.symm.trans hget)
        rw [hbal]
        exact hroom a row hrow
      · rw [h.opened hopens hrow']
        exact hs.opens hopens

/-- And a commit that leaves them safe had room. -/
theorem Wrote.room (h : Wrote env w.db (calls i) r ws) (hs : (calls i).SafeInput)
    (hd : SafeDb (w.db.writeAll ws)) : Room calls w i := by
  intro a row hrow
  obtain ⟨row', hget, hbal⟩ := h.balance hs hrow
  rw [← hbal]
  exact hd _ (.balance hget)

end Commit

/-! ## Every run -/

section Run

variable [DecidableEq ι] {d : LedgerDb}

/-- What a session about to commit has written, in a reachable state. -/
theorem wrote_of_double_reach (hs : ∀ i, (calls i).SafeInput) (hlink : Linked d)
    (hd : SafeDb d) {st : LedgerState ι}
    (hr : Reach (doubleSystem env calls) (State.init d) st) {i : ι} {r : LedgerReply}
    {σ : LedgerSession} (hi : st.live i = some (.ret r, σ)) :
    Wrote env st.db (calls i) r σ.writes := by
  have hD := (@doubleDiscipline ι env calls hs fun _ _ => True).discipline
  have hsound := hD.sound ⟨hlink, hd.safeAmounts⟩ hr
  exact hsound.live i _ hi _ (hD.refl _ _ hsound.inv)

theorem safeDb_iff_room (hs : ∀ i, (calls i).SafeInput) (hlink : Linked d) (hd : SafeDb d)
    {p : List (LedgerState ι)}
    (hp : List.IsChain (Step (doubleSystem env calls) fun _ _ => True) (State.init d :: p)) :
    (∀ st ∈ p, SafeDb st.db) ↔
      List.IsChain (Step (doubleSystem env calls) fun st i => Room calls st.toWorld i)
        (State.init d :: p) := by
  refine isChain_iff_forall (P := fun st => SafeDb st.db) ?_ .refl hd hp
  intro st st' hr hst hstep
  constructor
  · intro hn
    refine hstep.imp fun i a σ hi _ hdb => ?_
    have hw := wrote_of_double_reach hs hlink hd hr hi
    rw [hdb] at hn
    exact Wrote.room (w := st.toWorld) hw (hs i) hn
  · intro hroom
    rcases hroom.db_cases with hdb | ⟨i, a, σ, hi, hc, hdb⟩
    · rwa [hdb]
    · have hw := wrote_of_double_reach hs hlink hd hr hi
      rw [hdb]
      exact Wrote.safeDb (w := st.toWorld) hw (hs i) hst hc

/-- As long as the tables are safe, the run is one of the ledger on integers. -/
theorem double_refines (hs : ∀ i, (calls i).SafeInput) (hlink : Linked d) (hd : SafeDb d)
    {p : List (LedgerState ι)}
    (hp : List.IsChain (Step (doubleSystem env calls) fun _ _ => True) (State.init d :: p))
    (hsafe : ∀ st ∈ p, SafeDb st.db) :
    ∀ st ∈ p, Relation.ReflTransGen (Atomic env calls fun _ _ => True)
      ⟨d, []⟩ st.toWorld := by
  intro st hst
  have hchain : List.IsChain (Step (doubleSystem env calls) fun st _ => SafeDb st.db)
      (State.init d :: p) := by
    refine isChain_of_forall (P := fun st => SafeDb st.db) ?_ hd hsafe hp
    exact fun a b ha hstep => hstep.imp fun _ _ _ _ _ _ => ha
  have hends := (@doubleDiscipline ι env calls hs fun st _ => SafeDb st.db).discipline.ends
    (fun w _ => SafeDb w.db) (fun _ _ h => h) ⟨hlink, hd.safeAmounts⟩
    (reach_of_isChain hchain st hst)
  refine Relation.ReflTransGen.mono (fun w w' h => ?_) _ _ hends
  cases h with
  | commit hw _ hq => exact .commit hw.1 trivial hq
  | rollback hw he => exact .rollback hw.1
  | abort hw => exact .abort hw.1

/-- Money stays exact in the runs whose requests give safe numbers and whose
commits find room, and in no other; and there nothing is rounded. -/
theorem moneySafe_iff_room (hlink : Linked d) (hd : SafeDb d) {p : List (LedgerState ι)}
    (hp : List.IsChain (Step (doubleSystem env calls) fun _ _ => True) (State.init d :: p)) :
    (MoneySafe calls p ↔
      (∀ i, (calls i).SafeInput) ∧
        List.IsChain (Step (doubleSystem env calls) fun st i => Room calls st.toWorld i)
          (State.init d :: p)) ∧
    (MoneySafe calls p → NeverRounded env calls d p) := by
  have hinput : MoneySafe calls p → ∀ i, (calls i).SafeInput := fun h i =>
    (calls i).numbers_safe.mp ⟨h.requests i, h.costs i⟩
  have hreads : MoneySafe calls p → ∀ st ∈ p, SafeDb st.db := fun h st hst n hn =>
    safe_double.mp (h.reads st hst n hn)
  refine ⟨⟨fun h => ?_, fun h => ?_⟩, fun h => ?_⟩
  · have hs := hinput h
    exact ⟨hs, (safeDb_iff_room hs hlink hd hp).mp (hreads h)⟩
  · obtain ⟨hs, hroom⟩ := h
    have hsafe := (safeDb_iff_room hs hlink hd hp).mpr hroom
    exact {
      requests := fun i => ((calls i).numbers_safe.mpr (hs i)).1
      costs := fun i => ((calls i).numbers_safe.mpr (hs i)).2
      reads := fun st hst n hn => safe_double.mpr (hsafe st hst n hn) }
  · have hs := hinput h
    refine ⟨fun i input user ids now hi => ?_, fun i request draw hi hden => ?_,
      fun st hst n hn => ?_, ?_⟩
    · have hsi := hs i
      rw [hi] at hsi
      exact (Doubles.deltasOf_eq hsi.1 hsi.2).1
    · have hsi := hs i
      rw [hi] at hsi
      exact Doubles.sentCost_of_safe hsi (Doubles.whole_of_sent hsi hden)
    · exact double_of_safe (hreads h st hst n hn)
    · exact double_refines hs hlink hd hp (hreads h)

end Run

/-! The run of `Books` keeps its money exact. One accepted income need not: the
amount is rounded when it is read, or the balance it leads to is. -/

def amountsIn (d : LedgerDb) : List Int :=
  d.keys.filterMap fun
    | .account a => (d.get (.account a)).map (·.balanceCents)
    | .transaction t => (d.get (.transaction t)).map (·.amountCents)
    | .job _ => none

theorem amountIn_iff {d : LedgerDb} {n : Int} : AmountIn d n ↔ n ∈ amountsIn d := by
  have hkey : ∀ {k : LedgerKey} {row}, d.get k = some row → k ∈ d.keys := by
    intro k row hrow
    rw [d.mem_keys, hrow]
    rfl
  constructor
  · intro h
    cases h with
    | @balance a row hrow =>
        exact List.mem_filterMap.mpr ⟨.account a, hkey hrow, by simp [hrow]⟩
    | @order t row hrow =>
        exact List.mem_filterMap.mpr ⟨.transaction t, hkey hrow, by simp [hrow]⟩
  · intro h
    obtain ⟨k, _, hn⟩ := List.mem_filterMap.mp h
    cases k with
    | account a =>
        obtain ⟨row, hrow, rfl⟩ := Option.map_eq_some_iff.mp hn
        exact .balance hrow
    | transaction t =>
        obtain ⟨row, hrow, rfl⟩ := Option.map_eq_some_iff.mp hn
        exact .order hrow
    | job j => simp at hn

theorem moneySafe_sample : MoneySafe sampleCalls
    (path (doubleSystem sampleEnv sampleCalls) sampleSchedule (State.init Db.empty)) where
  requests := by decide +kernel
  costs
    | 0 => trivial
    | 1 => trivial
    | 2 => trivial
    | 3 => by
        intro _
        decide +kernel
  reads := by
    have hall : ∀ st ∈ path (doubleSystem sampleEnv sampleCalls) sampleSchedule
        (State.init Db.empty), ∀ n ∈ amountsIn st.db, Safe (double n) := by
      decide +kernel
    exact fun st hst n hn => hall st hst n (amountIn_iff.mp hn)

theorem moneySafe_iff_room_sample :
    ((∀ i, (sampleCalls i).SafeInput) ∧
      List.IsChain (Step (doubleSystem sampleEnv sampleCalls)
        fun st i => Room sampleCalls st.toWorld i)
        (State.init Db.empty :: path (doubleSystem sampleEnv sampleCalls) sampleSchedule
          (State.init Db.empty))) ∧
    NeverRounded sampleEnv sampleCalls Db.empty
      (path (doubleSystem sampleEnv sampleCalls) sampleSchedule (State.init Db.empty)) := by
  have hlink : Linked Db.empty := by simp [Linked]
  have hsafe : SafeDb Db.empty := fun n hn => by
    have hmem := amountIn_iff.mp hn
    simp [amountsIn, Db.empty] at hmem
  have hiff := moneySafe_iff_room hlink hsafe
    (path_isChain (doubleSystem sampleEnv sampleCalls) sampleSchedule (State.init Db.empty))
  exact ⟨hiff.1.mp moneySafe_sample, hiff.2 moneySafe_sample⟩

def incomeBatch (amount : Int) : CreateTransactionsDto :=
  ⟨[⟨v4Account.text, .income, amount, "UAH", "2026-08-25T12:00:00.000Z", none, none, none⟩]⟩

def incomeCalls (amount : Int) (_ : Unit) : LedgerCall :=
  .createTransactions (incomeBatch amount) sampleUser (fun _ => 30) 0

def incomeSchedule : List (Turn Unit) :=
  [.start ()] ++ List.replicate 7 (.run ()) ++ [.finish ()]

/-- The run in which the income is booked. -/
def incomePath (amount : Int) : List (LedgerState Unit) :=
  path (doubleSystem parityEnv (incomeCalls amount)) incomeSchedule (State.init (v4Db "UAH"))

/-- 9007199254740993 cents are booked as 9007199254740992; 9007199254740991 are booked,
and the 9007199254741291 cents of the balance are read as 9007199254741292. -/
theorem accepted_income_rounded :
    ((incomeBatch 9007199254740993).accepted sampleValidators = true ∧
      ¬MoneySafe (incomeCalls 9007199254740993) (incomePath 9007199254740993) ∧
      ∃ st ∈ incomePath 9007199254740993, AmountIn st.db 9007199254740992) ∧
    ((incomeBatch 9007199254740991).accepted sampleValidators = true ∧
      ¬MoneySafe (incomeCalls 9007199254740991) (incomePath 9007199254740991) ∧
      ∃ st ∈ incomePath 9007199254740991, AmountIn st.db 9007199254741291 ∧
        double 9007199254741291 = 9007199254741292) := by
  have hbooked : ∃ st ∈ incomePath 9007199254740993,
      9007199254740992 ∈ amountsIn st.db := by
    decide +kernel
  have hbalance : ∃ st ∈ incomePath 9007199254740991,
      9007199254741291 ∈ amountsIn st.db := by
    decide +kernel
  have hread : double 9007199254741291 = 9007199254741292 := by decide +kernel
  obtain ⟨st, hst, hn⟩ := hbooked
  obtain ⟨st', hst', hn'⟩ := hbalance
  rw [← amountIn_iff] at hn hn'
  refine ⟨⟨by decide +kernel, fun h => ?_, st, hst, hn⟩,
    ⟨by decide +kernel, fun h => ?_, st', hst', hn', hread⟩⟩
  · have hsafe := h.requests () 9007199254740992 (by decide +kernel)
    exact absurd hsafe (by decide)
  · have hsafe := h.reads st' hst' _ hn'
    rw [hread] at hsafe
    exact absurd hsafe (by decide)

end InvestApi.Ref
