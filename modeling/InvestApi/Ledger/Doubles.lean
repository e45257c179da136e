import InvestApi.Ledger.Atomic
import InvestApi.Ref.Doubles

/-!
# On doubles the ledger is the ledger

As long as every amount of a request, and every sum the deltas map holds on the
way, is at most MAX_SAFE_INTEGER, no rounding of a call does anything: the call
is the same program as the one on integers. A status change has no amount of
its own; it reads one from the order's row, which some request has put there.
So what it relies on is that the rows are safe, and that is an invariant of the
runs.
-/

namespace InvestApi.Ref

open InvestApi.Pg InvestApi.Codec

/-- `Number.isSafeInteger`. -/
def Safe (n : Int) : Prop := |n| ≤ MAX_SAFE_INTEGER

instance : DecidablePred Safe := fun n => inferInstanceAs (Decidable (|n| ≤ _))

theorem safe_iff {n : Int} :
    Safe n ↔ -9007199254740991 ≤ n ∧ n ≤ 9007199254740991 := abs_le

theorem safe_iff_lt {n : Int} : Safe n ↔ |n| < 2 ^ 53 := by
  show |n| ≤ 9007199254740991 ↔ |n| < 9007199254740992
  omega

theorem safe_zero : Safe 0 := by decide

theorem Safe.neg {n : Int} (h : Safe n) : Safe (-n) := by
  rw [safe_iff] at h ⊢
  omega

theorem Safe.signed {n : Int} (h : Safe n) (t : TransactionType) : Safe (SIGN t * n) := by
  rw [safe_iff] at h ⊢
  cases t <;> simp only [SIGN] <;> omega

@[simp] theorem double_of_safe {n : Int} (h : Safe n) : double n = n :=
  roundInt_of_lt (safe_iff_lt.mp h)

@[simp] theorem bigintText_of_safe {n : Int} (h : Safe n) : bigintText n = n :=
  shortest_of_lt (by decide) (safe_iff_lt.mp h)

/-- A number that is safe was not rounded. -/
theorem safe_double {n : Int} : Safe (double n) ↔ Safe n := by
  constructor
  · intro h
    have hself : double n = n := roundInt_eq_self (by decide) (safe_iff_lt.mp h)
    rwa [hself] at h
  · intro h
    rwa [double_of_safe h]

/-! ## The deltas map -/

/-- What the entries add to the account they name `id`. -/
def runningSum (id : String) (entries : List TransactionEntryDto) : Int :=
  ((entries.filter (·.account_id = id)).map fun e => SIGN e.type * e.amount_cents).sum

theorem runningSum_concat (id : String) (entries : List TransactionEntryDto)
    (e : TransactionEntryDto) : runningSum id (entries ++ [e])
      = runningSum id entries
        + if e.account_id = id then SIGN e.type * e.amount_cents else 0 := by
  by_cases h : e.account_id = id
  · simp [runningSum, h]
  · simp [runningSum, h]

/-- Every sum on the way through the batch is safe. -/
def SafeSums (entries : List TransactionEntryDto) : Prop :=
  ∀ k id, Safe (runningSum id (entries.take k))

namespace Doubles

theorem lookup_pair_cons (id k : String) (v : Int) (deltas : List (String × Int)) :
    List.lookup id ((k, v) :: deltas) = if id = k then some v else deltas.lookup id := by
  by_cases h : id = k
  · rw [h, List.lookup_cons_self, if_pos rfl]
  · have hne : (id == k) = false := by simpa using h
    rw [List.lookup_cons, hne, if_neg h]

theorem lookup_setDelta (id id' : String) (delta : Int) (deltas : List (String × Int)) :
    (setDelta id delta deltas).lookup id'
      = if id' = id then some delta else deltas.lookup id' := by
  induction deltas with
  | nil => rw [setDelta, lookup_pair_cons]
  | cons p deltas ih =>
      obtain ⟨k, v⟩ := p
      rw [setDelta]
      split
      · next hk =>
          rw [lookup_pair_cons, lookup_pair_cons, hk]
          split
          · rfl
          · rfl
      · next hk =>
          rw [lookup_pair_cons, lookup_pair_cons, ih]
          by_cases h : id' = k
          · rw [if_pos h, if_pos h, if_neg (h ▸ hk)]
          · rw [if_neg h, if_neg h]

theorem mem_setDelta {id : String} {delta : Int} {deltas : List (String × Int)}
    {p : String × Int} (h : p ∈ setDelta id delta deltas) : p.2 = delta ∨ p ∈ deltas := by
  induction deltas with
  | nil =>
      rw [setDelta, List.mem_singleton] at h
      exact Or.inl (by rw [h])
  | cons q deltas ih =>
      rw [setDelta] at h
      split at h
      · rcases List.mem_cons.mp h with h | h
        · exact Or.inl (by rw [h])
        · exact Or.inr (List.mem_cons_of_mem _ h)
      · rcases List.mem_cons.mp h with h | h
        · exact Or.inr (h ▸ List.mem_cons_self)
        · exact (ih h).imp_right (List.mem_cons_of_mem _)

theorem setDelta_add (id : String) (x : Int) (deltas : List (String × Int)) :
    setDelta id ((deltas.lookup id).getD 0 + x) deltas
      = TransactionsService.addDelta id x deltas := by
  induction deltas with
  | nil => simp [setDelta, TransactionsService.addDelta, List.lookup_nil]
  | cons p deltas ih =>
      obtain ⟨k, v⟩ := p
      rw [setDelta, TransactionsService.addDelta, lookup_pair_cons]
      by_cases hk : k = id
      · rw [if_pos hk, if_pos hk, if_pos hk.symm, Option.getD_some, hk]
      · rw [if_neg hk, if_neg hk, if_neg (Ne.symm hk), ← ih]

/-- The map holds the sums of `past`, and each is safe. -/
structure Tracks (deltas : List (String × Int)) (past : List TransactionEntryDto) :
    Prop where
  sums : ∀ id, (deltas.lookup id).getD 0 = runningSum id past
  safe : ∀ p ∈ deltas, Safe p.2

theorem tracks_nil : Tracks [] [] where
  sums _ := rfl
  safe p hp := by simp at hp

section Step

variable {deltas : List (String × Int)} {past : List TransactionEntryDto}
  {e : TransactionEntryDto}

theorem Tracks.newDelta (h : Tracks deltas past) :
    newDelta e.account_id (SIGN e.type * e.amount_cents) deltas
      = double (runningSum e.account_id (past ++ [e])) := by
  rw [Doubles.newDelta, h.sums, runningSum_concat, if_pos rfl]

/-- One more entry, and the map tracks it without a rounding. -/
theorem Tracks.addDelta (h : Tracks deltas past)
    (hs : Safe (runningSum e.account_id (past ++ [e]))) :
    addDelta e.account_id (SIGN e.type * e.amount_cents) deltas
        = TransactionsService.addDelta e.account_id (SIGN e.type * e.amount_cents) deltas ∧
      Tracks (addDelta e.account_id (SIGN e.type * e.amount_cents) deltas) (past ++ [e]) := by
  have hnew : Doubles.newDelta e.account_id (SIGN e.type * e.amount_cents) deltas
      = runningSum e.account_id (past ++ [e]) := by
    rw [h.newDelta, double_of_safe hs]
  refine ⟨?_, fun id => ?_, fun p hp => ?_⟩
  · rw [Doubles.addDelta, hnew, ← setDelta_add, h.sums, runningSum_concat, if_pos rfl]
  · rw [Doubles.addDelta, hnew, lookup_setDelta]
    split
    · next hid => rw [hid, Option.getD_some]
    · next hid =>
        rw [h.sums, runningSum_concat, if_neg (Ne.symm hid)]
        omega
  · rw [Doubles.addDelta, hnew] at hp
    rcases mem_setDelta hp with hp | hp
    · rwa [hp]
    · exact h.safe p hp

end Step

/-! ## A batch -/

theorem checkEntry_readAccount (accounts : List OwnedAccount) (user : AuthUser)
    (entry : TransactionEntryDto) :
    TransactionsService.checkEntry (accounts.map readAccount) user entry
      = TransactionsService.checkEntry accounts user entry := by
  have hfind : (accounts.map readAccount).find? (fun a => a.id.text = entry.account_id)
      = (accounts.find? fun a => a.id.text = entry.account_id).map readAccount := by
    rw [List.find?_map]
    refine congrArg _ (congrArg (List.find? · accounts) (funext fun a => ?_))
    have hid : (readAccount a).id = a.id := rfl
    rw [Function.comp_apply, decide_eq_decide, hid]
  simp only [TransactionsService.checkEntry, hfind]
  generalize (accounts.find? fun a => a.id.text = entry.account_id) = found
  cases found with
  | none => rfl
  | some account => rfl

theorem collect_readAccount (accounts : List OwnedAccount) (user : AuthUser)
    (now : Instant) (es : List (TransactionEntryDto × Uuid)) :
    ∀ batch deltas, collect (accounts.map readAccount) user now es batch deltas
      = collect accounts user now es batch deltas := by
  induction es with
  | nil => exact fun _ _ => rfl
  | cons e es ih =>
      intro batch deltas
      rw [collect, collect, checkEntry_readAccount]
      simp only [ih]

/-- The entry as its INSERT sends it. -/
def sentEntry (entry : TransactionEntryDto) : TransactionEntryDto :=
  { entry with
    amount_cents := bigintText (double entry.amount_cents)
    quantity_micro := entry.quantity_micro.map fun q => bigintText (double q) }

def readInput (input : CreateTransactionsDto) : CreateTransactionsDto :=
  ⟨input.entries.map readEntry⟩

def sentInput (input : CreateTransactionsDto) : CreateTransactionsDto :=
  ⟨input.entries.map sentEntry⟩

/-- The deltas map the loop leaves. -/
def deltasOf (entries : List TransactionEntryDto) : List (String × Int) :=
  (entries.map readEntry).foldl (fun deltas entry =>
    addDelta entry.account_id (SIGN entry.type * entry.amount_cents) deltas) []

/-- The deltas as the updates send them. -/
def sentDeltas (entries : List TransactionEntryDto) : List (String × Int) :=
  (deltasOf entries).map fun p => (p.1, bigintText p.2)

/-- The checks look at no number, so the loop stops where the one on integers does,
whatever the numbers are. -/
theorem collect_read {accounts : List OwnedAccount} {user : AuthUser} {now : Instant}
    {es : List (TransactionEntryDto × Uuid)} :
    ∀ {batch batch' : List Transaction} {deltas deltas' : List (String × Int)},
      collect accounts user now (es.map fun e => (readEntry e.1, e.2)) batch deltas
        = (TransactionsService.collect accounts user now
            (es.map fun e => (sentEntry e.1, e.2)) batch' deltas').map fun _ =>
          (batch ++ es.map fun e => TransactionsService.toBatch (readEntry e.1) e.2 now,
            (es.map fun e => readEntry e.1).foldl (fun deltas entry =>
              addDelta entry.account_id (SIGN entry.type * entry.amount_cents) deltas)
              deltas) := by
  induction es with
  | nil =>
      intro batch batch' deltas deltas'
      simp [collect, TransactionsService.collect, Except.map]
  | cons e es ih =>
      intro batch batch' deltas deltas'
      obtain ⟨entry, id⟩ := e
      have hcheck : TransactionsService.checkEntry accounts user (sentEntry entry)
          = TransactionsService.checkEntry accounts user (readEntry entry) := rfl
      simp only [List.map_cons, collect, TransactionsService.collect, hcheck]
      cases TransactionsService.checkEntry accounts user (readEntry entry) with
      | error e => rfl
      | ok _ =>
          dsimp only
          rw [ih, List.foldl_cons, List.append_assoc]
          rfl

theorem drawn_map {input : CreateTransactionsDto} {ids : Nat → Uuid}
    (f : TransactionEntryDto → TransactionEntryDto) :
    drawn ⟨input.entries.map f⟩ ids = (drawn input ids).map fun e => (f e.1, e.2) := by
  simp only [drawn, List.zipIdx_map, List.map_map]
  rfl

theorem map_sentTransaction {input : CreateTransactionsDto} {ids : Nat → Uuid}
    {now : Instant} : (drawnBatch (readInput input) ids now).map sentTransaction
      = drawnBatch (sentInput input) ids now := by
  rw [drawnBatch, drawnBatch, readInput, sentInput, drawn_map, drawn_map, List.map_map,
    List.map_map, List.map_map]
  refine List.map_congr_left fun e _ => ?_
  simp [sentTransaction, TransactionsService.toBatch, readEntry, sentEntry,
    Function.comp_def]

/-- The call as one on integers: it checks and stores what is sent, books the deltas as
they are sent, and answers with what was read. -/
theorem createTransactions_eq {env : Env} {input : CreateTransactionsDto}
    {user : AuthUser} {ids : Nat → Uuid} {now : Instant} :
    createTransactions env input user ids now
      = (AccountsRepository.findByIds (input.entries.map (·.account_id)).eraseDups).bind
        fun accounts => (orThrow (TransactionsService.collect accounts user now
          (drawn (sentInput input) ids) [] [])).bind fun r =>
            (book env now (r.1, sentDeltas input.entries)).bind fun _ =>
              .ret (drawnBatch (readInput input) ids now) := by
  have hnames : (input.entries.map readEntry).map (·.account_id)
      = input.entries.map (·.account_id) := by
    rw [List.map_map]
    rfl
  rw [createTransactions, Prog.bind_eq, hnames]
  refine congrArg (Prog.bind _) (funext fun accounts => ?_)
  have hread : ((input.entries.map readEntry).zipIdx.map fun p => (p.1, ids p.2))
      = (drawn input ids).map fun e => (readEntry e.1, e.2) := drawn_map readEntry
  have hentries : ((drawn input ids).map fun e => readEntry e.1)
      = input.entries.map readEntry := by
    rw [← map_fst_drawn input ids, List.map_map]
    rfl
  show (orThrow (collect (accounts.map readAccount) user now
    ((input.entries.map readEntry).zipIdx.map fun p => (p.1, ids p.2)) [] [])).bind _ = _
  rw [collect_readAccount, hread, @collect_read accounts user now _ [] [] [] [],
    ← drawn_map sentEntry, ← sentInput]
  cases hr : TransactionsService.collect accounts user now (drawn (sentInput input) ids) [] [] with
  | error e => rfl
  | ok r =>
      have hstored : r.1 = drawnBatch (sentInput input) ids now := by
        rw [TransactionsService.collect_ok hr, List.nil_append, drawnBatch]
      have hanswer : ((drawn input ids).map fun e =>
          TransactionsService.toBatch (readEntry e.1) e.2 now)
            = drawnBatch (readInput input) ids now := by
        rw [drawnBatch, readInput, drawn_map, List.map_map]
        rfl
      simp only [Except.map, orThrow, Prog.bind_eq, Prog.bind, List.nil_append, book, hanswer,
        hentries, hstored, ← map_sentTransaction, sentDeltas, Prog.bind_assoc,
        List.forM_eq_forM, List.forM_map, Prog.pure_eq]
      rfl

/-- With every amount and every sum on the way safe, the deltas are those of the
integers. -/
theorem deltasOf_eq {entries : List TransactionEntryDto}
    (hs : ∀ e ∈ entries, Safe e.amount_cents) (hsums : SafeSums entries) :
    Doubles.deltasOf entries = Ref.deltasOf entries ∧ ∀ p ∈ deltasOf entries, Safe p.2 := by
  have key : ∀ (es : List TransactionEntryDto) (deltas past), Tracks deltas past →
      (∀ e ∈ es, Safe e.amount_cents) → (∀ k id, Safe (runningSum id (past ++ es.take k))) →
      (es.map readEntry).foldl (fun deltas entry => addDelta entry.account_id
          (SIGN entry.type * entry.amount_cents) deltas) deltas
        = es.foldl (fun deltas entry => TransactionsService.addDelta entry.account_id
          (SIGN entry.type * entry.amount_cents) deltas) deltas ∧
      ∀ p ∈ (es.map readEntry).foldl (fun deltas entry => addDelta entry.account_id
          (SIGN entry.type * entry.amount_cents) deltas) deltas, Safe p.2 := by
    intro es
    induction es with
    | nil => exact fun _ _ ht _ _ => ⟨rfl, ht.safe⟩
    | cons e es ih =>
        intro deltas past ht hs h
        obtain ⟨hadd, ht'⟩ := ht.addDelta (e := e) (by simpa using h 1 e.account_id)
        rw [List.map_cons, List.foldl_cons, List.foldl_cons, ← hadd, readEntry,
          double_of_safe (hs e List.mem_cons_self)]
        refine ih _ _ ht' (fun e' he' => hs e' (List.mem_cons_of_mem _ he')) fun k id => ?_
        have hk := h (k + 1) id
        rwa [List.take_succ_cons, List.append_cons] at hk
  exact key entries [] [] tracks_nil hs hsums

theorem sentEntry_amount {e : TransactionEntryDto} (hs : Safe e.amount_cents) :
    (sentEntry e).amount_cents = e.amount_cents := by
  rw [sentEntry, double_of_safe hs, bigintText_of_safe hs]

theorem deltasOf_sentInput {input : CreateTransactionsDto}
    (hs : ∀ e ∈ input.entries, Safe e.amount_cents) :
    Ref.deltasOf (sentInput input).entries = Ref.deltasOf input.entries := by
  rw [Ref.deltasOf, Ref.deltasOf, sentInput, List.foldl_map]
  refine List.foldl_ext _ _ _ fun deltas e he => ?_
  rw [sentEntry_amount (hs e he)]
  rfl

/-- And the call is the one on integers, but for what it answers with. -/
theorem createTransactions_of_safe {env : Env} {input : CreateTransactionsDto}
    {user : AuthUser} {ids : Nat → Uuid} {now : Instant}
    (hs : ∀ e ∈ input.entries, Safe e.amount_cents) (hsums : SafeSums input.entries) :
    createTransactions env input user ids now
      = (TransactionsService.create env (sentInput input) user ids now).bind fun _ =>
        .ret (drawnBatch (readInput input) ids now) := by
  obtain ⟨hdeltas, hsafe⟩ := deltasOf_eq hs hsums
  have hsent : sentDeltas input.entries = Ref.deltasOf input.entries := by
    rw [sentDeltas, ← hdeltas]
    refine (List.map_congr_left fun p hp => ?_).trans (List.map_id _)
    rw [bigintText_of_safe (hsafe p hp)]
    rfl
  have hnames : (sentInput input).entries.map (·.account_id)
      = input.entries.map (·.account_id) := by
    rw [sentInput, List.map_map]
    rfl
  rw [createTransactions_eq, create_eq, hnames, Prog.bind_assoc]
  refine congrArg (Prog.bind _) (funext fun accounts => ?_)
  cases hr : TransactionsService.collect accounts user now (drawn (sentInput input) ids) [] [] with
  | error e => rfl
  | ok r =>
      have hstored : r.2 = sentDeltas input.entries := by
        rw [TransactionsService.collect_ok hr, map_fst_drawn, hsent, ← deltasOf_sentInput hs]
        rfl
      rw [orThrow, ← hstored]
      rfl

/-! ## An account -/

theorem createAccount_eq {env : Env} {input : CreateAccountDto} {user : AuthUser}
    {id : Uuid} {now : Instant} (hs : Safe input.opening_balance_cents) :
    createAccount env input user id now
      = AccountsService.create env input user id now := by
  simp only [createAccount, AccountsService.create, double_of_safe hs, bigintText_of_safe hs]

/-! ## A checkout -/

/-- A cost in whole cents is safe, and no other cost becomes one. -/
def SafeCost (x : Number) : Prop :=
  if x.den = 1 then Safe x.num else (roundTo 53 x).den ≠ 1

theorem costCents_of_safe {request : CheckoutRequest}
    (hs : SafeCost (request.unitPriceCents * request.quantity))
    (hden : (request.unitPriceCents * request.quantity).den = 1) :
    Checkout.costCents request = request.unitPriceCents * request.quantity := by
  rw [SafeCost, if_pos hden] at hs
  rw [Checkout.costCents, ← (Rat.den_eq_one_iff _).mp hden]
  exact roundTo_intCast (safe_iff_lt.mp hs)

/-- A safe cost is sent as it is. -/
theorem sentCost_of_safe {request : CheckoutRequest}
    (hs : SafeCost (request.unitPriceCents * request.quantity))
    (hden : (request.unitPriceCents * request.quantity).den = 1) :
    Checkout.sentCost request = request.unitPriceCents * request.quantity := by
  rw [Checkout.sentCost, costCents_of_safe hs hden, if_pos hden]
  rw [SafeCost, if_pos hden] at hs
  rw [bigintText_of_safe hs]
  exact (Rat.den_eq_one_iff _).mp hden

/-- A cost that reads as a bigint was whole before it was rounded. -/
theorem whole_of_sent {request : CheckoutRequest}
    (hs : SafeCost (request.unitPriceCents * request.quantity))
    (hden : (Checkout.sentCost request).den = 1) :
    (request.unitPriceCents * request.quantity).den = 1 := by
  by_contra hfraction
  rw [SafeCost, if_neg hfraction] at hs
  rw [Checkout.sentCost, Checkout.costCents, if_neg hs] at hden
  exact hs hden

end Doubles

/-! ## The calls -/

/-- What a call asks of a number it is given. -/
def LedgerCall.SafeInput : LedgerCall → Prop
  | .createAccount input _ _ _ => Safe input.opening_balance_cents
  | .createTransactions input _ _ _ =>
      (∀ e ∈ input.entries, Safe e.amount_cents) ∧ SafeSums input.entries
  | .changeStatus _ _ _ => True
  | .checkout request _ => Doubles.SafeCost (request.unitPriceCents * request.quantity)

/-- The order rows hold safe amounts. -/
def SafeAmounts (d : LedgerDb) : Prop :=
  ∀ t row, d.get (.transaction t) = some row → Safe row.amountCents

variable {ι : Type} {env : Env}

/-- A status change on an order that is safe is the one on integers. -/
theorem afterLock_eq {orderId : String} {u : Uuid} {status : TransactionStatus}
    {user : AuthUser} {order : LockedOrder} (hs : Safe order.amount_cents) :
    Doubles.afterLock orderId u status user (some order)
      = (do
        orThrow (assertOwner order.user_id user ("order " ++ orderId))
        if order.status = status then
          return false
        else
          OrdersService.setStatus u status
          if (order.status == .posted) ≠ (status == .posted) then
            let booked := SIGN order.type * order.amount_cents
            AccountsRepository.updateBalance order.account_id
              (if status = .posted then booked else -booked)
            return true
          else
            return true) := by
  have hsigned := hs.signed order.type
  have hbooked : Safe (if status = .posted then SIGN order.type * order.amount_cents
      else -(SIGN order.type * order.amount_cents)) := by
    split
    · exact hsigned
    · exact hsigned.neg
  simp only [Doubles.afterLock, double_of_safe hs, bigintText_of_safe hbooked]

/-- What was sent of a batch books what the batch says. -/
theorem Wrote.of_sent {d : LedgerDb} {input : CreateTransactionsDto} {user : AuthUser}
    {ids : Nat → Uuid} {now : Instant} {r : LedgerReply} {ws : List (Write LedgerRow)}
    (hs : ∀ e ∈ input.entries, Safe e.amount_cents)
    (h : Wrote env d (.createTransactions (Doubles.sentInput input) user ids now) r ws)
    (batch : List Transaction) :
    Wrote env d (.createTransactions input user ids now) (.transactions batch) ws := by
  have hsent : ∀ e ∈ input.entries, (Doubles.sentEntry e).amount_cents = e.amount_cents :=
    fun e he => Doubles.sentEntry_amount (hs e he)
  cases h with
  | booked hrows hnew hn hacc hws =>
      refine .booked ?_ hnew hn hacc ?_
      · rw [Doubles.sentInput, List.forall₂_map_left_iff] at hrows
        refine ((List.forall₂_and_left _ _).mpr ⟨hsent, hrows⟩).imp fun e row h => ?_
        obtain ⟨hamount, hposts⟩ := h
        rw [hamount] at hposts
        exact hposts
      · rw [← Doubles.deltasOf_sentInput hs]
        exact hws

section Bodies

variable {R : LedgerSession → LedgerWorld ι → LedgerWorld ι → Prop}
  {Q : LedgerReply → LedgerWorld ι → LedgerSession → Prop}
  {E : ApiError → LedgerWorld ι → LedgerSession → Prop}

theorem wp_doubles_createTransactions (hR : LedgerRely R) {input : CreateTransactionsDto}
    {user : AuthUser} {ids : Nat → Uuid} {now : Instant} {w : LedgerWorld ι}
    (hs : ∀ e ∈ input.entries, Safe e.amount_cents) (hsums : SafeSums input.entries)
    (hq : ∀ r w s, Wrote env w.db (.createTransactions input user ids now) r s.writes → Q r w s)
    (hE : ∀ e w s, E e w s) :
    ((LedgerCall.createTransactions input user ids now).doubleBody env).wp R Q E w
      (Session.init []) := by
  have hsent : ((LedgerCall.createTransactions (Doubles.sentInput input) user ids now).body
      env).wp R (fun r w s => Wrote env w.db
        (.createTransactions (Doubles.sentInput input) user ids now) r s.writes) E w
      (Session.init []) := wp_createTransactions hR (fun _ _ _ h => h) hE
  simp only [LedgerCall.body, Prog.bind_eq, Prog.pure_eq, Prog.wp_bind, Prog.wp] at hsent
  simp only [LedgerCall.doubleBody, Doubles.createTransactions_of_safe hs hsums, Prog.bind_eq,
    Prog.pure_eq, Prog.wp_bind, Prog.wp]
  exact Prog.wp_mono (fun _ w s h => hq _ w s (h.of_sent hs _)) (fun _ _ _ h => h) hsent

theorem wp_doubles_changeStatus (hR : LedgerRely R)
    (hsafe : ∀ {s w w'}, R s w w' → SafeAmounts w'.db) {orderId : String}
    {status : TransactionStatus} {user : AuthUser} {w : LedgerWorld ι}
    (h : ((LedgerCall.changeStatus orderId status user).body env).wp R Q E w
      (Session.init [])) :
    ((LedgerCall.changeStatus orderId status user).doubleBody env).wp R Q E w
      (Session.init []) := by
  simp only [LedgerCall.body, LedgerCall.doubleBody, OrdersService.changeStatus,
    Doubles.changeStatus, Prog.bind_eq, Prog.pure_eq, Prog.wp_bind] at h ⊢
  rcases uuidParam_value orderId with ⟨u, hu⟩ | ⟨e, he⟩
  swap
  · rw [he] at h ⊢
    exact h
  rw [hu] at h ⊢
  simp only [Prog.wp, Prog.wp_bind] at h ⊢
  -- The answer of the lock is safe, because the row is.
  have hanswer : (OrdersService.lockOrder u).wp R
      (fun order _ _ => ∀ o, order = some o → Safe o.amount_cents) (fun _ _ _ => True) w
      (Session.init []) := by
    refine wp_lockOrder hR (fun _ _ o ho => by simp at ho) ?_
    intro w₁ t order ht _ _ hamount _ w₂ hw₂ o ho
    obtain rfl := Option.some.inj ho
    rw [hamount]
    refine hsafe hw₂ u t ?_
    rw [hR.held hw₂ _ (by simp)]
    simpa using ht
  refine Prog.wp_mono ?_ (fun _ _ _ he => he.1) (Prog.wp_and h hanswer)
  intro order w₁ s₁ hboth
  obtain ⟨hexact, hs⟩ := hboth
  cases order with
  | none => exact hexact
  | some order =>
      rw [afterLock_eq (hs order rfl)]
      simpa only [Prog.bind_eq, Prog.pure_eq] using hexact

end Bodies

/-! ## The runs -/

section Runs

variable {calls : ι → LedgerCall}

theorem transactionOf_boughtWrites {request : CheckoutRequest} {draw : CheckoutDraw}
    {u : Uuid} {row : AccountRow} {cost : Int} {order t : TransactionRow}
    {x : Write LedgerRow} (hx : x ∈ boughtWrites request draw u row cost order)
    (ht : transactionOf x = some t) : t = order := by
  simp only [boughtWrites, List.mem_cons, List.not_mem_nil, or_false] at hx
  rcases hx with rfl | rfl | rfl
  · simp [transactionOf] at ht
  · exact (Option.some.inj ht).symm
  · simp [transactionOf] at ht

/-- The cost of a checkout that reads as a bigint is the product. -/
theorem Debits.cost_num {request : CheckoutRequest} {u : Uuid} {row : AccountRow} {cost : Int}
    (h : Debits request u row cost)
    (hs : Doubles.SafeCost (request.unitPriceCents * request.quantity)) :
    (request.unitPriceCents * request.quantity).num = cost ∧ Safe cost := by
  have hsent := bigintParam_eq h.cost_eq
  have hden := Doubles.whole_of_sent hs (by rw [← hsent, Rat.den_intCast])
  rw [Doubles.sentCost_of_safe hs hden] at hsent
  rw [Doubles.SafeCost, if_pos hden] at hs
  rw [← hsent, Rat.num_intCast] at hs ⊢
  exact ⟨rfl, hs⟩

/-- The rows a call with safe numbers writes are safe. -/
theorem Wrote.safeAmounts {d : LedgerDb} {c : LedgerCall} {r : LedgerReply}
    {ws : List (Write LedgerRow)} (h : Wrote env d c r ws) (hs : c.SafeInput)
    (hd : SafeAmounts d) : SafeAmounts (d.writeAll ws) := by
  have key : ∀ x ∈ ws, ∀ row, transactionOf x = some row → Safe row.amountCents := by
    cases h with
    | created hacc hnew => simp [transactionOf]
    | booked hrows hnew hn hacc hws =>
        intro x hx row hrow
        rcases List.mem_append.mp hx with hx | hx
        · obtain ⟨p, hp, rfl⟩ := List.mem_map.mp hx
          obtain rfl := Option.some.inj hrow
          obtain ⟨e, he, hposts⟩ := (mem_of_forall₂ hrows).2 p hp
          rw [hposts.amount]
          exact hs.1 e he
        · rw [hws.transactionOf x hx] at hrow
          simp at hrow
    | kept hu ht hs => simpa [transactionOf] using hd _ _ ht
    | relabelled hu ht hs hside => simpa [transactionOf] using hd _ _ ht
    | crossed hu ht hside hrow => simpa [transactionOf] using hd _ _ ht
    | bought h =>
        intro x hx row hrow
        rw [transactionOf_boughtWrites hx hrow]
        obtain ⟨rate, i, q, _, _, _, rfl⟩ := h.order_eq
        exact (h.toDebits.cost_num hs).2
  intro t row hrow
  rcases Db.get_writeAll_cases hrow with hold | hnew
  · exact hd t row hold
  · exact key _ hnew row rfl

theorem doubleDiscipline (hs : ∀ i, (calls i).SafeInput)
    (C : LedgerState ι → ι → Prop) :
    LockDiscipline (doubleSystem env calls) C
      (fun w => Linked w.db ∧ SafeAmounts w.db) (fun _ w w' => Persist w.db w'.db)
      (fun i r w s => Wrote env w.db (calls i) r s.writes)
      (fun _ _ _ _ => True) where
  refl _ _ _ hu := hu
  trans _ _ _ _ h h' u hu := h' u (h u hu)
  start i w hinv hfresh w' hw' := by
    have hsi := hs i
    dsimp only [doubleSystem, ledgerSystem] at hfresh hw' ⊢
    cases hi : calls i with
    | createAccount input user id now =>
        rw [hi] at hfresh hw' hsi
        have hmine : LedgerKey.account id
            ∈ (LedgerCall.createAccount input user id now).draws :=
          List.mem_singleton_self _
        have hnew : w'.db.get (.account id) = none := by
          rw [hw'.2.1 _ hmine]
          exact Option.isNone_iff_eq_none.mp (hfresh _ hmine)
        rw [LedgerCall.doubleBody, Doubles.createAccount_eq hsi]
        exact wp_createAccount ledgerRely hnew fun _ _ _ h => h
    | createTransactions input user ids now =>
        rw [hi] at hsi
        exact wp_doubles_createTransactions ledgerRely hsi.1 hsi.2 (fun _ _ _ h => h)
          fun _ _ _ => trivial
    | changeStatus orderId status user =>
        refine wp_doubles_changeStatus ledgerRely (fun h => h.1.2) ?_
        exact wp_changeStatus ledgerRely (fun h => h.1.1) (fun _ _ _ h => h)
          fun _ _ _ => trivial
    | checkout request draw =>
        exact wp_checkout ledgerRely (fun _ _ _ h => h) fun _ _ _ _ => trivial
  commit st i a σ hlock hinv hi hc hq := by
    exact ⟨⟨hq.linked hinv.1, hq.safeAmounts (hs i) hinv.2⟩, fun _ _ _ _ _ => hq.persist⟩
  rollback _ _ _ _ hinv _ := ⟨hinv, fun _ _ hu => hu⟩
  abort _ _ hinv := ⟨hinv, fun _ _ hu => hu⟩

end Runs

end InvestApi.Ref
