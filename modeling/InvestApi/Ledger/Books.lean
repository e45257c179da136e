import InvestApi.Ledger.Atomic

/-!
# The books stay in step

`balance_cents` is kept next to the rows it summarises, and four operations
write both. For each account the gap between the balance and the posted
rows is its opening balance: a step of the atomic ledger moves both sides of
an account by the same amount, except the one that opens it.
-/

namespace InvestApi.Ref

open InvestApi.Pg

/-- What a posted row of account `a` adds to its balance. -/
def postedTerm (a : Uuid) : (k : LedgerKey) → LedgerRow k → Int
  | .transaction _, t =>
      if t.accountId = a ∧ t.status = .posted then SIGN t.type * t.amountCents
      else 0
  | .account _, _ => 0
  | .job _, _ => 0

/-- The signed amounts of the posted rows of account `a`. -/
def postedSum (d : LedgerDb) (a : Uuid) : Int := d.sum (postedTerm a)

/-- Every balance is its opening balance and the posted rows. -/
def Balanced (opening : Uuid → Int) (d : LedgerDb) : Prop :=
  ∀ a row, d.get (.account a) = some row →
    row.balanceCents = opening a + postedSum d a

/-- The account a call opens, and with what. -/
def LedgerCall.opens : LedgerCall → Option (Uuid × Int)
  | .createAccount input _ id _ => some (id, input.opening_balance_cents)
  | _ => none

/-- The opening balances once a call has ended. -/
def openStep {ι : Type} (calls : ι → LedgerCall) (op : Uuid → Int)
    (entry : ι × Finish ApiError LedgerReply) : Uuid → Int :=
  match entry.2 with
  | .committed _ =>
      match (calls entry.1).opens with
      | some (id, x) => Function.update op id x
      | none => op
  | .raised _ => op
  | .aborted => op

/-- The opening balances once `log` has happened: those of the accounts it
created, and `opening` for the others. -/
def openings {ι : Type} (calls : ι → LedgerCall) (opening : Uuid → Int)
    (log : List (ι × Finish ApiError LedgerReply)) : Uuid → Int :=
  log.foldl (openStep calls) opening

/-! ## The gap of an account -/

def balanceOf (d : LedgerDb) (a : Uuid) : Int :=
  (d.get (.account a)).elim 0 (·.balanceCents)

def gap (d : LedgerDb) (a : Uuid) : Int := balanceOf d a - postedSum d a

theorem balanced_iff {opening : Uuid → Int} {d : LedgerDb} :
    Balanced opening d ↔ ∀ a, HasAccount d a → gap d a = opening a := by
  constructor
  · rintro h a ⟨row, hrow⟩
    have hbal := h a row hrow
    have hof : balanceOf d a = row.balanceCents := by rw [balanceOf, hrow]; rfl
    rw [gap, hof, hbal]
    omega
  · intro h a row hrow
    have hgap := h a ⟨row, hrow⟩
    have hof : balanceOf d a = row.balanceCents := by rw [balanceOf, hrow]; rfl
    rw [gap, hof] at hgap
    omega

section Set

variable (d : LedgerDb) (a : Uuid)

theorem postedSum_set_account (u : Uuid) (v : Option AccountRow) :
    postedSum (d.set (.account u) v) a = postedSum d a := by
  have hzero : ∀ v : Option AccountRow,
      Db.term (postedTerm a) (.account u) v = 0 := by
    intro v
    cases v with
    | none => rfl
    | some row => rfl
  rw [postedSum, Db.sum_set, hzero, hzero]
  simp [postedSum]

/-- Writing an account row moves that account's gap by the new balance less
the old, and no other gap. -/
theorem gap_set_account (u : Uuid) (v : Option AccountRow) :
    gap (d.set (.account u) v) a = gap d a
      + if u = a then v.elim 0 (·.balanceCents) - balanceOf d a else 0 := by
  rw [gap, gap, postedSum_set_account]
  by_cases h : u = a
  · subst h
    have hof : balanceOf (d.set (.account u) v) u = v.elim 0 (·.balanceCents) := by
      rw [balanceOf, Db.get_set_self]
    rw [hof, if_pos rfl]
    omega
  · have hne : LedgerKey.account a ≠ .account u := by
      intro he
      exact h (LedgerKey.account.inj he).symm
    rw [balanceOf, Db.get_set_ne _ _ hne, if_neg h, balanceOf]
    omega

theorem gap_set_transaction (t : Uuid) (v : Option TransactionRow) :
    gap (d.set (.transaction t) v) a
      = gap d a - (Db.term (postedTerm a) (.transaction t) v
        - Db.term (postedTerm a) (.transaction t) (d.get (.transaction t))) := by
  have hbal : balanceOf (d.set (.transaction t) v) a = balanceOf d a := by
    rw [balanceOf, Db.get_set_ne _ _ (by simp), balanceOf]
  rw [gap, gap, hbal, postedSum, Db.sum_set, postedSum]
  omega

theorem gap_set_job (j : Uuid) (v : Option JobRow) :
    gap (d.set (.job j) v) a = gap d a := by
  have hzero : ∀ v : Option JobRow, Db.term (postedTerm a) (.job j) v = 0 := by
    intro v
    cases v with
    | none => rfl
    | some row => rfl
  have hbal : balanceOf (d.set (.job j) v) a = balanceOf d a := by
    rw [balanceOf, Db.get_set_ne _ _ (by simp), balanceOf]
  rw [gap, gap, hbal, postedSum, Db.sum_set, hzero, hzero, postedSum]
  omega

end Set

/-! ## A batch: the rows on one side, one sum per account on the other -/

/-- What the deltas add to account `a`. -/
def deltaSum (a : Uuid) (deltas : List (String × Int)) : Int :=
  (deltas.map fun p => if pgUuidIn p.1 = some a then p.2 else 0).sum

/-- What the entries add to account `a`. -/
def entrySum (a : Uuid) (entries : List TransactionEntryDto) : Int :=
  (entries.map fun e => if pgUuidIn e.account_id = some a
    then SIGN e.type * e.amount_cents else 0).sum

theorem deltaSum_addDelta (a : Uuid) (id : String) (x : Int)
    (deltas : List (String × Int)) :
    deltaSum a (TransactionsService.addDelta id x deltas)
      = (if pgUuidIn id = some a then x else 0) + deltaSum a deltas := by
  induction deltas with
  | nil => simp [TransactionsService.addDelta, deltaSum]
  | cons p deltas ih =>
      obtain ⟨k, v⟩ := p
      simp only [deltaSum] at ih ⊢
      rw [TransactionsService.addDelta]
      split
      · next hk =>
          subst hk
          simp only [List.map_cons, List.sum_cons]
          split
          · omega
          · omega
      · rw [List.map_cons, List.sum_cons, ih, List.map_cons, List.sum_cons]
        omega

/-- Aggregating the entries by account loses nothing, an account that several
entries name included. -/
theorem deltaSum_deltasOf (a : Uuid) (entries : List TransactionEntryDto) :
    deltaSum a (deltasOf entries) = entrySum a entries := by
  have key : ∀ deltas, deltaSum a (entries.foldl (fun deltas entry =>
      TransactionsService.addDelta entry.account_id
        (SIGN entry.type * entry.amount_cents) deltas) deltas)
        = deltaSum a deltas + entrySum a entries := by
    induction entries with
    | nil => simp [entrySum]
    | cons e entries ih =>
        intro deltas
        rw [List.foldl_cons, ih, deltaSum_addDelta]
        simp only [entrySum, List.map_cons, List.sum_cons]
        omega
  rw [deltasOf, key]
  simp [deltaSum]

theorem Bumped.gap {d : LedgerDb} {deltas : List (String × Int)}
    {ws : List (Write LedgerRow)} (h : Bumped d deltas ws) (a : Uuid) :
    gap (d.writeAll ws) a = gap d a + deltaSum a deltas := by
  induction h with
  | nil => simp [deltaSum]
  | @cons d id delta u row rest ws hu hrow hrest ih =>
      rw [Db.writeAll_cons, ih, gap_set_account]
      simp only [Option.elim_some, deltaSum, List.map_cons, List.sum_cons, hu, Option.some.injEq]
      by_cases h : u = a
      · subst h
        simp only [balanceOf, hrow, Option.elim_some, if_true]
        omega
      · simp only [h, if_false]
        omega

/-- The rows of a batch widen each gap by what the entries add. -/
theorem gap_rowWrites (a : Uuid) {entries : List TransactionEntryDto}
    {rows : List (Uuid × TransactionRow)}
    (h : List.Forall₂ (fun entry => Posts entry.account_id entry.type
      entry.amount_cents) entries rows) :
    ∀ {d : LedgerDb}, (∀ r ∈ rows, d.get (.transaction r.1) = none) →
      (rows.map (·.1)).Nodup →
      gap (d.writeAll (rowWrites rows)) a = gap d a - entrySum a entries := by
  induction h with
  | nil => simp [rowWrites, entrySum]
  | @cons e r entries rows hpost _ ih =>
      intro d hnew hn
      rw [List.map_cons, List.nodup_cons] at hn
      have hrest : ∀ r' ∈ rows,
          (d.set (.transaction r.1) (some r.2)).get (.transaction r'.1) = none := by
        intro r' hr'
        have hne : LedgerKey.transaction r'.1 ≠ .transaction r.1 := by
          intro he
          exact hn.1 (LedgerKey.transaction.inj he ▸ List.mem_map_of_mem hr')
        rw [Db.get_set_ne _ _ hne]
        exact hnew r' (List.mem_cons_of_mem _ hr')
      have hterm : postedTerm a (.transaction r.1) r.2
          = if pgUuidIn e.account_id = some a then SIGN e.type * e.amount_cents
            else 0 := by
        simp only [postedTerm, hpost.account, hpost.status, hpost.type_eq,
          hpost.amount, Option.some.injEq, and_true]
      rw [show rowWrites (r :: rows)
        = ⟨.transaction r.1, some r.2⟩ :: rowWrites rows from rfl]
      rw [Db.writeAll_cons, ih hrest hn.2, gap_set_transaction,
        hnew r List.mem_cons_self, Db.term_none, Db.term_some, hterm]
      simp only [entrySum, List.map_cons, List.sum_cons]
      omega

/-! ## One step of the atomic ledger -/

/-- The account whose row a write puts. -/
def accountOf : Write LedgerRow → Option Uuid
  | ⟨.account u, _⟩ => some u
  | _ => none

theorem HasAccount.of_set {d : LedgerDb} {u v : Uuid} {row : Option AccountRow}
    (hv : HasAccount d v) (h : HasAccount (d.set (.account v) row) u) :
    HasAccount d u := by
  by_cases he : u = v
  · subst he; exact hv
  · simpa [HasAccount, he] using h

theorem Bumped.accounts {d : LedgerDb} {deltas : List (String × Int)}
    {ws : List (Write LedgerRow)} (h : Bumped d deltas ws) :
    ∀ w ∈ ws, ∀ u, accountOf w = some u → HasAccount d u := by
  induction h with
  | nil => simp
  | cons hu hrow hrest ih =>
      intro w hw u hwu
      rcases List.mem_cons.mp hw with rfl | hw
      · obtain rfl := Option.some.inj hwu
        exact ⟨_, hrow⟩
      · exact HasAccount.of_set ⟨_, hrow⟩ (ih w hw u hwu)

section Wrote

variable {env : Env} {d : LedgerDb} {c : LedgerCall} {r : LedgerReply}
  {ws : List (Write LedgerRow)}

/-- A call updates accounts that are there, or opens one. -/
theorem Wrote.accounts (h : Wrote env d c r ws) :
    ∀ w ∈ ws, ∀ u, accountOf w = some u →
      HasAccount d u ∨ ∃ x, c.opens = some (u, x) := by
  cases h with
  | created hacc hnew => simp [accountOf, LedgerCall.opens]
  | booked hrows hnew hn hacc hws =>
      intro w hw u hwu
      rcases List.mem_append.mp hw with hw | hw
      · obtain ⟨r, _, rfl⟩ := List.mem_map.mp hw
        simp [accountOf] at hwu
      · have hacc := hws.accounts w hw u hwu
        rw [HasAccount, get_account_rowWrites] at hacc
        exact Or.inl hacc
  | kept hu ht hs => simp [accountOf]
  | relabelled hu ht hs hside => simp [accountOf]
  | crossed hu ht hside hrow => simp [accountOf, HasAccount, hrow]
  | bought h => simp [accountOf, boughtWrites, HasAccount, h.row_eq]

theorem Wrote.hasAccount (h : Wrote env d c r ws) {u : Uuid}
    (hu : HasAccount (d.writeAll ws) u) :
    HasAccount d u ∨ ∃ x, c.opens = some (u, x) := by
  obtain ⟨row, hrow⟩ := hu
  rcases Db.get_writeAll_cases hrow with hold | hnew
  · exact Or.inl ⟨row, hold⟩
  · exact h.accounts _ hnew u rfl

theorem gap_fresh (hlink : Linked d) {a : Uuid}
    (hnew : d.get (.account a) = none) : gap d a = 0 := by
  have hposted : postedSum d a = 0 := by
    refine Db.sum_eq_zero fun k v hv => ?_
    cases k with
    | account u => rfl
    | job j => rfl
    | transaction t =>
        obtain ⟨row, hrow⟩ := hlink t v hv
        have hne : v.accountId ≠ a := by
          rintro rfl
          rw [hnew] at hrow
          simp at hrow
        simp [postedTerm, hne]
  rw [gap, hposted, balanceOf, hnew]
  rfl

/-- An operation that opens no account leaves every gap as it is. -/
theorem Wrote.gap (h : Wrote env d c r ws) (hopens : c.opens = none) (a : Uuid) :
    gap (d.writeAll ws) a = gap d a := by
  cases h with
  | created hacc hnew => simp [LedgerCall.opens] at hopens
  | booked hrows hnew hn hacc hws =>
      rw [Db.writeAll_append, hws.gap, gap_rowWrites a hrows hnew hn,
        deltaSum_deltasOf]
      omega
  | kept hu ht hs =>
      simp [gap_set_transaction, ht]
  | relabelled hu ht hs hside =>
      simp [gap_set_transaction, ht, postedTerm, hside]
  | @crossed orderId status user u t row hu ht hside hrow =>
      have hbal : ∀ v v', balanceOf ((d.set (.transaction u) v).set
          (.transaction u) v') t.accountId = row.balanceCents := by
        intro v v'
        simp [balanceOf, hrow]
      simp only [Db.writeAll_cons, Db.writeAll_nil, gap_set_account,
        gap_set_transaction, Db.get_set_self, ht, Db.term_some, postedTerm,
        Option.elim_some]
      by_cases ha : t.accountId = a
      · subst ha
        rw [hbal]
        by_cases hp : t.status = .posted
        · have hs : status ≠ .posted := fun hs => hside ⟨fun _ => hs, fun _ => hp⟩
          simp only [crossing, hp, hs, and_self, and_false, if_true, if_false]
          omega
        · have hs : status = .posted := by
            by_contra hs
            exact hside ⟨fun h => absurd h hp, fun h => absurd h hs⟩
          simp only [crossing, hp, hs, and_self, and_false, if_true, if_false]
          omega
      · simp [ha]
  | @bought request draw u row cost order h =>
      obtain ⟨rate, i, q, _, _, _, rfl⟩ := h.order_eq
      have hold : (d.set (.account u) (some (debited row cost))).get
          (.transaction draw.orderId) = none := by
        simpa using h.order_new
      simp only [boughtWrites, Db.writeAll_cons, Db.writeAll_nil, gap_set_account,
        gap_set_transaction, gap_set_job, hold, Db.term_some, Db.term_none,
        postedTerm, Checkout.orderRow, Option.elim_some, and_true]
      by_cases ha : u = a
      · subst ha
        have hbal : balanceOf d u = row.balanceCents := by
          rw [balanceOf, h.row_eq]
          rfl
        rw [hbal]
        simp only [debited, SIGN, if_true]
        omega
      · simp [ha]

/-- The account a call opens starts with nothing but its opening balance. -/
theorem Wrote.gap_opened (h : Wrote env d c r ws) (hlink : Linked d) {u : Uuid}
    {x : Int} (hopens : c.opens = some (u, x)) (a : Uuid) :
    Ref.gap (d.writeAll ws) a = if u = a then x else Ref.gap d a := by
  cases h with
  | @created input user id now account hacc hnew =>
      simp only [LedgerCall.opens, Option.some.injEq, Prod.mk.injEq] at hopens
      obtain ⟨rfl, rfl⟩ := hopens
      rw [Db.writeAll_cons, Db.writeAll_nil, gap_set_account]
      by_cases ha : id = a
      · subst ha
        have hbal : balanceOf d id = 0 := by rw [balanceOf, hnew]; rfl
        simp only [if_true, gap_fresh hlink hnew, hbal, Option.elim_some,
          AccountsRepository.toRow, hacc]
        omega
      · simp [ha]
  | booked hrows hnew hn hacc hws => simp [LedgerCall.opens] at hopens
  | kept hu ht hs => simp [LedgerCall.opens] at hopens
  | relabelled hu ht hs hside => simp [LedgerCall.opens] at hopens
  | crossed hu ht hside hrow => simp [LedgerCall.opens] at hopens
  | bought h => simp [LedgerCall.opens] at hopens

end Wrote

/-! ## Every run -/

section Run

variable {ι : Type} {env : Env} {calls : ι → LedgerCall}

theorem openings_concat (opening : Uuid → Int)
    (log : List (ι × Finish ApiError LedgerReply))
    (entry : ι × Finish ApiError LedgerReply) :
    openings calls opening (log ++ [entry])
      = openStep calls (openings calls opening log) entry := by
  rw [openings, List.foldl_append, List.foldl_cons, List.foldl_nil, openings]

/-- One step of the atomic ledger keeps the books. -/
theorem Atomic.balanced {C : LedgerWorld ι → ι → Prop} {opening : Uuid → Int}
    {w w' : LedgerWorld ι} (h : Atomic env calls C w w')
    (hb : Balanced (openings calls opening w.log) w.db) :
    Balanced (openings calls opening w'.log) w'.db := by
  cases h with
  | @commit i r ws hlink hc hw =>
      rw [balanced_iff] at hb ⊢
      intro a ha
      dsimp only at ha ⊢
      rw [openings_concat, openStep]
      cases hopens : (calls i).opens with
      | none =>
          have hold : HasAccount w.db a := by
            rcases hw.hasAccount ha with hold | ⟨x, hx⟩
            · exact hold
            · rw [hopens] at hx
              simp at hx
          rw [hw.gap hopens]
          exact hb a hold
      | some p =>
          obtain ⟨id, x⟩ := p
          rw [hw.gap_opened hlink hopens]
          by_cases hid : id = a
          · subst hid
            simp
          · have hold : HasAccount w.db a := by
              rcases hw.hasAccount ha with hold | ⟨x, hx⟩
              · exact hold
              · rw [hopens] at hx
                simp [hid] at hx
            simp only [if_neg hid, Function.update_of_ne (Ne.symm hid)]
            exact hb a hold
  | rollback hlink =>
      rw [World.note_log, openings_concat]
      exact hb
  | abort hlink =>
      rw [World.note_log, openings_concat]
      exact hb

variable [DecidableEq ι]

/-- The ledger invariant: in every reachable state, under every interleaving,
each balance is the opening balance plus the signed amounts of the posted
rows. -/
theorem ledger_balanced {opening : Uuid → Int} {d : LedgerDb}
    (hlink : Linked d) (hb : Balanced opening d) {st : LedgerState ι}
    (hr : Reach (ledgerSystem env calls) (State.init d) st) :
    Balanced (openings calls opening st.log) st.db := by
  have hrun := ledger_refines (C := fun _ _ => True) hlink hr
  have key : ∀ w, Relation.ReflTransGen (Atomic env calls fun _ _ => True)
      ⟨d, []⟩ w → Balanced (openings calls opening w.log) w.db := by
    intro w hw
    induction hw with
    | refl => exact hb
    | tail _ hstep ih => exact hstep.balanced ih
  exact key _ hrun

end Run

/-! A run of it: two entries of one batch name the account, and the second one
is failed while a checkout waits for the account's row. -/

def sampleEnv : Env where
  users := [1]
  currencies := ["UAH"]
  categories := []
  instruments := [⟨5, "OVDP"⟩]
  fxRates := []
  cache := []
  drift := false
  newDate := fun _ => some 0
  pgTimestamptzIn := fun _ => some 0
  numberText := fun x => toString x.num

/-- One account with 300 cents. -/
def sampleDb : LedgerDb :=
  Db.empty.set (.account 7) (some ⟨1, "UAH", "cash", .cash, 300, false, 0⟩)

def sampleUser : AuthUser := ⟨1, .member, 0, 0, 0⟩

def sampleEntry (type : TransactionType) (amount : Int) : TransactionEntryDto where
  account_id := Uuid.text 7
  type := type
  amount_cents := amount
  currency := "UAH"
  booked_at := "2026-08-25T12:00:00.000Z"
  description := none
  instrument_symbol := none
  quantity_micro := none

def sampleCalls : Fin 4 → LedgerCall
  | 0 => .createAccount ⟨.ofString "cash", .cash, "UAH", 1000⟩ sampleUser 7 0
  | 1 => .createTransactions ⟨[sampleEntry .income 50, sampleEntry .expense 20]⟩
      sampleUser (fun n => Fin.ofNat _ (n + 20)) 0
  | 2 => .changeStatus (Uuid.text 21) .failed sampleUser
  | 3 => .checkout ⟨Uuid.text 7, Uuid.text 5, 3, 100, none⟩ ⟨30, 40, 0⟩

def turns (i : Fin 4) (n : Nat) : List (Turn (Fin 4)) := List.replicate n (.run i)

/-- The checkout takes its snapshot before the failed entry is un-booked. -/
def sampleSchedule : List (Turn (Fin 4)) :=
  [.start 0] ++ turns 0 2 ++ [.finish 0, .start 1] ++ turns 1 7 ++ [.finish 1,
    .start 2] ++ turns 2 7 ++ [.start 3] ++ turns 3 1 ++ turns 2 2 ++ [.finish 2]
    ++ turns 3 4 ++ [.finish 3]

theorem ledger_balanced_sample :
    ∃ st, Reach (ledgerSystem sampleEnv sampleCalls) (State.init Db.empty) st ∧
      Balanced (openings sampleCalls (fun _ => 0) st.log) st.db ∧
      decide (st.log.map (·.1) = [0, 1, 2, 3] ∧
        (st.db.get (.account 7)).map (·.balanceCents) = some 750) = true := by
  have hrun : (path (ledgerSystem sampleEnv sampleCalls) sampleSchedule
      (State.init Db.empty)).any (fun st => decide (st.log.map (·.1) = [0, 1, 2, 3] ∧
        (st.db.get (.account 7)).map (·.balanceCents) = some 750)) = true := by
    decide +kernel
  obtain ⟨st, hr, hp⟩ := exists_reach sampleSchedule _ hrun
  have hlink : Linked Db.empty := by simp [Linked]
  have hb : Balanced (fun _ => 0) Db.empty := by simp [Balanced]
  exact ⟨st, hr, ledger_balanced hlink hb hr, hp⟩

end InvestApi.Ref
