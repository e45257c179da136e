import InvestApi.Ledger.Booking
import InvestApi.Ledger.Buying

/-!
# The ledger refines an atomic ledger

In the atomic ledger a call is one step: it commits, and its rows are what
`Wrote` says over the rows of that moment, or it ends and changes nothing.
Every interleaving of the services' statements is, in what it commits and
when, a run of the atomic ledger. The invariants of the books are proved
there, one case for each operation.
-/

namespace InvestApi.Ref

open InvestApi.Pg

variable {ι : Type}

/-- One call of the atomic ledger; `C` is asked of every commit. -/
inductive Atomic (env : Env) (calls : ι → LedgerCall)
    (C : LedgerWorld ι → ι → Prop) : LedgerWorld ι → LedgerWorld ι → Prop
  | commit {w i r ws} (hlink : Linked w.db) (hc : C w i)
      (h : Wrote env w.db (calls i) r ws) :
      Atomic env calls C w ⟨w.db.writeAll ws, w.log ++ [(i, .committed r)]⟩
  | rollback {w i e} (hlink : Linked w.db) :
      Atomic env calls C w (w.note i (.raised e))
  | abort {w i} (hlink : Linked w.db) :
      Atomic env calls C w (w.note i .aborted)

/-! ## What a commit keeps -/

theorem Bumped.isSome {d : LedgerDb} {deltas : List (String × Int)}
    {ws : List (Write LedgerRow)} (h : Bumped d deltas ws) :
    ∀ w ∈ ws, w.2.isSome = true := by
  induction h with
  | nil => simp
  | cons hu hrow hrest ih =>
      intro w hw
      rcases List.mem_cons.mp hw with rfl | hw
      · rfl
      · exact ih w hw

/-- The transaction row a write puts. -/
def transactionOf : Write LedgerRow → Option TransactionRow
  | ⟨.transaction _, v⟩ => v
  | _ => none

theorem Bumped.transactionOf {d : LedgerDb} {deltas : List (String × Int)}
    {ws : List (Write LedgerRow)} (h : Bumped d deltas ws) :
    ∀ w ∈ ws, transactionOf w = none := by
  induction h with
  | nil => simp
  | cons hu hrow hrest ih =>
      intro w hw
      rcases List.mem_cons.mp hw with rfl | hw
      · rfl
      · exact ih w hw

section Wrote

variable {env : Env} {d : LedgerDb} {c : LedgerCall} {r : LedgerReply}
  {ws : List (Write LedgerRow)}

/-- No call deletes a row. -/
theorem Wrote.isSome (h : Wrote env d c r ws) : ∀ w ∈ ws, w.2.isSome = true := by
  cases h with
  | created hacc hnew => simp
  | booked hrows hnew hn hacc hws =>
      intro w hw
      rcases List.mem_append.mp hw with hw | hw
      · obtain ⟨r, _, rfl⟩ := List.mem_map.mp hw
        rfl
      · exact hws.isSome w hw
  | kept hu ht hs => simp
  | relabelled hu ht hs hside => simp
  | crossed hu ht hside hrow => simp
  | bought h => simp [boughtWrites]

/-- Every transaction row a call writes is booked on an account that is there. -/
theorem Wrote.account (h : Wrote env d c r ws) (hlink : Linked d) :
    ∀ w ∈ ws, ∀ row, transactionOf w = some row → HasAccount d row.accountId := by
  cases h with
  | created hacc hnew => simp [transactionOf]
  | booked hrows hnew hn hacc hws =>
      intro w hw row hrow
      rcases List.mem_append.mp hw with hw | hw
      · obtain ⟨r, hr, rfl⟩ := List.mem_map.mp hw
        obtain rfl := Option.some.inj hrow
        exact hacc r hr
      · rw [hws.transactionOf w hw] at hrow
        simp at hrow
  | kept hu ht hs => simpa [transactionOf] using hlink _ _ ht
  | relabelled hu ht hs hside => simpa [transactionOf] using hlink _ _ ht
  | crossed hu ht hside hrow => simpa [transactionOf] using hlink _ _ ht
  | bought h =>
      obtain ⟨rate, i, q, _, _, _, rfl⟩ := h.order_eq
      have hacc : HasAccount d _ := ⟨_, h.row_eq⟩
      simpa [transactionOf, boughtWrites, Checkout.orderRow] using hacc

theorem Wrote.persist (h : Wrote env d c r ws) : Persist d (d.writeAll ws) := by
  intro u hu
  have hsome := Db.isSome_writeAll h.isSome (Option.isSome_iff_exists.mpr hu)
  exact Option.isSome_iff_exists.mp hsome

theorem Wrote.linked (h : Wrote env d c r ws) (hlink : Linked d) :
    Linked (d.writeAll ws) := by
  intro t row hrow
  refine h.persist _ ?_
  rcases Db.get_writeAll_cases hrow with hold | hnew
  · exact hlink t row hold
  · exact h.account hlink _ hnew row rfl

end Wrote

/-! ## The refinement -/

/-- The sessions rely on their locks, on the foreign key and on accounts
staying. -/
theorem ledgerRely {Inv : LedgerWorld ι → Prop} :
    LedgerRely (LockRely Inv fun _ w w' => Persist w.db w'.db) where
  refl h _ := ⟨h.1, fun _ _ => rfl, fun _ hu => hu⟩
  trans _ _ _ _ h h' :=
    ⟨h'.1, fun k hk => (h'.2.1 k hk).trans (h.2.1 k hk),
      fun u hu => h'.2.2 u (h.2.2 u hu)⟩
  held h := h.2.1
  persist h := h.2.2

theorem ledgerDiscipline (env : Env) (calls : ι → LedgerCall)
    (C : LedgerState ι → ι → Prop) :
    LockDiscipline (ledgerSystem env calls) C (fun w => Linked w.db)
      (fun _ w w' => Persist w.db w'.db)
      (fun i r w s => Wrote env w.db (calls i) r s.writes)
      (fun _ _ _ _ => True) where
  refl _ _ _ hu := hu
  trans _ _ _ _ h h' u hu := h' u (h u hu)
  start i w hlink hfresh w' hw' := by
    dsimp only [ledgerSystem] at hfresh hw' ⊢
    cases hi : calls i with
    | createAccount input user id now =>
        rw [hi] at hfresh hw'
        have hmine : LedgerKey.account id
            ∈ (LedgerCall.createAccount input user id now).draws :=
          List.mem_singleton_self _
        have hnew : w'.db.get (.account id) = none := by
          rw [hw'.2.1 _ hmine]
          exact Option.isNone_iff_eq_none.mp (hfresh _ hmine)
        exact wp_createAccount ledgerRely hnew fun _ _ _ h => h
    | createTransactions input user ids now =>
        exact wp_createTransactions ledgerRely (fun _ _ _ h => h)
          fun _ _ _ => trivial
    | changeStatus orderId status user =>
        exact wp_changeStatus ledgerRely (fun h => h.1) (fun _ _ _ h => h)
          fun _ _ _ => trivial
    | checkout request draw =>
        exact wp_checkout ledgerRely (fun _ _ _ h => h) fun _ _ _ _ => trivial
  commit st i r σ hlock hlink hi hc hq :=
    ⟨hq.linked hlink, fun _ _ _ _ _ => hq.persist⟩
  rollback _ _ _ _ hlink _ := ⟨hlink, fun _ _ hu => hu⟩
  abort _ _ hlink := ⟨hlink, fun _ _ hu => hu⟩

/-- Every interleaving is a run of the atomic ledger. -/
theorem ledger_refines [DecidableEq ι] {env : Env} {calls : ι → LedgerCall}
    {C : LedgerWorld ι → ι → Prop} {d : LedgerDb} (hlink : Linked d)
    {st : LedgerState ι}
    (hr : ReachUnder (ledgerSystem env calls) (fun st i => C st.toWorld i)
      (State.init d) st) :
    Relation.ReflTransGen (Atomic env calls C) ⟨d, []⟩ st.toWorld := by
  have hends := (ledgerDiscipline env calls _).discipline.ends C
    (fun _ _ h => h) hlink hr
  refine Relation.ReflTransGen.mono (fun w w' h => ?_) _ _ hends
  cases h with
  | commit hw hc hq => exact .commit hw hc hq
  | rollback hw he => exact .rollback hw
  | abort hw => exact .abort hw

end InvestApi.Ref
