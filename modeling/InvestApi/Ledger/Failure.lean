import InvestApi.Ledger.Linear

/-!
# A checkout that fails

Whatever fails before COMMIT, the tables are as they were: the transaction's
writes are only ever its own until then. After COMMIT they stay, and two
things can still make the call throw: the answer to COMMIT is lost, or the
publish callback rejects. The tables are then those of the same checkout
having succeeded.
-/

namespace InvestApi.Ref

open InvestApi.Pg

namespace Checkout

variable {env : Env} {request : CheckoutRequest} {draw : CheckoutDraw}
  {event : EventDraw} {publish : Option Publish} {trouble : Trouble}
  {d : LedgerDb}

/-- The call threw, but not before its transaction had committed as
`result`. -/
def FailedAfterCommit (request : CheckoutRequest) (event : EventDraw)
    (publish : Option Publish) (trouble : Trouble) (result : CheckoutSuccess) :
    Prop :=
  trouble = .commitAnswerLost ∨
    ∃ send message, publish = some send ∧
      send (orderPlaced event request result) = .error message

/-- The callback only decides whether a committed checkout returns or
throws. -/
theorem announce_eq (request : CheckoutRequest) (event : EventDraw)
    (publish : Option Publish) (result : CheckoutSuccess) :
    announce request event publish result = .ok result ∨
      ∃ send message, publish = some send ∧
        send (orderPlaced event request result) = .error message := by
  unfold announce
  split
  · exact Or.inl rfl
  · next send =>
      split
      · exact Or.inl rfl
      · next message h => exact Or.inr ⟨send, message, rfl, h⟩

/-- A failed checkout has left nothing behind, or it failed after COMMIT and
has left what the same checkout leaves when it succeeds. -/
theorem failed_checkout
    (hfail : ∀ result,
      (checkout env request draw event publish trouble d).1 ≠ .ok result) :
    (checkout env request draw event publish trouble d).2 = d ∨
      ∃ result, FailedAfterCommit request event publish trouble result ∧
        checkout env request draw event none .none d
          = (.ok result, (checkout env request draw event publish trouble d).2) := by
  unfold checkout at hfail ⊢
  rcases hexec : (body env request draw).exec d trouble.statement (Session.init [])
    with ⟨finish, s⟩
  rw [hexec] at hfail
  cases finish with
  | aborted => exact Or.inl rfl
  | raised e =>
      refine Or.inl ?_
      cases e with
      | checkoutRejected reason => rfl
      | problem status code detail => rfl
      | error message => rfl
      | db sqlstate => rfl
  | committed result =>
      -- It committed, so the same call without trouble commits the same.
      have hquiet : (body env request draw).exec d Trouble.none.statement
          (Session.init []) = (.committed result, s) := Prog.exec_of_committed hexec
      rw [hquiet]
      refine Or.inr ⟨result, ?_, ?_⟩
      · by_cases hlost : trouble = .commitAnswerLost
        · exact Or.inl hlost
        · rcases announce_eq request event publish result with hok | hrejected
          · exact absurd (by simp [hlost, hok]) (hfail result)
          · exact Or.inr hrejected
      · by_cases hlost : trouble = .commitAnswerLost
        · simp [hlost, announce]
        · simp [hlost, announce]

def sampleRequest : CheckoutRequest :=
  ⟨Uuid.text 7, Uuid.text 5, 1, 100, none⟩

/-- The broker has no queue bound: the publish rejects, after COMMIT. -/
def unroutable : Publish := fun _ => .error "order.placed was unroutable"

/-- The caller sees a failure, and the account has paid: by a publish that
rejects, or by an answer to COMMIT that is lost. -/
theorem failed_checkout_not_undone :
    (¬∀ env request draw event publish d,
      (∀ result, (checkout env request draw event publish .none d).1 ≠ .ok result) →
      (checkout env request draw event publish .none d).2 = d) ∧
    ¬∀ env request draw event trouble d,
      (∀ result, (checkout env request draw event none trouble d).1 ≠ .ok result) →
      (checkout env request draw event none trouble d).2 = d := by
  have paid : ∀ {d : LedgerDb}, (d.get (.account 7)).map (·.balanceCents) = some 200 →
      d ≠ sampleDb := by
    rintro d h rfl
    simp [sampleDb] at h
  constructor
  · intro hall
    have hthrew : (checkout sampleEnv sampleRequest ⟨30, 40, 0⟩ ⟨0, 0⟩
        (some unroutable) .none sampleDb).1
        = .threw (.error "order.placed was unroutable") := by decide +kernel
    refine paid ?_ (hall sampleEnv sampleRequest ⟨30, 40, 0⟩ ⟨0, 0⟩
      (some unroutable) sampleDb fun result => by rw [hthrew]; simp)
    decide +kernel
  · intro hall
    have hthrew : (checkout sampleEnv sampleRequest ⟨30, 40, 0⟩ ⟨0, 0⟩ none
        .commitAnswerLost sampleDb).1
        = .threw (.error "Connection terminated unexpectedly") := by decide +kernel
    refine paid ?_ (hall sampleEnv sampleRequest ⟨30, 40, 0⟩ ⟨0, 0⟩
      .commitAnswerLost sampleDb fun result => by rw [hthrew]; simp)
    decide +kernel

/-- A failure of the second statement, the SELECT of the rate or the order's
INSERT, is before COMMIT. -/
theorem failed_checkout_sample :
    (checkout sampleEnv sampleRequest ⟨30, 40, 0⟩ ⟨0, 0⟩ (some unroutable)
        (.fault 1) sampleDb).2 = sampleDb ∨
      ∃ result, FailedAfterCommit sampleRequest ⟨0, 0⟩ (some unroutable)
        (.fault 1) result ∧
        checkout sampleEnv sampleRequest ⟨30, 40, 0⟩ ⟨0, 0⟩ none .none sampleDb
          = (.ok result, (checkout sampleEnv sampleRequest ⟨30, 40, 0⟩ ⟨0, 0⟩
            (some unroutable) (.fault 1) sampleDb).2) := by
  have hthrew : (checkout sampleEnv sampleRequest ⟨30, 40, 0⟩ ⟨0, 0⟩
      (some unroutable) (.fault 1) sampleDb).1
      = .threw (.error "the transaction was rolled back") := by decide +kernel
  exact failed_checkout fun result => by rw [hthrew]; simp

end Checkout

end InvestApi.Ref
