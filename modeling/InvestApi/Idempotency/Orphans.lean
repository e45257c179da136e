import InvestApi.Idempotency.AtMostOnce

/-!
# Orphaned keys

The in-flight record of a key goes away with the 'finish' event of the response,
and a response that the client cuts off has none. Its record then stays in-flight
for 24 hours, whatever the handler did, and a retry is told that the operation is
still running.

In the runs in which no request is cut off while its own record is there, the
record of a key is in-flight only as long as the request that put it there is
open.
-/

namespace InvestApi.Ref

variable {ι B R : Type} {fingerprint : B → String} {req : ι → IdempotencyRequest B}
  {s s' : IdempotencyState ι R}

/-- The in-flight record `intercept` stored for the request. -/
def Exchange.claim (x : Exchange R) (fp : String) : IdempotencyRecord R :=
  .inFlight fp (x.interceptedAt + TTL_MS)

/-- No response is cut off while the in-flight record of its request is in the
store. -/
def SentInFull (s : IdempotencyState ι R) : IdempotencyEvent ι R → Prop
  | .close i => ∀ x key fp, s.exchange i = some x → x.answer = .ok (.run key fp) →
      s.store key ≠ some (x.claim fp)
  | _ => True

/-- Every in-flight record is the claim of a request that is open. -/
def Attended (req : ι → IdempotencyRequest B) (s : IdempotencyState ι R) : Prop :=
  ∀ key fp t, s.store key = some (.inFlight fp t) →
    ∃ i x, (req i).key = some key ∧ s.exchange i = some x ∧ x.ended = none ∧
      x.answer = .ok (.run key fp) ∧ x.claim fp = .inFlight fp t

variable [DecidableEq ι]

/-- An event that leaves the store and what an open request claims. -/
theorem Attended.setExchange (h : Attended req s) {i : ι} {x x' : Exchange R}
    (hx : s.exchange i = some x)
    (hsame : x.ended = none → ∀ key fp, x.answer = .ok (.run key fp) →
      s.store key = some (x.claim fp) →
        x'.ended = none ∧ x'.answer = x.answer ∧ x'.interceptedAt = x.interceptedAt) :
    Attended req (s.setExchange i x') := by
  intro key fp t hrec
  obtain ⟨j, y, hkey, hy, hopen, hans, hclaim⟩ := h key fp t hrec
  by_cases hj : j = i
  · subst hj
    obtain rfl : x = y := Option.some.inj (hx.symm.trans hy)
    obtain ⟨hopen', hans', hat⟩ := hsame hopen key fp hans (by rw [hclaim]; exact hrec)
    refine ⟨j, x', hkey, Function.update_self _ _ _, hopen', hans'.trans hans, ?_⟩
    rw [← hclaim, Exchange.claim, Exchange.claim, hat]
  · exact ⟨j, y, hkey, (Function.update_of_ne hj _ _).trans hy, hopen, hans, hclaim⟩

theorem Attended.arrive (h : Attended req s) {i : ι} {now' : Instant}
    (hnew : s.exchange i = none) :
    Attended req (s.arrive fingerprint (req i) i now') := by
  have hcases : Intercepted fingerprint s.store (req i) s.clock now' _ := intercept_cases
  unfold IdempotencyState.arrive
  generalize intercept fingerprint s.store (req i) s.clock now' = p at hcases ⊢
  -- The open requests of before are still there.
  have old : ∀ {key fp t} (x' : Exchange R), s.store key = some (.inFlight fp t) →
      ∃ j x, (req j).key = some key ∧ Function.update s.exchange i (some x') j = some x ∧
        x.ended = none ∧ x.answer = .ok (.run key fp) ∧ x.claim fp = .inFlight fp t := by
    intro key fp t x' hrec
    obtain ⟨j, y, hkey, hy, hrest⟩ := h key fp t hrec
    have hj : j ≠ i := by
      rintro rfl
      rw [hnew] at hy
      simp at hy
    exact ⟨j, y, hkey, (Function.update_of_ne hj _ _).trans hy, hrest⟩
  cases hcases with
  | bypassed hkey => exact fun key fp t hrec => old _ hrec
  | @taken key hkey hfree =>
      intro key' fp t hrec
      dsimp only at hrec ⊢
      rcases update_some_cases hrec with ⟨rfl, hclaim⟩ | ⟨_, hrec⟩
      · injection hclaim with hfp ht
        subst hfp ht
        exact ⟨i, _, hkey, Function.update_self _ _ _, rfl, rfl, rfl⟩
      · exact old _ hrec
  | answered hkey hrec' hlive hanswer => exact fun key fp t hrec => old _ hrec

theorem Attended.finish (h : Attended req s) {i : ι} {x : Exchange R} {statusCode : Nat}
    (hx : s.exchange i = some x) : Attended req (s.finish i x statusCode) := by
  intro key fp t hrec
  -- The record of the finished request's key is done or gone.
  have hkept : s.store key = some (.inFlight fp t) ∧
      ∀ fp', x.answer ≠ .ok (.run key fp') := by
    cases hans : x.answer with
    | error e =>
        simp only [IdempotencyState.finish, hans] at hrec
        exact ⟨hrec, by simp⟩
    | ok a =>
        cases a with
        | bypass =>
            simp only [IdempotencyState.finish, hans] at hrec
            exact ⟨hrec, by simp⟩
        | replay body =>
            simp only [IdempotencyState.finish, hans] at hrec
            exact ⟨hrec, by simp⟩
        | run key₀ fp₀ =>
            simp only [IdempotencyState.finish, hans] at hrec
            have hne : key ≠ key₀ := by
              rintro rfl
              unfold onFinish at hrec
              split at hrec
              · simp at hrec
              · simp at hrec
            rw [onFinish_writes hne] at hrec
            refine ⟨hrec, fun fp' heq => ?_⟩
            simp only [Except.ok.injEq, Admission.run.injEq] at heq
            exact hne heq.1.symm
  obtain ⟨hrec₀, hother⟩ := hkept
  obtain ⟨j, y, hkey, hy, hopen, hans, hclaim⟩ := h key fp t hrec₀
  have hj : j ≠ i := by
    rintro rfl
    obtain rfl : x = y := Option.some.inj (hx.symm.trans hy)
    exact hother fp hans
  exact ⟨j, y, hkey, (Function.update_of_ne hj _ _).trans hy, hopen, hans, hclaim⟩

theorem Attended.step (h : Attended req s) {e : IdempotencyEvent ι R}
    (hc : SentInFull s e) (hstep : IdempotencyStep fingerprint req s e s') :
    Attended req s' := by
  cases hstep with
  | arrive hnew ht => exact h.arrive hnew
  | commit hx hh => exact h.setExchange hx fun hopen _ _ _ _ => ⟨hopen, rfl, rfl⟩
  | emit hx hh => exact h.setExchange hx fun hopen _ _ _ _ => ⟨hopen, rfl, rfl⟩
  | finish hx hopen => exact h.finish hx
  | @close i x hx hopen =>
      refine h.setExchange hx fun _ key fp hans hrec => ?_
      exact absurd hrec (hc x key fp hx hans)
  | advance ht => exact h

theorem Attended.of_run {clock : Instant}
    (hrun : IdempotencyRun fingerprint req SentInFull (IdempotencyState.init clock) s) :
    Attended req s := by
  induction hrun with
  | refl =>
      intro key fp t hrec
      simp [IdempotencyState.init] at hrec
  | tail _ hstep ih =>
      obtain ⟨e, hc, hnext⟩ := hstep
      exact ih.step hc (IdempotencyState.next_cases hnext)

omit [DecidableEq ι] in
/-- 409 is only answered from an in-flight record. -/
theorem inFlight_of_refused {store : IdempotencyStore R} {r : IdempotencyRequest B}
    {user : Uuid} {rawKey : String} (hr : r.Keyed user rawKey) {now now' : Instant}
    (h : (intercept fingerprint store r now now').2 = .error keyInFlight) :
    ∃ fp t, store (recordKey user rawKey) = some (.inFlight fp t) := by
  unfold intercept at h
  rw [hr.key] at h
  dsimp only [getRecord] at h
  cases hrec : store (recordKey user rawKey) with
  | none => simp [hrec] at h
  | some rec =>
      rw [hrec] at h
      dsimp only at h
      by_cases hexp : rec.expiresAt ≤ now
      · simp [hexp] at h
      · simp only [hexp, if_false] at h
        split at h
        · simp [keyReuse, keyInFlight] at h
        · split at h
          · exact ⟨_, _, rfl⟩
          · simp at h

/-- A close that the condition excludes leaves an orphan: the record is there, and
the request that put it there has ended. -/
theorem close_orphans {i : ι} {x : Exchange R} {key fp : String}
    (hx : s.exchange i = some x) (hopen : x.ended = none)
    (hrec : s.store key = some (x.claim fp)) :
    ∃ s', s.next fingerprint req (.close i) = some s' ∧
      s'.store key = some (x.claim fp) ∧
      s'.exchange i = some { x with ended := some .close } := by
  refine ⟨s.setExchange i { x with ended := some .close }, ?_, hrec,
    Function.update_self _ _ _⟩
  simp only [IdempotencyState.next, hx, hopen, Option.isNone_none, if_true]

/-- In every state of a run in which no request is cut off while its own record
is in flight: where the record of a key is in-flight, a request with that user and
key is open, and a retry that is told so is told the truth. -/
theorem inFlight_attended {clock : Instant}
    (hrun : IdempotencyRun fingerprint req SentInFull (IdempotencyState.init clock) s) :
    (∀ user rawKey fp t, s.store (recordKey user rawKey) = some (.inFlight fp t) →
      ∃ i x, (req i).Keyed user rawKey ∧ s.exchange i = some x ∧ x.ended = none) ∧
    ∀ (r : IdempotencyRequest B) user rawKey now now', r.Keyed user rawKey →
      (intercept fingerprint s.store r now now').2 = .error keyInFlight →
      ∃ i x, (req i).Keyed user rawKey ∧ s.exchange i = some x ∧ x.ended = none := by
  have hopen : ∀ user rawKey fp t,
      s.store (recordKey user rawKey) = some (.inFlight fp t) →
      ∃ i x, (req i).Keyed user rawKey ∧ s.exchange i = some x ∧ x.ended = none := by
    intro user rawKey fp t hrec
    obtain ⟨i, x, hkey, hx, hopen, _, _⟩ := Attended.of_run hrun _ fp t hrec
    obtain ⟨owner, key, hkeyed, heq⟩ := (req i).keyed_of_key hkey
    obtain ⟨rfl, rfl⟩ := recordKey_injective heq
    exact ⟨i, x, hkeyed, hx, hopen⟩
  refine ⟨hopen, fun r user rawKey now now' hr hrefused => ?_⟩
  obtain ⟨fp, t, hrec⟩ := inFlight_of_refused hr hrefused
  exact hopen user rawKey fp t hrec

/-! A run of it: while the first request runs, a retry is refused and its client
goes away. -/

theorem inFlight_attended_retry :
    ∃ s : IdempotencyState (Fin 2) Unit,
      IdempotencyRun id retryRequests SentInFull (IdempotencyState.init 0) s ∧
      s.store (recordKey 1 "order-17") = some (.inFlight "body" TTL_MS) ∧
      ∃ i x, (retryRequests i).Keyed 1 "order-17" ∧ s.exchange i = some x ∧
        x.ended = none := by
  have hrun : IdempotencyRun id retryRequests SentInFull
      (IdempotencyState.init 0 : IdempotencyState (Fin 2) Unit) _ :=
    (((Relation.ReflTransGen.refl
      ).tail ⟨.arrive 0 0, trivial, rfl⟩
      ).tail ⟨.arrive 1 0, trivial, rfl⟩
      ).tail ⟨.close 1, (by
        intro x key fp hx hans
        obtain rfl := Option.some.inj hx
        cases hans), rfl⟩
  exact ⟨_, hrun, rfl, (inFlight_attended hrun).1 1 "order-17" "body" TTL_MS rfl⟩

/-- The handler has committed, the client is gone: the key stays in flight and
nobody is executing anything. -/
theorem committed_then_closed :
    ¬∀ s : IdempotencyState (Fin 2) Unit,
      IdempotencyRun id retryRequests (fun _ _ => True) (IdempotencyState.init 0) s →
      ∀ user rawKey fp t, s.store (recordKey user rawKey) = some (.inFlight fp t) →
        ∃ i x, (retryRequests i).Keyed user rawKey ∧ s.exchange i = some x ∧
          x.ended = none := by
  intro hclaim
  have hrun : IdempotencyRun id retryRequests (fun _ _ => True)
      (IdempotencyState.init 0 : IdempotencyState (Fin 2) Unit) _ :=
    ((((Relation.ReflTransGen.refl
      ).tail ⟨.arrive 0 0, trivial, rfl⟩
      ).tail ⟨.commit 0, trivial, rfl⟩
      ).tail ⟨.emit 0 (), trivial, rfl⟩
      ).tail ⟨.close 0, trivial, rfl⟩
  obtain ⟨i, x, _, hx, hopen⟩ := hclaim _ hrun 1 "order-17" "body" TTL_MS rfl
  match i with
  | 0 =>
      obtain rfl := Option.some.inj hx
      simp at hopen
  | 1 => cases hx

end InvestApi.Ref
