import InvestApi.Api.Joins

/-!
# Whose rows change

From the token to the COMMIT. A call of the ledger begins behind the guards, so
somebody's token was accepted for it, in the role the route asks for; what the
call writes is its caller's. So if anything of a user's has changed, a call has
committed that began with an accepted token of that user. The checkout is the
exception, being a script: it takes whatever account it is given.
-/

namespace InvestApi.Ref

open InvestApi.Pg InvestApi.Lts InvestApi.Isolation

variable {κ ρ ι σ : Type}

/-- The token of the request `r` has been accepted, and `user` is what it says.
It had not expired when the library looked, and if it was logged out before the
request began, it had when Postgres did. -/
structure Accepted (S : Sessions κ ρ) (s : SessionState κ ρ) (r : ρ) (user : AuthUser) :
    Prop where
  user_eq : user = toAuthUser (S.claims.payload (S.requests r).jti)
  looks : ∃ since checkedAt query,
    s.phases r = .answered since checkedAt query (.ok user) ∧
      checkedAt < S.claims.expiresAt (S.requests r).jti ∧
      (LoggedOut S (S.requests r).jti since s.toWorld →
        S.claims.expiresAt (S.requests r).jti ≤ query.seenAt)

section Sessions

variable [DecidableEq κ] [DecidableEq ρ] {S : Sessions κ ρ} {s s' : SessionState κ ρ}
  {clock : Instant} {r : ρ} {user : AuthUser} {since : Nat} {checkedAt : Instant}
  {query : DenylistQuery} {reply : Except ApiError AuthUser}

theorem answer_ok {guard : AccessGuard} {payload : AccessPayload} {revoked : Bool}
    (h : guard.answer payload revoked = .ok user) : user = toAuthUser payload := by
  cases revoked with
  | false => exact (Except.ok.inj h).symm
  | true =>
      cases guard with
      | validate => simp [AccessGuard.answer] at h
      | verifyAccess => simp [AccessGuard.answer] at h

/-- The user of a request is the one its token was signed for. -/
theorem answered_user (h : Reachable (SessionStep S) (.boot clock) s)
    (hr : s.phases r = .answered since checkedAt query (.ok user)) :
    user = toAuthUser (S.claims.payload (S.requests r).jti) := by
  induction h generalizing since checkedAt query with
  | refl => simp [SessionState.boot] at hr
  | tail _ hnext ih =>
      obtain ⟨t, _, hstep⟩ := hnext
      cases hstep with
      | tick h => exact ih hr
      | call h hnow => exact ih hr
      | @verify r' hr' =>
          by_cases e : r = r'
          · subst e
            simp only [SessionState.verify, Function.update_self] at hr
            split at hr
            · simp at hr
            · simp at hr
          · simp only [SessionState.verify, Function.update_of_ne e] at hr
            exact ih hr
      | @ask r' since' checkedAt' hr' =>
          by_cases e : r = r'
          · subst e
            simp [SessionState.ask] at hr
          · simp only [SessionState.ask, Function.update_of_ne e] at hr
            exact ih hr
      | @query r' since' checkedAt' now hr' =>
          by_cases e : r = r'
          · subst e
            simp only [SessionState.query, Function.update_self,
              AccessPhase.answered.injEq] at hr
            exact answer_ok hr.2.2.2
          · simp only [SessionState.query, Function.update_of_ne e] at hr
            exact ih hr

theorem accepted_of_answered (h : Reachable (SessionStep S) (.boot clock) s)
    (hr : s.phases r = .answered since checkedAt query (.ok user)) :
    Accepted S s r user := by
  have hsound := (SessionSound.reach h).sound r
  rw [hr] at hsound
  obtain ⟨_, hchecked, hnow, hreply, hquery⟩ := hsound
  refine ⟨answered_user h hr, since, checkedAt, query, hr, hchecked, fun hout => ?_⟩
  -- Either the row had expired, or it was gone.
  cases hseen : query.seen with
  | none =>
      obtain ⟨_, _, now, _, _, hlate, hbegan, _⟩ := (hquery hout).purged hseen
      exact hlate.trans hbegan
  | some row =>
      have hrow := hreply.mp ⟨user, rfl⟩ row hseen
      rw [(hquery hout).dated row hseen] at hrow
      exact hrow.trans hnow

/-- An answer is given once. -/
theorem answered_stays {t : SessionTurn ρ} (h : SessionStep S s t s')
    (hr : s.phases r = .answered since checkedAt query reply) :
    s'.phases r = .answered since checkedAt query reply := by
  cases h with
  | tick h => exact hr
  | call h hnow => exact hr
  | @verify r' hr' =>
      by_cases e : r = r'
      · subst e
        simp [hr] at hr'
      · simpa [SessionState.verify, e] using hr
  | @ask r' since' checkedAt' hr' =>
      by_cases e : r = r'
      · subst e
        simp [hr] at hr'
      · simpa [SessionState.ask, e] using hr
  | @query r' since' checkedAt' now hr' =>
      by_cases e : r = r'
      · subst e
        simp [hr] at hr'
      · simpa [SessionState.query, e] using hr

end Sessions

/-! ## Behind the guards -/

/-- A call that has a route asks for a token and for a member. -/
theorem LedgerCall.route_metadata {c : LedgerCall} {route : Route} (h : c.route = some route) :
    route.metadata = ⟨false, some [.member]⟩ := by
  cases c with
  | createAccount input user id now => exact Option.some.inj h ▸ rfl
  | createTransactions input user ids now => exact Option.some.inj h ▸ rfl
  | changeStatus orderId status user => exact Option.some.inj h ▸ rfl
  | checkout request draw => simp [LedgerCall.route] at h

/-- The two guards one after the other. -/
theorem guards_ok {route : Route} {passport : Passport} {caller : Option AuthUser}
    (hmeta : route.metadata = ⟨false, some [.member]⟩) (h : guards route passport = .ok caller) :
    ∃ user, caller = some user ∧ passport = .user user ∧ user.role = .member := by
  rw [guards, hmeta] at h
  cases passport with
  | error err => cases h
  | info message => cases h
  | user user =>
      change (RolesGuard.canActivate ⟨false, some [.member]⟩ (some user)).bind _ = _ at h
      by_cases hrole : user.role = .member
      · have hok : RolesGuard.canActivate ⟨false, some [.member]⟩ (some user) = .ok () := by
          simp [RolesGuard.canActivate, hrole]
        rw [hok] at h
        exact ⟨user, (Except.ok.inj h).symm, rfl, hrole⟩
      · have hno : RolesGuard.canActivate ⟨false, some [.member]⟩ (some user)
            = .error (.problem 403 "forbidden-role" ("requires role " ++
              " or ".intercalate ([Role.member].map Role.text))) := by
          simp [RolesGuard.canActivate, hrole]
        rw [hno] at h
        cases h

theorem passport_user {phase : AccessPhase} {user : AuthUser}
    (h : phase.passport = some (.user user)) :
    ∃ since checkedAt query, phase = .answered since checkedAt query (.ok user) := by
  cases phase with
  | waiting => simp [AccessPhase.passport] at h
  | expired since checkedAt => simp [AccessPhase.passport] at h
  | verified since checkedAt => simp [AccessPhase.passport] at h
  | asking since checkedAt now => simp [AccessPhase.passport] at h
  | answered since checkedAt query reply =>
      cases reply with
      | error err => simp [AccessPhase.passport] at h
      | ok user' =>
          simp only [AccessPhase.passport, Option.some.injEq, Passport.user.injEq] at h
          exact ⟨since, checkedAt, query, by rw [h]⟩

/-- Call `i` has been let through for a member. -/
def Admitted (A : Api κ ρ ι σ) (s : ApiWorld κ ρ ι σ) (i : ι) : Prop :=
  (A.calls i).route ≠ none → ∃ user since checkedAt query,
    (A.calls i).user = some user ∧ user.role = .member ∧
      s.sessions.phases (A.request i) = .answered since checkedAt query (.ok user)

theorem Api.MayStart.admitted {A : Api κ ρ ι σ} {s : ApiWorld κ ρ ι σ} {i : ι}
    (h : A.MayStart s i) : Admitted A s i := by
  intro hroute
  obtain ⟨route, hroute⟩ := Option.ne_none_iff_exists'.mp hroute
  obtain ⟨_, passport, hpass, hguards⟩ := h route hroute
  obtain ⟨user, huser, rfl, hrole⟩ := guards_ok (LedgerCall.route_metadata hroute) hguards
  obtain ⟨since, checkedAt, query, hphase⟩ := passport_user hpass
  exact ⟨user, since, checkedAt, query, huser, hrole, hphase⟩

/-! ## Runs -/

section Runs

variable [DecidableEq κ] [DecidableEq ρ] [DecidableEq ι] [DecidableEq σ]
  {A : Api κ ρ ι σ} {s s' s₁ s₂ : ApiWorld κ ρ ι σ} {t : ApiTurn ρ ι σ}
  {clock : Instant} {d : LedgerDb} {i : ι}

theorem Admitted.step (h : Admitted A s i) (hstep : ApiStep A s t s') : Admitted A s' i := by
  intro hroute
  obtain ⟨user, since, checkedAt, query, huser, hrole, hphase⟩ := h hroute
  refine ⟨user, since, checkedAt, query, huser, hrole, ?_⟩
  rcases hstep.sessions with hsame | ⟨t', hs⟩
  · rw [hsame]
    exact hphase
  · exact answered_stays hs hphase

/-- Whoever has begun was let through. -/
def AllAdmitted (A : Api κ ρ ι σ) (s : ApiWorld κ ρ ι σ) : Prop :=
  ∀ i, s.events.ledger.live i ≠ none ∨ i ∈ s.events.ledger.log.map (·.1) → Admitted A s i

theorem AllAdmitted.step (h : AllAdmitted A s) (hstep : ApiStep A s t s') :
    AllAdmitted A s' := by
  intro i hi
  by_cases hbegun : s.events.ledger.live i ≠ none ∨ i ∈ s.events.ledger.log.map (·.1)
  · exact (h i hbegun).step hstep
  · -- A call begins at a step of the ledger, past the guards.
    rcases hstep.ledger with hsame | hled
    · rw [hsame] at hi
      exact absurd hi hbegun
    · rcases hled.begun_cases hi with hold | ⟨hnone, hlive⟩
      · exact absurd hold hbegun
      · cases hstep with
        | session h => exact absurd hnone hlive
        | event h hstart => exact Admitted.step (hstart i hnone hlive).admitted (.event h hstart)
        | enter hr hm hguard hverdict => exact absurd hnone hlive
        | query hr => exact absurd hnone hlive
        | fault hr => exact absurd hnone hlive
        | refuse hr => exact absurd hnone hlive
        | join hr hm => exact absurd hnone hlive
        | disconnect => exact absurd hnone hlive

theorem allAdmitted_of_reach (h : Reachable (ApiStep A) (.boot clock d) s) :
    AllAdmitted A s := by
  refine h.invariant ?_ fun s t s' ih _ hstep => ih.step hstep
  intro i hi
  simp [ApiWorld.boot, EventWorld.boot, State.init] at hi

/-- Call `i` was made for user `u` by somebody whose token was accepted. -/
def AskedBy (A : Api κ ρ ι σ) (s : ApiWorld κ ρ ι σ) (u : Uuid) (i : ι) : Prop :=
  ∃ user, (A.calls i).user = some user ∧ user.id = u ∧ user.role = .member ∧
    Accepted A.sessions s.sessions (A.request i) user

theorem askedBy_of_ended (h : Reachable (ApiStep A) (.boot clock d) s)
    (hi : i ∈ s.events.ledger.log.map (·.1)) (hroute : (A.calls i).route ≠ none)
    {user : AuthUser} (huser : (A.calls i).user = some user) : AskedBy A s user.id i := by
  obtain ⟨user', since, checkedAt, query, huser', hrole, hphase⟩ :=
    allAdmitted_of_reach h i (Or.inr hi) hroute
  obtain rfl := Option.some.inj (huser.symm.trans huser')
  exact ⟨user, huser, rfl, hrole, accepted_of_answered (sessions_reach h) hphase⟩

/-- Call `i` is a checkout of an account of user `u`. -/
def ChecksOut (A : Api κ ρ ι σ) (s : ApiWorld κ ρ ι σ) (u : Uuid) (i : ι) : Prop :=
  ∃ request draw a, A.calls i = .checkout request draw ∧
    pgUuidIn request.accountId = some a ∧ Owns s.db u a

/-- A call that is not another user's. -/
theorem not_byOther {u : Uuid} {d : LedgerDb} {c : LedgerCall} (h : ¬ByOther u d c) :
    (∃ user, c.user = some user ∧ c.route ≠ none ∧ user.id = u) ∨
      ∃ request draw a, c = .checkout request draw ∧ pgUuidIn request.accountId = some a ∧
        Owns d u a := by
  cases c with
  | createAccount input user id now =>
      exact Or.inl ⟨user, rfl, by simp [LedgerCall.route], not_not.mp h⟩
  | createTransactions input user ids now =>
      exact Or.inl ⟨user, rfl, by simp [LedgerCall.route], not_not.mp h⟩
  | changeStatus orderId status user =>
      exact Or.inl ⟨user, rfl, by simp [LedgerCall.route], not_not.mp h⟩
  | checkout request draw =>
      simp only [ByOther, not_forall, not_not] at h
      obtain ⟨a, ha, hown⟩ := h
      exact Or.inr ⟨request, draw, a, rfl, ha, hown⟩

theorem reachable_trans (h₁ : Reachable (ApiStep A) (.boot clock d) s₁)
    (h : Reachable (ApiStep A) s₁ s) : Reachable (ApiStep A) (.boot clock d) s :=
  Relation.ReflTransGen.trans h₁ h

/-- The last step of a run leaves the rows of `u`, or commits a call of theirs. -/
theorem ApiStep.rows {u : Uuid} (hlink : Linked d)
    (hs : Reachable (ApiStep A) (.boot clock d) s) (hstep : ApiStep A s t s') :
    SameRows u s.db s'.db ∨ ∃ i reply, ¬ByOther u s.db (A.calls i) ∧
      s'.events.ledger.log = s.events.ledger.log ++ [(i, .committed reply)] := by
  rcases hstep.ledger with hsame | hled
  · left
    rw [ApiWorld.db, ApiWorld.db, hsame]
    exact .refl _
  · rcases wroteOwn_of_step hlink (ledger_reach hs) hled with
      hsame | ⟨i, r, ws, _, hdb, hlog, hwrote⟩
    · left
      rw [ApiWorld.db, ApiWorld.db, hsame]
      exact .refl _
    · by_cases hother : ByOther u s.db (A.calls i)
      · left
        rw [ApiWorld.db, ApiWorld.db, hdb]
        exact sameRows_elsewhere (hwrote.elsewhere hother)
      · exact Or.inr ⟨i, r, hother, hlog⟩

theorem ApiStep.log (h : ApiStep A s t s') :
    ∃ more, s'.events.ledger.log = s.events.ledger.log ++ more := by
  rcases h.ledger with hsame | hled
  · exact ⟨[], by rw [hsame, List.append_nil]⟩
  · exact ReachUnder.log_prefix (.single hled)

theorem rows_of_run {u : Uuid} (hlink : Linked d)
    (h₁ : Reachable (ApiStep A) (.boot clock d) s₁) (hrun : Reachable (ApiStep A) s₁ s₂) :
    ∃ more, s₂.events.ledger.log = s₁.events.ledger.log ++ more ∧
      (SameRows u s₁.db s₂.db ∨ ∃ i reply d', (i, .committed reply) ∈ more ∧
        Keeps d' s₂.db ∧ ¬ByOther u d' (A.calls i)) := by
  induction hrun with
  | refl => exact ⟨[], (List.append_nil _).symm, Or.inl (.refl _)⟩
  | @tail mid last hmid hnext ih =>
      obtain ⟨t, _, hstep⟩ := hnext
      obtain ⟨more, hmore, hcase⟩ := ih
      have hs : Reachable (ApiStep A) (.boot clock d) mid := reachable_trans h₁ hmid
      have hkeeps : Keeps mid.db last.db := hstep.keeps hlink hs
      obtain ⟨new, hnew⟩ := hstep.log
      refine ⟨more ++ new, by rw [hnew, hmore, List.append_assoc], ?_⟩
      rcases hcase with hsame | ⟨i, reply, d', hmem, hkept, hmine⟩
      · rcases hstep.rows (u := u) hlink hs with hrows | ⟨i, reply, hmine, hlog⟩
        · exact Or.inl (hsame.trans hrows)
        · rw [hlog] at hnew
          have hmem : (i, Finish.committed reply) ∈ new := by
            rw [← List.append_cancel_left hnew]
            exact List.mem_singleton_self _
          exact Or.inr ⟨i, reply, mid.db, List.mem_append_right _ hmem, hkeeps, hmine⟩
      · exact Or.inr ⟨i, reply, d', List.mem_append_left _ hmem, hkept.trans hkeeps, hmine⟩

/-- If anything of a user's has changed, a call has committed meanwhile that began
with an accepted token of that user, or a checkout of an account of theirs. -/
theorem changed_rows_were_asked_for {u : Uuid} (hlink : Linked d)
    (h₁ : Reachable (ApiStep A) (.boot clock d) s₁) (hrun : Reachable (ApiStep A) s₁ s₂)
    (hchanged : ¬SameRows u s₁.db s₂.db) :
    ∃ i reply more, s₂.events.ledger.log = s₁.events.ledger.log ++ more ∧
      (i, .committed reply) ∈ more ∧ (AskedBy A s₂ u i ∨ ChecksOut A s₂ u i) := by
  obtain ⟨more, hmore, hcase⟩ := rows_of_run (u := u) hlink h₁ hrun
  rcases hcase with hsame | ⟨i, reply, d', hmem, hkeeps, hmine⟩
  · exact absurd hsame hchanged
  · refine ⟨i, reply, more, hmore, hmem, ?_⟩
    rcases not_byOther hmine with ⟨user, huser, hroute, hid⟩ | ⟨request, draw, a, hi, ha, hown⟩
    · have hended : i ∈ s₂.events.ledger.log.map (·.1) := by
        rw [hmore, List.map_append]
        exact List.mem_append_right _ (List.mem_map_of_mem (f := Prod.fst) hmem)
      exact Or.inl (hid ▸ askedBy_of_ended (reachable_trans h₁ hrun) hended hroute huser)
    · exact Or.inr ⟨request, draw, a, hi, ha, hkeeps.owns hown⟩

end Runs

/-! The owner marks the order failed, and loses its 50. -/

def failing : List (ApiMove (Fin 2) (Fin 1)) :=
  let ledger (turn : Turn (Fin 1)) : ApiMove (Fin 2) (Fin 1) := .event (.ledger turn)
  [.verify 1, .ask 1, .check 1, ledger (.start 0)] ++ List.replicate 9 (ledger (.run 0))
    ++ [ledger (.finish 0)]

theorem changed_rows_were_asked_for_failed :
    ∃ s : ApiWorld (Fin 2) (Fin 2) (Fin 1) (Fin 1),
      Reachable (ApiStep sampleApi) (.boot 0 orderDb) s ∧ ¬SameRows 1 orderDb s.db ∧
      ∃ i reply more, s.events.ledger.log = [] ++ more ∧ (i, .committed reply) ∈ more ∧
        (AskedBy sampleApi s 1 i ∨ ChecksOut sampleApi s 1 i) := by
  have hrun : (follow (ApiWorld.fire sampleApi) failing (.boot 0 orderDb)).any
      (fun s => (s.db.get (.account 7)).map (·.balanceCents) = some 250) = true := by
    decide +kernel
  obtain ⟨s, hr, hp⟩ := exists_follow sampleApi_next _ _ _ hrun
  have hchanged : ¬SameRows 1 orderDb s.db := by
    intro hsame
    have hold : orderDb.get (.account 7) = some ⟨1, "UAH", "cash", .cash, 300, false, 0⟩ := by
      simp [orderDb, sampleDb]
    rw [(hsame.account 7 _ rfl).mp hold] at hp
    simp at hp
  exact ⟨s, hr, hchanged, changed_rows_were_asked_for linked_orderDb .refl hr hchanged⟩

end InvestApi.Ref
