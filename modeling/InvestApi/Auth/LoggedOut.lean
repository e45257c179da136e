import InvestApi.Auth.Denylist
import InvestApi.Auth.Families

/-!
# A token that was logged out

A request reads the clock twice. The library lets the token through while it
has not expired, and the denylist answers for it while it has not expired. Each
of the two is right about its own reading; when the first reading is before the
expiry and the second is not, neither refuses the token. Nor does the denylist
where its `now()` is before the expiry too but its snapshot is not: a logout of
anybody's that began in between has purged the row.

These are the only ways. When a request begins after the logout has committed,
the token is on the list in its snapshot, unless it had expired by then
(`list_sound`). So it is accepted exactly when the expiry falls between the
library's reading and the SELECT, and the token is never accepted again in the
runs in which this happens to no such request.
-/

namespace InvestApi.Ref

open InvestApi.Pg InvestApi.Lts

variable {ι ρ : Type}

/-- A logout with the token `j` was among the first `since` calls to end, and
had committed. -/
def LoggedOut (S : Sessions ι ρ) (j : Uuid) (since : Nat) (w : AuthWorld ι) : Prop :=
  ∃ i now reply, S.calls i = .logout j now ∧
    (i, Finish.committed reply) ∈ w.log.take since

/-- No request that began after a logout of its token is authenticated. -/
def NeverAgain (S : Sessions ι ρ) (s : SessionState ι ρ) : Prop :=
  ∀ r since checkedAt query reply,
    s.phases r = .answered since checkedAt query reply →
      LoggedOut S (S.requests r).jti since s.toWorld → ∀ user, reply ≠ .ok user

/-- No request that began after a logout of its token had the clock read before
the expiry by the library, and then either not before it by Postgres or found
the token's row purged. -/
def OneSide (S : Sessions ι ρ) (s : SessionState ι ρ) : Prop :=
  ∀ r since checkedAt query reply,
    s.phases r = .answered since checkedAt query reply →
      LoggedOut S (S.requests r).jti since s.toWorld →
        ¬(checkedAt < S.claims.expiresAt (S.requests r).jti ∧
          (S.claims.expiresAt (S.requests r).jti ≤ query.now ∨ query.seen = none))

/-- A row that is gone was purged by a logout that began at or after the expiry and
had committed when the snapshot was taken. -/
def PurgedLate (S : Sessions ι ρ) (s : SessionState ι ρ) : Prop :=
  ∀ r since checkedAt query reply,
    s.phases r = .answered since checkedAt query reply →
      LoggedOut S (S.requests r).jti since s.toWorld → query.seen = none →
        ∃ i jti now reply', S.calls i = .logout jti now ∧
          S.claims.expiresAt (S.requests r).jti ≤ now ∧ now ≤ query.seenAt ∧
          (i, Finish.committed reply') ∈ s.log

theorem unexpired_iff_lt (S : Sessions ι ρ) (j : Uuid) (now : Instant) :
    S.jwt.unexpired now (S.claims j).exp = true ↔ now < S.claims.expiresAt j := by
  rw [S.jwt.unexpired_iff]
  exact Int.ediv_lt_iff_lt_mul (by omega)

section Runs

variable [DecidableEq ι] [DecidableEq ρ] {S : Sessions ι ρ} {s s' : SessionState ι ρ}
  {clock : Instant}

/-- What the sessions do among the requests is a run of theirs alone. -/
theorem SessionStep.calls {t : SessionTurn ρ} (h : SessionStep S s t s') :
    s'.toState = s.toState ∨ Step S.system (fun _ _ => True) s.toState s'.toState := by
  cases h with
  | tick h => exact Or.inl rfl
  | call h hnow => exact Or.inr h
  | verify hr => exact Or.inl rfl
  | ask hr => exact Or.inl rfl
  | query hr => exact Or.inl rfl

theorem calls_reach (h : Reachable (SessionStep S) (.boot clock) s) :
    Pg.Reach S.system (State.init Db.empty) s.toState := by
  induction h with
  | refl => exact .refl
  | tail _ hnext ih =>
      obtain ⟨t, _, hstep⟩ := hnext
      rcases hstep.calls with hsame | hstep
      · rw [hsame]
        exact ih
      · exact ih.tail hstep

/-- What has begun began by the clock. -/
def Timed (S : Sessions ι ρ) (s : SessionState ι ρ) : Prop :=
  ∀ i, s.live i ≠ none ∨ i ∈ s.log.map (·.1) → (S.calls i).now ≤ s.clock

omit [DecidableEq ρ] in
theorem Timed.call (h : Timed S s) {a : AuthState ι}
    (hstep : Step S.system (fun _ _ => True) s.toState a)
    (hnow : ∀ i, s.live i = none → a.live i ≠ none → (S.calls i).now = s.clock) :
    Timed S ⟨a, s.clock, s.phases⟩ := by
  -- Whoever has ended was in flight or had ended before.
  have hlog : ∀ i, i ∈ a.log.map (·.1) → s.live i ≠ none ∨ i ∈ s.log.map (·.1) := by
    intro i hi
    cases hstep with
    | start hl hg hd => exact Or.inr hi
    | run hl ht => exact Or.inr hi
    | @commit k reply σ hl hc =>
        simp only [World.commit_log, List.map_append, List.mem_append, List.map_cons,
          List.map_nil, List.mem_singleton] at hi
        rcases hi with hi | rfl
        · exact Or.inr hi
        · exact Or.inl (by simp [hl])
    | @rollback k err σ hl =>
        simp only [World.note_log, List.map_append, List.mem_append, List.map_cons,
          List.map_nil, List.mem_singleton] at hi
        rcases hi with hi | rfl
        · exact Or.inr hi
        · exact Or.inl (by simp [hl])
    | @abort k t hl =>
        simp only [World.note_log, List.map_append, List.mem_append, List.map_cons,
          List.map_nil, List.mem_singleton] at hi
        rcases hi with hi | rfl
        · exact Or.inr hi
        · exact Or.inl (by simp [hl])
  intro i hi
  rcases hi with hlive | hlogged
  · by_cases hold : s.live i = none
    · exact le_of_eq (hnow i hold hlive)
    · exact h i (Or.inl hold)
  · exact h i (hlog i hlogged)

/-- What is known of a SELECT for the token `j`, which had been logged out. -/
structure DenylistQuery.Sound (S : Sessions ι ρ) (w : AuthWorld ι) (j : Uuid)
    (query : DenylistQuery) : Prop where
  dated : ∀ row, query.seen = some row → row.expiresAt = S.claims.expiresAt j
  purged : query.seen = none → ∃ i jti now reply, S.calls i = .logout jti now ∧
    S.claims.expiresAt j ≤ now ∧ now ≤ query.seenAt ∧ (i, Finish.committed reply) ∈ w.log

/-- What is known of a request. `since` counts calls that have ended. -/
def AccessPhase.Sound (S : Sessions ι ρ) (s : SessionState ι ρ) (j : Uuid) :
    AccessPhase → Prop
  | .waiting => True
  | .expired _ _ => True
  | .verified since checkedAt =>
      since ≤ s.log.length ∧ checkedAt < S.claims.expiresAt j
  | .asking since checkedAt now =>
      since ≤ s.log.length ∧ checkedAt < S.claims.expiresAt j ∧ now ≤ s.clock
  | .answered since checkedAt query reply =>
      since ≤ s.log.length ∧ checkedAt < S.claims.expiresAt j ∧ query.now ≤ query.seenAt ∧
        ((∃ user, reply = .ok user) ↔
          ∀ row, query.seen = some row → row.expiresAt ≤ query.now) ∧
        (LoggedOut S j since s.toWorld → query.Sound S s.toWorld j)

structure SessionSound (S : Sessions ι ρ) (s : SessionState ι ρ) : Prop where
  timed : Timed S s
  sound : ∀ r, (s.phases r).Sound S s (S.requests r).jti

omit [DecidableEq ι] [DecidableEq ρ] in
theorem logout_call {i : ι} {user : AuthUser} {now : Instant}
    (h : S.authCall i = .logout user now) :
    S.calls i = .logout user.jti now ∧ user.exp * 1000 = S.claims.expiresAt user.jti := by
  rw [Sessions.authCall] at h
  cases hi : S.calls i with
  | login u f draw => simp [hi, SessionCall.toAuthCall] at h
  | refresh token draw => simp [hi, SessionCall.toAuthCall] at h
  | logout j now' =>
      rw [hi, SessionCall.toAuthCall] at h
      obtain ⟨rfl, rfl⟩ := AuthCall.logout.inj h
      exact ⟨rfl, rfl⟩

/-- A token that was logged out is on the list or has expired. -/
theorem guarded_of_loggedOut (h : Reachable (SessionStep S) (.boot clock) s)
    {j : Uuid} {since : Nat} (hout : LoggedOut S j since s.toWorld) :
    EntryDated j (S.claims.expiresAt j) s.db ∧
      Guarded S.authCall j (S.claims.expiresAt j) s.toWorld := by
  have hlist : ListSound S.authCall j (S.claims.expiresAt j) s.toWorld := by
    refine list_sound (fun i user now hcall hj => ?_) (calls_reach h)
    rw [← hj]
    exact (logout_call hcall).2
  obtain ⟨i, now, reply, hcall, hmem⟩ := hout
  refine ⟨hlist.dated, hlist.guarded i (toAuthUser (S.claims.payload j)) now reply ?_ rfl
    (List.mem_of_mem_take hmem)⟩
  rw [Sessions.authCall, hcall]
  rfl

theorem answer_ok_iff (guard : AccessGuard) (payload : AccessPayload) (revoked : Bool) :
    (∃ user, guard.answer payload revoked = .ok user) ↔ revoked = false := by
  cases revoked with
  | false => simp [AccessGuard.answer]
  | true =>
      cases guard with
      | validate => simp [AccessGuard.answer]
      | verifyAccess => simp [AccessGuard.answer]

theorem not_revoked_iff {d : AuthDb} {j : Uuid} {now : Instant} :
    TokensService.isRevoked d j now = false ↔
      ∀ row, d.get (.deniedJti j) = some row → row.expiresAt ≤ now := by
  rw [TokensService.isRevoked]
  cases d.get (.deniedJti j) with
  | none => simp
  | some row => simp

/-- A snapshot taken now, of a token that was logged out. -/
theorem snapshot_sound (h : Reachable (SessionStep S) (.boot clock) s)
    (htimed : Timed S s) {j : Uuid} {since : Nat} (hout : LoggedOut S j since s.toWorld)
    (now : Instant) :
    DenylistQuery.Sound S s.toWorld j ⟨now, s.clock, s.db.get (.deniedJti j)⟩ := by
  obtain ⟨hdated, hguard⟩ := guarded_of_loggedOut h hout
  refine ⟨hdated, fun hgone => ?_⟩
  -- The row is gone, so a logout that began after the expiry has purged it.
  rcases hguard with hlist | ⟨i, user, began, hcall, hnow, reply, hmem⟩
  · exact absurd hgone hlist
  · have hcall' := (logout_call hcall).1
    have hbegan : (S.calls i).now ≤ s.clock :=
      htimed i (Or.inr (List.mem_map_of_mem (f := Prod.fst) hmem))
    rw [hcall'] at hbegan
    exact ⟨i, user.jti, began, reply, hcall', hnow, hbegan, hmem⟩

omit [DecidableEq ι] [DecidableEq ρ] in
theorem DenylistQuery.Sound.mono {w w' : AuthWorld ι} {j : Uuid} {query : DenylistQuery}
    (h : query.Sound S w j) {more : List (ι × Finish ApiError AuthReply)}
    (hlog : w'.log = w.log ++ more) : query.Sound S w' j := by
  refine ⟨h.dated, fun hgone => ?_⟩
  obtain ⟨i, jti, now, reply, hcall, hlate, hseen, hmem⟩ := h.purged hgone
  refine ⟨i, jti, now, reply, hcall, hlate, hseen, ?_⟩
  rw [hlog]
  exact List.mem_append_left _ hmem

omit [DecidableEq ι] [DecidableEq ρ] in
/-- What is known stays known while time passes and calls go on ending. -/
theorem AccessPhase.Sound.mono {phase : AccessPhase} {j : Uuid}
    (h : phase.Sound S s j) {more : List (ι × Finish ApiError AuthReply)}
    (hlog : s'.log = s.log ++ more) (hclock : s.clock ≤ s'.clock) : phase.Sound S s' j := by
  have hle : ∀ since, since ≤ s.log.length → since ≤ s'.log.length := by
    intro since hsince
    rw [hlog, List.length_append]
    omega
  have htake : ∀ since, since ≤ s.log.length → s'.log.take since = s.log.take since := by
    intro since hsince
    rw [hlog, List.take_append_of_le_length hsince]
  cases phase with
  | waiting => trivial
  | expired since checkedAt => trivial
  | verified since checkedAt => exact ⟨hle since h.1, h.2⟩
  | asking since checkedAt now => exact ⟨hle since h.1, h.2.1, h.2.2.trans hclock⟩
  | answered since checkedAt query reply =>
      obtain ⟨hsince, hchecked, hnow, hreply, hquery⟩ := h
      refine ⟨hle since hsince, hchecked, hnow, hreply, fun hout => ?_⟩
      rw [LoggedOut, htake since hsince] at hout
      exact (hquery hout).mono hlog

omit [DecidableEq ι] in
/-- A request enters a phase; the others see nothing of it. -/
theorem SessionSound.enter (h : SessionSound S s) {r : ρ} {phase : AccessPhase}
    (hphase : phase.Sound S s (S.requests r).jti) :
    SessionSound S { s with phases := Function.update s.phases r phase } := by
  refine ⟨h.timed, fun r' => ?_⟩
  by_cases e : r' = r
  · subst e
    simp only [Function.update_self]
    exact hphase
  · simp only [Function.update_of_ne e]
    exact h.sound r'

theorem SessionSound.step (h : SessionSound S s)
    (hreach : Reachable (SessionStep S) (.boot clock) s) {t : SessionTurn ρ}
    (hstep : SessionStep S s t s') : SessionSound S s' := by
  cases hstep with
  | tick hle =>
      exact ⟨fun i hi => (h.timed i hi).trans hle,
        fun r => (h.sound r).mono (List.append_nil _).symm hle⟩
  | @call a hstep hnow =>
      refine ⟨h.timed.call hstep hnow, fun r => ?_⟩
      have hone : ReachUnder S.system (fun _ _ => True) s.toState a := .single hstep
      obtain ⟨more, hmore⟩ := hone.log_prefix
      exact (h.sound r).mono hmore le_rfl
  | @verify r hr =>
      refine h.enter ?_
      split
      · next hok => exact ⟨Nat.le_refl _, (unexpired_iff_lt S _ _).mp hok⟩
      · trivial
  | @ask r since checkedAt hr =>
      have hverified := h.sound r
      rw [hr] at hverified
      exact h.enter ⟨hverified.1, hverified.2, le_rfl⟩
  | @query r since checkedAt now hr =>
      have hasking := h.sound r
      rw [hr] at hasking
      refine h.enter ⟨hasking.1, hasking.2.1, hasking.2.2, ?_, fun hout => ?_⟩
      · rw [answer_ok_iff]
        exact not_revoked_iff
      · exact snapshot_sound hreach h.timed hout now

theorem SessionSound.reach (h : Reachable (SessionStep S) (.boot clock) s) :
    SessionSound S s := by
  induction h with
  | refl => exact ⟨by simp [Timed, SessionState.boot, State.init], fun _ => trivial⟩
  | tail hr hnext ih =>
      obtain ⟨t, _, hstep⟩ := hnext
      exact ih.step hr hstep

/-- Exactly in the runs whose requests are on one side of the expiry is no token that
was logged out accepted again. -/
theorem loggedOut_never_again_iff (h : Reachable (SessionStep S) (.boot clock) s) :
    (NeverAgain S s ↔ OneSide S s) ∧ PurgedLate S s := by
  have hsound : SessionSound S s := .reach h
  -- What is known of an answer to a request that began after the logout.
  have hanswer : ∀ {r since checkedAt query reply},
      s.phases r = .answered since checkedAt query reply →
      LoggedOut S (S.requests r).jti since s.toWorld →
        checkedAt < S.claims.expiresAt (S.requests r).jti ∧
          query.Sound S s.toWorld (S.requests r).jti ∧
          ((∃ user, reply = .ok user) ↔
            S.claims.expiresAt (S.requests r).jti ≤ query.now ∨ query.seen = none) := by
    intro r since checkedAt query reply hr hout
    have hr' := hsound.sound r
    rw [hr] at hr'
    obtain ⟨-, hchecked, -, hreply, hquery⟩ := hr'
    refine ⟨hchecked, hquery hout, hreply.trans ?_⟩
    cases hseen : query.seen with
    | none => simp
    | some row => simp [(hquery hout).dated row hseen]
  refine ⟨⟨?_, ?_⟩, ?_⟩
  · intro hnever r since checkedAt query reply hr hout hsides
    obtain ⟨user, hok⟩ := (hanswer hr hout).2.2.mpr hsides.2
    exact hnever r since checkedAt query reply hr hout user hok
  · intro hside r since checkedAt query reply hr hout user hok
    obtain ⟨hchecked, _, hiff⟩ := hanswer hr hout
    exact hside r since checkedAt query reply hr hout ⟨hchecked, hiff.mp ⟨user, hok⟩⟩
  · intro r since checkedAt query reply hr hout hgone
    exact (hanswer hr hout).2.1.purged hgone

end Runs

/-! ## Two runs

A login, its logout, and then a request with the same token: right after the
logout, and in the last millisecond before the expiry. -/

def sampleSessions : Sessions (Fin 2) (Fin 1) where
  env := sampleAuthEnv
  jwt := ⟨fun now exp => decide (now / 1000 < exp), fun _ _ => decide_eq_true_iff⟩
  claims _ := ⟨1, .member, 5, 600⟩
  calls
    | 0 => .login ⟨1, .member⟩ 5 ⟨0, "r1", 11⟩
    | 1 => .logout 11 1000
  requests _ := ⟨.validate, 11⟩

/-- A schedule of the sessions: time, turns of the calls, the two looks. -/
inductive SessionMove (n : Nat) where
  | tick (clock : Instant)
  | call (turn : Turn (Fin n))
  | verify
  | ask
  | query

/-- A turn as a function, where it is possible. -/
def SessionState.fire {n : Nat} (S : Sessions (Fin n) (Fin 1))
    (s : SessionState (Fin n) (Fin 1)) : SessionMove n → Option (SessionState (Fin n) (Fin 1))
  | .tick clock => if s.clock ≤ clock then some { s with clock := clock } else none
  | .call turn =>
      match Pg.fire S.system s.toState turn with
      | some a =>
          if ∀ i, (s.live i).isNone = true → (a.live i).isSome = true →
              (S.calls i).now = s.clock then some ⟨a, s.clock, s.phases⟩
          else none
      | none => none
  | .verify =>
      match s.phases 0 with
      | .waiting => some (s.verify S 0)
      | _ => none
  | .ask =>
      match s.phases 0 with
      | .verified since checkedAt => some (s.ask 0 since checkedAt)
      | _ => none
  | .query =>
      match s.phases 0 with
      | .asking since checkedAt now => some (s.query S 0 since checkedAt now)
      | _ => none

theorem SessionState.fire_sound {n : Nat} {S : Sessions (Fin n) (Fin 1)}
    (s : SessionState (Fin n) (Fin 1)) (t : SessionMove n)
    (s' : SessionState (Fin n) (Fin 1)) (h : s.fire S t = some s') :
    Next (SessionStep S) (fun _ _ => True) s s' := by
  cases t with
  | tick clock =>
      simp only [SessionState.fire] at h
      split at h
      · next hle => exact Option.some.inj h ▸ ⟨.tick, trivial, .tick hle⟩
      · simp at h
  | call turn =>
      simp only [SessionState.fire] at h
      split at h
      · next a ha =>
          split at h
          · next hnow =>
              refine Option.some.inj h ▸ ⟨.call, trivial, .call ?_ fun i hnone hsome => ?_⟩
              · exact Pg.fire_sound (fun _ => trivial) ha
              · exact hnow i (by simp [hnone]) (Option.isSome_iff_ne_none.mpr hsome)
          · simp at h
      · simp at h
  | verify =>
      simp only [SessionState.fire] at h
      split at h
      · next hr => exact Option.some.inj h ▸ ⟨.verify 0, trivial, .verify hr⟩
      · simp at h
  | ask =>
      simp only [SessionState.fire] at h
      split at h
      · next since checkedAt hr =>
          exact Option.some.inj h ▸ ⟨.ask 0, trivial, .ask hr⟩
      · simp at h
  | query =>
      simp only [SessionState.fire] at h
      split at h
      · next since checkedAt now hr =>
          exact Option.some.inj h ▸ ⟨.query 0, trivial, .query hr⟩
      · simp at h

/-- Call `i` from its BEGIN to its COMMIT, in `n` statements. -/
def wholeCall {m : Nat} (i : Fin m) (n : Nat) : List (SessionMove m) :=
  [.call (.start i)] ++ List.replicate n (.call (.run i)) ++ [.call (.finish i)]

/-- Up to the logout's COMMIT. -/
def untilLogout : List (SessionMove 2) := wholeCall 0 1 ++ [.tick 1000] ++ wholeCall 1 6

def acceptedUser : AuthUser := ⟨1, .member, 11, 5, 600⟩

/-- The only request began after two calls, and was refused. -/
def refusedAt (s : SessionState (Fin 2) (Fin 1)) (checkedAt now : Instant) : Bool :=
  match s.phases 0 with
  | .answered since checkedAt' query (.error _) =>
      decide (since = 2 ∧ s.log.map (·.1) = [0, 1] ∧ checkedAt' = checkedAt ∧ query.now = now)
  | _ => false

theorem loggedOut_never_again_iff_soon :
    ∃ s, Reachable (SessionStep sampleSessions) (.boot 0) s ∧
      ((NeverAgain sampleSessions s ↔ OneSide sampleSessions s) ∧
        PurgedLate sampleSessions s) ∧ refusedAt s 2000 2000 = true := by
  have hrun : (follow (SessionState.fire sampleSessions)
      (untilLogout ++ [.tick 2000, .verify, .ask, .query]) (.boot 0)).any
        (fun s => refusedAt s 2000 2000) = true := by
    decide +kernel
  obtain ⟨s, hr, hp⟩ := exists_follow SessionState.fire_sound _ _ _ hrun
  exact ⟨s, hr, loggedOut_never_again_iff hr, hp⟩

/-- Call `i` had committed when the only request began, and the request was
accepted. -/
def acceptedAfter {n : Nat} (i : Fin n) (s : SessionState (Fin n) (Fin 1)) : Bool :=
  match s.phases 0 with
  | .answered since _ _ (.ok _) =>
      (s.log.take since).any fun entry => decide (entry.1 = i) &&
        match entry.2 with
        | .committed _ => true
        | _ => false
  | _ => false

theorem not_neverAgain {n : Nat} {S : Sessions (Fin n) (Fin 1)} {i : Fin n} {now : Instant}
    (hcall : S.calls i = .logout (S.requests 0).jti now) {s : SessionState (Fin n) (Fin 1)}
    (h : acceptedAfter i s = true) : ¬NeverAgain S s := by
  intro hnever
  rw [acceptedAfter] at h
  split at h
  · next since checkedAt query user hphase =>
      obtain ⟨⟨k, f⟩, hmem, hk⟩ := List.any_eq_true.mp h
      obtain ⟨hi, hf⟩ := Bool.and_eq_true_iff.mp hk
      obtain rfl : k = i := of_decide_eq_true hi
      cases f with
      | committed reply =>
          exact hnever 0 since checkedAt query _ hphase ⟨k, now, reply, hcall, hmem⟩ user rfl
      | raised e => simp at hf
      | aborted => simp at hf
  · simp at h

/-- A second user, who logs out when the first one's token has just expired. -/
def purgingSessions : Sessions (Fin 4) (Fin 1) where
  env := { sampleAuthEnv with users := [⟨1, .member⟩, ⟨2, .member⟩] }
  jwt := sampleSessions.jwt
  claims jti := if jti = 11 then ⟨1, .member, 5, 600⟩ else ⟨2, .member, 6, 601⟩
  calls
    | 0 => .login ⟨1, .member⟩ 5 ⟨0, "r1", 11⟩
    | 1 => .logout 11 1000
    | 2 => .login ⟨2, .member⟩ 6 ⟨1000, "r2", 12⟩
    | 3 => .logout 12 600000
  requests _ := ⟨.validate, 11⟩

/-- The library looks at 599.999 s and Postgres at 600 s; or Postgres too looks at
599.999 s, and the row is purged before its snapshot. -/
theorem loggedOut_accepted_again :
    (¬∀ s, Reachable (SessionStep sampleSessions) (.boot 0) s →
      NeverAgain sampleSessions s) ∧
    ¬∀ s, Reachable (SessionStep purgingSessions) (.boot 0) s →
      NeverAgain purgingSessions s := by
  constructor
  · intro hclaim
    have hrun : (follow (SessionState.fire sampleSessions)
        (untilLogout ++ [.tick 599999, .verify, .tick 600000, .ask, .query])
        (.boot 0)).any (acceptedAfter 1) = true := by
      decide +kernel
    obtain ⟨s, hr, hp⟩ := exists_follow SessionState.fire_sound _ _ _ hrun
    exact not_neverAgain rfl hp (hclaim s hr)
  · intro hclaim
    have hrun : (follow (SessionState.fire purgingSessions)
        (wholeCall 0 1 ++ [.tick 1000] ++ wholeCall 1 6 ++ wholeCall 2 1 ++
          [.tick 599999, .verify, .ask, .tick 600000] ++ wholeCall 3 7 ++ [.query])
        (.boot 0)).any (acceptedAfter 1) = true := by
      decide +kernel
    obtain ⟨s, hr, hp⟩ := exists_follow SessionState.fire_sound _ _ _ hrun
    exact not_neverAgain rfl hp (hclaim s hr)

end InvestApi.Ref
