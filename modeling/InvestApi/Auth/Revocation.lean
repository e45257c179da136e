import InvestApi.Auth.Families

/-!
# Revoking a family

The UPDATE of `revokeFamily` works on the rows its snapshot shows. A refresh
that has locked its token earlier can insert a successor after that snapshot
and commit while the UPDATE waits for the token's row, and the successor is
then a live token of a revoked family.

That is the only way. In the runs in which no commit adds a row to a family
while a revocation of it is under way (`Quiet`), a committed revocation leaves
every row of the family revoked, and from then on nothing can bring a live one
back: a new row needs a live row of its family to be spent, or a family that
has no row yet.
-/

namespace InvestApi.Ref

open InvestApi.Pg

variable {ι : Type} {env : AuthEnv} {calls : ι → AuthCall}

/-- A family that has tokens, all of them revoked. -/
structure Dead (f : Uuid) (d : AuthDb) : Prop where
  some_row : ¬NoneOf d f
  revoked : Sealed f d

theorem Effect.someRow {d d' : AuthDb} {call : AuthCall} {reply : AuthReply}
    (h : Effect env d d' call reply) {f : Uuid} (hf : ¬NoneOf d f) :
    ¬NoneOf d' f := by
  intro hnone
  refine hf fun k row hrow hfam => ?_
  obtain ⟨row', hrow', hage⟩ := h.kept k row hrow
  exact hnone k row' hrow' (hage.family.trans hfam)

theorem Effect.dead {d d' : AuthDb} {call : AuthCall} {reply : AuthReply}
    (h : Effect env d d' call reply) {f : Uuid} (hd : Dead f d) : Dead f d' where
  some_row := h.someRow hd.some_row
  revoked k row' hrow' hfam := by
    obtain ⟨row, hrow, hage⟩ | ⟨_, _, hlogin | hrefresh⟩ := h.row hrow'
    · exact hage.revoked (hd.revoked k row hrow (hage.family.symm.trans hfam))
    · obtain ⟨_, _, _, hnone⟩ := hlogin
      rw [hfam] at hnone
      exact absurd hnone hd.some_row
    · obtain ⟨t, spent, hspent, hlive, hsfam, _⟩ := hrefresh
      exact absurd hlive.2 (hd.revoked t spent hspent (hsfam.trans hfam))

/-- `later` has no pair for a token of family `f`. -/
def NoPairOf (env : AuthEnv) (calls : ι → AuthCall) (f : Uuid) (d : AuthDb)
    (later : List (ι × Finish ApiError AuthReply)) : Prop :=
  ∀ j token draw pair, calls j = .refresh token draw →
    (j, .committed (.pair pair)) ∈ later →
      ∃ row, d.get (.refreshToken (env.hashRefresh token)) = some row ∧
        row.familyId ≠ f

theorem NoPairOf.kept {f : Uuid} {d d' : AuthDb}
    {later : List (ι × Finish ApiError AuthReply)} (h : NoPairOf env calls f d later)
    (hkept : Kept d d') : NoPairOf env calls f d' later := by
  intro j token draw pair hcall hmem
  obtain ⟨row, hrow, hfam⟩ := h j token draw pair hcall hmem
  obtain ⟨row', hrow', hage⟩ := hkept _ row hrow
  exact ⟨row', hrow', by rw [hage.family]; exact hfam⟩

theorem NoPairOf.concat {f : Uuid} {d : AuthDb}
    {later : List (ι × Finish ApiError AuthReply)} (h : NoPairOf env calls f d later)
    {entry : ι × Finish ApiError AuthReply}
    (hentry : NoPairOf env calls f d [entry]) :
    NoPairOf env calls f d (later ++ [entry]) := by
  intro j token draw pair hcall hmem
  rcases List.mem_append.mp hmem with hmem | hmem
  · exact h j token draw pair hcall hmem
  · exact hentry j token draw pair hcall hmem

/-- After the log `base` the family is dead and stays silent. -/
def Silent (env : AuthEnv) (calls : ι → AuthCall) (f : Uuid)
    (base : List (ι × Finish ApiError AuthReply)) (w : AuthWorld ι) : Prop :=
  Dead f w.db ∧ ∃ later, w.log = base ++ later ∧ NoPairOf env calls f w.db later

theorem Silent.step {f : Uuid} {base : List (ι × Finish ApiError AuthReply)}
    {w w' : AuthWorld ι} (h : Silent env calls f base w)
    (hw : Ends (fun _ => True) (fun _ _ => True)
      (fun i => Ended True env (calls i)) (fun _ _ _ _ => True) w w') :
    Silent env calls f base w' := by
  obtain ⟨hdead, later, hlog, hno⟩ := h
  have quiet : ∀ {i : ι} {e : Finish ApiError AuthReply}, (∀ r, e ≠ .committed r) →
      Silent env calls f base (w.note i e) := by
    intro i e he
    refine ⟨hdead, later ++ [(i, e)], ?_, hno.concat ?_⟩
    · rw [World.note_log, hlog, List.append_assoc]
    · intro j token draw pair _ hmem
      rw [List.mem_singleton] at hmem
      injection hmem with _ hmem
      exact absurd hmem.symm (he _)
  cases hw with
  | @commit i r σ _ _ hq =>
      refine ⟨hq.effect.dead hdead, later ++ [(i, .committed r)], ?_, ?_⟩
      · rw [World.commit_log, hlog, List.append_assoc]
      · refine (hno.kept hq.effect.kept).concat ?_
        intro j token draw pair hcall hmem
        rw [List.mem_singleton] at hmem
        injection hmem with hj hr
        injection hr with hr
        have heff := hq.effect
        rw [← hj, hcall, ← hr] at heff
        -- The exchanged token was live, and the family has no live token.
        obtain ⟨⟨row, hrow, hlive⟩, _⟩ := heff.spends
        obtain ⟨row', hrow', hage⟩ := heff.kept _ row hrow
        refine ⟨row', hrow', fun hfam => ?_⟩
        exact hdead.revoked _ row hrow (hage.family.symm.trans hfam) hlive.2
  | rollback _ _ => exact quiet (by simp)
  | abort _ => exact quiet (by simp)

theorem Silent.run {f : Uuid} {base : List (ι × Finish ApiError AuthReply)}
    {w w' : AuthWorld ι} (h : Silent env calls f base w)
    (hw : Relation.ReflTransGen (Ends (fun _ => True) (fun _ _ => True)
      (fun i => Ended True env (calls i)) (fun _ _ _ _ => True)) w w') :
    Silent env calls f base w' := by
  induction hw with
  | refl => exact h
  | tail _ hstep ih => exact ih.step hstep

variable [DecidableEq ι]

/-- In a run without such additions: once a call that has revoked a family that
has tokens commits, no refresh answers with a pair for a token of it. -/
theorem revocation_complete {d : AuthDb} {st st' : AuthState ι}
    (hr : ReachUnder (authSystem env calls) Quiet (State.init d) st) {i : ι}
    {r : AuthReply} {σ : AuthSession} {f : Uuid}
    (hi : st.live i = some (.ret r, σ)) (hrev : AuthStmt.revokeFamily f ∈ σ.trace)
    (hf : ¬NoneOf st.db f) (hquiet : Quiet st i)
    (hr' : ReachUnder (authSystem env calls) Quiet
      ⟨st.toWorld.commit i r σ, Function.update st.live i none⟩ st') :
    ∃ later, st'.log = (st.log ++ [(i, .committed r)]) ++ later ∧
      ∀ j token draw pair, calls j = .refresh token draw →
        (j, .committed (.pair pair)) ∈ later →
          ∀ row, st'.db.get (.refreshToken (env.hashRefresh token)) = some row →
            row.familyId ≠ f := by
  have D := (authDiscipline True env calls Quiet fun _ _ _ h => h).discipline
  have hs := D.sound trivial hr
  have hq := hs.live i _ hi _ (D.refl _ _ trivial)
  have hdead : Dead f (st.toWorld.commit i r σ).db :=
    ⟨hq.effect.someRow hf, hq.sealed trivial f hrev⟩
  have hs' := D.step (.commit hi hquiet) hs
  have hrun := D.ends_of (fun _ _ => True) (fun _ _ _ => trivial) hs' hr'
  have hstart : Silent env calls f (st.log ++ [(i, .committed r)])
      (st.toWorld.commit i r σ) :=
    ⟨hdead, [], by simp, fun j token draw pair _ hmem => by simp at hmem⟩
  obtain ⟨_, later, hlog, hno⟩ := hstart.run hrun
  refine ⟨later, hlog, fun j token draw pair hcall hmem row hrow => ?_⟩
  obtain ⟨row', hrow', hfam⟩ := hno j token draw pair hcall hmem
  obtain rfl := Option.some.inj (hrow.symm.trans hrow')
  exact hfam

/-! A run of it: a login, its logout, and a refresh of the token after that. -/

def logoutCalls : Fin 3 → AuthCall
  | 0 => .login ⟨1, .member⟩ 5 ⟨0, "r1", 11⟩
  | 1 => .logout ⟨1, .member, 11, 5, 600⟩ 1000
  | 2 => .refresh "r1" ⟨2000, "r2", 12⟩

/-- At most one call is in flight. -/
def oneLive {n : Nat} (st : AuthState (Fin n)) : Bool :=
  decide (∀ i j, (st.live i).isSome = true → (st.live j).isSome = true → i = j)

theorem quiet_of_oneLive {n : Nat} (st : AuthState (Fin n)) (h : oneLive st = true)
    (i : Fin n) : Quiet st i := by
  intro r σ hi j hj p τ hτ
  have hsame : ∀ i j, (st.live i).isSome = true → (st.live j).isSome = true → i = j := by
    simpa [oneLive] using h
  exact absurd (hsame j i (by simp [hτ]) (by simp [hi])) hj

/-- The family call `i` is about to commit the revocation of, and what follows. -/
def aboutToRevoke {n : Nat} (i : Fin n) (f : Uuid) (t : String)
    (next : AuthState (Fin n) → Bool) (st : AuthState (Fin n)) : Bool :=
  match st.live i with
  | some (.ret r, σ) =>
      decide (AuthStmt.revokeFamily f ∈ σ.trace) && oneLive st
        && (st.db.get (.refreshToken t)).any (fun row => decide (row.familyId = f))
        && next ⟨st.toWorld.commit i r σ, Function.update st.live i none⟩
  | _ => false

theorem aboutToRevoke_iff {n : Nat} {i : Fin n} {f : Uuid} {t : String}
    {next : AuthState (Fin n) → Bool} {st : AuthState (Fin n)}
    (h : aboutToRevoke i f t next st = true) :
    ∃ r σ, st.live i = some (.ret r, σ) ∧ AuthStmt.revokeFamily f ∈ σ.trace ∧
      ¬NoneOf st.db f ∧ Quiet st i ∧
      next ⟨st.toWorld.commit i r σ, Function.update st.live i none⟩ = true := by
  unfold aboutToRevoke at h
  split at h
  · next r σ hi =>
      simp only [Bool.and_eq_true, decide_eq_true_eq] at h
      obtain ⟨⟨⟨hrev, hone⟩, hrow⟩, hnext⟩ := h
      obtain ⟨row, hrow, hfam⟩ := (Option.any_eq_true _ _).mp hrow
      refine ⟨r, σ, hi, hrev, fun hnone => ?_, quiet_of_oneLive st hone i, hnext⟩
      exact hnone t row hrow (by simpa using hfam)
  · simp at h

def logoutSchedule : List (Turn (Fin 3)) :=
  [.start 0] ++ authTurns 0 1 ++ [.finish 0, .start 1] ++ authTurns 1 6

def refreshAgain : List (Turn (Fin 3)) :=
  [.start 2] ++ authTurns 2 3 ++ [.finish 2]

def allEnded (st : AuthState (Fin 3)) : Bool :=
  decide (st.log.map (·.1) = [0, 1, 2])

/-- From here the refresh runs on its own and ends. -/
def endsAlone (st : AuthState (Fin 3)) : Bool :=
  (st :: path (authSystem sampleAuthEnv logoutCalls) refreshAgain st).all oneLive
    && (path (authSystem sampleAuthEnv logoutCalls) refreshAgain st).any allEnded

theorem revocation_complete_logout :
    ∃ (st st' : AuthState (Fin 3)) (r : AuthReply) (σ : AuthSession),
      ReachUnder (authSystem sampleAuthEnv logoutCalls) Quiet (State.init Db.empty) st ∧
      st.live 1 = some (.ret r, σ) ∧ st'.log.map (·.1) = [0, 1, 2] ∧
      ∃ later, st'.log = (st.log ++ [(1, .committed r)]) ++ later ∧
        ∀ j token draw pair, logoutCalls j = .refresh token draw →
          (j, .committed (.pair pair)) ∈ later →
            ∀ row, st'.db.get (.refreshToken (sampleAuthEnv.hashRefresh token)) = some row →
              row.familyId ≠ 5 := by
  have hrun : ((State.init Db.empty :: path (authSystem sampleAuthEnv logoutCalls)
      logoutSchedule (State.init Db.empty)).all oneLive &&
        (path (authSystem sampleAuthEnv logoutCalls) logoutSchedule
          (State.init Db.empty)).any (aboutToRevoke 1 5 "hmac-r1" endsAlone)) = true := by
    decide +kernel
  obtain ⟨st, hr, hp⟩ :=
    exists_reachUnder (C := Quiet) oneLive quiet_of_oneLive logoutSchedule _ hrun
  obtain ⟨r, σ, hi, hrev, hf, hquiet, hnext⟩ := aboutToRevoke_iff hp
  obtain ⟨st', hr', hend⟩ :=
    exists_reachUnder (C := Quiet) oneLive quiet_of_oneLive refreshAgain _ hnext
  obtain ⟨later, hlog, hno⟩ := revocation_complete hr hi hrev hf hquiet hr'
  exact ⟨st, st', r, σ, hr, hi, by simpa [allEnded] using hend, later, hlog, hno⟩

/-! The schedule that escapes. A token is replayed while its successor's own
refresh is between its lock and its INSERT: the UPDATE waits for that refresh,
and never looks at the row it inserted. -/

def lateCalls : Fin 5 → AuthCall
  | 0 => .login ⟨1, .member⟩ 5 ⟨0, "r1", 11⟩
  | 1 => .refresh "r1" ⟨1000, "r2", 12⟩
  | 2 => .refresh "r2" ⟨2000, "r3", 13⟩
  | 3 => .refresh "r1" ⟨2000, "r4", 14⟩
  | 4 => .refresh "r3" ⟨3000, "r5", 15⟩

/-- Up to the COMMIT of the revocation. -/
def lateSchedule : List (Turn (Fin 5)) :=
  [.start 0] ++ authTurns 0 1 ++ [.finish 0, .start 1] ++ authTurns 1 8
    ++ [.finish 1, .start 2] ++ authTurns 2 3 ++ [.start 3] ++ authTurns 3 5
    ++ authTurns 2 5 ++ [.finish 2] ++ authTurns 3 2

/-- The refresh of the token the UPDATE has not seen. -/
def afterwards : List (Turn (Fin 5)) :=
  [.start 4] ++ authTurns 4 8 ++ [.finish 4]

def latePair : TokenPair := ⟨"jwt", "r5", "Bearer", ACCESS_TTL_SECONDS⟩

/-- The only call that ends after the log `base` got a pair for a token of the
revoked family. -/
def escaped (base : List (Fin 5 × Finish ApiError AuthReply))
    (st : AuthState (Fin 5)) : Bool :=
  decide (st.log = base ++ [(4, .committed (.pair latePair))])
    && (st.db.get (.refreshToken "hmac-r3")).any fun row => decide (row.familyId = 5)

def escapes (st : AuthState (Fin 5)) : Bool :=
  (path (authSystem sampleAuthEnv lateCalls) afterwards st).any (escaped st.log)

theorem revocation_misses_successor :
    ¬∀ (st st' : AuthState (Fin 5)) (i : Fin 5) (r : AuthReply) (σ : AuthSession) (f : Uuid),
      Reach (authSystem sampleAuthEnv lateCalls) (State.init Db.empty) st →
      st.live i = some (.ret r, σ) → AuthStmt.revokeFamily f ∈ σ.trace →
      ¬NoneOf st.db f →
      Reach (authSystem sampleAuthEnv lateCalls)
        ⟨st.toWorld.commit i r σ, Function.update st.live i none⟩ st' →
      ∃ later, st'.log = (st.log ++ [(i, .committed r)]) ++ later ∧
        ∀ j token draw pair, lateCalls j = .refresh token draw →
          (j, .committed (.pair pair)) ∈ later →
            ∀ row, st'.db.get (.refreshToken (sampleAuthEnv.hashRefresh token)) = some row →
              row.familyId ≠ f := by
  intro hclaim
  have hrun : (path (authSystem sampleAuthEnv lateCalls) lateSchedule
      (State.init Db.empty)).any (aboutToRevoke 3 5 "hmac-r1" escapes) = true := by
    decide +kernel
  obtain ⟨st, hr, hp⟩ := exists_reach lateSchedule _ hrun
  obtain ⟨r, σ, hi, hrev, hf, _, hnext⟩ := aboutToRevoke_iff hp
  obtain ⟨st', hr', hesc⟩ := exists_reach afterwards _ hnext
  obtain ⟨later, hlog, hno⟩ := hclaim st st' 3 r σ 5 hr hi hrev hf hr'
  simp only [escaped, Bool.and_eq_true, decide_eq_true_eq] at hesc
  obtain ⟨hlog', hrow⟩ := hesc
  obtain ⟨row, hrow, hfam⟩ := (Option.any_eq_true _ _).mp hrow
  have hmem : (4, .committed (.pair latePair)) ∈ later := by
    rw [List.append_cancel_left (hlog.symm.trans hlog')]
    exact List.mem_singleton_self _
  exact hno 4 "r3" ⟨3000, "r5", 15⟩ latePair rfl hmem row hrow (by simpa using hfam)

end InvestApi.Ref
