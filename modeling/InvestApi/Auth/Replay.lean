import Mathlib.Data.Set.Finite.Basic
import InvestApi.Auth.Families
import InvestApi.Lts.Run
import InvestApi.Pg.Footprint

/-!
# Replaying a spent token

The calls one after the other, each alone. `refresh` asks first whether the row
is revoked or has expired, and answers `invalid` without a look at `used_at`:
the family is revoked only by a replay that comes before the replayed token's
own expiry. Rotation moves the family's expiry on, so a replay after it can
leave a live token behind.

`Exhausted` is a family none of whose tokens can be spent any more; every call
keeps it so (`Exhausted.step`). A replay in time makes the family exhausted, one
that comes late leaves it as it was.
-/

namespace InvestApi.Ref

open InvestApi.Pg InvestApi.Lts

variable {env : AuthEnv}

namespace AuthCall

def now : AuthCall → Instant
  | login _ _ draw => draw.now
  | refresh _ draw => draw.now
  | logout _ now => now

/-- What the call answers with nobody else about, and the rows it leaves. -/
def alone (env : AuthEnv) (c : AuthCall) (d : AuthDb) :
    Finish ApiError AuthReply × AuthDb :=
  (c.body env).alone d c.draws

/-- The token a call has exchanged. -/
def exchanged : AuthCall → Finish ApiError AuthReply → List String
  | refresh token _, .committed (.pair _) => [token]
  | _, _ => []

end AuthCall

/-- `exchanged` are the tokens that refreshes have answered with a pair for. -/
structure SerialAuth where
  db : AuthDb
  clock : Instant
  exchanged : List String

def SerialAuth.boot (clock : Instant) : SerialAuth := ⟨Db.empty, clock, []⟩

def SerialAuth.after (env : AuthEnv) (s : SerialAuth) (c : AuthCall) : SerialAuth where
  db := (c.alone env s.db).2
  clock := c.now
  exchanged := s.exchanged ++ c.exchanged (c.alone env s.db).1

inductive SerialStep (env : AuthEnv) : SerialAuth → AuthCall → SerialAuth → Prop
  | call {s c} (hnow : s.clock ≤ c.now)
      (hfresh : ∀ k ∈ c.draws, freshFamily s.db k = true) :
      SerialStep env s c (s.after env c)

/-- No token of family `f` is exchanged from `s` on. -/
def FamilyDead (env : AuthEnv) (s : SerialAuth) (f : Uuid) : Prop :=
  ∀ s', Reachable (SerialStep env) s s' → ∀ token draw row, s'.clock ≤ draw.now →
    s'.db.get (.refreshToken (env.hashRefresh token)) = some row → row.familyId = f →
      ∀ pair, ((AuthCall.refresh token draw).alone env s'.db).1 ≠ .committed (.pair pair)

/-- The token is no longer valid, and another one of its family is. -/
def Outlived (d : AuthDb) (row : RefreshTokenRow) (now : Instant) : Prop :=
  row.dead now = true ∧ ∃ h row', d.get (.refreshToken h) = some row' ∧
    row'.familyId = row.familyId ∧ row'.Spendable now

/-! ## One call -/

section Alone

variable {c : AuthCall} {d : AuthDb}

theorem alone_ended (hfresh : ∀ k ∈ c.draws, freshFamily d k = true) {reply : AuthReply}
    {σ : AuthSession}
    (h : (c.body env).exec d none (Session.init c.draws) = (.committed reply, σ)) :
    Ended True env c reply (⟨d, []⟩ : AuthWorld Unit) σ := by
  have hdisc : LockDiscipline (authSystem env fun _ : Unit => c) Quiet (fun _ => True)
      (fun s w w' => Undisturbed True s w.db w'.db)
      (fun i => Ended True env c) (fun _ _ _ _ => True) :=
    authDiscipline True env (fun _ => c) Quiet fun _ _ _ h => h
  have hrefl : ∀ (s : AuthSession) (w : AuthWorld Unit), AuthR True s w w :=
    fun s w => ⟨trivial, fun _ _ => rfl, .refl s w.db⟩
  have hwp := hdisc.start () ⟨d, []⟩ trivial hfresh _ (hrefl _ _)
  exact Prog.exec_of_wp hrefl hwp h

/-- A call that does not commit changes nothing; one that does has had its
effect. -/
theorem alone_cases (c : AuthCall) (d : AuthDb)
    (hfresh : ∀ k ∈ c.draws, freshFamily d k = true) :
    ((∀ reply, (c.alone env d).1 ≠ .committed reply) ∧ (c.alone env d).2 = d) ∨
      ∃ reply, (c.alone env d).1 = .committed reply ∧
        Effect env d (c.alone env d).2 c reply := by
  rw [AuthCall.alone, Prog.alone]
  split
  · next reply σ heq => exact Or.inr ⟨reply, rfl, (alone_ended hfresh heq).effect⟩
  · exact Or.inl ⟨by simp, rfl⟩
  · exact Or.inl ⟨by simp, rfl⟩

theorem exec_findToken {α : Type} {h : String} {s : AuthSession}
    (f : Option RefreshTokenRow → AuthProg α) :
    ((AuthService.findToken h).bind f).exec d none s
      = match (s.view d).get (.refreshToken h) with
        | none => (f none).exec d none (s.tag .findToken)
        | some row => (f (some row)).exec d none
            ((s.tag .findToken).put (.refreshToken h) (some row)) := by
  simp only [AuthService.findToken, Prog.bind]
  rw [Prog.exec_update_only]
  cases (s.view d).get (.refreshToken h) with
  | none => rfl
  | some row => rfl

/-- A token that is revoked or has expired, used or not. -/
theorem alone_dead {token : String} {draw : AuthDraw} {row : RefreshTokenRow}
    (hrow : d.get (.refreshToken (env.hashRefresh token)) = some row)
    (hdead : row.dead draw.now = true) :
    (AuthCall.refresh token draw).alone env d
      = (.committed (.ofAnswer (AuthService.answer .invalid)),
          d.set (.refreshToken (env.hashRefresh token)) (some row)) := by
  rw [AuthCall.alone, Prog.alone]
  simp only [AuthCall.body, AuthService.rotate, Prog.bind_eq, Prog.pure_eq,
    Prog.bind_assoc]
  rw [exec_findToken]
  simp only [AuthCall.draws, Session.view_init, hrow, hdead, if_true, Prog.bind, Prog.exec]
  simp

theorem exec_revokeFamily {α : Type} {f : Uuid} {now : Instant} {s : AuthSession}
    (g : Unit → AuthProg α) :
    ∃ s', AuthStmt.revokeFamily f ∈ s'.trace ∧
      ((AuthService.revokeFamily f now).bind g).exec d none s = (g ()).exec d none s' := by
  have hact : ∀ k v, AuthService.revokeRow f now k v ≠ .fail := by
    intro k v
    cases k with
    | refreshToken h =>
        simp only [AuthService.revokeRow]
        split
        · simp
        · simp
    | deniedJti j => simp [AuthService.revokeRow]
    | family g => exact v.elim
  obtain ⟨⟨rows, s'⟩, hscan⟩ : ∃ r, Prog.scanAll d (AuthService.revokeRow f now)
      (AuthService.familyTokens f (s.view d)) [] (s.tag (.revokeFamily f)) = some r :=
    Prog.exists_scanAll hact _ _
  refine ⟨s', ?_, ?_⟩
  · rw [Prog.scanAll_trace hscan]
    exact List.mem_cons_self
  · simp only [AuthService.revokeFamily, Prog.bind, Prog.exec]
    rw [hscan]
    rfl

/-- A token that was used and is valid still: its family is revoked. -/
theorem alone_reused {token : String} {draw : AuthDraw} {row : RefreshTokenRow}
    (hrow : d.get (.refreshToken (env.hashRefresh token)) = some row)
    (hvalid : row.dead draw.now = false) (hused : row.usedAt ≠ none) :
    Sealed row.familyId ((AuthCall.refresh token draw).alone env d).2 ∧
      Kept d ((AuthCall.refresh token draw).alone env d).2 := by
  have hsome : row.usedAt.isSome = true := Option.isSome_iff_ne_none.mpr hused
  have hexec : ∃ σ, AuthStmt.revokeFamily row.familyId ∈ σ.trace ∧
      ((AuthCall.refresh token draw).body env).exec d none (Session.init [])
        = (.committed (.ofAnswer (AuthService.answer (.reuse row))), σ) := by
    simp only [AuthCall.body, AuthService.rotate, Prog.bind_eq, Prog.pure_eq,
      Prog.bind_assoc]
    rw [exec_findToken]
    simp only [Session.view_init, hrow, hvalid, hsome, if_true, Bool.false_eq_true,
      if_false, Prog.bind_assoc]
    exact exec_revokeFamily _
  obtain ⟨σ, hrev, heq⟩ := hexec
  have hended := alone_ended (c := .refresh token draw) (d := d)
    (by simp [AuthCall.draws]) heq
  rw [AuthCall.alone, Prog.alone, show (AuthCall.refresh token draw).draws = [] from rfl, heq]
  exact ⟨hended.sealed trivial _ hrev, hended.effect.kept⟩

/-- A token that can be spent is: its user is there, and the new token's hash
is free. -/
theorem alone_spendable {token : String} {draw : AuthDraw} {row : RefreshTokenRow}
    (hrow : d.get (.refreshToken (env.hashRefresh token)) = some row)
    (hspend : row.Spendable draw.now) (huser : ∃ u ∈ env.users, u.id = row.userId)
    (hnew : d.get (.refreshToken (env.hashRefresh draw.refresh)) = none) :
    ∃ pair, ((AuthCall.refresh token draw).alone env d).1 = .committed (.pair pair) := by
  obtain ⟨hused, hrev, hexp⟩ := hspend
  have hvalid : row.dead draw.now = false := by
    simp [RefreshTokenRow.dead, hrev, hexp]
  obtain ⟨user, hfind⟩ : ∃ user, env.users.find? (fun u => u.id = row.userId) = some user := by
    rw [← Option.isSome_iff_exists, List.find?_isSome]
    simpa using huser
  have hne : env.hashRefresh draw.refresh ≠ env.hashRefresh token := by
    intro he
    rw [he, hrow] at hnew
    simp at hnew
  have hin : env.users.any (fun u => u.id = user.id) = true :=
    List.any_eq_true.mpr ⟨user, List.mem_of_find?_eq_some hfind, by simp⟩
  refine ⟨⟨env.signAccess user.id user.role row.familyId draw.jti, draw.refresh, "Bearer",
    ACCESS_TTL_SECONDS⟩, ?_⟩
  rw [AuthCall.alone, Prog.alone]
  simp only [AuthCall.body, AuthService.rotate, Prog.bind_eq, Prog.pure_eq,
    Prog.bind_assoc]
  rw [exec_findToken]
  simp only [AuthCall.draws, Session.view_init, hrow, hvalid, hused, Option.isSome_none,
    Bool.false_eq_true, if_false, AuthService.markUsed, Prog.bind]
  rw [Prog.exec_update_only]
  simp only [Session.view_put, Session.view_tag, Session.view_init, Db.get_set_self,
    AuthService.useRow, if_true, Prog.query, Prog.bind, Prog.exec, hfind,
    AuthService.issue, Prog.bind_eq, Prog.pure_eq]
  rw [Prog.exec, if_pos (by simp [Prog.canInsert, hnew, hne, hin])]
  · rfl
  · simp

end Alone

/-! ## What the rows are -/

/-- A token's row is kept under its hash, and its user is there. -/
def KnownToken (env : AuthEnv) : (k : AuthKey) → AuthRow k → Prop
  | .refreshToken h, row =>
      (∃ token, env.hashRefresh token = h) ∧ ∃ u ∈ env.users, u.id = row.userId
  | _, _ => True

theorem keeps_revokeFamily (f : Uuid) (now : Instant) :
    (AuthService.revokeFamily f now).Keeps (KnownToken env) := by
  refine ⟨fun k v v' hv ha => ?_, fun _ _ => trivial⟩
  cases k with
  | refreshToken h =>
      simp only [AuthService.revokeRow] at ha
      split at ha
      · obtain rfl := RowAct.put.inj ha
        exact hv
      · simp at ha
  | deniedJti j => trivial
  | family g => trivial

theorem keeps_findToken (h : String) :
    (AuthService.findToken h).Keeps (KnownToken env) := by
  refine ⟨fun k v v' hv ha => ?_, fun _ _ => trivial⟩
  obtain rfl := RowAct.put.inj ha
  exact hv

theorem keeps_markUsed (h : String) (now : Instant) :
    (AuthService.markUsed h now).Keeps (KnownToken env) := by
  refine ⟨fun k v v' hv ha => ?_, fun _ _ => trivial⟩
  cases k with
  | refreshToken h =>
      obtain rfl := RowAct.put.inj ha
      exact hv
  | deniedJti j => trivial
  | family g => trivial

theorem keeps_purgeDenied (now : Instant) :
    (AuthService.purgeDenied now).Keeps (KnownToken env) := by
  refine ⟨fun k v v' hv ha => ?_, fun _ _ => trivial⟩
  cases k with
  | refreshToken h => simp [AuthService.purgeRow] at ha
  | deniedJti j => trivial
  | family g => trivial

theorem keeps_issue (user : LoginUser) (f : Uuid) (draw : AuthDraw) :
    (AuthService.issue env user f draw).Keeps (KnownToken env) := by
  refine ⟨fun d hcheck r hr => ?_, trivial⟩
  rw [List.mem_singleton.mp hr]
  obtain ⟨u, hu, hid⟩ := List.any_eq_true.mp hcheck
  exact ⟨⟨draw.refresh, rfl⟩, u, hu, of_decide_eq_true hid⟩

theorem keeps_rotate (token : String) (draw : AuthDraw) :
    (AuthService.rotate env token draw).Keeps (KnownToken env) := by
  refine (keeps_findToken _).bind fun found => ?_
  cases found with
  | none => trivial
  | some row =>
      dsimp only
      split
      · trivial
      · split
        · exact (keeps_revokeFamily _ _).bind fun _ => trivial
        · refine (keeps_markUsed _ _).bind fun _ d => ?_
          simp only [Prog.bind_eq, Prog.pure_eq, Prog.bind]
          split
          · trivial
          · exact (keeps_issue _ _ _).bind fun _ => trivial

theorem keeps_body (c : AuthCall) : (c.body env).Keeps (KnownToken env) := by
  cases c with
  | login user f draw => exact (keeps_issue user f draw).bind fun _ => trivial
  | refresh token draw => exact (keeps_rotate token draw).bind fun _ => trivial
  | logout user now =>
      refine Prog.Keeps.bind ((keeps_revokeFamily _ _).bind fun _ => ?_) fun _ => trivial
      exact ⟨trivial, keeps_purgeDenied now⟩

/-! ## Runs -/

structure SerialSound (env : AuthEnv) (s : SerialAuth) : Prop where
  known : Prog.Rows (KnownToken env) s.db
  spent : ∀ token ∈ s.exchanged,
    ∃ row, s.db.get (.refreshToken (env.hashRefresh token)) = some row ∧ row.usedAt ≠ none

/-- The family exists, and none of its tokens can be spent now. -/
structure Exhausted (f : Uuid) (s : SerialAuth) : Prop where
  some_row : ¬NoneOf s.db f
  spent : ∀ h row, s.db.get (.refreshToken h) = some row → row.familyId = f →
    ¬row.Spendable s.clock

section Run

variable {s s' : SerialAuth} {c : AuthCall}

/-- A refresh answers with a pair for a token that can be spent. -/
theorem spendable_of_pair {d : AuthDb} {token : String} {draw : AuthDraw} {pair : TokenPair}
    {row : RefreshTokenRow} (hrow : d.get (.refreshToken (env.hashRefresh token)) = some row)
    (h : ((AuthCall.refresh token draw).alone env d).1 = .committed (.pair pair)) :
    row.Spendable draw.now := by
  have hvalid : row.dead draw.now = false := by
    by_contra hdead
    rw [alone_dead hrow (by simpa using hdead)] at h
    simp [AuthService.answer, AuthReply.ofAnswer] at h
  have heffect : Effect env d ((AuthCall.refresh token draw).alone env d).2
      (.refresh token draw) (.pair pair) := by
    rcases @alone_cases env (.refresh token draw) d (by simp [AuthCall.draws]) with
      ⟨hno, _⟩ | ⟨reply, hreply, heff⟩
    · exact absurd h (hno _)
    · rw [h] at hreply
      obtain rfl : AuthReply.pair pair = reply := by simpa using hreply
      exact heff
  obtain ⟨⟨row', hrow', hlive⟩, _⟩ := heffect.spends
  obtain rfl := Option.some.inj (hrow.symm.trans hrow')
  refine ⟨hlive.1, hlive.2, fun hexp => ?_⟩
  simp [RefreshTokenRow.dead, hexp] at hvalid

theorem RefreshTokenRow.Spendable.earlier {row : RefreshTokenRow} {now later : Instant}
    (h : row.Spendable later) (hle : now ≤ later) : row.Spendable now :=
  ⟨h.1, h.2.1, fun hexp => h.2.2 (hexp.trans hle)⟩

theorem RefreshTokenRow.Ages.spendable {row row' : RefreshTokenRow} {now : Instant}
    (h : row.Ages row') (hs : row'.Spendable now) : row.Spendable now := by
  have hlive := h.live ⟨hs.1, hs.2.1⟩
  exact ⟨hlive.1, hlive.2, h.expires ▸ hs.2.2⟩

/-- Where a row comes from that was not there before. -/
theorem Effect.source {d d' : AuthDb} {reply : AuthReply} (h : Effect env d d' c reply)
    {k : String} {row' : RefreshTokenRow} (hrow' : d'.get (.refreshToken k) = some row') :
    (∃ row, d.get (.refreshToken k) = some row ∧ row.Ages row') ∨ NoneOf d row'.familyId ∨
      ∃ token draw pair row, c = .refresh token draw ∧ reply = .pair pair ∧
        d.get (.refreshToken (env.hashRefresh token)) = some row ∧
          row.familyId = row'.familyId := by
  rcases h.row hrow' with hage | ⟨hnone, hmint, _⟩
  · exact Or.inl hage
  refine Or.inr ?_
  cases h with
  | @loggedIn user f draw pair hfamily hnew hd' =>
      obtain rfl : env.hashRefresh draw.refresh = k := Option.some.inj hmint
      rw [hd', Db.get_set_self] at hrow'
      obtain rfl := Option.some.inj hrow'
      exact Or.inl hfamily
  | @refreshed token draw pair row u hrow hlive hnew hd' =>
      obtain rfl : env.hashRefresh draw.refresh = k := Option.some.inj hmint
      rw [hd', Db.get_set_self] at hrow'
      obtain rfl := Option.some.inj hrow'
      exact Or.inr ⟨token, draw, pair, row, rfl, rfl, hrow, rfl⟩
  | revised hreply h =>
      obtain ⟨row, hrow⟩ := h.same row'.familyId k row' hrow' rfl
      rw [hnone] at hrow
      simp at hrow

/-- Every call keeps a family exhausted: a new row needs one of its family that
can be spent, or a family that has no row. -/
theorem Exhausted.step {f : Uuid} (h : Exhausted f s) (hstep : SerialStep env s c s') :
    Exhausted f s' := by
  obtain ⟨hnow, hfresh⟩ := hstep
  show Exhausted f (s.after env c)
  rcases @alone_cases env c s.db hfresh with ⟨_, hdb⟩ | ⟨reply, hreply, heff⟩
  · refine ⟨?_, fun k row hrow hfam hs => ?_⟩
    · show ¬NoneOf (c.alone env s.db).2 f
      rw [hdb]
      exact h.some_row
    · replace hrow : (c.alone env s.db).2.get (.refreshToken k) = some row := hrow
      rw [hdb] at hrow
      exact h.spent k row hrow hfam (hs.earlier hnow)
  · refine ⟨?_, fun k row' hrow' hfam hs => ?_⟩
    · intro hnone
      refine h.some_row fun k row hrow hf => ?_
      obtain ⟨row', hrow', hage⟩ := heff.kept k row hrow
      exact hnone k row' hrow' (hage.family.trans hf)
    · obtain ⟨row, hrow, hage⟩ | hnone | ⟨token, draw, pair, row, rfl, rfl, hrow, hsame⟩ :=
        heff.source hrow'
      · exact h.spent k row hrow (hage.family.symm.trans hfam)
          (hage.spendable (hs.earlier hnow))
      · rw [hfam] at hnone
        exact h.some_row hnone
      · exact h.spent _ row hrow (hsame.trans hfam)
          ((spendable_of_pair hrow hreply).earlier hnow)

theorem Exhausted.dead {f : Uuid} (h : Exhausted f s) : FamilyDead env s f := by
  intro s' hr token draw row hnow hrow hfam pair hpair
  have hexhausted : Exhausted f s' :=
    Lts.Reach.invariant hr h fun _ _ _ hs _ hstep => hs.step hstep
  exact hexhausted.spent _ row hrow hfam ((spendable_of_pair hrow hpair).earlier hnow)

theorem mem_exchanged {f : Finish ApiError AuthReply} {token : String} :
    token ∈ c.exchanged f ↔
      ∃ draw pair, c = .refresh token draw ∧ f = .committed (.pair pair) := by
  unfold AuthCall.exchanged
  split
  · next token' draw pair =>
      rw [List.mem_singleton]
      constructor
      · rintro rfl
        exact ⟨draw, pair, rfl, rfl⟩
      · rintro ⟨_, _, hc, _⟩
        injection hc with htoken _
        exact htoken.symm
  · next hne =>
      constructor
      · intro h
        simp at h
      · rintro ⟨draw, pair, rfl, rfl⟩
        exact absurd rfl (hne token draw pair rfl)

theorem SerialSound.step (h : SerialSound env s) (hstep : SerialStep env s c s') :
    SerialSound env s' := by
  obtain ⟨hnow, hfresh⟩ := hstep
  refine ⟨(keeps_body c).alone h.known _, fun token htoken => ?_⟩
  -- Whatever was used stays so.
  have hkept : Kept s.db (c.alone env s.db).2 := by
    rcases @alone_cases env c s.db hfresh with ⟨_, hdb⟩ | ⟨reply, _, heff⟩
    · rw [hdb]
      exact .refl s.db
    · exact heff.kept
  rcases List.mem_append.mp htoken with hold | hnew
  · obtain ⟨row, hrow, hused⟩ := h.spent token hold
    obtain ⟨row', hrow', hage⟩ := hkept _ row hrow
    exact ⟨row', hrow', hage.used hused⟩
  · obtain ⟨draw, pair, rfl, hpair⟩ := mem_exchanged.mp hnew
    rcases @alone_cases env (.refresh token draw) s.db hfresh with
      ⟨hno, _⟩ | ⟨reply, hreply, heff⟩
    · exact absurd hpair (hno _)
    · rw [hpair] at hreply
      obtain rfl : AuthReply.pair pair = reply := by simpa using hreply
      exact heff.spends.2

theorem SerialSound.reach {clock : Instant}
    (hr : Reachable (SerialStep env) (.boot clock) s) : SerialSound env s := by
  refine Lts.Reach.invariant hr ⟨fun k v hv => ?_, ?_⟩ fun _ _ _ hs _ hstep => hs.step hstep
  · simp [SerialAuth.boot] at hv
  · simp [SerialAuth.boot]

/-- A replay in time. -/
theorem exhausted_of_reused {token : String} {draw : AuthDraw} {row : RefreshTokenRow}
    (hrow : s.db.get (.refreshToken (env.hashRefresh token)) = some row)
    (hvalid : row.dead draw.now = false) (hused : row.usedAt ≠ none) :
    Exhausted row.familyId (s.after env (.refresh token draw)) := by
  obtain ⟨hsealed, hkept⟩ := alone_reused hrow hvalid hused
  refine ⟨fun hnone => ?_, fun k row' hrow' hfam hs => ?_⟩
  · obtain ⟨row', hrow', hage⟩ := hkept _ row hrow
    exact hnone _ row' hrow' hage.family
  · exact hsealed k row' hrow' hfam hs.2.1

/-- A replay that comes late leaves the rows as they are. -/
theorem get_of_dead {token : String} {draw : AuthDraw} {row : RefreshTokenRow}
    (hrow : s.db.get (.refreshToken (env.hashRefresh token)) = some row)
    (hdead : row.dead draw.now = true) (h : String) :
    (s.after env (.refresh token draw)).db.get (.refreshToken h)
      = s.db.get (.refreshToken h) := by
  show ((AuthCall.refresh token draw).alone env s.db).2.get _ = _
  rw [alone_dead hrow hdead]
  by_cases e : h = env.hashRefresh token
  · subst e
    rw [Db.get_set_self, hrow]
  · rw [Db.get_set_ne _ _ (by simpa using e)]

/-- A spent token that is presented again kills its family exactly when it is
not outlived. A drawn token is one whose hash no row has. -/
theorem replay_kills_family_iff
    (hrandom : ∀ d : AuthDb, ∃ refresh, d.get (.refreshToken (env.hashRefresh refresh)) = none)
    {clock : Instant} (hr : Reachable (SerialStep env) (.boot clock) s) {token : String}
    (hspent : token ∈ s.exchanged) (draw : AuthDraw) :
    ∃ row, s.db.get (.refreshToken (env.hashRefresh token)) = some row ∧
      (FamilyDead env (s.after env (.refresh token draw)) row.familyId ↔
        ¬Outlived s.db row draw.now) := by
  have hsound : SerialSound env s := .reach hr
  obtain ⟨row, hrow, hused⟩ := hsound.spent token hspent
  refine ⟨row, hrow, fun hkilled houtlived => ?_, fun hnot => ?_⟩
  · -- The other token is refreshed at once.
    obtain ⟨hdead, h, row', hrow', hfam, hspend⟩ := houtlived
    obtain ⟨⟨token', rfl⟩, huser⟩ := hsound.known _ row' hrow'
    obtain ⟨refresh, hnew⟩ := hrandom (s.after env (.refresh token draw)).db
    have hget := get_of_dead (s := s) hrow hdead
    obtain ⟨pair, hpair⟩ : ∃ pair, ((AuthCall.refresh token' ⟨draw.now, refresh, draw.jti⟩).alone
        env (s.after env (.refresh token draw)).db).1 = .committed (.pair pair) :=
      alone_spendable (by rw [hget, hrow']) hspend huser hnew
    exact hkilled _ .refl token' ⟨draw.now, refresh, draw.jti⟩ row' (le_refl draw.now)
      (by rw [hget, hrow']) hfam pair hpair
  · cases hdead : row.dead draw.now with
    | false => exact (exhausted_of_reused hrow hdead hused).dead
    | true =>
        refine Exhausted.dead ⟨fun hnone => ?_, fun k row' hrow' hfam hs => ?_⟩
        · exact hnone _ row (by rw [get_of_dead hrow hdead, hrow]) rfl
        · rw [get_of_dead hrow hdead] at hrow'
          exact hnot ⟨hdead, k, row', hrow', hfam, hs⟩

end Run

/-! ## Two runs

A login and a refresh of its token; then the token again, a second later and
after its thirty days. -/

/-- A call as a function, where it is possible. -/
def SerialAuth.fire (env : AuthEnv) (s : SerialAuth) (c : AuthCall) : Option SerialAuth :=
  if s.clock ≤ c.now ∧ ∀ k ∈ c.draws, freshFamily s.db k = true then some (s.after env c)
  else none

theorem SerialAuth.fire_sound (s : SerialAuth) (c : AuthCall) (s' : SerialAuth)
    (h : s.fire env c = some s') : Next (SerialStep env) (fun _ _ => True) s s' := by
  rw [SerialAuth.fire] at h
  split at h
  · next hc => exact Option.some.inj h ▸ ⟨c, trivial, .call hc.1 hc.2⟩
  · simp at h

def sampleToken (n : Nat) : String := String.ofList (List.replicate n 'r')

theorem sampleToken_free (d : AuthDb) :
    ∃ refresh, d.get (.refreshToken (sampleAuthEnv.hashRefresh refresh)) = none := by
  have hinj : Function.Injective fun n =>
      AuthKey.refreshToken (sampleAuthEnv.hashRefresh (sampleToken n)) := by
    intro n n' h
    have hhash : "hmac-" ++ sampleToken n = "hmac-" ++ sampleToken n' :=
      AuthKey.refreshToken.inj h
    have hlen := congrArg String.length hhash
    simpa [sampleToken] using hlen
  obtain ⟨k, ⟨n, rfl⟩, hn⟩ :=
    (Set.infinite_range_of_injective hinj).exists_notMem_finset d.keys.toFinset
  refine ⟨sampleToken n, ?_⟩
  rw [List.mem_toFinset, d.mem_keys] at hn
  simpa using hn

def afterDays (n : Int) : Instant := n * MS_PER_DAY

def rotatedAt (now : Instant) : List AuthCall :=
  [.login ⟨1, .member⟩ 5 ⟨0, "r1", 11⟩, .refresh "r1" ⟨now, "r2", 12⟩]

theorem replay_kills_family_iff_soon :
    ∃ s row, Reachable (SerialStep sampleAuthEnv) (.boot 0) s ∧
      s.db.get (.refreshToken "hmac-r1") = some row ∧
      (FamilyDead sampleAuthEnv (s.after sampleAuthEnv (.refresh "r1" ⟨2000, "r3", 13⟩))
        row.familyId ↔ ¬Outlived s.db row 2000) := by
  have hrun : (follow (SerialAuth.fire sampleAuthEnv) (rotatedAt 1000) (.boot 0)).any
      (fun s => decide ("r1" ∈ s.exchanged)) = true := by
    decide +kernel
  obtain ⟨s, hr, hp⟩ := exists_follow SerialAuth.fire_sound _ _ _ hrun
  obtain ⟨row, hrow, hiff⟩ := replay_kills_family_iff sampleToken_free hr
    (of_decide_eq_true hp) ⟨2000, "r3", 13⟩
  exact ⟨s, row, hr, hrow, hiff⟩

/-- What the newest token's refresh answers after the late replay. -/
def lateReplay (s : SerialAuth) : Bool :=
  decide ("r1" ∈ s.exchanged ∧ s.clock ≤ afterDays 31 ∧
    (s.db.get (.refreshToken "hmac-r1")).map (·.familyId) = some 5 ∧
    ((s.after sampleAuthEnv (.refresh "r1" ⟨afterDays 31, "r3", 13⟩)).db.get
      (.refreshToken "hmac-r2")).map (·.familyId) = some 5 ∧
    ((AuthCall.refresh "r2" ⟨afterDays 32, "r4", 14⟩).alone sampleAuthEnv
      (s.after sampleAuthEnv (.refresh "r1" ⟨afterDays 31, "r3", 13⟩)).db).1
        = .committed (.pair ⟨"jwt", "r4", "Bearer", ACCESS_TTL_SECONDS⟩))

theorem late_replay_spares_family :
    ¬∀ s token draw row, Reachable (SerialStep sampleAuthEnv) (.boot 0) s →
      token ∈ s.exchanged → s.clock ≤ draw.now →
        s.db.get (.refreshToken (sampleAuthEnv.hashRefresh token)) = some row →
          FamilyDead sampleAuthEnv (s.after sampleAuthEnv (.refresh token draw))
            row.familyId := by
  intro hclaim
  have hrun : (follow (SerialAuth.fire sampleAuthEnv) (rotatedAt (afterDays 29)) (.boot 0)).any
      lateReplay = true := by
    decide +kernel
  obtain ⟨s, hr, hp⟩ := exists_follow SerialAuth.fire_sound _ _ _ hrun
  obtain ⟨hspent, hclock, hfirst, hnewest, hpair⟩ := of_decide_eq_true hp
  obtain ⟨row, hrow, hfam⟩ := Option.map_eq_some_iff.mp hfirst
  obtain ⟨row', hrow', hfam'⟩ := Option.map_eq_some_iff.mp hnewest
  refine hclaim s "r1" ⟨afterDays 31, "r3", 13⟩ row hr hspent hclock hrow _ .refl "r2"
    ⟨afterDays 32, "r4", 14⟩ row' (show afterDays 31 ≤ afterDays 32 by decide) hrow'
    (hfam'.trans hfam.symm) _ hpair

end InvestApi.Ref
