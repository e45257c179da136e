import InvestApi.Auth.Tokens

/-!
# What each body has done when it commits

One theorem for each statement of the service, then one for each call:
whatever the others commit between its statements, a call that is about to
commit has had its `Effect` on the rows of that moment, and if nobody adds to
the families it revokes, their tokens are all revoked.
-/

namespace InvestApi.Ref

open InvestApi.Pg

variable {ι : Type} {quiet : Prop} {α : Type}

/-- What a call has done when it is about to commit. -/
structure Ended (quiet : Prop) (env : AuthEnv) (call : AuthCall) (reply : AuthReply)
    (w : AuthWorld ι) (s : AuthSession) : Prop where
  drawn : ∀ k ∈ call.draws, k ∈ s.locks
  effect : Effect env w.db (s.view w.db) call reply
  sealed : quiet → ∀ f, AuthStmt.revokeFamily f ∈ s.trace → Sealed f (s.view w.db)

theorem Revising.ended {env : AuthEnv} {call : AuthCall} {reply : AuthReply}
    {w : AuthWorld ι} {s : AuthSession} (h : Revising quiet [] w s)
    (hdraws : call.draws = []) (hreply : ∀ pair, reply ≠ .pair pair) :
    Ended quiet env call reply w s where
  drawn := by simp [hdraws]
  effect := .revised hreply h.revises
  sealed hq _ hf := h.sealed hq hf

section Session

variable {w : AuthWorld ι} {s : AuthSession}

theorem Revising.tag (hs : Revising quiet [] w s) {t : AuthStmt}
    (ht : ∀ f, t ≠ .revokeFamily f) : Revising quiet [] w (s.tag t) := by
  refine ⟨hs.held.tag _, hs.revises, fun hq f hf => hs.rest hq f ?_⟩
  rcases List.mem_cons.mp hf with h | h
  · exact absurd h.symm (ht f)
  · exact h

theorem Revising.put (hs : Revising quiet [] w s) {h : String}
    {row row' : RefreshTokenRow} (hrow : (s.view w.db).get (.refreshToken h) = some row)
    (hage : row.Ages row') :
    Revising quiet [] w (s.put (.refreshToken h) (some row')) := by
  refine ⟨hs.held.put _ _, ?_, ?_⟩
  · rw [Session.view_put]
    exact hs.revises.set hrow hage
  · intro hq f hf k old hold hfam hrev
    rw [Session.view_put] at hold
    by_cases hk : k = h
    · subst hk
      rw [Db.get_set_self] at hold
      obtain rfl := Option.some.inj hold
      refine hs.rest hq f hf k row hrow (hage.family.symm.trans hfam) ?_
      by_contra hr
      exact hage.revoked hr hrev
    · rw [Db.get_set_ne _ _ (by simpa using hk)] at hold
      exact hs.rest hq f hf k old hold hfam hrev

theorem Revising.put_denied (hs : Revising quiet [] w s) (j : Uuid)
    (row : Option RevokedAccessTokenRow) :
    Revising quiet [] w (s.put (.deniedJti j) row) where
  held := hs.held.put _ _
  revises := by
    rw [Session.view_put]
    exact hs.revises.set_denied j row
  rest hq f hf h row hrow := by
    rw [Session.view_put, Db.get_set_ne _ _ (by simp)] at hrow
    exact hs.rest hq f hf h row hrow

end Session

section Statements

variable {Q : α → AuthWorld ι → AuthSession → Prop}
  {E : ApiError → AuthWorld ι → AuthSession → Prop}
  {w : AuthWorld ι} {s : AuthSession}

/-- The candidates of the UPDATE are the rows of the family that are not
revoked in its snapshot. -/
theorem mem_familyTokens {f : Uuid} {d : AuthDb} {h : String} {row : RefreshTokenRow}
    (hrow : d.get (.refreshToken h) = some row) (hfam : row.familyId = f)
    (hrev : row.revokedAt = none) :
    AuthKey.refreshToken h ∈ AuthService.familyTokens f d := by
  refine List.mem_filter.mpr ⟨(d.mem_keys _).mpr (by simp [hrow]), ?_⟩
  simp [hrow, hfam, hrev]

/-- The revoking UPDATE under way: it is the only one the session has made. -/
def Pass (quiet : Prop) (f : Uuid) (todo : List AuthKey) (w : AuthWorld ι)
    (s : AuthSession) : Prop :=
  Revising quiet todo w s ∧ ∀ f', AuthStmt.revokeFamily f' ∈ s.trace → f' = f

theorem Pass.start {f : Uuid} (hs : Revising quiet [] w s)
    (hnone : ∀ f', AuthStmt.revokeFamily f' ∉ s.trace) {l : List AuthKey}
    (hl : l.Perm (AuthService.familyTokens f (s.view w.db))) :
    Pass quiet f l w (s.tag (.revokeFamily f)) := by
  have honly : ∀ f', AuthStmt.revokeFamily f' ∈ (s.tag (.revokeFamily f)).trace →
      f' = f := by
    intro f' hf'
    rcases List.mem_cons.mp hf' with h | h
    · injection h
    · exact absurd h (hnone f')
  refine ⟨⟨hs.held.tag _, hs.revises, ?_⟩, honly⟩
  intro _ f' hf' h row hrow hfam hrev
  rw [honly f' hf'] at hfam
  exact hl.mem_iff.mpr (mem_familyTokens hrow hfam hrev)

/-- A candidate that needs nothing done is done with. -/
theorem Pass.next {f : Uuid} {k : AuthKey} {ks : List AuthKey}
    (hp : Pass quiet f (k :: ks) w s)
    (hk : ∀ h row, k = .refreshToken h → (s.view w.db).get (.refreshToken h) = some row →
      row.familyId = f → row.revokedAt ≠ none) : Pass quiet f ks w s := by
  refine ⟨⟨hp.1.held, hp.1.revises, ?_⟩, hp.2⟩
  intro hq f' hf' h row hrow hfam hrev
  have hmem := hp.1.rest hq f' hf' h row hrow hfam hrev
  rw [hp.2 f' hf'] at hfam
  rcases List.mem_cons.mp hmem with he | hmem
  · exact absurd hrev (hk h row he.symm hrow hfam)
  · exact hmem

theorem Pass.put {f : Uuid} {h : String} {ks : List AuthKey}
    {row row' : RefreshTokenRow} (hp : Pass quiet f (.refreshToken h :: ks) w s)
    (hrow : (s.view w.db).get (.refreshToken h) = some row) (hage : row.Ages row')
    (hrev : row'.revokedAt ≠ none) :
    Pass quiet f ks w (s.put (.refreshToken h) (some row')) := by
  refine ⟨⟨hp.1.held.put _ _, ?_, ?_⟩, hp.2⟩
  · rw [Session.view_put]
    exact hp.1.revises.set hrow hage
  · intro hq f' hf' k old hold hfam hold'
    rw [Session.view_put] at hold
    by_cases hk : k = h
    · subst hk
      rw [Db.get_set_self] at hold
      obtain rfl := Option.some.inj hold
      exact absurd hold' hrev
    · rw [Db.get_set_ne _ _ (by simpa using hk)] at hold
      have hmem := hp.1.rest hq f' hf' k old hold hfam hold'
      rcases List.mem_cons.mp hmem with he | hmem
      · injection he with he
        exact absurd he hk
      · exact hmem

theorem wp_revokeFamily {Q : Unit → AuthWorld ι → AuthSession → Prop} {f : Uuid}
    {now : Instant} (hs : Revising quiet [] w s)
    (hnone : ∀ f', AuthStmt.revokeFamily f' ∉ s.trace)
    (hq : ∀ w' s', Revising quiet [] w' s' → Q () w' s') :
    (AuthService.revokeFamily f now).wp (AuthR quiet) Q E w s := by
  intro l hl w' hw'
  have hstart := Pass.start hs hnone hl
  suffices hpass : wpScan (AuthR quiet) (AuthService.revokeRow f now)
      (fun _ => Pass quiet f []) l [] w' (s.tag (.revokeFamily f)) from
    wpScan_mono (fun _ w s h => hq w s h.1) hpass
  refine wpScan_of_inv ?_ ?_ ?_ ?_ ?_ ⟨hstart.1.stable hw', hstart.2⟩
  · intro todo w s h w' hw'
    exact ⟨h.1.stable hw', h.2⟩
  · intro k ks w s h hgone
    refine h.next fun t row hk hrow => ?_
    subst hk
    rw [hgone] at hrow
    simp at hrow
  · intro k ks w s v h hv ha
    refine h.next fun t row hk hrow hfam hrev => ?_
    subst hk
    obtain rfl := Option.some.inj (hv.symm.trans hrow)
    simp [AuthService.revokeRow, hfam, hrev] at ha
  · intro k ks w s v v' h hv ha
    cases k with
    | refreshToken t =>
        simp only [AuthService.revokeRow] at ha
        split at ha
        · injection ha with ha
          subst ha
          exact h.put hv ⟨rfl, rfl, rfl, fun hu => hu, fun _ => by simp⟩ (by simp)
        · simp at ha
    | deniedJti j => simp [AuthService.revokeRow] at ha
    | family g => simp [AuthService.revokeRow] at ha
  · intro k ks w s v h hv ha
    cases k with
    | refreshToken t =>
        simp only [AuthService.revokeRow] at ha
        split at ha <;> simp at ha
    | deniedJti j => simp [AuthService.revokeRow] at ha
    | family g => simp [AuthService.revokeRow] at ha

theorem wp_purgeDenied {Q : Unit → AuthWorld ι → AuthSession → Prop} {now : Instant}
    (hs : Revising quiet [] w s) (hq : ∀ w' s', Revising quiet [] w' s' → Q () w' s') :
    (AuthService.purgeDenied now).wp (AuthR quiet) Q E w s := by
  intro l hl w' hw'
  have htag : Revising quiet [] w (s.tag .purgeDenied) := hs.tag (by simp)
  suffices hpass : wpScan (AuthR quiet) (AuthService.purgeRow now)
      (fun _ => Revising quiet []) l [] w' (s.tag .purgeDenied) from
    wpScan_mono (fun _ w s h => hq w s h) hpass
  refine wpScan_of_inv (I := fun _ => Revising quiet []) ?_ ?_ ?_ ?_ ?_
    (htag.stable hw')
  · intro _ w s h w' hw'
    exact h.stable hw'
  · intro _ _ w s h _
    exact h
  · intro _ _ w s _ h _ _
    exact h
  · intro k _ w s v v' h hv ha
    cases k with
    | refreshToken t => simp [AuthService.purgeRow] at ha
    | deniedJti j =>
        simp only [AuthService.purgeRow] at ha
        split at ha <;> simp at ha
    | family g => simp [AuthService.purgeRow] at ha
  · intro k _ w s v h hv ha
    cases k with
    | refreshToken t => simp [AuthService.purgeRow] at ha
    | deniedJti j => exact h.put_denied j none
    | family g => simp [AuthService.purgeRow] at ha

end Statements

/-! ## The calls -/

section Calls

variable {env : AuthEnv} {E : ApiError → AuthWorld ι → AuthSession → Prop}
  {w : AuthWorld ι}

theorem wp_login {user : LoginUser} {f : Uuid} {draw : AuthDraw}
    (hnone : NoneOf w.db f) :
    ((AuthCall.login user f draw).body env).wp (AuthR quiet)
      (fun r w s => Ended quiet env (.login user f draw) r w s) E w
      (Session.init [.family f]) := by
  simp only [AuthCall.body, AuthService.login, AuthService.issue, Prog.bind_eq,
    Prog.pure_eq, Prog.wp_bind]
  intro hfree _ _ w' hw'
  have hmine : AuthKey.family f ∈ ((Session.init [.family f]).putRows
      [⟨.refreshToken (env.hashRefresh draw.refresh),
        AuthService.successorRow user f draw.now⟩] : AuthSession).locks :=
    Session.mem_locks_putRows.mpr (Or.inl (by simp))
  have hnew : w'.db.get (.refreshToken (env.hashRefresh draw.refresh)) = none := by
    rw [AuthR.held hw' (Session.mem_locks_putRows.mpr (Or.inr (by simp)))]
    exact hfree _ (List.mem_singleton_self _)
  refine ⟨by simp [AuthCall.draws],
    .loggedIn (hw'.2.2.family f hmine hnone) hnew (by simp), fun _ f' hf' => ?_⟩
  simp [Session.init] at hf'

theorem wp_logout {user : AuthUser} {now : Instant} :
    ((AuthCall.logout user now).body env).wp (AuthR quiet)
      (fun r w s => Ended quiet env (.logout user now) r w s) E w
      (Session.init []) := by
  simp only [AuthCall.body, AuthService.logout, Prog.bind_eq, Prog.pure_eq,
    Prog.wp_bind]
  refine wp_revokeFamily (Revising.init []) (by simp [Session.init]) ?_
  intro w₁ s₁ h₁
  have hend : ∀ w s, Revising quiet [] w s →
      (AuthService.purgeDenied now).wp (AuthR quiet)
        (fun _ w s => Ended quiet env (.logout user now) .loggedOut w s) E w s :=
    fun w s h => wp_purgeDenied h fun w' s' h' => h'.ended rfl (by simp)
  constructor
  · intro _ w₂ hw₂
    exact hend _ _ ((h₁.put_denied _ _).stable hw₂)
  · intro _ w₂ hw₂
    exact hend _ _ (h₁.stable hw₂)

/-- The presented token's row, locked and read again. -/
theorem wp_findToken {Q : Option RefreshTokenRow → AuthWorld ι → AuthSession → Prop}
    {h : String} {s : AuthSession}
    (hnone : ∀ w', AuthR quiet (s.tag .findToken) w w' →
      Stable (AuthR quiet) (Q none) w' (s.tag .findToken))
    (hsome : ∀ w' row, AuthR quiet (s.tag .findToken) w w' →
      (s.view w'.db).get (.refreshToken h) = some row →
      Stable (AuthR quiet) (Q (some row)) w'
        ((s.tag .findToken).put (.refreshToken h) (some row))) :
    (AuthService.findToken h).wp (AuthR quiet) Q E w s := by
  refine Prog.wp_update_only AuthR.trans ?_ ?_
  · intro _ w' hw'
    exact hnone w ⟨trivial, fun _ _ => rfl, .refl _ _⟩ w' hw'
  · intro _ w' hw'
    cases hv : (s.view w'.db).get (.refreshToken h) with
    | none => exact hnone w' hw'
    | some row => exact hsome w' row hw' hv

/-- `markUsed` on a row the session holds. -/
theorem wp_markUsed {Q : Unit → AuthWorld ι → AuthSession → Prop} {h : String}
    {now : Instant} {s : AuthSession} {row : RefreshTokenRow}
    (hmine : AuthKey.refreshToken h ∈ s.locks)
    (hrow : (s.view w.db).get (.refreshToken h) = some row)
    (hq : ∀ w', AuthR quiet (s.tag .markUsed) w w' →
      Stable (AuthR quiet) (Q ()) w'
        ((s.tag .markUsed).put (.refreshToken h) (some (used row now)))) :
    (AuthService.markUsed h now).wp (AuthR quiet) Q E w s := by
  refine Prog.wp_update_only AuthR.trans ?_ ?_
  · intro hmiss
    simp [hrow] at hmiss
  · intro _ w' hw'
    have hrow' : (s.view w'.db).get (.refreshToken h) = some row := by
      have hview := AuthR.get_view hw' (k := .refreshToken h) (by simpa using hmine)
      simpa [hrow] using hview
    simp only [hrow', AuthService.useRow]
    exact hq w' hw'

theorem wp_refresh {token : String} {draw : AuthDraw} (hE : ∀ e w s, E e w s) :
    ((AuthCall.refresh token draw).body env).wp (AuthR quiet)
      (fun r w s => Ended quiet env (.refresh token draw) r w s) E w
      (Session.init []) := by
  simp only [AuthCall.body, AuthService.rotate, Prog.bind_eq, Prog.pure_eq,
    Prog.wp_bind]
  have hinit : ∀ w : AuthWorld ι,
      Revising quiet [] w ((Session.init []).tag .findToken) :=
    fun w => (Revising.init []).tag (by simp)
  refine wp_findToken ?_ ?_
  · intro w₁ _ w₂ _
    exact (hinit w₂).ended rfl (by simp [AuthService.answer, AuthReply.ofAnswer])
  intro w₁ row _ hrow₁ w₂ hw₂
  have hrow₂ : w₂.db.get (.refreshToken (env.hashRefresh token)) = some row := by
    rw [AuthR.held hw₂ (by simp)]
    exact hrow₁
  have hput : Revising quiet [] w₂ (((Session.init []).tag .findToken).put
      (.refreshToken (env.hashRefresh token)) (some row)) :=
    (hinit w₂).put hrow₂ (.refl row)
  dsimp only
  split
  · exact hput.ended rfl (by simp [AuthService.answer, AuthReply.ofAnswer])
  next hdead =>
  split
  · rw [Prog.wp_bind]
    refine wp_revokeFamily hput (by simp [Session.init, Session.tag]) ?_
    intro w₃ s₃ h₃
    exact h₃.ended rfl (by simp [AuthService.answer, AuthReply.ofAnswer])
  next hused =>
  have hlive : row.Live := by
    simp only [RefreshTokenRow.dead, Bool.or_eq_true, not_or] at hdead
    exact ⟨by simpa using hused, by simpa using hdead.1⟩
  rw [Prog.wp_bind]
  have hview : ((((Session.init []).tag AuthStmt.findToken).put
      (.refreshToken (env.hashRefresh token)) (some row)).view w₂.db).get
      (.refreshToken (env.hashRefresh token)) = some row := by simp
  refine wp_markUsed (by simp) hview ?_
  intro w₃ hw₃ w₄ hw₄ w₅ hw₅
  rw [Prog.wp_bind, Prog.wp]
  split
  · exact hE _ _ _
  next user _ =>
  simp only [AuthService.issue, Prog.bind_eq, Prog.pure_eq, Prog.wp_bind]
  intro hfree _ _ w₆ hw₆
  have hrow₆ : w₆.db.get (.refreshToken (env.hashRefresh token)) = some row := by
    rw [AuthR.held hw₆ (Session.mem_locks_putRows.mpr (Or.inl (by simp))),
      AuthR.held hw₅ (by simp), AuthR.held hw₄ (by simp), AuthR.held hw₃ (by simp), hrow₂]
  have hne : AuthKey.refreshToken (env.hashRefresh draw.refresh)
      ≠ .refreshToken (env.hashRefresh token) := by
    intro he
    have hgone := hfree _ (List.mem_singleton_self _)
    simp only [Session.view_put] at hgone
    rw [he, Db.get_set_self] at hgone
    simp at hgone
  have hnew : w₆.db.get (.refreshToken (env.hashRefresh draw.refresh)) = none := by
    have hgone := hfree _ (List.mem_singleton_self _)
    rw [AuthR.held hw₆ (Session.mem_locks_putRows.mpr (Or.inr (by simp)))]
    simpa [hne] using hgone
  refine ⟨by simp [AuthCall.draws], .refreshed (u := user) hrow₆ hlive hnew (by simp),
    fun _ f hf => ?_⟩
  simp [Session.init, Session.tag] at hf

end Calls

end InvestApi.Ref
