import InvestApi.Auth.Families

/-!
# What a session ends of

Reuse detection must not hit the wrong session. A family is revoked by a logout
of that session or when a token of it that has been exchanged is presented once
more, and a token is used when it has been exchanged; nothing else marks a row,
whatever the calls of other sessions do at the same time. So a refresh that is
refused was refused for its own session's reasons.
-/

namespace InvestApi.Ref

open InvestApi.Pg

variable {ι : Type}

/-! ## What a call may mark -/

/-- The answer to a token that was used before. -/
def IsReuse (reply : AuthReply) : Prop :=
  ∃ row, reply = .ofAnswer (AuthService.answer (.reuse row))

/-- Why a call revokes the family `f` in the tables `d`. -/
inductive Revoker (env : AuthEnv) (d : AuthDb) (reply : AuthReply) (f : Uuid) :
    AuthCall → Prop
  | logout {user now} (h : user.sid = f) : Revoker env d reply f (.logout user now)
  | replay {token draw row}
      (hrow : d.get (.refreshToken (env.hashRefresh token)) = some row)
      (hfamily : row.familyId = f) (hused : row.usedAt ≠ none) (hreply : IsReuse reply) :
      Revoker env d reply f (.refresh token draw)

/-- No token appears or is used, and those that are revoked are of families in
`F`. -/
def Spares (F : Uuid → Prop) (d d' : AuthDb) : Prop :=
  ∀ h row', d'.get (.refreshToken h) = some row' →
    ∃ row, d.get (.refreshToken h) = some row ∧ row'.usedAt = row.usedAt ∧
      row'.familyId = row.familyId ∧ row'.expiresAt = row.expiresAt ∧
      (row'.revokedAt ≠ none → row.revokedAt ≠ none ∨ F row.familyId)

section Spares

variable {F : Uuid → Prop} {d v : AuthDb}

theorem Spares.refl (d : AuthDb) : Spares F d d :=
  fun _ row hrow => ⟨row, hrow, rfl, rfl, rfl, Or.inl⟩

theorem Spares.mono {F' : Uuid → Prop} (h : Spares F d v) (himp : ∀ f, F f → F' f) :
    Spares F' d v := by
  intro k row' hrow'
  obtain ⟨row, hrow, hu, hf, he, hr⟩ := h k row' hrow'
  exact ⟨row, hrow, hu, hf, he, fun hne => (hr hne).imp_right (himp _)⟩

theorem Spares.set (hs : Spares F d v) {h : String} {row row' : RefreshTokenRow}
    (hrow : v.get (.refreshToken h) = some row) (hu : row'.usedAt = row.usedAt)
    (hf : row'.familyId = row.familyId) (he : row'.expiresAt = row.expiresAt)
    (hr : row'.revokedAt ≠ none → row.revokedAt ≠ none ∨ F row.familyId) :
    Spares F d (v.set (.refreshToken h) (some row')) := by
  intro k new hnew
  by_cases hk : k = h
  · subst hk
    rw [Db.get_set_self] at hnew
    obtain rfl := Option.some.inj hnew
    obtain ⟨old, hold, hu', hf', he', hr'⟩ := hs k row hrow
    refine ⟨old, hold, hu.trans hu', hf.trans hf', he.trans he', fun hne => ?_⟩
    rcases hr hne with hrev | hfam
    · exact hr' hrev
    · exact Or.inr (hf' ▸ hfam)
  · rw [Db.get_set_ne _ _ (by simpa using hk)] at hnew
    exact hs k new hnew

theorem Spares.set_denied (hs : Spares F d v) (j : Uuid) (row : Option RevokedAccessTokenRow) :
    Spares F d (v.set (.deniedJti j) row) := by
  intro k new hnew
  rw [Db.get_set_ne _ _ (by simp)] at hnew
  exact hs k new hnew

end Spares

/-- A session that has marked nothing but families in `F`; it holds the row
`own`, if it has one. -/
structure Sparing (F : Uuid → Prop) (own : Option (String × RefreshTokenRow))
    (w : AuthWorld ι) (s : AuthSession) : Prop where
  held : s.Held
  spares : Spares F w.db (s.view w.db)
  mine : ∀ h row, own = some (h, row) →
    AuthKey.refreshToken h ∈ s.locks ∧ w.db.get (.refreshToken h) = some row

section Session

variable {F : Uuid → Prop} {own : Option (String × RefreshTokenRow)} {w w' : AuthWorld ι}
  {s : AuthSession} {E : ApiError → AuthWorld ι → AuthSession → Prop}

theorem Sparing.init (draws : List AuthKey) : Sparing F none w (Session.init draws) where
  held := Session.held_init draws
  spares := .refl w.db
  mine _ _ h := by simp at h

theorem Sparing.stable (h : Sparing F own w s) (hR : AuthR False s w w') :
    Sparing F own w' s where
  held := h.held
  spares := by
    intro k row' hrow'
    by_cases hk : AuthKey.refreshToken k ∈ s.locks
    · rw [hR.get_view hk] at hrow'
      rw [hR.held hk]
      exact h.spares k row' hrow'
    · rw [Session.get_view_of_notMem h.held hk] at hrow'
      exact ⟨row', hrow', rfl, rfl, rfl, Or.inl⟩
  mine k row hown := by
    obtain ⟨hlock, hrow⟩ := h.mine k row hown
    exact ⟨hlock, (hR.held hlock).trans hrow⟩

theorem Sparing.tag (h : Sparing F own w s) (t : AuthStmt) : Sparing F own w (s.tag t) :=
  ⟨h.held.tag t, h.spares, h.mine⟩

theorem Sparing.put (h : Sparing F own w s) {k : String} {row row' : RefreshTokenRow}
    (hrow : (s.view w.db).get (.refreshToken k) = some row) (hu : row'.usedAt = row.usedAt)
    (hf : row'.familyId = row.familyId) (he : row'.expiresAt = row.expiresAt)
    (hr : row'.revokedAt ≠ none → row.revokedAt ≠ none ∨ F row.familyId) :
    Sparing F own w (s.put (.refreshToken k) (some row')) where
  held := h.held.put _ _
  spares := by
    rw [Session.view_put]
    exact h.spares.set hrow hu hf he hr
  mine k' row hown := by
    obtain ⟨hlock, hrow⟩ := h.mine k' row hown
    exact ⟨List.mem_cons_of_mem _ hlock, hrow⟩

theorem Sparing.put_denied (h : Sparing F own w s) (j : Uuid)
    (row : Option RevokedAccessTokenRow) :
    Sparing F own w (s.put (.deniedJti j) row) where
  held := h.held.put _ _
  spares := by
    rw [Session.view_put]
    exact h.spares.set_denied j row
  mine k' row hown := by
    obtain ⟨hlock, hrow⟩ := h.mine k' row hown
    exact ⟨List.mem_cons_of_mem _ hlock, hrow⟩

theorem Sparing.wp_revokeFamily {Q : Unit → AuthWorld ι → AuthSession → Prop} {f : Uuid}
    {now : Instant} (hs : Sparing F own w s) (hf : F f)
    (hq : ∀ w' s', Sparing F own w' s' → Q () w' s') :
    (AuthService.revokeFamily f now).wp (AuthR False) Q E w s := by
  intro l hl w' hw'
  suffices hpass : wpScan (AuthR False) (AuthService.revokeRow f now)
      (fun _ => Sparing F own) l [] w' (s.tag (.revokeFamily f)) from
    wpScan_mono (fun _ w s h => hq w s h) hpass
  refine wpScan_of_inv (I := fun _ => Sparing F own) ?_ ?_ ?_ ?_ ?_ ((hs.tag _).stable hw')
  · intro _ w s h w' hw'
    exact h.stable hw'
  · intro _ _ w s h _
    exact h
  · intro _ _ w s _ h _ _
    exact h
  · intro k ks w s v v' h hv ha
    cases k with
    | refreshToken t =>
        simp only [AuthService.revokeRow] at ha
        split at ha
        · next hrow =>
            injection ha with ha
            subst ha
            exact h.put hv rfl rfl rfl fun _ => Or.inr (hrow.1 ▸ hf)
        · simp at ha
    | deniedJti j => simp [AuthService.revokeRow] at ha
    | family g => simp [AuthService.revokeRow] at ha
  · intro k ks w s v h hv ha
    cases k with
    | refreshToken t =>
        simp only [AuthService.revokeRow] at ha
        split at ha <;> simp at ha
    | deniedJti j => simp [AuthService.revokeRow] at ha
    | family g => simp [AuthService.revokeRow] at ha

theorem Sparing.wp_purgeDenied {Q : Unit → AuthWorld ι → AuthSession → Prop} {now : Instant}
    (hs : Sparing F own w s) (hq : ∀ w' s', Sparing F own w' s' → Q () w' s') :
    (AuthService.purgeDenied now).wp (AuthR False) Q E w s := by
  intro l hl w' hw'
  suffices hpass : wpScan (AuthR False) (AuthService.purgeRow now)
      (fun _ => Sparing F own) l [] w' (s.tag .purgeDenied) from
    wpScan_mono (fun _ w s h => hq w s h) hpass
  refine wpScan_of_inv (I := fun _ => Sparing F own) ?_ ?_ ?_ ?_ ?_ ((hs.tag _).stable hw')
  · intro _ w s h w' hw'
    exact h.stable hw'
  · intro _ _ w s h _
    exact h
  · intro _ _ w s _ h _ _
    exact h
  · intro k _ w s v v' h hv ha
    cases k with
    | refreshToken t => simp [AuthService.purgeRow] at ha
    | deniedJti j =>
        simp only [AuthService.purgeRow] at ha
        split at ha <;> simp at ha
    | family g => simp [AuthService.purgeRow] at ha
  · intro k _ w s v h hv ha
    cases k with
    | refreshToken t => simp [AuthService.purgeRow] at ha
    | deniedJti j => exact h.put_denied j none
    | family g => simp [AuthService.purgeRow] at ha

end Session

/-! ## The calls -/

/-- What a call that answers without a pair has done, and why; the tokens of which
`known` holds were there when it began. -/
structure Reasoned (env : AuthEnv) (known : String → Prop) (call : AuthCall)
    (reply : AuthReply) (w : AuthWorld ι) (s : AuthSession) : Prop where
  spares : (∀ pair, reply ≠ .pair pair) →
    Spares (fun f => Revoker env w.db reply f call) w.db (s.view w.db)
  refused : ∀ token draw, call = .refresh token draw → known (env.hashRefresh token) →
    (∀ pair, reply ≠ .pair pair) →
      ∃ row, w.db.get (.refreshToken (env.hashRefresh token)) = some row ∧
        (row.dead draw.now = true ∨ row.usedAt ≠ none ∧ IsReuse reply)

section Calls

variable {env : AuthEnv} {E : ApiError → AuthWorld ι → AuthSession → Prop} {w : AuthWorld ι}
  {s : AuthSession} {known : String → Prop}

theorem Reasoned.of_pair (call : AuthCall) (pair : TokenPair) (w : AuthWorld ι)
    (s : AuthSession) : Reasoned env known call (.pair pair) w s :=
  ⟨fun h => absurd rfl (h pair), fun _ _ _ _ h => absurd rfl (h pair)⟩

/-- Whatever a body does, it comes to an end that asks for nothing. -/
theorem wp_any {α : Type} (p : AuthProg α) {Q : α → AuthWorld ι → AuthSession → Prop}
    (hq : ∀ a w s, Q a w s) (hE : ∀ e w s, E e w s) : p.wp (AuthR False) Q E w s :=
  Prog.wp_mono (fun a w s _ => hq a w s) (fun e w s _ => hE e w s)
    (Prog.wp_of_stays (P := fun _ => True) (fun _ _ _ _ h => h) p trivial)

theorem wp_login_reasoned {user : LoginUser} {f : Uuid} {draw : AuthDraw}
    (hE : ∀ e w s, E e w s) :
    ((AuthCall.login user f draw).body env).wp (AuthR False)
      (fun r w s => Reasoned env known (.login user f draw) r w s) E w s := by
  simp only [AuthCall.body, Prog.bind_eq, Prog.pure_eq, Prog.wp_bind]
  exact wp_any _ (fun pair w s => .of_pair _ pair w s) hE

theorem wp_logout_reasoned {user : AuthUser} {now : Instant} :
    ((AuthCall.logout user now).body env).wp (AuthR False)
      (fun r w s => Reasoned env known (.logout user now) r w s) E w (Session.init []) := by
  have hend : ∀ (w : AuthWorld ι) s, Sparing (· = user.sid) none w s →
      Reasoned env known (.logout user now) .loggedOut w s := fun w s h =>
    ⟨fun _ => h.spares.mono fun f hf => .logout hf.symm, fun _ _ hcall => by cases hcall⟩
  simp only [AuthCall.body, AuthService.logout, Prog.bind_eq, Prog.pure_eq, Prog.wp_bind]
  refine Sparing.wp_revokeFamily (F := (· = user.sid)) (.init []) rfl fun w₁ s₁ h₁ => ?_
  constructor
  · intro _ w₂ hw₂
    exact ((h₁.put_denied _ _).stable hw₂).wp_purgeDenied hend
  · intro _ w₂ hw₂
    exact (h₁.stable hw₂).wp_purgeDenied hend

/-- `findToken`, with what it has read when it finds none. -/
theorem wp_findToken_reading {Q : Option RefreshTokenRow → AuthWorld ι → AuthSession → Prop}
    {h : String}
    (hnone : ∀ w', AuthR False (s.tag .findToken) w w' →
      (s.view w'.db).get (.refreshToken h) = none →
        Stable (AuthR False) (Q none) w' (s.tag .findToken))
    (hsome : ∀ w' row, AuthR False (s.tag .findToken) w w' →
      (s.view w'.db).get (.refreshToken h) = some row →
        Stable (AuthR False) (Q (some row)) w'
          ((s.tag .findToken).put (.refreshToken h) (some row))) :
    (AuthService.findToken h).wp (AuthR False) Q E w s := by
  refine Prog.wp_update_only AuthR.trans ?_ ?_
  · intro hmiss w' hw'
    refine hnone w ⟨trivial, fun _ _ => rfl, .refl _ _⟩ ?_ w' hw'
    cases hv : (s.view w.db).get (.refreshToken h) with
    | none => rfl
    | some row => simp [hv] at hmiss
  · intro _ w' hw'
    cases hv : (s.view w'.db).get (.refreshToken h) with
    | none => exact hnone w' hw' hv
    | some row => exact hsome w' row hw' hv

theorem wp_refresh_reasoned {token : String} {draw : AuthDraw} (hE : ∀ e w s, E e w s)
    (hknown : known (env.hashRefresh token) →
      ∃ row, w.db.get (.refreshToken (env.hashRefresh token)) = some row) :
    ((AuthCall.refresh token draw).body env).wp (AuthR False)
      (fun r w s => Reasoned env known (.refresh token draw) r w s) E w (Session.init []) := by
  simp only [AuthCall.body, AuthService.rotate, Prog.bind_eq, Prog.pure_eq, Prog.wp_bind]
  refine wp_findToken_reading ?_ ?_
  · intro w₁ hw₁ hgone w₂ hw₂
    refine ⟨fun _ => ((Sparing.init []).tag _).spares, fun t dr hcall hk => ?_⟩
    obtain ⟨rfl, rfl⟩ := AuthCall.refresh.inj hcall
    obtain ⟨row, hrow⟩ := hknown hk
    obtain ⟨row', hrow', _⟩ := hw₁.2.2.kept _ row hrow
    rw [Session.view_init, hrow'] at hgone
    cases hgone
  intro w₁ row _ hrow₁ w₂ hw₂
  rw [Session.view_init] at hrow₁
  have hrow₂ : w₂.db.get (.refreshToken (env.hashRefresh token)) = some row := by
    rw [AuthR.held hw₂ (by simp)]
    exact hrow₁
  have hput : ∀ F : Uuid → Prop, Sparing F (some (env.hashRefresh token, row)) w₂
      (((Session.init []).tag .findToken).put (.refreshToken (env.hashRefresh token))
        (some row)) := by
    intro F
    have h := ((Sparing.init (F := F) (w := w₂) []).tag .findToken).put
      (k := env.hashRefresh token) hrow₂ rfl rfl rfl Or.inl
    refine ⟨h.held, h.spares, fun k row' hown => ?_⟩
    obtain ⟨rfl, rfl⟩ := Prod.mk.inj (Option.some.inj hown)
    exact ⟨by simp, hrow₂⟩
  dsimp only
  split
  · next hdead =>
    refine ⟨fun _ => (hput fun _ => False).spares.mono fun _ h => h.elim,
      fun t dr hcall _ _ => ?_⟩
    obtain ⟨rfl, rfl⟩ := AuthCall.refresh.inj hcall
    exact ⟨row, hrow₂, Or.inl hdead⟩
  next hdead =>
  split
  · next hused =>
    rw [Prog.wp_bind]
    refine (hput (· = row.familyId)).wp_revokeFamily rfl fun w₃ s₃ h₃ => ?_
    have hrow₃ : w₃.db.get (.refreshToken (env.hashRefresh token)) = some row :=
      (h₃.mine _ _ rfl).2
    have hused' : row.usedAt ≠ none := Option.isSome_iff_ne_none.mp hused
    refine ⟨fun _ => h₃.spares.mono fun f hf => .replay hrow₃ hf.symm hused' ⟨row, rfl⟩,
      fun t dr hcall _ _ => ?_⟩
    obtain ⟨rfl, rfl⟩ := AuthCall.refresh.inj hcall
    exact ⟨row, hrow₃, Or.inr ⟨hused', row, rfl⟩⟩
  next hused =>
  rw [Prog.wp_bind]
  refine wp_any _ (fun _ w₃ s₃ => ?_) hE
  intro w₄ _
  rw [Prog.wp_bind, Prog.wp]
  split
  · exact hE _ _ _
  · rw [Prog.wp_bind]
    exact wp_any _ (fun pair w s => .of_pair _ pair w s) hE

end Calls

/-! ## Runs -/

section Run

variable {env : AuthEnv} {calls : ι → AuthCall} {w w' : AuthWorld ι}

/-- The session `f` has been ended: by its logout, or by an exchanged token of it that
came back. -/
inductive FamilyEnded (env : AuthEnv) (calls : ι → AuthCall) (w : AuthWorld ι) (f : Uuid) :
    Prop
  | loggedOut {i user now reply} (hcall : calls i = .logout user now) (hsid : user.sid = f)
      (hi : (i, .committed reply) ∈ w.log) : FamilyEnded env calls w f
  | replayed {i j token token' draw draw' pair reply row} (hne : i ≠ j)
      (hcall : calls i = .refresh token draw) (hcall' : calls j = .refresh token' draw')
      (hsame : env.hashRefresh token = env.hashRefresh token')
      (hi : (i, .committed (.pair pair)) ∈ w.log) (hj : (j, .committed reply) ∈ w.log)
      (hreply : IsReuse reply)
      (hrow : w.db.get (.refreshToken (env.hashRefresh token)) = some row)
      (hfamily : row.familyId = f) : FamilyEnded env calls w f

/-- Every mark in the tables has its call. -/
structure Traced (env : AuthEnv) (calls : ι → AuthCall) (w : AuthWorld ι) : Prop where
  used : ∀ h row, w.db.get (.refreshToken h) = some row → row.usedAt ≠ none →
    ∃ i token draw pair, calls i = .refresh token draw ∧ env.hashRefresh token = h ∧
      (i, .committed (.pair pair)) ∈ w.log
  revoked : ∀ h row, w.db.get (.refreshToken h) = some row → row.revokedAt ≠ none →
    FamilyEnded env calls w row.familyId

theorem FamilyEnded.later {f : Uuid} (h : FamilyEnded env calls w f) (hkept : Kept w.db w'.db)
    (hlog : ∀ entry ∈ w.log, entry ∈ w'.log) : FamilyEnded env calls w' f := by
  cases h with
  | loggedOut hcall hsid hi => exact .loggedOut hcall hsid (hlog _ hi)
  | replayed hne hcall hcall' hsame hi hj hreply hrow hfamily =>
      obtain ⟨row', hrow', hage⟩ := hkept _ _ hrow
      exact .replayed hne hcall hcall' hsame (hlog _ hi) (hlog _ hj) hreply hrow'
        (hage.family.trans hfamily)

/-- A call that ends otherwise than by a COMMIT. -/
theorem Traced.noted (h : Traced env calls w) (hdb : w'.db = w.db)
    (hlog : ∀ entry ∈ w.log, entry ∈ w'.log) : Traced env calls w' where
  used k row hrow hused := by
    rw [hdb] at hrow
    obtain ⟨i, token, draw, pair, hcall, hk, hi⟩ := h.used k row hrow hused
    exact ⟨i, token, draw, pair, hcall, hk, hlog _ hi⟩
  revoked k row hrow hrev := by
    rw [hdb] at hrow
    exact (h.revoked k row hrow hrev).later (hdb ▸ .refl _) hlog

/-- A call that answers with a pair marks the token it was given, and nothing else. -/
theorem Effect.marks {d d' : AuthDb} {call : AuthCall} {pair : TokenPair}
    (h : Effect env d d' call (.pair pair)) {k : String} {row' : RefreshTokenRow}
    (hrow' : d'.get (.refreshToken k) = some row') :
    (row'.usedAt ≠ none → (∃ row, d.get (.refreshToken k) = some row ∧ row.usedAt ≠ none) ∨
      ∃ token draw, call = .refresh token draw ∧ env.hashRefresh token = k) ∧
    (row'.revokedAt ≠ none → ∃ row, d.get (.refreshToken k) = some row ∧
      row.revokedAt ≠ none ∧ row.familyId = row'.familyId) := by
  cases h with
  | @loggedIn user f draw _ hnone hnew hd' =>
      rw [hd'] at hrow'
      by_cases hk : k = env.hashRefresh draw.refresh
      · subst hk
        rw [Db.get_set_self] at hrow'
        rw [← Option.some.inj hrow']
        exact ⟨fun hu => absurd rfl hu, fun hr => absurd rfl hr⟩
      · rw [Db.get_set_ne _ _ (by simpa using hk)] at hrow'
        exact ⟨fun hu => Or.inl ⟨row', hrow', hu⟩, fun hr => ⟨row', hrow', hr, rfl⟩⟩
  | @refreshed token draw _ row u hrow hlive hnew hd' =>
      rw [hd'] at hrow'
      by_cases hk : k = env.hashRefresh draw.refresh
      · subst hk
        rw [Db.get_set_self] at hrow'
        rw [← Option.some.inj hrow']
        exact ⟨fun hu => absurd rfl hu, fun hr => absurd rfl hr⟩
      · rw [Db.get_set_ne _ _ (by simpa using hk)] at hrow'
        by_cases hk' : k = env.hashRefresh token
        · subst hk'
          rw [Db.get_set_self] at hrow'
          rw [← Option.some.inj hrow']
          exact ⟨fun _ => Or.inr ⟨token, draw, rfl, rfl⟩, fun hr => absurd hlive.2 hr⟩
        · rw [Db.get_set_ne _ _ (by simpa using hk'),
            Db.get_set_ne _ _ (by simpa using hk')] at hrow'
          exact ⟨fun hu => Or.inl ⟨row', hrow', hu⟩, fun hr => ⟨row', hrow', hr, rfl⟩⟩
  | revised hreply h => exact absurd rfl (hreply pair)

theorem Traced.paired (h : Traced env calls w) {i : ι} {σ : AuthSession} {pair : TokenPair}
    (heff : Effect env w.db (σ.view w.db) (calls i) (.pair pair)) :
    Traced env calls (w.commit i (.pair pair) σ) := by
  have hlog : ∀ entry ∈ w.log, entry ∈ (w.commit i (.pair pair) σ).log :=
    fun entry he => List.mem_append_left _ he
  refine ⟨fun k row' hrow' hused => ?_, fun k row' hrow' hrev => ?_⟩
  · rcases (heff.marks hrow').1 hused with ⟨row, hrow, hu⟩ | ⟨token, draw, hcall, hk⟩
    · obtain ⟨i', token, draw, pair', hcall, hk, hi⟩ := h.used k row hrow hu
      exact ⟨i', token, draw, pair', hcall, hk, hlog _ hi⟩
    · exact ⟨i, token, draw, pair, hcall, hk, by simp⟩
  · obtain ⟨row, hrow, hr, hf⟩ := (heff.marks hrow').2 hrev
    rw [← hf]
    exact (h.revoked k row hrow hr).later heff.kept hlog

/-- A call that answers without a pair: what it revokes it has a reason for. -/
theorem Traced.revised (h : Traced env calls w) {i : ι} {σ : AuthSession} {reply : AuthReply}
    {known : String → Prop} (hkept : Kept w.db (σ.view w.db))
    (hreason : Reasoned env known (calls i) reply w σ) (hreply : ∀ pair, reply ≠ .pair pair)
    (hi : i ∉ w.log.map (·.1)) : Traced env calls (w.commit i reply σ) := by
  have hlog : ∀ entry ∈ w.log, entry ∈ (w.commit i reply σ).log :=
    fun entry he => List.mem_append_left _ he
  have hspares := hreason.spares hreply
  refine ⟨fun k row' hrow' hused => ?_, fun k row' hrow' hrev => ?_⟩
  · obtain ⟨row, hrow, hu, _⟩ := hspares k row' hrow'
    obtain ⟨i', token, draw, pair, hcall, hk, hmem⟩ := h.used k row hrow (hu ▸ hused)
    exact ⟨i', token, draw, pair, hcall, hk, hlog _ hmem⟩
  · obtain ⟨row, hrow, _, hf, _, hcause⟩ := hspares k row' hrow'
    rw [hf]
    rcases hcause hrev with hold | hnow
    · exact (h.revoked k row hrow hold).later hkept hlog
    · generalize hcall : calls i = c at hnow
      cases hnow with
      | logout hsid =>
          exact .loggedOut hcall hsid (List.mem_append_right _ (List.mem_singleton_self _))
      | @replay token draw old hold hfamily hused hreuse =>
          -- The token is used, so somebody has exchanged it before.
          obtain ⟨j, token', draw', pair, hcall', hk, hj⟩ := h.used _ old hold hused
          obtain ⟨old', hold', hage⟩ := hkept _ old hold
          have hne : j ≠ i := by
            rintro rfl
            exact hi (List.mem_map_of_mem (f := Prod.fst) hj)
          refine .replayed hne hcall' hcall hk (hlog _ hj) (by simp) hreuse ?_
            (hage.family.trans hfamily)
          rw [hk]
          exact hold'

/-- The tokens of `issued` are there. -/
def Knows (issued : String → Prop) (w : AuthWorld ι) : Prop :=
  ∀ h, issued h → ∃ row, w.db.get (.refreshToken h) = some row

theorem Knows.kept {issued : String → Prop} (h : Knows issued w) (hkept : Kept w.db w'.db) :
    Knows issued w' := by
  intro k hk
  obtain ⟨row, hrow⟩ := h k hk
  obtain ⟨row', hrow', _⟩ := hkept k row hrow
  exact ⟨row', hrow'⟩

/-- What more a call has established as it commits than its `Ended`. -/
theorem endedDiscipline {Inv : AuthWorld ι → Prop}
    {Q : ι → AuthReply → AuthWorld ι → AuthSession → Prop}
    (hinv : ∀ w w', Inv w → Kept w.db w'.db → Inv w')
    (hstart : ∀ i w, Inv w → ((calls i).body env).wp (AuthR False) (Q i) (fun _ _ _ => True) w
      (Session.init (calls i).draws)) :
    Discipline (authSystem env calls) (fun _ _ => True) (AuthR False) Inv
      (fun i reply w s => Ended False env (calls i) reply w s ∧ Q i reply w s)
      (fun _ _ _ _ => True) := by
  have base := (authDiscipline False env calls (fun _ _ => True) False.elim).discipline
  refine ⟨fun s w _ => base.refl s w trivial, base.trans, ?_, ?_, ?_, ?_⟩
  · intro i w hw hfresh w' hw'
    exact Prog.wp_mono (fun _ _ _ h => h) (fun _ _ _ _ => trivial)
      (Prog.wp_and (base.start i w trivial hfresh w' hw')
        (hstart i w' (hinv w w' hw hw'.2.2.kept)))
  · intro st i reply σ hlock hw hl hc hq
    exact ⟨hinv _ _ hw hq.1.effect.kept, (base.commit st i reply σ hlock trivial hl hc hq.1).2⟩
  · intro st i e σ hw hl he
    exact ⟨hinv _ _ hw (.refl _), (base.rollback st i e σ trivial hl he).2⟩
  · intro w i hw
    exact ⟨hinv _ _ hw (.refl _), (base.abort w i trivial).2⟩

/-- What call `i` has established as it commits; the calls of `late` begin when the
tokens of `issued` are there. -/
def EndedFor (env : AuthEnv) (calls : ι → AuthCall) (late : ι → Prop) (issued : String → Prop)
    (i : ι) (reply : AuthReply) (w : AuthWorld ι) (s : AuthSession) : Prop :=
  Ended False env (calls i) reply w s ∧
    Reasoned env (fun h => late i ∧ issued h) (calls i) reply w s

theorem reasonedDiscipline (env : AuthEnv) (calls : ι → AuthCall) (late : ι → Prop)
    (issued : String → Prop) :
    Discipline (authSystem env calls) (fun _ _ => True) (AuthR False) (Knows issued)
      (EndedFor env calls late issued) (fun _ _ _ _ => True) := by
  refine endedDiscipline (fun _ _ => Knows.kept) fun i w hknows => ?_
  cases calls i with
  | login user f draw => exact wp_login_reasoned fun _ _ _ => trivial
  | refresh token draw =>
      exact wp_refresh_reasoned (fun _ _ _ => trivial) fun hk => hknows _ hk.2
  | logout user now => exact wp_logout_reasoned

section Reach

variable [DecidableEq ι] {st₁ st st' : AuthState ι} {late : ι → Prop} {issued : String → Prop}

/-- One commit of a sound state. -/
theorem Traced.step (h : Traced env calls st.toWorld)
    (hr : Reach (authSystem env calls) (State.init Db.empty) st)
    (hsound : st.Sound (AuthR False) (Knows issued) (EndedFor env calls late issued)
      fun _ _ _ _ => True)
    (hstep : Step (authSystem env calls) (fun _ _ => True) st st') :
    Traced env calls st'.toWorld := by
  have noted : ∀ (w : AuthWorld ι) entry, w.db = st.db → w.log = st.log ++ [entry] →
      Traced env calls w := by
    intro w entry hdb hlog
    refine h.noted hdb fun e he => ?_
    rw [hlog]
    exact List.mem_append_left _ he
  cases hstep with
  | start hl hg hd => exact h
  | run hl ht => exact h
  | @commit i reply σ hl hc =>
      obtain ⟨hended, hreason⟩ :=
        hsound.live i _ hl st.toWorld ⟨trivial, fun _ _ => rfl, .refl _ _⟩
      by_cases hpair : ∃ pair, reply = .pair pair
      · obtain ⟨pair, rfl⟩ := hpair
        exact h.paired hended.effect
      · rw [not_exists] at hpair
        exact h.revised hended.effect.kept hreason hpair (hr.log_nodup.2 i (by simp [hl]))
  | rollback hl => exact noted _ _ rfl rfl
  | abort hl => exact noted _ _ rfl rfl

theorem kept_of_step
    (hsound : st.Sound (AuthR False) (Knows issued) (EndedFor env calls late issued)
      fun _ _ _ _ => True)
    (hstep : Step (authSystem env calls) (fun _ _ => True) st st') : Kept st.db st'.db := by
  cases hstep with
  | start hl hg hd => exact .refl _
  | run hl ht => exact .refl _
  | @commit i reply σ hl hc =>
      obtain ⟨hended, _⟩ := hsound.live i _ hl st.toWorld ⟨trivial, fun _ _ => rfl, .refl _ _⟩
      exact hended.effect.kept
  | rollback hl => exact .refl _
  | abort hl => exact .refl _

theorem traced_of_reach (hr : Reach (authSystem env calls) (State.init Db.empty) st) :
    Traced env calls st.toWorld := by
  induction hr with
  | refl =>
      exact ⟨fun h row hrow => by simp [State.init] at hrow,
        fun h row hrow => by simp [State.init] at hrow⟩
  | tail hr hstep ih =>
      have hsound := (reasonedDiscipline env calls (fun _ => False) fun _ => False).sound
        (fun _ h => h.elim) hr
      exact ih.step hr hsound hstep

/-- From `st₁` on, the calls that have not begun begin with its tokens there. -/
theorem sound_from (h₁ : Reach (authSystem env calls) (State.init Db.empty) st₁)
    (hr : Reach (authSystem env calls) st₁ st) :
    st.Sound (AuthR False)
      (Knows fun h => ∃ row, st₁.db.get (.refreshToken h) = some row)
      (EndedFor env calls (fun i => st₁.live i = none)
        fun h => ∃ row, st₁.db.get (.refreshToken h) = some row) fun _ _ _ _ => True := by
  refine (reasonedDiscipline env calls _ _).sound_of hr ?_
  have hsound := (reasonedDiscipline env calls (fun _ => False) fun _ => False).sound
    (fun _ h => h.elim) h₁
  refine ⟨hsound.locked, fun _ h => h, fun i t ht => ?_⟩
  refine (hsound.live i t ht).imp fun w _ hwp => ?_
  refine Prog.wp_mono (fun reply w s hq => ⟨hq.1, hq.2.spares, ?_⟩) (fun _ _ _ h => h) hwp
  intro token draw _ hk _
  rw [hk.1] at ht
  cases ht

/-- The step with which call `i` commits. -/
theorem ended_now
    (hsound : st.Sound (AuthR False) (Knows issued) (EndedFor env calls late issued)
      fun _ _ _ _ => True)
    (hstep : Step (authSystem env calls) (fun _ _ => True) st st') {i : ι} {reply : AuthReply}
    (hend : (i, .committed reply) ∈ st'.log) (hnot : (i, .committed reply) ∉ st.log) :
    st.live i ≠ none ∧ ∃ σ : AuthSession,
      Reasoned env (fun h => late i ∧ issued h) (calls i) reply st.toWorld σ := by
  rcases hstep.log_cases with hsame | ⟨k, f, hlog, hcommit⟩
  · exact absurd (hsame ▸ hend) hnot
  · rw [hlog] at hend
    rcases List.mem_append.mp hend with hold | hnow
    · exact absurd hold hnot
    · obtain ⟨rfl, rfl⟩ := Prod.mk.inj (List.mem_singleton.mp hnow)
      obtain ⟨σ, hl⟩ := hcommit reply rfl
      exact ⟨by simp [hl], σ,
        (hsound.live i _ hl st.toWorld ⟨trivial, fun _ _ => rfl, .refl _ _⟩).2⟩

/-- The commit of a refresh that is refused, and began after `st₁`. -/
theorem refused_now
    (h₁ : Reach (authSystem env calls) (State.init Db.empty) st₁)
    (hmid : Reach (authSystem env calls) st₁ st)
    (hstep : Step (authSystem env calls) (fun _ _ => True) st st') {i : ι} {token : String}
    {draw : AuthDraw} {reply : AuthReply} {row : RefreshTokenRow}
    (hcall : calls i = .refresh token draw) (hnew : st₁.live i = none)
    (hrow : st₁.db.get (.refreshToken (env.hashRefresh token)) = some row)
    (hkept : Kept st₁.db st.db) (hend : (i, .committed reply) ∈ st'.log)
    (hnot : (i, .committed reply) ∉ st.log) (hrefused : ∀ pair, reply ≠ .pair pair) :
    row.expiresAt ≤ draw.now ∨ FamilyEnded env calls st'.toWorld row.familyId := by
  have hall : Reach (authSystem env calls) (State.init Db.empty) st := h₁.trans hmid
  have hsound := sound_from h₁ hmid
  have hone : Kept st.db st'.db := kept_of_step hsound hstep
  obtain ⟨more, hmore⟩ := ReachUnder.log_prefix (.single hstep)
  have hlog : ∀ entry ∈ st.log, entry ∈ st'.log := by
    intro entry hentry
    rw [hmore]
    exact List.mem_append_left _ hentry
  obtain ⟨hlive, σ, hreason⟩ := ended_now hsound hstep hend hnot
  obtain ⟨found, hfound, hwhy⟩ := hreason.refused token draw hcall ⟨hnew, row, hrow⟩ hrefused
  obtain ⟨found', hfound', hage⟩ := hkept _ row hrow
  obtain rfl := Option.some.inj (hfound'.symm.trans hfound)
  have htraced : Traced env calls st.toWorld := traced_of_reach hall
  rcases hwhy with hdead | ⟨hused, hreuse⟩
  · simp only [RefreshTokenRow.dead, Bool.or_eq_true, Option.isSome_iff_ne_none,
      decide_eq_true_eq] at hdead
    rcases hdead with hrev | hexpired
    · exact Or.inr (hage.family ▸ (htraced.revoked _ _ hfound' hrev).later hone hlog)
    · exact Or.inl (hage.expires ▸ hexpired)
  · obtain ⟨j, token', draw', pair, hcall', hsame, hj⟩ := htraced.used _ _ hfound' hused
    obtain ⟨after, hafter, hage'⟩ := hone _ _ hfound'
    have hne : j ≠ i := by
      rintro rfl
      exact (ReachUnder.log_nodup hall).2 j hlive (List.mem_map_of_mem (f := Prod.fst) hj)
    refine Or.inr (.replayed hne hcall' hcall hsame (hlog _ hj) hend hreuse ?_
      (hage'.family.trans hage.family))
    rw [hsame]
    exact hafter

/-- A refresh that begins when its token is there and is refused all the same: the
token had expired, or its session had been ended by a logout or by a token of it that
came back after it had been exchanged. -/
theorem refused_for_a_reason
    (h₁ : Reach (authSystem env calls) (State.init Db.empty) st₁)
    (hr : Reach (authSystem env calls) st₁ st) {i : ι} {token : String} {draw : AuthDraw}
    {reply : AuthReply} {row : RefreshTokenRow} (hcall : calls i = .refresh token draw)
    (hnew : st₁.live i = none) (hnew' : i ∉ st₁.log.map (·.1))
    (hrow : st₁.db.get (.refreshToken (env.hashRefresh token)) = some row)
    (hend : (i, .committed reply) ∈ st.log) (hrefused : ∀ pair, reply ≠ .pair pair) :
    row.expiresAt ≤ draw.now ∨ FamilyEnded env calls st.toWorld row.familyId := by
  have hrun : Kept st₁.db st.db ∧ ((i, .committed reply) ∈ st.log →
      row.expiresAt ≤ draw.now ∨ FamilyEnded env calls st.toWorld row.familyId) := by
    clear hend
    induction hr with
    | refl =>
        exact ⟨.refl _, fun hend => absurd (List.mem_map_of_mem (f := Prod.fst) hend) hnew'⟩
    | @tail mid last hmid hstep ih =>
        obtain ⟨hkept, hcase⟩ := ih
        have hone : Kept mid.db last.db := kept_of_step (sound_from h₁ hmid) hstep
        refine ⟨hkept.trans hone, fun hend => ?_⟩
        by_cases hold : (i, .committed reply) ∈ mid.log
        · refine (hcase hold).imp_right fun hended => hended.later hone fun entry hentry => ?_
          obtain ⟨more, hmore⟩ := ReachUnder.log_prefix (.single hstep)
          rw [hmore]
          exact List.mem_append_left _ hentry
        · exact refused_now h₁ hmid hstep hcall hnew hrow hkept hend hold hrefused
  exact hrun.2 hend

end Reach

end Run

/-! The second of two refreshes with the token of one login. -/

def afterLogin : List (Turn (Fin 3)) :=
  [.start 1, .start 2] ++ authTurns 1 2 ++ authTurns 2 1 ++ authTurns 1 6 ++ [.finish 1]
    ++ authTurns 2 6 ++ [.finish 2]

theorem refused_for_a_reason_replay :
    ∃ st reply row, Reach (authSystem sampleAuthEnv replayCalls) (State.init Db.empty) st ∧
      (2, .committed reply) ∈ st.log ∧ (∀ pair, reply ≠ .pair pair) ∧
      (row.expiresAt ≤ 1000 ∨
        FamilyEnded sampleAuthEnv replayCalls st.toWorld (row : RefreshTokenRow).familyId) := by
  have hrun : (path (authSystem sampleAuthEnv replayCalls)
      ([.start 0] ++ authTurns 0 1 ++ [.finish 0]) (State.init Db.empty)).any (fun st₁ =>
        decide ((st₁.live 2).isNone = true ∧ 2 ∉ st₁.log.map (·.1) ∧
          st₁.db.get (.refreshToken (sampleAuthEnv.hashRefresh "r1"))
            = some (AuthService.successorRow ⟨1, .member⟩ 5 0)) &&
        (path (authSystem sampleAuthEnv replayCalls) afterLogin st₁).any fun st =>
          decide ((2, .committed (.refused (.problem 401 "refresh-reuse-detected"
            "refresh token reuse detected; the session was revoked"))) ∈ st.log)) = true := by
    decide +kernel
  obtain ⟨st₁, hr₁, hp₁⟩ := exists_reach _ _ hrun
  obtain ⟨hstart, hrest⟩ := Bool.and_eq_true_iff.mp hp₁
  obtain ⟨hlive, hlog, hrow⟩ := of_decide_eq_true hstart
  obtain ⟨st, hr, hp⟩ := exists_reach _ _ hrest
  have hrefused : ∀ pair, AuthReply.refused (.problem 401 "refresh-reuse-detected"
      "refresh token reuse detected; the session was revoked") ≠ .pair pair := by
    intro pair h
    cases h
  exact ⟨st, _, _, hr₁.trans hr, of_decide_eq_true hp, hrefused,
    refused_for_a_reason hr₁ hr rfl (Option.isNone_iff_eq_none.mp hlive) hlog hrow
      (of_decide_eq_true hp) hrefused⟩

end InvestApi.Ref
