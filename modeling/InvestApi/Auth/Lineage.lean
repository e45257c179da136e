import InvestApi.Auth.Honest

/-!
# Every pair goes back to a login

A session is a chain: the pair of its login, then each pair that the refresh token
of the one before was exchanged for. The rows of `refresh_tokens` carry the user
and the family along it, and a login draws its family, so that a pair belongs to
one login and its access token is for that login's user and session. The role is
the one thing that may change on the way: a refresh reads it again.
-/

namespace InvestApi.Ref

open InvestApi.Pg

variable {ι : Type} {env : AuthEnv} {calls : ι → AuthCall}

/-- The pair that `issue` answers with. -/
def issuedPair (env : AuthEnv) (user : LoginUser) (f : Uuid) (draw : AuthDraw) : TokenPair where
  access_token := env.signAccess user.id user.role f draw.jti
  refresh_token := draw.refresh
  token_type := "Bearer"
  expires_in := ACCESS_TTL_SECONDS

/-- What a call that answered with a pair has left in the tables. -/
inductive Given (env : AuthEnv) (d : AuthDb) : AuthCall → TokenPair → Prop
  | login {user f draw row}
      (hnew : d.get (.refreshToken (env.hashRefresh draw.refresh)) = some row)
      (hfamily : row.familyId = f) (huser : row.userId = user.id) :
      Given env d (.login user f draw) (issuedPair env user f draw)
  | refresh {token draw row row' user}
      (hrow : d.get (.refreshToken (env.hashRefresh token)) = some row)
      (hfound : env.users.find? (·.id = row.userId) = some user)
      (hnew : d.get (.refreshToken (env.hashRefresh draw.refresh)) = some row')
      (hfamily : row'.familyId = row.familyId) (huser : row'.userId = row.userId) :
      Given env d (.refresh token draw) (issuedPair env user row.familyId draw)

theorem Given.kept {d d' : AuthDb} {call : AuthCall} {pair : TokenPair}
    (h : Given env d call pair) (hkept : Kept d d') : Given env d' call pair := by
  cases h with
  | login hnew hfamily huser =>
      obtain ⟨row', hnew', hage⟩ := hkept _ _ hnew
      exact .login hnew' (hage.family.trans hfamily) (hage.user.trans huser)
  | refresh hrow hfound hnew hfamily huser =>
      obtain ⟨old, hold, hage⟩ := hkept _ _ hrow
      obtain ⟨new, hnew', hage'⟩ := hkept _ _ hnew
      rw [← hage.family]
      rw [← hage.user] at hfound
      refine .refresh hold hfound hnew' ?_ ?_
      · exact hage'.family.trans (hfamily.trans hage.family.symm)
      · exact hage'.user.trans (huser.trans hage.user.symm)

/-! ## What a body gives out -/

section Calls

variable {w : AuthWorld ι}

/-- What call `call` has given out as it commits. -/
def GivesOut (env : AuthEnv) (call : AuthCall) (reply : AuthReply) (w : AuthWorld ι)
    (s : AuthSession) : Prop :=
  ∀ pair, reply = .pair pair → Given env (s.view w.db) call pair

theorem GivesOut.of_refused {call : AuthCall} {reply : AuthReply} {s : AuthSession}
    (h : ∀ pair, reply ≠ .pair pair) : GivesOut env call reply w s :=
  fun pair hpair => absurd hpair (h pair)

theorem wp_login_given {user : LoginUser} {f : Uuid} {draw : AuthDraw} :
    ((AuthCall.login user f draw).body env).wp (AuthR False)
      (GivesOut env (.login user f draw)) (fun _ _ _ => True) w
      (Session.init [.family f]) := by
  simp only [AuthCall.body, AuthService.login, AuthService.issue, Prog.bind_eq,
    Prog.pure_eq, Prog.wp_bind]
  intro _ _ _ w' _ pair hpair
  obtain rfl := AuthReply.pair.inj hpair
  exact @Given.login env _ user f draw (AuthService.successorRow user f draw.now) (by simp)
    rfl rfl

theorem wp_logout_given {user : AuthUser} {now : Instant} :
    ((AuthCall.logout user now).body env).wp (AuthR False)
      (GivesOut env (.logout user now)) (fun _ _ _ => True) w (Session.init []) := by
  simp only [AuthCall.body, Prog.bind_eq, Prog.pure_eq, Prog.wp_bind]
  exact wp_any _ (fun _ w s => GivesOut.of_refused (by simp)) fun _ _ _ => trivial

theorem wp_refresh_given {token : String} {draw : AuthDraw} :
    ((AuthCall.refresh token draw).body env).wp (AuthR False)
      (GivesOut env (.refresh token draw)) (fun _ _ _ => True) w (Session.init []) := by
  simp only [AuthCall.body, AuthService.rotate, Prog.bind_eq, Prog.pure_eq, Prog.wp_bind]
  refine wp_findToken ?_ ?_
  · intro w₁ _ w₂ _
    exact .of_refused (by simp [AuthService.answer, AuthReply.ofAnswer])
  intro w₁ row _ _ w₂ _
  dsimp only
  split
  · exact .of_refused (by simp [AuthService.answer, AuthReply.ofAnswer])
  split
  · rw [Prog.wp_bind]
    refine wp_any _ (fun _ w s => ?_) fun _ _ _ => trivial
    exact GivesOut.of_refused (by simp [AuthService.answer, AuthReply.ofAnswer])
  rw [Prog.wp_bind]
  have hview : ((((Session.init []).tag AuthStmt.findToken).put
      (.refreshToken (env.hashRefresh token)) (some row)).view w₂.db).get
      (.refreshToken (env.hashRefresh token)) = some row := by simp
  refine wp_markUsed (by simp) hview ?_
  intro w₃ _ w₄ _ w₅ _
  rw [Prog.wp_bind, Prog.wp]
  split
  · trivial
  next user hfound =>
  simp only [AuthService.issue, Prog.bind_eq, Prog.pure_eq, Prog.wp_bind]
  intro hfree _ _ w₆ _ pair hpair
  have hne : AuthKey.refreshToken (env.hashRefresh token)
      ≠ .refreshToken (env.hashRefresh draw.refresh) := by
    intro he
    have hgone := hfree _ (List.mem_singleton_self _)
    simp only [Session.view_put] at hgone
    rw [← he, Db.get_set_self] at hgone
    cases hgone
  obtain rfl := AuthReply.pair.inj hpair
  refine @Given.refresh env _ token draw (used row draw.now)
    (AuthService.successorRow user row.familyId draw.now) user ?_ hfound ?_ rfl ?_
  · simp [hne]
  · simp
  · have hid := List.find?_some hfound
    exact of_decide_eq_true hid

end Calls

/-! ## The chain of a session -/

/-- The pair of call `i` is of the session that login `l` has begun. -/
inductive InSession (env : AuthEnv) (calls : ι → AuthCall) (w : AuthWorld ι) (l : ι) :
    ι → TokenPair → Prop
  | login {user f draw pair} (hcall : calls l = .login user f draw)
      (hend : (l, .committed (.pair pair)) ∈ w.log) : InSession env calls w l l pair
  | refresh {i j token draw pair pair'} (h : InSession env calls w l i pair)
      (hcall : calls j = .refresh token draw)
      (htoken : env.hashRefresh token = env.hashRefresh pair.refresh_token)
      (hend : (j, .committed (.pair pair')) ∈ w.log) : InSession env calls w l j pair'

/-- The calls that have answered with a pair have left its row, and every row is that
of a pair of a session; no two sessions have one family. -/
structure Lineage (env : AuthEnv) (calls : ι → AuthCall) (w : AuthWorld ι) : Prop where
  given : ∀ i pair, (i, .committed (.pair pair)) ∈ w.log → Given env w.db (calls i) pair
  row : ∀ h row, w.db.get (.refreshToken h) = some row →
    ∃ l user draw i pair, calls l = .login user row.familyId draw ∧
      InSession env calls w l i pair ∧ env.hashRefresh pair.refresh_token = h
  apart : ∀ l l' user user' f draw draw' pair pair', calls l = .login user f draw →
    calls l' = .login user' f draw' → (l, .committed (.pair pair)) ∈ w.log →
      (l', .committed (.pair pair')) ∈ w.log → l = l'

section Lineage

variable {w w' : AuthWorld ι} {l i : ι} {pair : TokenPair}

theorem InSession.later (h : InSession env calls w l i pair)
    (hlog : ∀ entry ∈ w.log, entry ∈ w'.log) : InSession env calls w' l i pair := by
  induction h with
  | login hcall hend => exact .login hcall (hlog _ hend)
  | refresh _ hcall htoken hend ih => exact ih.refresh hcall htoken (hlog _ hend)

theorem InSession.root (h : InSession env calls w l i pair) :
    ∃ user f draw pair₀, calls l = .login user f draw ∧
      (l, .committed (.pair pair₀)) ∈ w.log := by
  induction h with
  | login hcall hend => exact ⟨_, _, _, _, hcall, hend⟩
  | refresh _ _ _ _ ih => exact ih

/-- The row of a pair of the session: the user and the family of its login. -/
theorem Lineage.row_of_inSession (hw : Lineage env calls w)
    (h : InSession env calls w l i pair) {user : LoginUser} {f : Uuid} {draw : AuthDraw}
    (hlogin : calls l = .login user f draw) :
    ∃ row, w.db.get (.refreshToken (env.hashRefresh pair.refresh_token)) = some row ∧
      row.familyId = f ∧ row.userId = user.id := by
  induction h with
  | login _ hend =>
      have hgiven := hw.given _ _ hend
      rw [hlogin] at hgiven
      cases hgiven with
      | login hnew hfamily huser => exact ⟨_, hnew, hfamily, huser⟩
  | refresh _ hcall htoken hend ih =>
      obtain ⟨row, hrow, hfamily, huser⟩ := ih
      have hgiven := hw.given _ _ hend
      rw [hcall] at hgiven
      cases hgiven with
      | refresh hrow' _ hnew hfamily' huser' =>
          rw [htoken, hrow] at hrow'
          obtain rfl := Option.some.inj hrow'
          exact ⟨_, hnew, hfamily'.trans hfamily, huser'.trans huser⟩

/-- Two chains that end in one pair end in the row of its refresh token. -/
theorem Lineage.root_unique (hw : Lineage env calls w) (h : InSession env calls w l i pair)
    {l' : ι} (h' : InSession env calls w l' i pair) : l' = l := by
  obtain ⟨user, f, draw, pair₀, hlogin, hl⟩ := h.root
  obtain ⟨user', f', draw', pair₀', hlogin', hl'⟩ := h'.root
  obtain ⟨row, hrow, hf, _⟩ := hw.row_of_inSession h hlogin
  obtain ⟨row', hrow', hf', _⟩ := hw.row_of_inSession h' hlogin'
  obtain rfl := Option.some.inj (hrow.symm.trans hrow')
  obtain rfl := hf.symm.trans hf'
  exact hw.apart l' l _ _ _ _ _ _ _ hlogin' hlogin hl' hl

/-- Whoever has logged in with the family of a session has begun it. -/
theorem Lineage.family_unique (hw : Lineage env calls w) (h : InSession env calls w l i pair)
    {user user' : LoginUser} {f : Uuid} {draw draw' : AuthDraw} {l' : ι} {pair' : TokenPair}
    (hlogin : calls l = .login user f draw) (hlogin' : calls l' = .login user' f draw')
    (hl' : (l', .committed (.pair pair')) ∈ w.log) : l' = l := by
  obtain ⟨_, _, _, pair₀, _, hl⟩ := h.root
  exact hw.apart l' l _ _ _ _ _ _ _ hlogin' hlogin hl' hl

/-- The rows from before have the chains they had. -/
theorem Lineage.older (hw : Lineage env calls w) (hlog : ∀ entry ∈ w.log, entry ∈ w'.log)
    {h : String} {row : RefreshTokenRow} (hrow : w.db.get (.refreshToken h) = some row) :
    ∃ l user draw i pair, calls l = .login user row.familyId draw ∧
      InSession env calls w' l i pair ∧ env.hashRefresh pair.refresh_token = h := by
  obtain ⟨l, user, draw, i, pair, hcall, hdesc, hhash⟩ := hw.row h row hrow
  exact ⟨l, user, draw, i, pair, hcall, hdesc.later hlog, hhash⟩

/-- A call that ends without a pair. -/
theorem Lineage.silent (hw : Lineage env calls w) (hrev : Revises w.db w'.db)
    {f : Finish ApiError AuthReply} (hlog : w'.log = w.log ++ [(i, f)])
    (hf : ∀ pair, f ≠ .committed (.pair pair)) : Lineage env calls w' := by
  have hsub : ∀ entry ∈ w.log, entry ∈ w'.log := by
    intro entry hentry
    rw [hlog]
    exact List.mem_append_left _ hentry
  have hold : ∀ {j pair'}, (j, .committed (.pair pair')) ∈ w'.log →
      (j, .committed (.pair pair')) ∈ w.log := by
    intro j pair' hj
    rw [hlog] at hj
    rcases List.mem_append.mp hj with hj | hj
    · exact hj
    · exact absurd (Prod.mk.inj (List.mem_singleton.mp hj)).2.symm (hf pair')
  refine ⟨fun j pair' hj => (hw.given j pair' (hold hj)).kept hrev.kept, fun h row' hrow' => ?_,
    fun l l' _ _ _ _ _ _ _ hc hc' hl hl' =>
      hw.apart l l' _ _ _ _ _ _ _ hc hc' (hold hl) (hold hl')⟩
  obtain ⟨row, hrow⟩ := hrev.same row'.familyId h row' hrow' rfl
  obtain ⟨_, hsame, hage⟩ := hrev.kept h row hrow
  obtain rfl := Option.some.inj (hrow'.symm.trans hsame)
  rw [hage.family]
  exact hw.older hsub hrow

section Commit

variable {σ : AuthSession}

theorem mem_log_commit {j : ι} {pair' : TokenPair}
    (h : (j, .committed (.pair pair')) ∈ (w.commit i (.pair pair) σ).log) :
    (j, .committed (.pair pair')) ∈ w.log ∨ j = i ∧ pair' = pair := by
  rcases List.mem_append.mp h with h | h
  · exact Or.inl h
  · obtain ⟨rfl, hpair⟩ := Prod.mk.inj (List.mem_singleton.mp h)
    exact Or.inr ⟨rfl, AuthReply.pair.inj (Finish.committed.inj hpair)⟩

theorem Lineage.given_commit (hw : Lineage env calls w) (hkept : Kept w.db (σ.view w.db))
    (hgiven : Given env (σ.view w.db) (calls i) pair) (j : ι) (pair' : TokenPair)
    (hj : (j, .committed (.pair pair')) ∈ (w.commit i (.pair pair) σ).log) :
    Given env (w.commit i (.pair pair) σ).db (calls j) pair' := by
  rcases mem_log_commit hj with hj | ⟨rfl, rfl⟩
  · exact (hw.given j pair' hj).kept hkept
  · exact hgiven

/-- A login: whoever has logged in before has left a row of another family. -/
theorem Lineage.loggedIn (hw : Lineage env calls w) {user : LoginUser} {f : Uuid}
    {draw : AuthDraw} (hcall : calls i = .login user f draw) (hnone : NoneOf w.db f)
    (hd' : σ.view w.db = w.db.set (.refreshToken (env.hashRefresh draw.refresh))
      (some (AuthService.successorRow user f draw.now)))
    (hkept : Kept w.db (σ.view w.db)) (hgiven : Given env (σ.view w.db) (calls i) pair) :
    Lineage env calls (w.commit i (.pair pair) σ) := by
  have hend : (i, .committed (.pair pair)) ∈ (w.commit i (.pair pair) σ).log := by simp
  have hfirst : ∀ {j user' draw' pair'}, calls j = .login user' f draw' →
      (j, .committed (.pair pair')) ∈ (w.commit i (.pair pair) σ).log → j = i := by
    intro j user' draw' pair' hj hlog
    rcases mem_log_commit hlog with hlog | ⟨rfl, _⟩
    · obtain ⟨row, hrow, hfamily, _⟩ := hw.row_of_inSession (.login hj hlog) hj
      exact absurd hfamily (hnone _ row hrow)
    · rfl
  refine ⟨hw.given_commit hkept hgiven, fun h row' hrow' => ?_, ?_⟩
  · change (σ.view w.db).get (.refreshToken h) = some row' at hrow'
    rw [hd'] at hrow'
    by_cases hk : h = env.hashRefresh draw.refresh
    · subst hk
      rw [Db.get_set_self] at hrow'
      obtain rfl := Option.some.inj hrow'
      refine ⟨i, user, draw, i, pair, hcall, .login hcall hend, ?_⟩
      rw [hcall] at hgiven
      cases hgiven with
      | login _ _ _ => rfl
    · rw [Db.get_set_ne _ _ (by simpa using hk)] at hrow'
      exact hw.older (fun entry he => List.mem_append_left _ he) hrow'
  · intro l l' user₁ user₂ f' dr dr' p p' hc hc' hl hl'
    rcases mem_log_commit hl with hold | ⟨rfl, _⟩
    · rcases mem_log_commit hl' with hold' | ⟨rfl, _⟩
      · exact hw.apart l l' _ _ _ _ _ _ _ hc hc' hold hold'
      · obtain ⟨_, rfl, _⟩ := AuthCall.login.inj (hc'.symm.trans hcall)
        exact hfirst hc hl
    · obtain ⟨_, rfl, _⟩ := AuthCall.login.inj (hc.symm.trans hcall)
      exact (hfirst hc' hl').symm

/-- A refresh: its new row takes up the chain of the row it has spent. -/
theorem Lineage.refreshed (hw : Lineage env calls w) {token : String} {draw : AuthDraw}
    {row : RefreshTokenRow} {u : LoginUser} (hcall : calls i = .refresh token draw)
    (hrow : w.db.get (.refreshToken (env.hashRefresh token)) = some row)
    (hd' : σ.view w.db = ((w.db.set (.refreshToken (env.hashRefresh token)) (some row)).set
      (.refreshToken (env.hashRefresh token)) (some (used row draw.now))).set
        (.refreshToken (env.hashRefresh draw.refresh))
        (some (AuthService.successorRow u row.familyId draw.now)))
    (hkept : Kept w.db (σ.view w.db)) (hgiven : Given env (σ.view w.db) (calls i) pair) :
    Lineage env calls (w.commit i (.pair pair) σ) := by
  have hsub : ∀ entry ∈ w.log, entry ∈ (w.commit i (.pair pair) σ).log :=
    fun entry he => List.mem_append_left _ he
  have hold : ∀ {l user f dr p}, calls l = .login user f dr →
      (l, .committed (.pair p)) ∈ (w.commit i (.pair pair) σ).log →
        (l, .committed (.pair p)) ∈ w.log := by
    intro l user f dr p hc hl
    rcases mem_log_commit hl with hl | ⟨rfl, _⟩
    · exact hl
    · rw [hcall] at hc
      cases hc
  obtain ⟨l, user, dr, j, pair', hlogin, hdesc, hhash⟩ := hw.older hsub hrow
  refine ⟨hw.given_commit hkept hgiven, fun h row' hrow' => ?_, ?_⟩
  · change (σ.view w.db).get (.refreshToken h) = some row' at hrow'
    rw [hd'] at hrow'
    by_cases hk : h = env.hashRefresh draw.refresh
    · subst hk
      rw [Db.get_set_self] at hrow'
      obtain rfl := Option.some.inj hrow'
      refine ⟨l, user, dr, i, pair, hlogin, hdesc.refresh hcall hhash.symm (by simp), ?_⟩
      rw [hcall] at hgiven
      cases hgiven with
      | refresh _ _ _ _ _ => rfl
    · rw [Db.get_set_ne _ _ (by simpa using hk)] at hrow'
      by_cases hk' : h = env.hashRefresh token
      · subst hk'
        rw [Db.get_set_self] at hrow'
        obtain rfl := Option.some.inj hrow'
        exact ⟨l, user, dr, j, pair', hlogin, hdesc, hhash⟩
      · rw [Db.get_set_ne _ _ (by simpa using hk'),
          Db.get_set_ne _ _ (by simpa using hk')] at hrow'
        exact hw.older hsub hrow'
  · intro l l' _ _ _ _ _ _ _ hc hc' hl hl'
    exact hw.apart l l' _ _ _ _ _ _ _ hc hc' (hold hc hl) (hold hc' hl')

/-- A call that commits, whatever its answer. -/
theorem Lineage.commit (hw : Lineage env calls w) {reply : AuthReply}
    (heff : Effect env w.db (σ.view w.db) (calls i) reply)
    (hgives : GivesOut env (calls i) reply w σ) : Lineage env calls (w.commit i reply σ) := by
  have hkept : Kept w.db (σ.view w.db) := heff.kept
  generalize hcall : calls i = call at heff
  cases heff with
  | loggedIn hnone hnew hd' => exact hw.loggedIn hcall hnone hd' hkept (hgives _ rfl)
  | refreshed hrow hlive hnew hd' =>
      exact hw.refreshed hcall hrow hd' hkept (hgives _ rfl)
  | revised hreply h =>
      exact hw.silent h rfl fun pair hf => hreply pair (Finish.committed.inj hf)

end Commit

end Lineage

/-! ## Runs -/

theorem lineageDiscipline (env : AuthEnv) (calls : ι → AuthCall) :
    Discipline (authSystem env calls) (fun _ _ => True) (AuthR False) (fun _ => True)
      (fun i reply w s => Ended False env (calls i) reply w s ∧
        GivesOut env (calls i) reply w s) (fun _ _ _ _ => True) := by
  refine endedDiscipline (fun _ _ h _ => h) fun i w _ => ?_
  cases calls i with
  | login user f draw => exact wp_login_given
  | refresh token draw => exact wp_refresh_given
  | logout user now => exact wp_logout_given

section Reach

variable [DecidableEq ι] {st : AuthState ι}

theorem lineage_of_reach (hr : Reach (authSystem env calls) (State.init Db.empty) st) :
    Lineage env calls st.toWorld := by
  have hrun := (lineageDiscipline env calls).ends (fun _ _ => True) (fun _ _ h => h) trivial hr
  have key : ∀ w, Relation.ReflTransGen (Ends (fun _ => True) (fun _ _ => True)
      (fun i reply w s => Ended False env (calls i) reply w s ∧
        GivesOut env (calls i) reply w s) (fun _ _ _ _ => True)) ⟨Db.empty, []⟩ w →
      Lineage env calls w := by
    intro w hw
    induction hw with
    | refl => exact ⟨by simp, by simp, by simp⟩
    | tail _ hstep ih =>
        cases hstep with
        | commit _ _ hq => exact ih.commit hq.1.effect hq.2
        | rollback _ _ => exact ih.silent (.refl _) rfl fun pair hf => by cases hf
        | abort _ => exact ih.silent (.refl _) rfl fun pair hf => by cases hf
  exact key _ hrun

/-- A pair that was given out is of the session of one login, the only one that has
its family; its access token is for that login's user and session, with the role of the
login and, after a refresh, the one the user has in the table. -/
theorem pair_of_one_login (hr : Reach (authSystem env calls) (State.init Db.empty) st)
    {i : ι} {pair : TokenPair} (hend : (i, .committed (.pair pair)) ∈ st.log) :
    ∃ l user f draw, calls l = .login user f draw ∧
      (∀ l', InSession env calls st.toWorld l' i pair ↔ l' = l) ∧
      (∀ l' user' draw' pair', calls l' = .login user' f draw' →
        (l', .committed (.pair pair')) ∈ st.log → l' = l) ∧
      ∃ role jti, pair.access_token = env.signAccess user.id role f jti ∧
        (i = l → role = user.role) ∧ (i ≠ l → ⟨user.id, role⟩ ∈ env.users) := by
  have hw : Lineage env calls st.toWorld := lineage_of_reach hr
  have only : ∀ {l}, InSession env calls st.toWorld l i pair →
      ∀ l', InSession env calls st.toWorld l' i pair ↔ l' = l := fun hdesc l' =>
    ⟨fun hdesc' => hw.root_unique hdesc hdesc', fun h => h ▸ hdesc⟩
  have hgiven := hw.given i pair hend
  generalize hcall : calls i = call at hgiven
  cases hgiven with
  | @login user f draw row hnew hfamily huser =>
      have hdesc : InSession env calls st.toWorld i i _ := .login hcall hend
      exact ⟨i, user, f, draw, hcall, only hdesc,
        fun _ _ _ _ hl' hend' => hw.family_unique hdesc hcall hl' hend', user.role, draw.jti,
        rfl, fun _ => rfl, fun hne => absurd rfl hne⟩
  | @refresh token draw row row' u hrow hfound hnew hfamily huser =>
      obtain ⟨l, user, dr, j, pair', hlogin, hprev, hhash⟩ := hw.row _ row hrow
      have hdesc := hprev.refresh hcall hhash.symm hend
      obtain ⟨row₀, hrow₀, _, huser₀⟩ := hw.row_of_inSession hprev hlogin
      rw [hhash] at hrow₀
      obtain rfl := Option.some.inj (hrow.symm.trans hrow₀)
      have hsame := List.find?_some hfound
      have hid : u.id = user.id := (of_decide_eq_true hsame).trans huser₀
      refine ⟨l, user, row.familyId, dr, hlogin, only hdesc,
        fun _ _ _ _ hl' hend' => hw.family_unique hdesc hlogin hl' hend', u.role, draw.jti,
        ?_, fun he => ?_, fun _ => ?_⟩
      · rw [← hid]
        rfl
      · rw [he, hlogin] at hcall
        cases hcall
      · rw [← hid]
        exact List.mem_of_find?_eq_some hfound

end Reach

/-! A login and the refresh with its token, after the user's role has changed. -/

/-- An access token spelt as its claims. -/
def demotedEnv : AuthEnv where
  users := [⟨1, .viewer⟩]
  hashRefresh := fun token => "hmac-" ++ token
  signAccess := fun sub role sid jti =>
    ".".intercalate
      [toString sub, if role = .viewer then "viewer" else "member", toString sid, toString jti]

theorem pair_of_one_login_refreshed :
    ∃ st, Reach (authSystem demotedEnv replayCalls) (State.init Db.empty) st ∧
      ∃ l user f draw, replayCalls l = .login user f draw ∧
        (∀ l', InSession demotedEnv replayCalls st.toWorld l' 1
          ⟨"1.viewer.5.12", "r2", "Bearer", 600⟩ ↔ l' = l) ∧
        (∀ l' user' draw' pair', replayCalls l' = .login user' f draw' →
          (l', .committed (.pair pair')) ∈ st.log → l' = l) ∧
        ∃ role jti, "1.viewer.5.12" = demotedEnv.signAccess user.id role f jti ∧
          (1 = l → role = user.role) ∧ (1 ≠ l → ⟨user.id, role⟩ ∈ demotedEnv.users) := by
  have hrun : (path (authSystem demotedEnv replayCalls)
      ([.start 0] ++ authTurns 0 1 ++ [.finish 0, .start 1] ++ authTurns 1 8 ++ [.finish 1])
      (State.init Db.empty)).any (fun st =>
        decide ((1, .committed (.pair ⟨"1.viewer.5.12", "r2", "Bearer", 600⟩)) ∈ st.log))
          = true := by
    decide +kernel
  obtain ⟨st, hr, hp⟩ := exists_reach _ _ hrun
  exact ⟨st, hr, pair_of_one_login hr (of_decide_eq_true hp)⟩

end InvestApi.Ref
