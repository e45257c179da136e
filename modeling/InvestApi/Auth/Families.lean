import InvestApi.Auth.Bodies

/-!
# Single use and linear families

A refresh token is exchanged at most once in a whole run, and a family never
has two live tokens. Both are read off `Effect`: a refresh that answers with a
pair found its token live when it committed and left it used, so the next one
finds it used, and the successor takes its place as the one live token.

The rest of the module is what the run needs to be a run of `Effect`s: what a
commit leaves undisturbed for the sessions still in flight.
-/

namespace InvestApi.Ref

open InvestApi.Pg

/-! ## What a commit does to the rows -/

section Effect

variable {env : AuthEnv} {d d' : AuthDb} {call : AuthCall} {reply : AuthReply}

/-- The hash of the token a call would issue. -/
def AuthCall.mints (env : AuthEnv) : AuthCall → Option String
  | .login _ _ draw => some (env.hashRefresh draw.refresh)
  | .refresh _ draw => some (env.hashRefresh draw.refresh)
  | .logout _ _ => none

theorem Kept.set_new {d v : AuthDb} (h : Kept d v) {k : String}
    (hk : d.get (.refreshToken k) = none) (row : RefreshTokenRow) :
    Kept d (v.set (.refreshToken k) (some row)) := by
  intro k' old hold
  by_cases he : k' = k
  · subst he
    rw [hk] at hold
    simp at hold
  · rw [Db.get_set_ne _ _ (by simpa using he)]
    exact h k' old hold

/-- The row of the presented token, put back and then marked. -/
theorem Revises.spent {k : String} {row : RefreshTokenRow}
    (hrow : d.get (.refreshToken k) = some row) (now : Instant) :
    Revises d ((d.set (.refreshToken k) (some row)).set (.refreshToken k)
      (some (used row now))) :=
  ((Revises.refl d).set hrow (.refl row)).set (Db.get_set_self _ _ _)
    (ages_used row now)

theorem Effect.kept (h : Effect env d d' call reply) : Kept d d' := by
  cases h with
  | loggedIn hnone hnew hd' =>
      rw [hd']
      exact (Kept.refl d).set_new hnew _
  | refreshed hrow hlive hnew hd' =>
      rw [hd']
      exact (Revises.spent hrow _).kept.set_new hnew _
  | revised hreply h => exact h.kept

/-- A row after the call is an older row aged, or the new one, whose family is
the one the login has drawn or the one of the live row that was spent. -/
theorem Effect.row (h : Effect env d d' call reply) {k : String}
    {row' : RefreshTokenRow} (hrow' : d'.get (.refreshToken k) = some row') :
    (∃ row, d.get (.refreshToken k) = some row ∧ row.Ages row') ∨
      d.get (.refreshToken k) = none ∧ call.mints env = some k ∧
        ((∃ user draw, call = .login user row'.familyId draw ∧ NoneOf d row'.familyId) ∨
          ∃ k' row, d.get (.refreshToken k') = some row ∧ row.Live ∧
            row.familyId = row'.familyId ∧
            ∃ row'', d'.get (.refreshToken k') = some row'' ∧ row''.usedAt ≠ none) := by
  have old : ∀ {v : AuthDb}, Revises d v → v.get (.refreshToken k) = some row' →
      ∃ row, d.get (.refreshToken k) = some row ∧ row.Ages row' := by
    intro v hv hrow'
    obtain ⟨row, hrow⟩ := hv.same row'.familyId k row' hrow' rfl
    obtain ⟨_, hsame, hage⟩ := hv.kept k row hrow
    obtain rfl := Option.some.inj (hrow'.symm.trans hsame)
    exact ⟨row, hrow, hage⟩
  cases h with
  | @loggedIn user f draw pair hnone hnew hd' =>
      rw [hd'] at hrow'
      by_cases he : k = env.hashRefresh draw.refresh
      · subst he
        rw [Db.get_set_self] at hrow'
        obtain rfl := Option.some.inj hrow'
        exact Or.inr ⟨hnew, rfl, Or.inl ⟨user, draw, rfl, hnone⟩⟩
      · rw [Db.get_set_ne _ _ (by simpa using he)] at hrow'
        exact Or.inl (old (.refl d) hrow')
  | @refreshed token draw pair row u hrow hlive hnew hd' =>
      have hne : env.hashRefresh token ≠ env.hashRefresh draw.refresh := by
        intro he
        rw [he, hnew] at hrow
        simp at hrow
      have hspent : d'.get (.refreshToken (env.hashRefresh token))
          = some (used row draw.now) := by
        rw [hd', Db.get_set_ne _ _ (by simpa using hne), Db.get_set_self]
      rw [hd'] at hrow'
      by_cases he : k = env.hashRefresh draw.refresh
      · subst he
        rw [Db.get_set_self] at hrow'
        obtain rfl := Option.some.inj hrow'
        exact Or.inr ⟨hnew, rfl,
          Or.inr ⟨_, row, hrow, hlive, rfl, _, hspent, by simp [used]⟩⟩
      · rw [Db.get_set_ne _ _ (by simpa using he)] at hrow'
        exact Or.inl (old (Revises.spent hrow _) hrow')
  | revised hreply h => exact Or.inl (old h hrow')

/-- A refresh that answers with a pair finds its token live and leaves it
used. -/
theorem Effect.spends {token : String} {draw : AuthDraw} {pair : TokenPair}
    (h : Effect env d d' (.refresh token draw) (.pair pair)) :
    (∃ row, d.get (.refreshToken (env.hashRefresh token)) = some row ∧ row.Live) ∧
      ∃ row, d'.get (.refreshToken (env.hashRefresh token)) = some row ∧
        row.usedAt ≠ none := by
  cases h with
  | @refreshed _ _ _ row u hrow hlive hnew hd' =>
      have hne : env.hashRefresh token ≠ env.hashRefresh draw.refresh := by
        intro he
        rw [he, hnew] at hrow
        simp at hrow
      refine ⟨⟨row, hrow, hlive⟩, used row draw.now, ?_, by simp [used]⟩
      rw [hd', Db.get_set_ne _ _ (by simpa using hne), Db.get_set_self]
  | revised hreply h => exact absurd rfl (hreply pair)

end Effect

/-! ## Linear families -/

/-- No family has two live tokens. -/
def Linear (d : AuthDb) : Prop :=
  ∀ h h' row row', d.get (.refreshToken h) = some row →
    d.get (.refreshToken h') = some row' → row.Live → row'.Live →
      row.familyId = row'.familyId → h = h'

theorem Effect.linear {env : AuthEnv} {d d' : AuthDb} {call : AuthCall}
    {reply : AuthReply} (h : Effect env d d' call reply) (hd : Linear d) :
    Linear d' := by
  -- The new row's family has no other live row.
  have alone : ∀ {k k' row row'}, d'.get (.refreshToken k) = some row →
      d'.get (.refreshToken k') = some row' → row.Live → row'.Live →
      row.familyId = row'.familyId → d.get (.refreshToken k) = none →
      d.get (.refreshToken k') ≠ none → False := by
    intro k k' row row' hrow hrow' hlive hlive' hfam hnew hold
    obtain ⟨old, hold', hage⟩ | ⟨hnone, _⟩ := h.row hrow'
    swap
    · exact hold hnone
    obtain ⟨_, hrow₀, _⟩ | ⟨_, _, hlogin | hrefresh⟩ := h.row hrow
    · rw [hnew] at hrow₀
      simp at hrow₀
    · obtain ⟨_, _, _, hnone⟩ := hlogin
      exact hnone k' old hold' (hage.family.symm.trans hfam.symm)
    · obtain ⟨t, spent, hspent, hslive, hsfam, after, hafter, hused⟩ := hrefresh
      have hsame : t = k' := hd _ _ _ _ hspent hold' hslive (hage.live hlive')
        (hsfam.trans (hfam.trans hage.family))
      subst hsame
      obtain rfl := Option.some.inj (hafter.symm.trans hrow')
      exact hused hlive'.1
  intro k k' row row' hrow hrow' hlive hlive' hfam
  obtain ⟨old, hold, hage⟩ | ⟨hnew, hmint, _⟩ := h.row hrow
  · obtain ⟨old', hold', hage'⟩ | ⟨hnew', _⟩ := h.row hrow'
    · exact hd _ _ _ _ hold hold' (hage.live hlive) (hage'.live hlive')
        (hage.family.symm.trans (hfam.trans hage'.family))
    · exact (alone hrow' hrow hlive' hlive hfam.symm hnew' (by simp [hold])).elim
  · obtain ⟨old', hold', hage'⟩ | ⟨_, hmint', _⟩ := h.row hrow'
    · exact (alone hrow hrow' hlive hlive' hfam hnew (by simp [hold'])).elim
    · exact Option.some.inj (hmint.symm.trans hmint')

/-! ## Runs -/

section Run

variable {ι : Type}

theorem noneOf_of_fresh {d : AuthDb} {f : Uuid} (h : freshFamily d (.family f) = true) :
    NoneOf d f := by
  intro k row hrow
  have hmem : AuthKey.refreshToken k ∈ d.keys := (d.mem_keys _).mpr (by simp [hrow])
  have hk := List.all_eq_true.mp h _ hmem
  simpa [hrow] using hk

/-- Nobody else adds a token to a family whose revocation the committing
call's neighbours have under way. -/
def Quiet (st : AuthState ι) (i : ι) : Prop :=
  ∀ r σ, st.live i = some (.ret r, σ) → ∀ j, j ≠ i → ∀ p τ, st.live j = some (p, τ) →
    ∀ f, AuthStmt.revokeFamily f ∈ τ.trace → Within f st.db (σ.view st.db)

variable {env : AuthEnv} {calls : ι → AuthCall}

/-- What a commit leaves undisturbed for a session with other locks. -/
theorem Ended.undisturbed {quiet : Prop} {call : AuthCall} {reply : AuthReply}
    {w : AuthWorld ι} {σ τ : AuthSession} (h : Ended quiet env call reply w σ)
    (happart : ∀ k ∈ σ.locks, k ∉ τ.locks)
    (hquiet : quiet → ∀ f, AuthStmt.revokeFamily f ∈ τ.trace →
      Within f w.db (σ.view w.db)) :
    Undisturbed quiet τ w.db (σ.view w.db) where
  kept := h.effect.kept
  within := hquiet
  family f hf hnone k row hrow hfam := by
    obtain ⟨old, hold, hage⟩ | ⟨_, _, hlogin | hrefresh⟩ := h.effect.row hrow
    · exact hnone k old hold (hage.family.symm.trans hfam)
    · obtain ⟨user, draw, hcall, _⟩ := hlogin
      have hmine := h.drawn (.family row.familyId) (by simp [hcall, AuthCall.draws])
      rw [hfam] at hmine
      exact happart _ hmine hf
    · obtain ⟨t, spent, hspent, _, hsfam, _⟩ := hrefresh
      exact hnone t spent hspent (hsfam.trans hfam)

theorem authDiscipline (quiet : Prop) (env : AuthEnv) (calls : ι → AuthCall)
    (C : AuthState ι → ι → Prop) (hC : quiet → ∀ st i, C st i → Quiet st i) :
    LockDiscipline (authSystem env calls) C (fun _ => True)
      (fun s w w' => Undisturbed quiet s w.db w'.db)
      (fun i => Ended quiet env (calls i)) (fun _ _ _ _ => True) where
  refl s w := .refl s w.db
  trans _ _ _ _ h h' := h.trans h'
  start i w _ hfresh w' hw' := by
    dsimp only [authSystem] at hfresh hw' ⊢
    cases hi : calls i with
    | login user f draw =>
        rw [hi] at hfresh hw'
        have hmine : AuthKey.family f ∈ (AuthCall.login user f draw).draws :=
          List.mem_singleton_self _
        exact wp_login (hw'.2.2.family f hmine (noneOf_of_fresh (hfresh _ hmine)))
    | refresh token draw => exact wp_refresh fun _ _ _ => trivial
    | logout user now => exact wp_logout
  commit st i r σ hlock _ hi hc hq := by
    refine ⟨trivial, fun j p τ hj hτ => hq.undisturbed ?_ ?_⟩
    · exact fun k hk => hlock.apart i j (Ne.symm hj) _ _ hi hτ k hk
    · exact fun hquiet f hf => hC hquiet st i hc r σ hi j hj p τ hτ f hf
  rollback w _ _ _ _ _ := ⟨trivial, fun τ => .refl τ w.db⟩
  abort w _ _ := ⟨trivial, fun τ => .refl τ w.db⟩

/-- Every interleaving is, commit by commit, a run of `Effect`s. -/
theorem auth_ends [DecidableEq ι] {d : AuthDb} {st : AuthState ι}
    (hr : Reach (authSystem env calls) (State.init d) st) :
    Relation.ReflTransGen (Ends (fun _ => True) (fun _ _ => True)
      (fun i => Ended False env (calls i)) (fun _ _ _ _ => True)) ⟨d, []⟩ st.toWorld :=
  (authDiscipline False env calls (fun _ _ => True) False.elim).discipline.ends _
    (fun _ _ h => h) trivial hr

/-- Usable right now. -/
def RefreshTokenRow.Spendable (row : RefreshTokenRow) (now : Instant) : Prop :=
  row.usedAt = none ∧ row.revokedAt = none ∧ ¬row.expiresAt ≤ now

/-- The entries of successful refreshes of the token with hash `h`. -/
def exchanges (env : AuthEnv) (calls : ι → AuthCall) (h : String) :
    ι × Finish ApiError AuthReply → Bool
  | (i, .committed (.pair _)) =>
      match calls i with
      | .refresh token _ => decide (env.hashRefresh token = h)
      | _ => false
  | _ => false

/-- What a run keeps: linear families, and a token that has been exchanged is
marked used. -/
structure SingleUse (env : AuthEnv) (calls : ι → AuthCall) (w : AuthWorld ι) :
    Prop where
  linear : Linear w.db
  once : ∀ h, (w.log.filter (exchanges env calls h)).length ≤ 1
  spent : ∀ h, ∀ entry ∈ w.log, exchanges env calls h entry = true →
    ∃ row, w.db.get (.refreshToken h) = some row ∧ row.usedAt ≠ none

theorem exchanges_iff {h : String} {i : ι} {f : Finish ApiError AuthReply} :
    exchanges env calls h (i, f) = true ↔
      ∃ token draw pair, calls i = .refresh token draw ∧ f = .committed (.pair pair) ∧
        env.hashRefresh token = h := by
  unfold exchanges
  split
  · next j pair heq =>
      injection heq with hj hf
      subst hj hf
      cases hi : calls i with
      | login user f draw => simp
      | refresh token draw => simp
      | logout user now => simp
  · next hne =>
      simp only [Bool.false_eq_true, false_iff, not_exists, not_and]
      intro token draw pair _ hf _
      exact hne i pair (by rw [hf])

/-- A finished call that is no exchange, over rows that have only aged. -/
theorem SingleUse.other {w w' : AuthWorld ι} {entry : ι × Finish ApiError AuthReply}
    (h : SingleUse env calls w) (hlog : w'.log = w.log ++ [entry])
    (hkept : Kept w.db w'.db) (hlinear : Linear w'.db)
    (hno : ∀ k, exchanges env calls k entry = false) : SingleUse env calls w' where
  linear := hlinear
  once k := by
    rw [hlog, List.filter_append, List.filter_cons, hno k]
    simpa using h.once k
  spent k entry' hmem hex := by
    rw [hlog, List.mem_append, List.mem_singleton] at hmem
    rcases hmem with hmem | rfl
    · obtain ⟨row, hrow, hused⟩ := h.spent k entry' hmem hex
      obtain ⟨row', hrow', hage⟩ := hkept k row hrow
      exact ⟨row', hrow', hage.used hused⟩
    · rw [hno k] at hex
      simp at hex

/-- An exchange: the token was live, so no earlier entry has exchanged it. -/
theorem SingleUse.exchanged {w w' : AuthWorld ι} {i : ι} {token : String}
    {draw : AuthDraw} {pair : TokenPair} (h : SingleUse env calls w)
    (hcall : calls i = .refresh token draw)
    (heff : Effect env w.db w'.db (calls i) (.pair pair))
    (hlog : w'.log = w.log ++ [(i, .committed (.pair pair))]) :
    SingleUse env calls w' := by
  have hspends := heff
  rw [hcall] at hspends
  obtain ⟨⟨row, hrow, hlive⟩, after, hafter, hused⟩ := hspends.spends
  have hfirst : w.log.filter (exchanges env calls (env.hashRefresh token)) = [] := by
    rw [List.filter_eq_nil_iff]
    intro entry hmem hex
    obtain ⟨old, hold, hspent⟩ := h.spent _ entry hmem hex
    obtain rfl := Option.some.inj (hold.symm.trans hrow)
    exact hspent hlive.1
  refine ⟨heff.linear h.linear, fun k => ?_, fun k entry hmem hex => ?_⟩
  · rw [hlog, List.filter_append, List.length_append]
    by_cases hk : env.hashRefresh token = k
    · subst hk
      rw [hfirst, List.length_nil, Nat.zero_add]
      exact List.length_filter_le _ [_]
    · have hno : exchanges env calls k (i, .committed (.pair pair)) = false := by
        simp [exchanges, hcall, hk]
      simpa [hno] using h.once k
  · rw [hlog, List.mem_append, List.mem_singleton] at hmem
    rcases hmem with hmem | rfl
    · obtain ⟨old, hold, hspent⟩ := h.spent k entry hmem hex
      obtain ⟨old', hold', hage⟩ := heff.kept k old hold
      exact ⟨old', hold', hage.used hspent⟩
    · have hk : env.hashRefresh token = k := by simpa [exchanges, hcall] using hex
      subst hk
      exact ⟨after, hafter, hused⟩

/-- One call that ends, whichever way. -/
theorem SingleUse.step {w w' : AuthWorld ι} (h : SingleUse env calls w)
    (hw : Ends (fun _ => True) (fun _ _ => True)
      (fun i => Ended False env (calls i)) (fun _ _ _ _ => True) w w') :
    SingleUse env calls w' := by
  cases hw with
  | @commit i r σ _ _ hq =>
      by_cases hex : ∃ k, exchanges env calls k (i, .committed r) = true
      · obtain ⟨k, hk⟩ := hex
        obtain ⟨token, draw, pair, hcall, hr, _⟩ := exchanges_iff.mp hk
        obtain rfl : r = .pair pair := by injection hr
        exact h.exchanged hcall hq.effect rfl
      · refine h.other rfl hq.effect.kept (hq.effect.linear h.linear) fun k => ?_
        exact Bool.eq_false_iff.mpr fun hk => hex ⟨k, hk⟩
  | rollback _ _ => exact h.other rfl (.refl _) h.linear fun k => rfl
  | abort _ => exact h.other rfl (.refl _) h.linear fun k => rfl

theorem singleUse_of_reach [DecidableEq ι] {d : AuthDb} (hd : Linear d)
    {st : AuthState ι} (hr : Reach (authSystem env calls) (State.init d) st) :
    SingleUse env calls st.toWorld := by
  have hrun := auth_ends hr
  have key : ∀ w, Relation.ReflTransGen (Ends (fun _ => True) (fun _ _ => True)
      (fun i => Ended False env (calls i)) (fun _ _ _ _ => True)) ⟨d, []⟩ w →
      SingleUse env calls w := by
    intro w hw
    induction hw with
    | refl => exact ⟨hd, by simp, by simp⟩
    | tail _ hstep ih => exact ih.step hstep
  exact key _ hrun

/-- In every reachable state, whatever the schedule: a token has been exchanged
by at most one successful refresh, and a family has at most one spendable row. -/
theorem refresh_singleUse_linear [DecidableEq ι] {d : AuthDb} (hd : Linear d)
    {st : AuthState ι} (hr : Reach (authSystem env calls) (State.init d) st) :
    (∀ h, (st.log.filter (exchanges env calls h)).length ≤ 1) ∧
      ∀ now h h' row row', st.db.get (.refreshToken h) = some row →
        st.db.get (.refreshToken h') = some row' → row.familyId = row'.familyId →
          row.Spendable now → row'.Spendable now → h = h' := by
  have huse := singleUse_of_reach hd hr
  refine ⟨huse.once, ?_⟩
  intro now h h' row row' hrow hrow' hfam hs hs'
  exact huse.linear h h' row row' hrow hrow' ⟨hs.1, hs.2.1⟩ ⟨hs'.1, hs'.2.1⟩ hfam

end Run

/-! A run of it: two refreshes race for the token of a login. The loser, which
waited for the row, finds it used and revokes the family. -/

def sampleAuthEnv : AuthEnv where
  users := [⟨1, .member⟩]
  hashRefresh := fun token => "hmac-" ++ token
  signAccess := fun _ _ _ _ => "jwt"

def replayCalls : Fin 3 → AuthCall
  | 0 => .login ⟨1, .member⟩ 5 ⟨0, "r1", 11⟩
  | 1 => .refresh "r1" ⟨1000, "r2", 12⟩
  | 2 => .refresh "r1" ⟨1000, "r3", 13⟩

def authTurns {n : Nat} (i : Fin n) (count : Nat) : List (Turn (Fin n)) :=
  List.replicate count (.run i)

def replaySchedule : List (Turn (Fin 3)) :=
  [.start 0] ++ authTurns 0 1 ++ [.finish 0, .start 1, .start 2] ++ authTurns 1 2
    ++ authTurns 2 1 ++ authTurns 1 6 ++ [.finish 1] ++ authTurns 2 6 ++ [.finish 2]

theorem refresh_singleUse_linear_replay :
    ∃ st, Reach (authSystem sampleAuthEnv replayCalls) (State.init Db.empty) st ∧
      ((∀ h, (st.log.filter (exchanges sampleAuthEnv replayCalls h)).length ≤ 1) ∧
        ∀ now h h' row row', st.db.get (.refreshToken h) = some row →
          st.db.get (.refreshToken h') = some row' → row.familyId = row'.familyId →
            row.Spendable now → row'.Spendable now → h = h') ∧
      decide (st.log.map (·.1) = [0, 1, 2] ∧
        st.log.filter (exchanges sampleAuthEnv replayCalls "hmac-r1") ≠ [] ∧
        (st.db.get (.refreshToken "hmac-r2")).map (·.revokedAt) = some (some 1000))
          = true := by
  have hrun : (path (authSystem sampleAuthEnv replayCalls) replaySchedule
      (State.init Db.empty)).any (fun st => decide (st.log.map (·.1) = [0, 1, 2] ∧
        st.log.filter (exchanges sampleAuthEnv replayCalls "hmac-r1") ≠ [] ∧
        (st.db.get (.refreshToken "hmac-r2")).map (·.revokedAt) = some (some 1000)))
          = true := by
    decide +kernel
  obtain ⟨st, hr, hp⟩ := exists_reach replaySchedule _ hrun
  have hd : Linear Db.empty := by
    intro h h' row row' hrow
    simp at hrow
  exact ⟨st, hr, refresh_singleUse_linear hd hr, hp⟩

end InvestApi.Ref
