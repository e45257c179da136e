import InvestApi.Pg.Footprint
import InvestApi.Ref.AccessTokens

/-!
# What a logout leaves on the denylist

When a logout of a token commits, the token is on the denylist, or somebody has
purged it, or its own purge has; and it stays so. Who purges it began at or
after its expiry. The row carries the expiry of the token, whoever inserted it.

`Denying` is what a session knows on the way to its COMMIT. Logins and
refreshes never touch the list, so what they know is what holds for everybody.
-/

namespace InvestApi.Ref

open InvestApi.Pg

variable {ι : Type}

section Guard

variable (calls : ι → AuthCall) (j : Uuid) (e : Instant)

/-- A logout that began at or after `e` has committed. -/
def Past (w : AuthWorld ι) : Prop :=
  ∃ i user now, calls i = .logout user now ∧ e ≤ now ∧
    ∃ reply, (i, Finish.committed reply) ∈ w.log

def OnList (d : AuthDb) : Prop := d.get (.deniedJti j) ≠ none

/-- The token is on the list, or it expired before somebody purged the list. -/
def Guarded (w : AuthWorld ι) : Prop := OnList j w.db ∨ Past calls e w

/-- The same once call `i` has committed. -/
def GuardedBy (i : ι) (w : AuthWorld ι) (s : AuthSession) : Prop :=
  OnList j (s.view w.db) ∨ Past calls e w ∨ ∃ user now, calls i = .logout user now ∧ e ≤ now

/-- Who is on the list expires at `e`. -/
def EntryDated (d : AuthDb) : Prop := ∀ row, d.get (.deniedJti j) = some row → row.expiresAt = e

structure ListSound (w : AuthWorld ι) : Prop where
  dated : EntryDated j e w.db
  guarded : ∀ i user now reply, calls i = .logout user now → user.jti = j →
    (i, .committed reply) ∈ w.log → Guarded calls j e w

structure ListKept (w w' : AuthWorld ι) : Prop where
  past : Past calls e w → Past calls e w'
  guarded : Guarded calls j e w → Guarded calls j e w'

abbrev ListR : AuthSession → AuthWorld ι → AuthWorld ι → Prop :=
  LockRely (ListSound calls j e) fun _ w w' => ListKept calls j e w w'

/-- With `listed` the session has made sure of the row. -/
structure Denying (listed : Prop) (i : ι) (w : AuthWorld ι) (s : AuthSession) : Prop where
  held : s.Held
  dated : EntryDated j e (s.view w.db)
  keeps : Guarded calls j e w → GuardedBy calls j e i w s
  mine : listed → GuardedBy calls j e i w s

end Guard

section Session

variable {calls : ι → AuthCall} {j : Uuid} {e : Instant} {listed : Prop} {i : ι}
  {w w' : AuthWorld ι} {s : AuthSession}

theorem GuardedBy.kept (h : GuardedBy calls j e i w s) (hs : s.Held)
    (hR : ListR calls j e s w w') : GuardedBy calls j e i w' s := by
  obtain ⟨_, hlocks, hkept⟩ := hR
  rcases h with hlist | hpast | hmine
  · by_cases hk : AuthKey.deniedJti j ∈ s.locks
    · refine Or.inl ?_
      rw [OnList, Session.view, Db.get_writeAll_congr (hlocks _ hk) s.writes]
      exact hlist
    · rw [OnList, Session.get_view_of_notMem hs hk] at hlist
      rcases hkept.guarded (Or.inl hlist) with hlist' | hpast
      · refine Or.inl ?_
        rw [OnList, Session.get_view_of_notMem hs hk]
        exact hlist'
      · exact Or.inr (Or.inl hpast)
  · exact Or.inr (Or.inl (hkept.past hpast))
  · exact Or.inr (Or.inr hmine)

theorem Denying.stable (h : Denying calls j e listed i w s) (hR : ListR calls j e s w w') :
    Denying calls j e listed i w' s := by
  obtain ⟨hsound, hlocks, hkept⟩ := hR
  refine ⟨h.held, fun row hrow => ?_, fun hguard => ?_, fun hl => ?_⟩
  · by_cases hk : AuthKey.deniedJti j ∈ s.locks
    · rw [Session.view, Db.get_writeAll_congr (hlocks _ hk) s.writes] at hrow
      exact h.dated row hrow
    · rw [Session.get_view_of_notMem h.held hk] at hrow
      exact hsound.dated row hrow
  · by_cases hk : AuthKey.deniedJti j ∈ s.locks
    · rcases hguard with hlist | hpast
      · rw [OnList, hlocks _ hk] at hlist
        exact (h.keeps (Or.inl hlist)).kept h.held ⟨hsound, hlocks, hkept⟩
      · exact Or.inr (Or.inl hpast)
    · rcases hguard with hlist | hpast
      · refine Or.inl ?_
        rw [OnList, Session.get_view_of_notMem h.held hk]
        exact hlist
      · exact Or.inr (Or.inl hpast)
  · exact (h.mine hl).kept h.held ⟨hsound, hlocks, hkept⟩

theorem Denying.init (hw : ListSound calls j e w) (draws : List AuthKey) :
    Denying calls j e False i w (Session.init draws) where
  held := Session.held_init draws
  dated := hw.dated
  keeps h := h.imp_right Or.inl
  mine := False.elim

/-- A write of another key. -/
theorem Denying.put_ne (h : Denying calls j e listed i w s) {k : AuthKey}
    {v : Option (AuthRow k)} (hk : k ≠ .deniedJti j) :
    Denying calls j e listed i w (s.put k v) := by
  have hview : ((s.put k v).view w.db).get (.deniedJti j)
      = (s.view w.db).get (.deniedJti j) := by
    rw [Session.view_put, Db.get_set_ne _ _ (Ne.symm hk)]
  have hby : GuardedBy calls j e i w s → GuardedBy calls j e i w (s.put k v) := by
    refine Or.imp_left fun hlist => ?_
    rw [OnList, hview]
    exact hlist
  refine ⟨h.held.put _ _, fun row hrow => ?_, fun hg => hby (h.keeps hg),
    fun hl => hby (h.mine hl)⟩
  rw [hview] at hrow
  exact h.dated row hrow

theorem Denying.tag (h : Denying calls j e listed i w s) (t : AuthStmt) :
    Denying calls j e listed i w (s.tag t) :=
  ⟨h.held.tag t, h.dated, h.keeps, h.mine⟩

/-- The INSERT of the row. -/
theorem Denying.insert (h : Denying calls j e listed i w s) {listed' : Prop}
    {row : RevokedAccessTokenRow} (hrow : row.expiresAt = e) :
    Denying calls j e listed' i w (s.put (.deniedJti j) (some row)) := by
  have hlist : OnList j ((s.put (.deniedJti j) (some row)).view w.db) := by
    rw [OnList, Session.view_put, Db.get_set_self]
    simp
  refine ⟨h.held.put _ _, fun row' hrow' => ?_, fun _ => Or.inl hlist, fun _ => Or.inl hlist⟩
  rw [Session.view_put, Db.get_set_self, Option.some.injEq] at hrow'
  rw [← hrow']
  exact hrow

/-- The purge of the row, by a logout that began when the token had expired. -/
theorem Denying.purge (h : Denying calls j e listed i w s) {user : AuthUser}
    {now : Instant} (hcall : calls i = .logout user now) (hnow : e ≤ now) :
    Denying calls j e listed i w (s.put (.deniedJti j) none) := by
  have hby : GuardedBy calls j e i w (s.put (.deniedJti j) none) :=
    Or.inr (Or.inr ⟨user, now, hcall, hnow⟩)
  refine ⟨h.held.put _ _, fun row' hrow' => ?_, fun _ => hby, fun _ => hby⟩
  rw [Session.view_put, Db.get_set_self] at hrow'
  simp at hrow'

end Session

/-! ## The calls -/

section Calls

variable {env : AuthEnv} {calls : ι → AuthCall} {j : Uuid} {e : Instant} {i : ι}
  {listed : Prop} {w : AuthWorld ι} {s : AuthSession}

/-- A write that is not on the denylist. -/
def OffList (k : AuthKey) (_ : Option (AuthRow k)) : Prop := ∀ j, k ≠ .deniedJti j

theorem offList_of_token {h : String} (v : Option (AuthRow (.refreshToken h))) :
    OffList (.refreshToken h) v := fun _ => by simp

theorem touches_revokeFamily (f : Uuid) (now : Instant) :
    (AuthService.revokeFamily f now).Touches OffList := by
  refine ⟨fun d k hk v => ?_, fun _ _ => trivial⟩
  cases k with
  | refreshToken h => exact ⟨fun _ _ => offList_of_token _, fun _ => offList_of_token _⟩
  | deniedJti j => simp [AuthService.revokeRow]
  | family g => exact v.elim

theorem touches_issue (env : AuthEnv) (user : LoginUser) (f : Uuid) (draw : AuthDraw) :
    (AuthService.issue env user f draw).Touches OffList := by
  refine ⟨fun r hr => ?_, trivial⟩
  rw [List.mem_singleton.mp hr]
  exact offList_of_token _

/-- A locking statement on the row of one token. -/
theorem actsIn_only {d : AuthDb} {h : String}
    {p : AuthRow (.refreshToken h) → Bool}
    {act : (k : AuthKey) → AuthRow k → RowAct (AuthRow k)} {k : AuthKey}
    (hk : k ∈ d.only (.refreshToken h) p) : Prog.ActsIn OffList act k := by
  rw [Db.mem_only hk]
  exact fun _ => ⟨fun _ _ => offList_of_token _, fun _ => offList_of_token _⟩

theorem touches_findToken (h : String) : (AuthService.findToken h).Touches OffList :=
  ⟨fun _ _ hk => actsIn_only hk, fun _ _ => trivial⟩

theorem touches_markUsed (h : String) (now : Instant) :
    (AuthService.markUsed h now).Touches OffList :=
  ⟨fun _ _ hk => actsIn_only hk, fun _ _ => trivial⟩

theorem touches_rotate (env : AuthEnv) (token : String) (draw : AuthDraw) :
    (AuthService.rotate env token draw).Touches OffList := by
  refine (touches_findToken _).bind fun found => ?_
  cases found with
  | none => trivial
  | some row =>
      dsimp only
      split
      · trivial
      · split
        · exact (touches_revokeFamily _ _).bind fun _ => trivial
        · refine (touches_markUsed _ _).bind fun _ d => ?_
          simp only [Prog.bind_eq, Prog.pure_eq, Prog.bind]
          split
          · trivial
          · exact (touches_issue _ _ _ _).bind fun _ => trivial

theorem touches_login (env : AuthEnv) (user : LoginUser) (f : Uuid) (draw : AuthDraw) :
    ((AuthCall.login user f draw).body env).Touches OffList :=
  (touches_issue env user f draw).bind fun _ => trivial

theorem touches_refresh (env : AuthEnv) (token : String) (draw : AuthDraw) :
    ((AuthCall.refresh token draw).body env).Touches OffList :=
  (touches_rotate env token draw).bind fun _ => trivial

/-- What does not touch the list keeps what the session knows of it. -/
theorem Denying.wp_offList {α : Type} {p : AuthProg α} (hp : p.Touches OffList)
    (h : Denying calls j e listed i w s) :
    p.wp (ListR calls j e) (fun _ => Denying calls j e listed i) (fun _ _ _ => True) w s :=
  hp.wp (fun _ _ h _ hR => h.stable hR) (fun _ _ t h => h.tag t)
    (fun _ _ _ _ hk h => h.put_ne (hk j)) h

theorem Denying.wp_purge {user : AuthUser} {now : Instant}
    (hcall : calls i = .logout user now) (h : Denying calls j e listed i w s) :
    (AuthService.purgeDenied now).wp (ListR calls j e)
      (fun _ => Denying calls j e listed i) (fun _ _ _ => True) w s := by
  intro l _ w' hw'
  suffices hpass : wpScan (ListR calls j e) (AuthService.purgeRow now)
      (fun _ => Denying calls j e listed i) l [] w' (s.tag .purgeDenied) from
    wpScan_mono (fun _ _ _ h => h) hpass
  refine wpScan_of_inv (I := fun _ => Denying calls j e listed i) ?_ ?_ ?_ ?_ ?_
    ((h.tag _).stable hw')
  · intro _ w s h w' hw'
    exact h.stable hw'
  · intro _ _ w s h _
    exact h
  · intro _ _ w s _ h _ _
    exact h
  · intro k _ w s v v' h _ ha
    cases k with
    | refreshToken t => simp [AuthService.purgeRow] at ha
    | deniedJti j' =>
        simp only [AuthService.purgeRow] at ha
        split at ha
        · simp at ha
        · simp at ha
    | family g => exact v.elim
  · intro k _ w s v h hv ha
    cases k with
    | refreshToken t => simp [AuthService.purgeRow] at ha
    | deniedJti j' =>
        by_cases hj : j' = j
        · subst hj
          simp only [AuthService.purgeRow] at ha
          split at ha
          · next hexpired =>
              rw [h.dated v hv] at hexpired
              exact h.purge hcall hexpired
          · simp at ha
        · exact h.put_ne (by simpa using hj)
    | family g => exact v.elim

/-- After the INSERT of its own token a logout has made sure of the row. -/
theorem Denying.wp_logout {user : AuthUser} {now : Instant}
    (hcall : calls i = .logout user now) (hexp : user.jti = j → user.exp * 1000 = e)
    (h : Denying calls j e False i w s) :
    ((AuthCall.logout user now).body env).wp (ListR calls j e)
      (fun _ => Denying calls j e (user.jti = j) i) (fun _ _ _ => True) w s := by
  simp only [AuthCall.body, AuthService.logout, Prog.bind_eq, Prog.pure_eq, Prog.wp_bind]
  refine Prog.wp_mono (fun _ w s h => ?_) (fun _ _ _ h => h)
    (h.wp_offList (touches_revokeFamily _ _))
  -- The INSERT, of this token's row or another's.
  constructor
  · intro _ w' hw'
    by_cases hj : user.jti = j
    · subst hj
      exact ((h.insert (hexp rfl)).stable hw').wp_purge hcall
    · have hmine : Denying calls j e (user.jti = j) i w
          (s.put (.deniedJti user.jti) (some ⟨user.exp * 1000⟩)) := by
        have hput : Denying calls j e False i w
            (s.put (.deniedJti user.jti) (some ⟨user.exp * 1000⟩)) :=
          h.put_ne (by simpa using hj)
        exact ⟨hput.held, hput.dated, hput.keeps, fun hj' => absurd hj' hj⟩
      exact (hmine.stable hw').wp_purge hcall
  · intro hold w' hw'
    have hmine : Denying calls j e (user.jti = j) i w s := by
      refine ⟨h.held, h.dated, h.keeps, fun hj => ?_⟩
      subst hj
      exact Or.inl hold
    exact (hmine.stable hw').wp_purge hcall

end Calls

/-! ## Runs -/

section Runs

variable {env : AuthEnv} {calls : ι → AuthCall} {j : Uuid} {e : Instant}

/-- What call `i` has to have made sure of. -/
def Lists (calls : ι → AuthCall) (j : Uuid) (i : ι) : Prop :=
  ∃ user now, calls i = .logout user now ∧ user.jti = j

theorem GuardedBy.commit {i : ι} {reply : AuthReply} {w : AuthWorld ι} {s : AuthSession}
    (hlogout : ∀ user now, calls i = .logout user now → e ≤ now →
      Past calls e (w.commit i reply s))
    (h : GuardedBy calls j e i w s) : Guarded calls j e (w.commit i reply s) := by
  rcases h with hlist | ⟨i', user, now, hcall, hnow, reply', hmem⟩ | ⟨user, now, hcall, hnow⟩
  · exact Or.inl hlist
  · refine Or.inr ⟨i', user, now, hcall, hnow, reply', ?_⟩
    rw [World.commit_log]
    exact List.mem_append_left _ hmem
  · exact Or.inr (hlogout user now hcall hnow)

theorem past_commit (i : ι) (reply : AuthReply) (w : AuthWorld ι) (s : AuthSession)
    {user : AuthUser} {now : Instant} (hcall : calls i = .logout user now)
    (hnow : e ≤ now) : Past calls e (w.commit i reply s) := by
  refine ⟨i, user, now, hcall, hnow, reply, ?_⟩
  rw [World.commit_log]
  exact List.mem_append_right _ (List.mem_singleton_self _)

theorem Past.log {w w' : AuthWorld ι} (h : Past calls e w)
    {more : List (ι × Finish ApiError AuthReply)} (hlog : w'.log = w.log ++ more) :
    Past calls e w' := by
  obtain ⟨i, user, now, hcall, hnow, reply, hmem⟩ := h
  refine ⟨i, user, now, hcall, hnow, reply, ?_⟩
  rw [hlog]
  exact List.mem_append_left _ hmem

/-- A call that ends without a COMMIT. -/
theorem ListSound.note {w : AuthWorld ι} (h : ListSound calls j e w) {i : ι}
    {f : Finish ApiError AuthReply} (hf : ∀ reply, f ≠ .committed reply) :
    ListSound calls j e (w.note i f) ∧ ListKept calls j e w (w.note i f) := by
  have hpast : Past calls e w → Past calls e (w.note i f) := fun hp => hp.log rfl
  refine ⟨⟨h.dated, fun i' user now reply hcall hj hmem => ?_⟩, hpast, Or.imp_right hpast⟩
  rw [World.note_log, List.mem_append, List.mem_singleton, Prod.mk.injEq] at hmem
  rcases hmem with hmem | ⟨_, hreply⟩
  · exact (h.guarded i' user now reply hcall hj hmem).imp_right hpast
  · exact absurd hreply.symm (hf reply)

/-- A COMMIT. -/
theorem ListSound.commit {w : AuthWorld ι} (h : ListSound calls j e w) {i : ι}
    {reply : AuthReply} {s : AuthSession} (hs : Denying calls j e (Lists calls j i) i w s) :
    ListSound calls j e (w.commit i reply s) ∧
      ListKept calls j e w (w.commit i reply s) := by
  have hpast : Past calls e w → Past calls e (w.commit i reply s) := fun hp => hp.log rfl
  have hby : GuardedBy calls j e i w s → Guarded calls j e (w.commit i reply s) :=
    GuardedBy.commit fun _ _ hcall hnow => past_commit i reply w s hcall hnow
  have hkeep : Guarded calls j e w → Guarded calls j e (w.commit i reply s) :=
    fun hg => hby (hs.keeps hg)
  refine ⟨⟨hs.dated, fun i' user now reply' hcall hj hmem => ?_⟩, hpast, hkeep⟩
  rw [World.commit_log, List.mem_append, List.mem_singleton, Prod.mk.injEq] at hmem
  rcases hmem with hmem | ⟨rfl, _⟩
  · exact hkeep (h.guarded i' user now reply' hcall hj hmem)
  · exact hby (hs.mine ⟨user, now, hcall, hj⟩)

theorem listDiscipline (hexp : ∀ i user now, calls i = .logout user now →
      user.jti = j → user.exp * 1000 = e) :
    LockDiscipline (authSystem env calls) (fun _ _ => True) (ListSound calls j e)
      (fun _ w w' => ListKept calls j e w w')
      (fun i _ => Denying calls j e (Lists calls j i) i) (fun _ _ _ _ => True) where
  refl _ _ := ⟨fun h => h, fun h => h⟩
  trans _ _ _ _ h h' := ⟨fun hp => h'.past (h.past hp), fun hg => h'.guarded (h.guarded hg)⟩
  start i w hw _ w' hw' := by
    have hinit : Denying calls j e False i w' (Session.init ((authSystem env calls).draws i)) :=
      (Denying.init hw _).stable hw'
    -- A call that is no logout of the token has nothing to make sure of.
    have hother : ∀ {p : AuthProg AuthReply}, p.Touches OffList → ¬Lists calls j i →
        p.wp (ListR calls j e) (fun _ => Denying calls j e (Lists calls j i) i)
          (fun _ _ _ => True) w' (Session.init ((authSystem env calls).draws i)) := by
      intro p hp hno
      exact Prog.wp_mono (fun _ _ _ h => ⟨h.held, h.dated, h.keeps, fun hl => absurd hl hno⟩)
        (fun _ _ _ h => h) (hinit.wp_offList hp)
    show ((calls i).body env).wp _ _ _ _ _
    cases hi : calls i with
    | login user f draw =>
        exact hother (touches_login env user f draw) (by simp [Lists, hi])
    | refresh token draw =>
        exact hother (touches_refresh env token draw) (by simp [Lists, hi])
    | logout user now =>
        refine Prog.wp_mono (fun _ _ _ h => ⟨h.held, h.dated, h.keeps, fun hl => ?_⟩)
          (fun _ _ _ h => h) (hinit.wp_logout hi (hexp i user now hi))
        obtain ⟨user', now', hcall, hj⟩ := hl
        rw [hi] at hcall
        injection hcall with huser _
        exact h.mine (huser ▸ hj)
  commit st i reply s _ hinv _ _ hq := by
    obtain ⟨hsound, hkept⟩ := hinv.commit hq
    exact ⟨hsound, fun _ _ _ _ _ => hkept⟩
  rollback w i err _ hw _ := by
    obtain ⟨hsound, hkept⟩ := hw.note (i := i) (f := .raised err) (by simp)
    exact ⟨hsound, fun _ => hkept⟩
  abort w i hw := by
    obtain ⟨hsound, hkept⟩ := hw.note (i := i) (f := .aborted) (by simp)
    exact ⟨hsound, fun _ => hkept⟩

/-- In every reachable state the list is as the header says. -/
theorem list_sound [DecidableEq ι] (hexp : ∀ i user now, calls i = .logout user now →
      user.jti = j → user.exp * 1000 = e) {st : AuthState ι}
    (hr : Reach (authSystem env calls) (State.init Db.empty) st) :
    ListSound calls j e st.toWorld := by
  refine ((listDiscipline hexp).discipline.sound ⟨fun row hrow => ?_, ?_⟩ hr).inv
  · simp at hrow
  · intro _ _ _ _ _ _ hmem
    simp at hmem

end Runs

end InvestApi.Ref
