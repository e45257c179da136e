import InvestApi.Ref.Auth

/-!
# What happens to the refresh tokens

No call takes a refresh token row away or gives it another family, and the
marks `used_at` and `revoked_at` are never cleared: the rows of a database
only age. `Effect` says, in cases, what a committed call has done to them. A
login adds a row of a new family, a refresh that answers with a pair spends
one live row and adds its successor, and every other call only ages rows.

`Undisturbed` is what a session relies on while others commit. Its last
clause is the one the code does not keep: it holds of the runs in which
nobody adds a row to a family whose revocation is under way, and `quiet`
says whether these are the runs meant.
-/

namespace InvestApi.Ref

open InvestApi.Pg

structure RefreshTokenRow.Ages (row row' : RefreshTokenRow) : Prop where
  user : row'.userId = row.userId
  family : row'.familyId = row.familyId
  expires : row'.expiresAt = row.expiresAt
  used : row.usedAt ≠ none → row'.usedAt ≠ none
  revoked : row.revokedAt ≠ none → row'.revokedAt ≠ none

namespace RefreshTokenRow

theorem Ages.refl (row : RefreshTokenRow) : row.Ages row :=
  ⟨rfl, rfl, rfl, fun h => h, fun h => h⟩

theorem Ages.trans {row row' row'' : RefreshTokenRow} (h : row.Ages row')
    (h' : row'.Ages row'') : row.Ages row'' where
  user := h'.user.trans h.user
  family := h'.family.trans h.family
  expires := h'.expires.trans h.expires
  used hu := h'.used (h.used hu)
  revoked hr := h'.revoked (h.revoked hr)

/-- Neither exchanged nor revoked. -/
def Live (row : RefreshTokenRow) : Prop :=
  row.usedAt = none ∧ row.revokedAt = none

theorem Ages.live {row row' : RefreshTokenRow} (h : row.Ages row') (hl : row'.Live) :
    row.Live := by
  constructor
  · by_contra hu
    exact h.used hu hl.1
  · by_contra hr
    exact h.revoked hr hl.2

end RefreshTokenRow

/-! ## Databases -/

/-- Every token row is still there, older perhaps. -/
def Kept (d d' : AuthDb) : Prop :=
  ∀ h row, d.get (.refreshToken h) = some row →
    ∃ row', d'.get (.refreshToken h) = some row' ∧ row.Ages row'

theorem Kept.refl (d : AuthDb) : Kept d d :=
  fun _ row hrow => ⟨row, hrow, .refl row⟩

theorem Kept.trans {d d' d'' : AuthDb} (h : Kept d d') (h' : Kept d' d'') :
    Kept d d'' := by
  intro k row hrow
  obtain ⟨row', hrow', hage⟩ := h k row hrow
  obtain ⟨row'', hrow'', hage'⟩ := h' k row' hrow'
  exact ⟨row'', hrow'', hage.trans hage'⟩

/-- No token of family `f`. -/
def NoneOf (d : AuthDb) (f : Uuid) : Prop :=
  ∀ h row, d.get (.refreshToken h) = some row → row.familyId ≠ f

/-- No token of family `f` has been added. -/
def Within (f : Uuid) (d d' : AuthDb) : Prop :=
  ∀ h row', d'.get (.refreshToken h) = some row' → row'.familyId = f →
    ∃ row, d.get (.refreshToken h) = some row

/-- Every token of family `f` is revoked. -/
def Sealed (f : Uuid) (d : AuthDb) : Prop :=
  ∀ h row, d.get (.refreshToken h) = some row → row.familyId = f →
    row.revokedAt ≠ none

/-- The rows have aged and none has been added. -/
structure Revises (d d' : AuthDb) : Prop where
  kept : Kept d d'
  same : ∀ f, Within f d d'

theorem Revises.refl (d : AuthDb) : Revises d d :=
  ⟨.refl d, fun _ _ row' hrow' _ => ⟨row', hrow'⟩⟩

/-- Putting a row in its older version's place. -/
theorem Revises.set {d v : AuthDb} (hv : Revises d v) {h : String}
    {row row' : RefreshTokenRow} (hrow : v.get (.refreshToken h) = some row)
    (hage : row.Ages row') : Revises d (v.set (.refreshToken h) (some row')) where
  kept k old hold := by
    obtain ⟨mid, hmid, hmid'⟩ := hv.kept k old hold
    by_cases hk : k = h
    · subst hk
      obtain rfl : mid = row := Option.some.inj (hmid.symm.trans hrow)
      exact ⟨row', by simp, hmid'.trans hage⟩
    · exact ⟨mid, by rw [Db.get_set_ne _ _ (by simpa using hk)]; exact hmid, hmid'⟩
  same f k new hnew hf := by
    by_cases hk : k = h
    · subst hk
      exact hv.same row.familyId k row hrow rfl
    · rw [Db.get_set_ne _ _ (by simpa using hk)] at hnew
      exact hv.same f k new hnew hf

theorem Revises.set_denied {d v : AuthDb} (hv : Revises d v) (j : Uuid)
    (row : Option RevokedAccessTokenRow) : Revises d (v.set (.deniedJti j) row) where
  kept h old hold := by
    obtain ⟨mid, hmid, hage⟩ := hv.kept h old hold
    exact ⟨mid, by rw [Db.get_set_ne _ _ (by simp)]; exact hmid, hage⟩
  same f h new hnew hf := by
    rw [Db.get_set_ne _ _ (by simp)] at hnew
    exact hv.same f h new hnew hf

/-! ## What a committed call has done -/

def used (row : RefreshTokenRow) (now : Instant) : RefreshTokenRow :=
  { row with usedAt := some now }

theorem ages_used (row : RefreshTokenRow) (now : Instant) :
    row.Ages (used row now) :=
  ⟨rfl, rfl, rfl, fun _ => by simp [used], fun h => h⟩

/-- The rows before and after a call that committed with its reply. -/
inductive Effect (env : AuthEnv) (d d' : AuthDb) : AuthCall → AuthReply → Prop
  | loggedIn {user f draw pair} (hnone : NoneOf d f)
      (hnew : d.get (.refreshToken (env.hashRefresh draw.refresh)) = none)
      (hd' : d' = d.set (.refreshToken (env.hashRefresh draw.refresh))
        (some (AuthService.successorRow user f draw.now))) :
      Effect env d d' (.login user f draw) (.pair pair)
  | refreshed {token draw pair row u}
      (hrow : d.get (.refreshToken (env.hashRefresh token)) = some row)
      (hlive : row.Live)
      (hnew : d.get (.refreshToken (env.hashRefresh draw.refresh)) = none)
      (hd' : d' = (((d.set (.refreshToken (env.hashRefresh token)) (some row)).set
        (.refreshToken (env.hashRefresh token)) (some (used row draw.now))).set
          (.refreshToken (env.hashRefresh draw.refresh))
          (some (AuthService.successorRow u row.familyId draw.now)))) :
      Effect env d d' (.refresh token draw) (.pair pair)
  | revised {call reply} (hreply : ∀ pair, reply ≠ .pair pair) (h : Revises d d') :
      Effect env d d' call reply

/-! ## What a session relies on -/

structure Undisturbed (quiet : Prop) (s : AuthSession) (d d' : AuthDb) : Prop where
  kept : Kept d d'
  family : ∀ f, AuthKey.family f ∈ s.locks → NoneOf d f → NoneOf d' f
  within : quiet → ∀ f, AuthStmt.revokeFamily f ∈ s.trace → Within f d d'

theorem Undisturbed.refl {quiet : Prop} (s : AuthSession) (d : AuthDb) :
    Undisturbed quiet s d d where
  kept := .refl d
  family _ _ h := h
  within _ f _ := (Revises.refl d).same f

theorem Undisturbed.trans {quiet : Prop} {s : AuthSession} {d d' d'' : AuthDb}
    (h : Undisturbed quiet s d d') (h' : Undisturbed quiet s d' d'') :
    Undisturbed quiet s d d'' where
  kept := h.kept.trans h'.kept
  family f hf hnone := h'.family f hf (h.family f hf hnone)
  within hq f hf k row'' hrow'' hfam := by
    obtain ⟨row', hrow'⟩ := h'.within hq f hf k row'' hrow'' hfam
    obtain ⟨_, hsame, hage⟩ := h'.kept k row' hrow'
    obtain rfl := Option.some.inj (hrow''.symm.trans hsame)
    exact h.within hq f hf k row' hrow' (hage.family.symm.trans hfam)

abbrev AuthR {ι : Type} (quiet : Prop) :
    AuthSession → AuthWorld ι → AuthWorld ι → Prop :=
  LockRely (fun _ => True) fun s w w' => Undisturbed quiet s w.db w'.db

section Rely

variable {ι : Type} {quiet : Prop} {s : AuthSession} {w w' w'' : AuthWorld ι}

theorem AuthR.trans (s : AuthSession) (w w' w'' : AuthWorld ι)
    (h : AuthR quiet s w w') (h' : AuthR quiet s w' w'') : AuthR quiet s w w'' :=
  ⟨trivial, fun k hk => (h'.2.1 k hk).trans (h.2.1 k hk), h.2.2.trans h'.2.2⟩

theorem AuthR.held (h : AuthR quiet s w w') {k : AuthKey} (hk : k ∈ s.locks) :
    w'.db.get k = w.db.get k :=
  h.2.1 k hk

theorem AuthR.get_view (h : AuthR quiet s w w') {k : AuthKey} (hk : k ∈ s.locks) :
    (s.view w'.db).get k = (s.view w.db).get k :=
  Db.get_writeAll_congr (h.held hk) s.writes

/-- A session that has so far only aged rows; of the families it revokes, the
rows not revoked yet are in `todo`. -/
structure Revising (quiet : Prop) (todo : List AuthKey) (w : AuthWorld ι)
    (s : AuthSession) : Prop where
  held : s.Held
  revises : Revises w.db (s.view w.db)
  rest : quiet → ∀ f, AuthStmt.revokeFamily f ∈ s.trace → ∀ h row,
    (s.view w.db).get (.refreshToken h) = some row → row.familyId = f →
      row.revokedAt = none → AuthKey.refreshToken h ∈ todo

theorem Revising.sealed (h : Revising quiet [] w s) (hq : quiet) {f : Uuid}
    (hf : AuthStmt.revokeFamily f ∈ s.trace) : Sealed f (s.view w.db) := by
  intro k row hrow hfam hrev
  have := h.rest hq f hf k row hrow hfam hrev
  simp at this

theorem Revising.init (draws : List AuthKey) :
    Revising quiet [] w (Session.init draws) where
  held := Session.held_init draws
  revises := .refl w.db
  rest _ f hf := by simp [Session.init] at hf

/-- The rows a session sees are its own or the committed ones, and both keep. -/
theorem Revising.stable {todo : List AuthKey} (h : Revising quiet todo w s)
    (hR : AuthR quiet s w w') : Revising quiet todo w' s where
  held := h.held
  revises := by
    constructor
    · intro k row hrow
      by_cases hk : AuthKey.refreshToken k ∈ s.locks
      · rw [hR.held hk] at hrow
        rw [hR.get_view hk]
        exact h.revises.kept k row hrow
      · rw [Session.get_view_of_notMem h.held hk]
        exact ⟨row, hrow, .refl row⟩
    · intro f k row' hrow' hf
      by_cases hk : AuthKey.refreshToken k ∈ s.locks
      · rw [hR.get_view hk] at hrow'
        rw [hR.held hk]
        exact h.revises.same f k row' hrow' hf
      · rw [Session.get_view_of_notMem h.held hk] at hrow'
        exact ⟨row', hrow'⟩
  rest hq f hf k row' hrow' hfam hrev := by
    by_cases hk : AuthKey.refreshToken k ∈ s.locks
    · rw [hR.get_view hk] at hrow'
      exact h.rest hq f hf k row' hrow' hfam hrev
    · rw [Session.get_view_of_notMem h.held hk] at hrow'
      -- Nobody adds to the family, so the row was there when the pass began.
      obtain ⟨row, hrow⟩ := hR.2.2.within hq f hf k row' hrow' hfam
      obtain ⟨_, hsame, hage⟩ := hR.2.2.kept k row hrow
      obtain rfl := Option.some.inj (hrow'.symm.trans hsame)
      have hrev' : row.revokedAt = none := by
        by_contra hr
        exact hage.revoked hr hrev
      refine h.rest hq f hf k row ?_ (hage.family.symm.trans hfam) hrev'
      rw [Session.get_view_of_notMem h.held hk]
      exact hrow

end Rely

end InvestApi.Ref
