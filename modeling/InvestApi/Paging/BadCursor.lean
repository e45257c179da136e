import InvestApi.Paging.Walk

/-!
# A cursor that is not the server's

`decodeCursor` asks for an object with two strings and not what the strings
say. An object whose strings are no timestamp or no uuid gets past it and
reaches the comparison, where Postgres refuses to read them: the client's own
text is answered as an error of the database. A cursor of any other shape is
either refused here or compared like the server's own.
-/

namespace InvestApi.Paging

open InvestApi.Pg InvestApi.Codec InvestApi.Ref

variable {α : Type}

/-- Whatever it reads, the request ends in an answer or in a problem of its
own. -/
inductive Sane : LedgerProg α → Prop
  | ret (a : α) : Sane (.ret a)
  | problem (status : Nat) (code detail : String) :
      Sane (.raise (.problem status code detail))
  | select {next : LedgerDb → LedgerProg α} (h : ∀ d, Sane (next d)) :
      Sane (.select next)

/-- The base64url of a JSON object with two strings, which Postgres does not
read as a timestamp and a uuid. -/
def Forged (env : Env) (raw : String) : Prop :=
  ∃ props c id, parse (utf8Decode none (decode raw.toList)) = some (.object props) ∧
    stringProp "c" props = some c ∧ stringProp "id" props = some id ∧
      (env.pgTimestamptzIn c = none ∨ pgUuidIn id = none)

/-- The cursor is refused with 400, or names a timestamp and a uuid. -/
def Recognised (env : Env) (raw : String) : Prop :=
  decodeCursor raw = .error badCursor ∨
    ∃ payload t u, decodeCursor raw = .ok payload ∧
      env.pgTimestamptzIn payload.c = some t ∧ pgUuidIn payload.id = some u

/-- Neither list lets an error of the database through, whoever asks; the
account the second may be narrowed to is named by a uuid. -/
def ListsSane (env : Env) (raw : String) : Prop :=
  (∀ user limit, Sane (AccountsService.list env user limit (some raw))) ∧
    ∀ user limit accountId, (∀ a, truthy accountId = some a → pgUuidIn a ≠ none) →
      Sane (TransactionsService.list env user limit (some raw) accountId)

theorem decodeCursor_cases (raw : String) :
    decodeCursor raw = .error badCursor ∨
      ∃ props c id, parse (utf8Decode none (decode raw.toList)) = some (.object props) ∧
        stringProp "c" props = some c ∧ stringProp "id" props = some id ∧
          decodeCursor raw = .ok ⟨c, id⟩ := by
  unfold decodeCursor
  split
  · next props hparse =>
      split
      · next c id hc hid => exact Or.inr ⟨props, c, id, hparse, hc, hid, rfl⟩
      · exact Or.inl rfl
  · exact Or.inl rfl

theorem recognised_iff (env : Env) (raw : String) :
    Recognised env raw ↔ ¬Forged env raw := by
  rcases decodeCursor_cases raw with hbad | ⟨props, c, id, hparse, hc, hid, hok⟩
  · refine iff_of_true (Or.inl hbad) ?_
    rintro ⟨props, c, id, hparse, hc, hid, _⟩
    have hok : decodeCursor raw = .ok ⟨c, id⟩ := by
      unfold decodeCursor
      rw [hparse]
      dsimp only
      rw [hc, hid]
    rw [hbad] at hok
    simp at hok
  · constructor
    · rintro (hbad | ⟨payload, t, u, hpayload, ht, hu⟩)
      · rw [hok] at hbad
        simp at hbad
      · rw [hok, Except.ok.injEq] at hpayload
        rintro ⟨props', c', id', hparse', hc', hid', hbad⟩
        rw [hparse, Option.some.injEq, Json.object.injEq] at hparse'
        subst hparse' hpayload
        rw [hc, Option.some.injEq] at hc'
        rw [hid, Option.some.injEq] at hid'
        subst hc' hid'
        rcases hbad with hbad | hbad
        · rw [ht] at hbad
          simp at hbad
        · rw [hu] at hbad
          simp at hbad
    · intro hnot
      have ht : env.pgTimestamptzIn c ≠ none :=
        fun ht => hnot ⟨props, c, id, hparse, hc, hid, Or.inl ht⟩
      have hu : pgUuidIn id ≠ none :=
        fun hu => hnot ⟨props, c, id, hparse, hc, hid, Or.inr hu⟩
      obtain ⟨t, ht⟩ := Option.ne_none_iff_exists'.mp ht
      obtain ⟨u, hu⟩ := Option.ne_none_iff_exists'.mp hu
      exact Or.inr ⟨⟨c, id⟩, t, u, hok, ht, hu⟩

/-! ## What the lists make of it -/

theorem Sane.bind {β : Type} {p : LedgerProg α} {f : α → LedgerProg β} (h : Sane p)
    (hf : ∀ a, Sane (f a)) : Sane (p.bind f) := by
  induction h with
  | ret a => exact hf a
  | problem status code detail => exact .problem status code detail
  | select _ ih => exact .select fun d => ih d

theorem not_sane_db (code : String) : ¬Sane (.raise (.db code) : LedgerProg α) := by
  intro h
  cases h

/-- How the lists go on from the cursor: they refuse it, compare with the key
it names, or hand Postgres what it cannot read. -/
theorem cursor_cases (env : Env) (raw : String) :
    cursorArgument (some raw) = .error badCursor ∨
      ∃ payload, cursorArgument (some raw) = .ok payload ∧
        ((∃ after, cursorParams env payload = .ret after) ∨
          (∃ code, cursorParams env payload = .raise (.db code)) ∧ Forged env raw) := by
  rw [cursorArgument, truthy]
  cases hempty : (some raw).filter fun s => !s.isEmpty with
  | none => exact Or.inr ⟨none, rfl, Or.inl ⟨none, rfl⟩⟩
  | some raw' =>
      obtain rfl : raw = raw' := Option.some.inj (Option.mem_filter_iff.mp hempty).1
      rcases decodeCursor_cases raw with hbad | ⟨props, c, id, hparse, hc, hid, hok⟩
      · exact Or.inl (by dsimp only; rw [hbad]; rfl)
      · refine Or.inr ⟨some ⟨c, id⟩, by dsimp only; rw [hok]; rfl, ?_⟩
        simp only [cursorParams, timestamptzParam, uuidParam]
        cases ht : env.pgTimestamptzIn c with
        | none =>
            exact Or.inr ⟨⟨"22007", rfl⟩, props, c, id, hparse, hc, hid, Or.inl ht⟩
        | some t =>
            cases hu : pgUuidIn id with
            | none =>
                exact Or.inr ⟨⟨"22P02", rfl⟩, props, c, id, hparse, hc, hid, Or.inr hu⟩
            | some u => exact Or.inl ⟨_, rfl⟩

theorem sane_accounts {env : Env} {raw : String} (h : ¬Forged env raw) (user : AuthUser)
    (limit : Nat) : Sane (AccountsService.list env user limit (some raw)) := by
  rw [AccountsService.list]
  rcases cursor_cases env raw with hbad | ⟨payload, harg, ⟨after, hafter⟩ | ⟨_, hforged⟩⟩
  · rw [hbad]
    exact .problem _ _ _
  · rw [harg]
    simp only [orThrow, AccountsRepository.findPage, Prog.bind_eq, Prog.bind, hafter]
    exact .select fun d => .ret _
  · exact absurd hforged h

theorem sane_checkAccount (user : AuthUser) {accountId : Option String}
    (h : ∀ a, accountId = some a → pgUuidIn a ≠ none) :
    Sane (TransactionsService.checkAccount user accountId) := by
  cases accountId with
  | none => exact .ret _
  | some a =>
      obtain ⟨u, hu⟩ := Option.ne_none_iff_exists'.mp (h a rfl)
      simp only [TransactionsService.checkAccount, AccountsRepository.findById, uuidParam, hu,
        Prog.bind_eq, Prog.bind]
      refine .select fun d => ?_
      dsimp only [Prog.bind]
      cases d.get (.account u) with
      | none => exact .problem _ _ _
      | some row =>
          simp only [Option.map_some, assertOwner]
          split
          · exact .problem _ _ _
          · exact .ret _

theorem sane_transactions {env : Env} {raw : String} (h : ¬Forged env raw)
    (user : AuthUser) (limit : Nat) {accountId : Option String}
    (haccount : ∀ a, truthy accountId = some a → pgUuidIn a ≠ none) :
    Sane (TransactionsService.list env user limit (some raw) accountId) := by
  rw [TransactionsService.list]
  refine (sane_checkAccount user haccount).bind fun _ => ?_
  rcases cursor_cases env raw with hbad | ⟨payload, harg, ⟨after, hafter⟩ | ⟨_, hforged⟩⟩
  · rw [hbad]
    exact .problem _ _ _
  · rw [harg]
    have hparam : ∃ u, TransactionsRepository.accountParam (truthy accountId) = .ret u := by
      cases ha : truthy accountId with
      | none => exact ⟨none, rfl⟩
      | some a =>
          obtain ⟨u, hu⟩ := Option.ne_none_iff_exists'.mp (haccount a ha)
          exact ⟨some u, by simp [TransactionsRepository.accountParam, uuidParam, hu, Prog.bind]⟩
    obtain ⟨u, hu⟩ := hparam
    simp only [orThrow, TransactionsRepository.findPage, Prog.bind_eq, Prog.bind, hu, hafter]
    exact .select fun d => .ret _
  · exact absurd hforged h

/-- Postgres is handed what it cannot read. -/
theorem forged_argument {env : Env} {raw : String} (h : Forged env raw) :
    ∃ payload code, cursorArgument (some raw) = .ok payload ∧
      cursorParams env payload = .raise (.db code) := by
  obtain ⟨props, c, id, hparse, hc, hid, hbad⟩ := h
  have hok : decodeCursor raw = .ok ⟨c, id⟩ := by
    unfold decodeCursor
    rw [hparse]
    dsimp only
    rw [hc, hid]
  have htruthy : truthy (some raw) = some raw := by
    have hne : raw ≠ "" := by
      rintro rfl
      rw [show decodeCursor "" = .error badCursor from rfl] at hok
      simp at hok
    simp [truthy, hne]
  have harg : cursorArgument (some raw) = .ok (some ⟨c, id⟩) := by
    rw [cursorArgument, htruthy]
    dsimp only
    rw [hok]
    rfl
  simp only [harg, Except.ok.injEq, exists_and_left, exists_eq_left', cursorParams,
    timestamptzParam, uuidParam]
  cases ht : env.pgTimestamptzIn c with
  | none => exact ⟨"22007", rfl⟩
  | some t =>
      cases hu : pgUuidIn id with
      | none => exact ⟨"22P02", rfl⟩
      | some u =>
          rcases hbad with hbad | hbad
          · rw [ht] at hbad
            simp at hbad
          · rw [hu] at hbad
            simp at hbad

theorem not_sane_of_forged {env : Env} {raw : String} (h : Forged env raw)
    (user : AuthUser) (limit : Nat) :
    ¬Sane (AccountsService.list env user limit (some raw)) := by
  obtain ⟨payload, code, harg, hparams⟩ := forged_argument h
  rw [AccountsService.list, harg]
  simp only [orThrow, AccountsRepository.findPage, Prog.bind_eq, Prog.bind, hparams]
  exact not_sane_db code

/-- Exactly the forged cursors are neither refused with 400 nor compared
without an error of the database. -/
theorem cursor_handled_iff (env : Env) (raw : String) :
    (Recognised env raw ↔ ¬Forged env raw) ∧ (ListsSane env raw ↔ ¬Forged env raw) := by
  refine ⟨recognised_iff env raw, fun hsane hforged => ?_, fun h => ?_⟩
  · exact not_sane_of_forged hforged ⟨0, .viewer, 0, 0, 0⟩ 20 (hsane.1 _ _)
  · exact ⟨fun user limit => sane_accounts h user limit,
      fun user limit _ haccount => sane_transactions h user limit haccount⟩

/-- The base64url of an object whose properties say x and y. -/
def forgedCursor : String := "eyJjIjoieCIsImlkIjoieSJ9"

theorem decodeCursor_forgedCursor : decodeCursor forgedCursor = .ok ⟨"x", "y"⟩ := by
  decide +kernel

theorem pgTimestamptzIn_x : pageEnv.pgTimestamptzIn "x" = none := by decide +kernel

theorem forged_forgedCursor : Forged pageEnv forgedCursor := by
  rcases decodeCursor_cases forgedCursor with hbad | ⟨props, c, id, hparse, hc, hid, hok⟩
  · rw [decodeCursor_forgedCursor] at hbad
    cases hbad
  · rw [decodeCursor_forgedCursor, Except.ok.injEq, CursorPayload.mk.injEq] at hok
    obtain ⟨rfl, rfl⟩ := hok
    exact ⟨props, "x", "y", hparse, hc, hid, Or.inl pgTimestamptzIn_x⟩

/-- A cursor the server issued. -/
def issuedCursor : String := encodeCursor (toISOString 1787659200000) (20 : Uuid).text

theorem cursor_handled_iff_issued :
    (Recognised pageEnv issuedCursor ∧ ListsSane pageEnv issuedCursor) ∧
      ¬Recognised pageEnv forgedCursor ∧ ¬ListsSane pageEnv forgedCursor := by
  obtain ⟨hread, hlists⟩ := cursor_handled_iff pageEnv issuedCursor
  obtain ⟨hread', hlists'⟩ := cursor_handled_iff pageEnv forgedCursor
  have hown : Recognised pageEnv issuedCursor :=
    Or.inr ⟨_, (1787659200000 : Instant).timestamptz, 20, decodeCursor_encodeCursor _ _,
      by decide +kernel, pgUuidIn_text 20⟩
  exact ⟨⟨hown, hlists.mpr (hread.mp hown)⟩, fun h => hread'.mp h forged_forgedCursor,
    fun h => hlists'.mp h forged_forgedCursor⟩

theorem forged_cursor_unhandled :
    ¬∀ raw : String, 1 ≤ raw.length → raw.length ≤ 512 →
      Recognised pageEnv raw ∧ ListsSane pageEnv raw := by
  intro hclaim
  obtain ⟨hbad | ⟨payload, t, u, hpayload, ht, _⟩, _⟩ :=
    hclaim forgedCursor (by decide +kernel) (by decide +kernel)
  · rw [decodeCursor_forgedCursor] at hbad
    simp at hbad
  · rw [decodeCursor_forgedCursor, Except.ok.injEq] at hpayload
    subst hpayload
    rw [pgTimestamptzIn_x] at ht
    simp at ht

end InvestApi.Paging
