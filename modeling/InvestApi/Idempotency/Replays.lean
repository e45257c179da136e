import InvestApi.Idempotency.Intercept
import InvestApi.Ref.Responses

/-!
# A replay beside its original

The record of a key holds what one handler returned, and nothing of the response
it was returned in: not the route, not the status, not the headers. The user and
the body are in the key and in the fingerprint, so these are those of the original.
The rest is the replaying route's, and it is the original's only where the route
sends 201 and its handler sets no header, which leaves `POST /transactions`.

The invariant ties each record to the request whose handler returned its value,
which has been answered with 201 and stays so.
-/

namespace InvestApi.Ref

open InvestApi.Codec

/-! ## The records that are done -/

section Records

variable {B R : Type} {fingerprint : B → String} {store : IdempotencyStore R}
  {req : IdempotencyRequest B} {now now' : Instant}

/-- A replay is read off a record of the request's own key and body. -/
theorem done_of_replay {body : Option R}
    (h : (intercept fingerprint store req now now').2 = .ok (.replay body)) :
    ∃ key t, req.key = some key ∧
      store key = some (.done (fingerprint req.body) body t) := by
  unfold intercept at h
  split at h
  · simp at h
  next key hkey =>
  dsimp only [getRecord] at h
  cases hrec : store key with
  | none => simp [hrec] at h
  | some rec =>
      rw [hrec] at h
      dsimp only at h
      by_cases hexp : rec.expiresAt ≤ now
      · simp [hexp] at h
      · simp only [hexp, if_false] at h
        split at h
        · simp at h
        · next hfp =>
            rw [not_not] at hfp
            cases rec with
            | inFlight fp t => simp at h
            | done fp stored t =>
                obtain rfl : fp = fingerprint req.body := hfp
                obtain rfl : stored = body := by simpa using h
                exact ⟨key, t, hkey, hrec⟩

theorem run_key {key fp : String}
    (h : (intercept fingerprint store req now now').2 = .ok (.run key fp)) :
    req.key = some key ∧ fp = fingerprint req.body := by
  have hcases : Intercepted fingerprint store req now now' _ := intercept_cases
  generalize intercept fingerprint store req now now' = p at hcases h
  cases hcases with
  | bypassed hkey => simp at h
  | taken hkey hfree =>
      simp only [Except.ok.injEq, Admission.run.injEq] at h
      obtain ⟨rfl, rfl⟩ := h
      exact ⟨hkey, rfl⟩
  | answered hkey hrec hlive hanswer =>
      obtain ⟨body, hbody⟩ := hanswer _ h
      simp at hbody

/-- Arriving, a request leaves no new value behind. -/
theorem done_of_intercept {key fp : String} {body : Option R} {t : Instant}
    (h : (intercept fingerprint store req now now').1 key = some (.done fp body t)) :
    store key = some (.done fp body t) := by
  have hcases : Intercepted fingerprint store req now now' _ := intercept_cases
  generalize intercept fingerprint store req now now' = p at hcases h
  cases hcases with
  | bypassed hkey => exact h
  | taken hkey hfree =>
      rcases update_some_cases h with ⟨rfl, hrec⟩ | ⟨hne, hrec⟩
      · simp at hrec
      · exact hrec
  | answered hkey hrec hlive hanswer => exact h

variable {ι : Type} [DecidableEq ι] {s : IdempotencyState ι R}

/-- A finished response leaves the value of its own handler, if any. -/
theorem done_of_finish {i : ι} {x : Exchange R} {statusCode : Nat} {key fp : String}
    {body : Option R} {t : Instant}
    (h : (s.finish i x statusCode).store key = some (.done fp body t)) :
    s.store key = some (.done fp body t) ∨
      x.answer = .ok (.run key fp) ∧ body = x.captured ∧ statusCode = CREATED := by
  cases hans : x.answer with
  | error e =>
      simp only [IdempotencyState.finish, hans] at h
      exact Or.inl h
  | ok a =>
      cases a with
      | bypass =>
          simp only [IdempotencyState.finish, hans] at h
          exact Or.inl h
      | replay stored =>
          simp only [IdempotencyState.finish, hans] at h
          exact Or.inl h
      | run key₀ fp₀ =>
          simp only [IdempotencyState.finish, hans] at h
          unfold onFinish at h
          split at h
          · next hcreated =>
              rcases update_some_cases h with ⟨rfl, hrec⟩ | ⟨hne, hrec⟩
              · injection hrec with hfp hbody ht
                subst hfp hbody
                exact Or.inr ⟨rfl, rfl, hcreated⟩
              · exact Or.inl hrec
          · by_cases hkey : key = key₀
            · subst hkey
              simp at h
            · rw [Function.update_of_ne hkey] at h
              exact Or.inl h

end Records

/-! ## Whose value a record holds -/

section Server

variable {ι : Type} {sha256 : List Char → String} {req : ι → PostRequest}
  {s s' : Server ι}

/-- The request `i` has been answered with 201, and with `value`, under the key. -/
def Produced (sha256 : List Char → String) (req : ι → PostRequest) (s : Server ι)
    (key : String) (i : ι) (value : Option HandlerValue) : Prop :=
  ∃ x, s.core.exchange i = some x ∧ x.ended.isSome = true ∧
    x.answer = .ok (.run key (fingerprintOf sha256 (req i).body)) ∧
    (req i).toIdempotency.key = some key ∧
    ((req i).route.written value).statusCode = CREATED ∧
    (req i).route.returns value = true ∧ s.response i = some ((req i).route.written value)

structure Sourced (sha256 : List Char → String) (req : ι → PostRequest) (s : Server ι) :
    Prop where
  captured : ∀ i x returned, s.core.exchange i = some x → x.captured = some returned →
    returned.request = i ∧ (req i).route.returns returned.value = true
  admitted : ∀ i x key fp, s.core.exchange i = some x → x.answer = .ok (.run key fp) →
    (req i).toIdempotency.key = some key ∧ fp = fingerprintOf sha256 (req i).body
  recorded : ∀ key fp body t, s.core.store key = some (.done fp body t) →
    ∃ i value, body = some ⟨i, value⟩ ∧ fp = fingerprintOf sha256 (req i).body ∧
      Produced sha256 req s key i value
  replayed : ∀ j y body, s.core.exchange j = some y → y.answer = .ok (.replay body) →
    ∃ i value key, body = some ⟨i, value⟩ ∧ (req j).toIdempotency.key = some key ∧
      fingerprintOf sha256 (req j).body = fingerprintOf sha256 (req i).body ∧
      Produced sha256 req s key i value
  responded : ∀ j y w body, s.core.exchange j = some y → y.answer = .ok (.replay body) →
    s.response j = some w → w = (req j).route.replayed (body.bind (·.value))
  unsent : ∀ i x, s.core.exchange i = some x → x.ended = none → s.response i = none
  absent : ∀ i, s.core.exchange i = none → s.response i = none

/-- Requests that have been answered stay as they were answered. -/
structure Server.Later (s s' : Server ι) : Prop where
  exchange : ∀ i x, s.core.exchange i = some x → x.ended.isSome = true →
    ∃ x', s'.core.exchange i = some x' ∧ x'.answer = x.answer ∧ x'.ended.isSome = true
  response : ∀ i w, s.response i = some w → s'.response i = some w

theorem Produced.later {key : String} {i : ι} {value : Option HandlerValue}
    (h : Produced sha256 req s key i value) (hlater : s.Later s') :
    Produced sha256 req s' key i value := by
  obtain ⟨x, hx, hended, hanswer, hkey, hcode, hreturns, hresponse⟩ := h
  obtain ⟨x', hx', hanswer', hended'⟩ := hlater.exchange i x hx hended
  exact ⟨x', hx', hended', hanswer'.trans hanswer, hkey, hcode, hreturns,
    hlater.response i _ hresponse⟩

theorem Sourced.init (sha256 : List Char → String) (req : ι → PostRequest)
    (clock : Instant) : Sourced sha256 req (Server.init clock : Server ι) where
  captured i x returned hx := by simp [Server.init, IdempotencyState.init] at hx
  admitted i x key fp hx := by simp [Server.init, IdempotencyState.init] at hx
  recorded key fp body t hrec := by simp [Server.init, IdempotencyState.init] at hrec
  replayed j y body hy := by simp [Server.init, IdempotencyState.init] at hy
  responded j y w body hy := by simp [Server.init, IdempotencyState.init] at hy
  unsent i x hx := by simp [Server.init, IdempotencyState.init] at hx
  absent i _ := rfl

variable [DecidableEq ι]

theorem Sourced.arrive (h : Sourced sha256 req s) {i : ι} {now' : Instant}
    (hnew : s.core.exchange i = none) :
    Sourced sha256 req
      { s with core := s.core.arrive (fingerprintOf sha256) (req i).toIdempotency i now' } := by
  have hlater : s.Later
      { s with core := s.core.arrive (fingerprintOf sha256) (req i).toIdempotency i now' } := by
    refine ⟨fun j x hx hended => ⟨x, ?_, rfl, hended⟩, fun j w hw => hw⟩
    have hj : j ≠ i := by
      rintro rfl
      rw [hnew] at hx
      simp at hx
    exact (Function.update_of_ne hj _ _).trans hx
  have hunsent := h.absent i hnew
  refine ⟨fun j x returned hx hreturned => ?_, fun j x key fp hx hanswer => ?_,
    fun key fp body t hrec => ?_, fun j y body hy hanswer => ?_,
    fun j y w body hy hanswer hw => ?_, fun j x hx hopen => ?_, fun j hx => ?_⟩
  · rcases update_some_cases hx with ⟨rfl, rfl⟩ | ⟨hj, hx⟩
    · simp at hreturned
    · exact h.captured j x returned hx hreturned
  · rcases update_some_cases hx with ⟨rfl, rfl⟩ | ⟨hj, hx⟩
    · exact run_key hanswer
    · exact h.admitted j x key fp hx hanswer
  · obtain ⟨k, value, hbody, hfp, hproduced⟩ := h.recorded key fp body t (done_of_intercept hrec)
    exact ⟨k, value, hbody, hfp, hproduced.later hlater⟩
  · rcases update_some_cases hy with ⟨rfl, rfl⟩ | ⟨hj, hy⟩
    · obtain ⟨key, t, hkey, hrec⟩ := done_of_replay hanswer
      obtain ⟨k, value, hbody, hfp, hproduced⟩ := h.recorded _ _ _ _ hrec
      exact ⟨k, value, key, hbody, hkey, hfp, hproduced.later hlater⟩
    · obtain ⟨k, value, key, hbody, hkey, hfp, hproduced⟩ := h.replayed j y body hy hanswer
      exact ⟨k, value, key, hbody, hkey, hfp, hproduced.later hlater⟩
  · rcases update_some_cases hy with ⟨rfl, rfl⟩ | ⟨hj, hy⟩
    · rw [show s.response j = some w from hw] at hunsent
      simp at hunsent
    · exact h.responded j y w body hy hanswer hw
  · rcases update_some_cases hx with ⟨rfl, rfl⟩ | ⟨hj, hx⟩
    · exact hunsent
    · exact h.unsent j x hx hopen
  · by_cases hj : j = i
    · subst hj
      exact hunsent
    · exact h.absent j ((Function.update_of_ne hj _ _).symm.trans hx)

/-- An event of a request that has arrived, with nothing sent and nothing stored. -/
theorem Sourced.setExchange (h : Sourced sha256 req s) {i : ι} {x x' : Exchange (Returned ι)}
    (hx : s.core.exchange i = some x) (hanswer : x'.answer = x.answer)
    (hended : x.ended.isSome = true → x'.ended.isSome = true)
    (hcaptured : ∀ returned, x'.captured = some returned →
      returned.request = i ∧ (req i).route.returns returned.value = true) :
    Sourced sha256 req { s with core := s.core.setExchange i x' } := by
  have back : ∀ j y, Function.update s.core.exchange i (some x') j = some y →
      ∃ y₀, s.core.exchange j = some y₀ ∧ y.answer = y₀.answer ∧
        (y₀.ended.isSome = true → y.ended.isSome = true) := by
    intro j y hy
    rcases update_some_cases hy with ⟨rfl, rfl⟩ | ⟨hj, hy⟩
    · exact ⟨x, hx, hanswer, hended⟩
    · exact ⟨y, hy, rfl, id⟩
  have hlater : s.Later { s with core := s.core.setExchange i x' } := by
    refine ⟨fun j y hy hyended => ?_, fun j w hw => hw⟩
    by_cases hj : j = i
    · subst hj
      obtain rfl : x = y := Option.some.inj (hx.symm.trans hy)
      exact ⟨x', Function.update_self _ _ _, hanswer, hended hyended⟩
    · exact ⟨y, (Function.update_of_ne hj _ _).trans hy, rfl, hyended⟩
  refine ⟨fun j y returned hy hreturned => ?_, fun j y key fp hy hans => ?_,
    fun key fp body t hrec => ?_, fun j y body hy hans => ?_,
    fun j y w body hy hans hw => ?_, fun j y hy hopen => ?_, fun j hy => ?_⟩
  · rcases update_some_cases hy with ⟨rfl, rfl⟩ | ⟨hj, hy⟩
    · exact hcaptured returned hreturned
    · exact h.captured j y returned hy hreturned
  · obtain ⟨y₀, hy₀, hsame, _⟩ := back j y hy
    exact h.admitted j y₀ key fp hy₀ (hsame.symm.trans hans)
  · obtain ⟨k, value, hbody, hfp, hproduced⟩ := h.recorded key fp body t hrec
    exact ⟨k, value, hbody, hfp, hproduced.later hlater⟩
  · obtain ⟨y₀, hy₀, hsame, _⟩ := back j y hy
    obtain ⟨k, value, key, hbody, hkey, hfp, hproduced⟩ :=
      h.replayed j y₀ body hy₀ (hsame.symm.trans hans)
    exact ⟨k, value, key, hbody, hkey, hfp, hproduced.later hlater⟩
  · obtain ⟨y₀, hy₀, hsame, _⟩ := back j y hy
    exact h.responded j y₀ w body hy₀ (hsame.symm.trans hans) hw
  · obtain ⟨y₀, hy₀, _, hkept⟩ := back j y hy
    refine h.unsent j y₀ hy₀ ?_
    cases hy₀ended : y₀.ended with
    | none => rfl
    | some e =>
        have hsome := hkept (by rw [hy₀ended]; rfl)
        rw [hopen] at hsome
        simp at hsome
  · have hj : j ≠ i := by
      rintro rfl
      simp [IdempotencyState.setExchange] at hy
    exact h.absent j ((Function.update_of_ne hj _ _).symm.trans hy)

/-- A response is sent: with 201, only for a handler's value. -/
theorem Sourced.finish (h : Sourced sha256 req s) {i : ι} {x : Exchange (Returned ι)}
    {statusCode : Nat} {w : Response} (hx : s.core.exchange i = some x)
    (hopen : x.ended = none)
    (hstore : ∀ body, x.answer = .ok (.replay body) →
      w = (req i).route.replayed (body.bind (·.value)))
    (hcreated : statusCode = CREATED → ∀ key fp, x.answer = .ok (.run key fp) →
      ∃ value, x.captured = some ⟨i, value⟩ ∧
        ((req i).route.written value).statusCode = CREATED ∧
        w = (req i).route.written value) :
    Sourced sha256 req
      ⟨s.core.finish i x statusCode, Function.update s.response i (some w)⟩ := by
  have hunsent := h.unsent i x hx hopen
  have hlater : s.Later
      ⟨s.core.finish i x statusCode, Function.update s.response i (some w)⟩ := by
    refine ⟨fun j y hy hended => ?_, fun j w' hw' => ?_⟩
    · by_cases hj : j = i
      · subst hj
        obtain rfl : x = y := Option.some.inj (hx.symm.trans hy)
        exact ⟨_, Function.update_self _ _ _, rfl, rfl⟩
      · exact ⟨y, (Function.update_of_ne hj _ _).trans hy, rfl, hended⟩
    · have hj : j ≠ i := by
        rintro rfl
        rw [hunsent] at hw'
        simp at hw'
      exact (Function.update_of_ne hj _ _).trans hw'
  have back : ∀ j y, (s.core.finish i x statusCode).exchange j = some y →
      ∃ y₀, s.core.exchange j = some y₀ ∧ y.answer = y₀.answer ∧ y.captured = y₀.captured ∧
        (y.ended = none → j ≠ i ∧ y₀.ended = none) := by
    intro j y hy
    rcases update_some_cases hy with ⟨rfl, rfl⟩ | ⟨hj, hy⟩
    · exact ⟨x, hx, rfl, rfl, by simp⟩
    · exact ⟨y, hy, rfl, rfl, fun hnone => ⟨hj, hnone⟩⟩
  refine ⟨fun j y returned hy hreturned => ?_, fun j y key fp hy hans => ?_,
    fun key fp body t hrec => ?_, fun j y body hy hans => ?_,
    fun j y w' body hy hans hw' => ?_, fun j y hy hnone => ?_, fun j hy => ?_⟩
  · obtain ⟨y₀, hy₀, _, hsame, _⟩ := back j y hy
    exact h.captured j y₀ returned hy₀ (hsame.symm.trans hreturned)
  · obtain ⟨y₀, hy₀, hsame, _, _⟩ := back j y hy
    exact h.admitted j y₀ key fp hy₀ (hsame.symm.trans hans)
  · rcases done_of_finish hrec with hold | ⟨hans, hbody, hstatus⟩
    · obtain ⟨k, value, hbody, hfp, hproduced⟩ := h.recorded key fp body t hold
      exact ⟨k, value, hbody, hfp, hproduced.later hlater⟩
    · -- The value is this request's own.
      obtain ⟨value, hvalue, hcode, hw⟩ := hcreated hstatus key fp hans
      obtain ⟨hkey, rfl⟩ := h.admitted i x key fp hx hans
      refine ⟨i, value, hbody.trans hvalue, rfl, _, Function.update_self _ _ _, rfl, hans, hkey,
        hcode, (h.captured i x _ hx hvalue).2, ?_⟩
      rw [← hw]
      exact Function.update_self _ _ _
  · obtain ⟨y₀, hy₀, hsame, _, _⟩ := back j y hy
    obtain ⟨k, value, key, hbody, hkey, hfp, hproduced⟩ :=
      h.replayed j y₀ body hy₀ (hsame.symm.trans hans)
    exact ⟨k, value, key, hbody, hkey, hfp, hproduced.later hlater⟩
  · obtain ⟨y₀, hy₀, hsame, _, _⟩ := back j y hy
    rcases update_some_cases hw' with ⟨rfl, rfl⟩ | ⟨hj, hw'⟩
    · obtain rfl : x = y₀ := Option.some.inj (hx.symm.trans hy₀)
      exact hstore body (hsame.symm.trans hans)
    · exact h.responded j y₀ w' body hy₀ (hsame.symm.trans hans) hw'
  · obtain ⟨y₀, hy₀, _, _, hback⟩ := back j y hy
    obtain ⟨hj, hnone₀⟩ := hback hnone
    exact (Function.update_of_ne hj _ _).trans (h.unsent j y₀ hy₀ hnone₀)
  · have hj : j ≠ i := by
      rintro rfl
      simp [IdempotencyState.finish] at hy
    refine (Function.update_of_ne hj _ _).trans (h.absent j ?_)
    exact (Function.update_of_ne hj _ _).symm.trans hy

theorem Sourced.step (h : Sourced sha256 req s) (hstep : ServerStep sha256 req s s') :
    Sourced sha256 req s' := by
  cases hstep with
  | arrive hnew => exact h.arrive hnew
  | @returns i x value hx hnone hvalue =>
      refine h.setExchange hx rfl id fun returned hreturned => ?_
      obtain rfl := Option.some.inj hreturned
      exact ⟨rfl, hvalue⟩
  | @respond i x w hx hopen hw =>
      refine h.finish hx hopen (fun body hans => ?_) fun hstatus key fp hans => ?_
      · rw [Exchange.written, hans] at hw
        exact (Option.some.inj hw).symm
      · rw [Exchange.written, hans] at hw
        obtain ⟨⟨k, value⟩, hcaptured, rfl⟩ := Option.map_eq_some_iff.mp hw
        obtain rfl : k = i := (h.captured i x _ hx hcaptured).1
        exact ⟨value, hcaptured, hstatus, rfl⟩
  | @fail i x statusCode hx hopen hhandler hstatus =>
      refine h.finish hx hopen (fun body hans => ?_) fun hcreated => ?_
      · rw [Exchange.fromStore, hans] at hhandler
        simp at hhandler
      · rw [hcreated, CREATED] at hstatus
        omega
  | @close i x hx =>
      exact h.setExchange hx rfl (fun _ => rfl) fun returned hreturned =>
        h.captured i x returned hx hreturned
  | advance => exact ⟨h.captured, h.admitted, h.recorded, h.replayed, h.responded, h.unsent,
      h.absent⟩

theorem Sourced.of_run {clock : Instant}
    (hrun : ServerRun sha256 req (Server.init clock) s) : Sourced sha256 req s := by
  induction hrun with
  | refl => exact .init sha256 req clock
  | tail _ hstep ih =>
      obtain ⟨e, hnext⟩ := hstep
      exact ih.step (Server.next_cases hnext)

/-! ## The result -/

/-- What `received` is beside the response `sent` to the original request. -/
structure IsReplayOf (original replay : PostRequest) (sent received : Response) : Prop where
  user : replay.user = original.user
  route : replay.route = original.route
  body : replay.body = original.body
  response : received = { sent with headers := replayHeader :: sent.headers }

@[simp] theorem headers_reply (route : PostRoute) (headers : List Header)
    (value : Option HandlerValue) : (route.reply headers value).headers = headers := by
  cases value with
  | none => rfl
  | some value =>
      rw [PostRoute.reply]
      split
      · rfl
      · rfl

/-- A 201 has the route's own code. -/
theorem httpCode_of_written {route : PostRoute} {value : Option HandlerValue}
    (h : (route.written value).statusCode = CREATED) : route.httpCode = CREATED := by
  cases value with
  | none => exact h
  | some value =>
      rw [PostRoute.written, PostRoute.reply] at h
      split at h
      · exact h
      · simp [CREATED] at h

theorem written_replayed_iff {route route' : PostRoute} {value : Option HandlerValue}
    (hcode : route.httpCode = CREATED) (hreturns : route.returns value = true) :
    (route' = route ∧ route'.replayed value
        = { route.written value with headers := replayHeader :: (route.written value).headers }) ↔
      route = .transactions ∧ route' = .transactions := by
  constructor
  · rintro ⟨rfl, hresponse⟩
    have hheaders := congrArg Response.headers hresponse
    have hnone : handlerHeaders value = [] := by
      simpa [PostRoute.replayed, PostRoute.written] using hheaders
    cases route' with
    | transactions => exact ⟨rfl, rfl⟩
    | accounts =>
        -- Its handler has set the location.
        match value, hreturns with
        | some (.account account), _ => simp [handlerHeaders] at hnone
    | login => simp [PostRoute.httpCode, CREATED] at hcode
    | refresh => simp [PostRoute.httpCode, CREATED] at hcode
    | logout => simp [PostRoute.httpCode, CREATED] at hcode
  · rintro ⟨rfl, rfl⟩
    match value, hreturns with
    | some (.batch transactions), _ =>
        refine ⟨rfl, ?_⟩
        simp only [PostRoute.replayed, PostRoute.written, PostRoute.reply, handlerHeaders]
        split
        · rfl
        · rfl

theorem keyed_inj {r r' : PostRequest} {key : String} (h : r.toIdempotency.key = some key)
    (h' : r'.toIdempotency.key = some key) : r.user = r'.user ∧ r.rawKey = r'.rawKey := by
  obtain ⟨user, rawKey, hkeyed, hkey⟩ := r.toIdempotency.keyed_of_key h
  obtain ⟨user', rawKey', hkeyed', hkey'⟩ := r'.toIdempotency.keyed_of_key h'
  obtain ⟨rfl, rfl⟩ := recordKey_injective (hkey.symm.trans hkey')
  exact ⟨hkeyed.user_eq.trans hkeyed'.user_eq.symm, hkeyed.rawKey_eq.trans hkeyed'.rawKey_eq.symm⟩

/-- In every state of every run: a request answered from the store has the user, the
key and the body of the request whose handler returned the value; and it is answered
as that one was exactly when both went to `POST /transactions`. -/
theorem replay_original_iff {clock : Instant}
    (hsha : ∀ i j, sha256 (req i).body.text = sha256 (req j).body.text →
      (req i).body.text = (req j).body.text)
    (hbody : ∀ i, (req i).body.decimal = true)
    (hrun : ServerRun sha256 req (Server.init clock) s) {j : ι} {y : Exchange (Returned ι)}
    {body : Option (Returned ι)} {received : Response} (hy : s.core.exchange j = some y)
    (hanswer : y.answer = .ok (.replay body)) (hreceived : s.response j = some received) :
    ∃ i value sent, body = some ⟨i, value⟩ ∧ s.response i = some sent ∧
      sent = (req i).route.written value ∧ sent.statusCode = CREATED ∧
      (req j).user = (req i).user ∧ (req j).rawKey = (req i).rawKey ∧
      (req j).body = (req i).body ∧
      (IsReplayOf (req i) (req j) sent received ↔
        (req i).route = .transactions ∧ (req j).route = .transactions) := by
  have hsourced := Sourced.of_run hrun
  obtain ⟨i, value, key, rfl, hkey, hfp, x, hx, hended, hrunning, hkey', hcode, hreturns,
    hsent⟩ := hsourced.replayed j y body hy hanswer
  have hresponse := hsourced.responded j y received _ hy hanswer hreceived
  obtain ⟨huser, hraw⟩ := keyed_inj hkey hkey'
  have hsame : (req j).body = (req i).body :=
    jsonText_injective (hbody j) (hbody i) (hsha j i hfp)
  refine ⟨i, value, _, rfl, hsent, rfl, hcode, huser, hraw, hsame, ?_⟩
  rw [← written_replayed_iff (httpCode_of_written hcode) hreturns]
  constructor
  · intro h
    exact ⟨h.route, hresponse.symm.trans h.response⟩
  · rintro ⟨hroute, heq⟩
    exact ⟨huser, hroute, hsame, hresponse.trans heq⟩

end Server

/-! A batch that is sent twice under one key. -/

def batchRequest : PostRequest where
  route := .transactions
  rawKey := some "order-17"
  user := some 1
  body := .object (named [("entries", .array [.object (named [
    ("account_id", .string (.ofString (Uuid.text 7))), ("type", .string (.ofString "expense")),
    ("amount_cents", .number 100), ("currency", .string (.ofString "UAH")),
    ("booked_at", .string (.ofString "1970-01-01T00:00:00.000Z"))])])])

def bookedExpense : TransactionResponse :=
  ⟨30, Uuid.text 7, .expense, some 100, none, "UAH", toISOString 0, toISOString 0, none, none,
    none⟩

set_option maxRecDepth 4000 in
theorem replay_original_iff_batch :
    ∃ (s : Server (Fin 2)) (sent received : Response),
      ServerRun String.ofList (fun _ => batchRequest) (Server.init 0) s ∧
      s.response 1 = some received ∧ IsReplayOf batchRequest batchRequest sent received := by
  have hrun : ServerRun String.ofList (fun _ => batchRequest)
      (Server.init 0 : Server (Fin 2)) _ :=
    (((((Relation.ReflTransGen.refl
      ).tail ⟨.arrive 0 0, rfl⟩
      ).tail ⟨.returns 0 (some (.batch [bookedExpense])), rfl⟩
      ).tail ⟨.respond 0, rfl⟩
      ).tail ⟨.arrive 1 0, rfl⟩
      ).tail ⟨.respond 1, rfl⟩
  obtain ⟨i, value, sent, _, _, _, _, _, _, _, hiff⟩ :=
    replay_original_iff (fun _ _ _ => rfl) (fun _ => by decide +kernel) hrun (j := 1) rfl rfl rfl
  exact ⟨_, sent, _, hrun, rfl, hiff.mpr ⟨rfl, rfl⟩⟩

/-- An account that is opened, opened again, and a logout, all under one key and with
one body. -/
def accountRequests (j : Fin 3) : PostRequest where
  route := if j = 2 then .logout else .accounts
  rawKey := some "order-17"
  user := some 1
  body := .object (named [("name", .string (.ofString "cash")),
    ("type", .string (.ofString "cash")), ("currency", .string (.ofString "UAH")),
    ("opening_balance_cents", .number 300)])

def openedAccount : Account := ⟨31, .ofString "cash", .cash, "UAH", 300, toISOString 0⟩

/-- The second opening has lost the location of the first, and the logout is answered
from the store, its handler never called, with a body that a 204 has not. -/
theorem account_replay_loses_location :
    ∃ (s : Server (Fin 3)) (x : Exchange (Returned (Fin 3))) (body : Option (Returned (Fin 3))),
      ServerRun String.ofList accountRequests (Server.init 0) s ∧
      s.response 0 = some ⟨201, [⟨"Location", "/accounts/" ++ Uuid.text 31⟩],
        .value (.account openedAccount)⟩ ∧
      s.response 1 = some ⟨201, [replayHeader], .value (.account openedAccount)⟩ ∧
      s.response 2 = some ⟨500, [replayHeader], .problem⟩ ∧
      body = some ⟨0, some (.account openedAccount)⟩ ∧
      s.core.exchange 2 = some x ∧ x.answer = .ok (.replay body) ∧ x.handled = false ∧
      ∀ j : Fin 3, j ≠ 0 → ∀ sent received, s.response 0 = some sent →
        s.response j = some received →
        ¬IsReplayOf (accountRequests 0) (accountRequests j) sent received := by
  have hrun : ServerRun String.ofList accountRequests (Server.init 0 : Server (Fin 3)) _ :=
    (((((((Relation.ReflTransGen.refl
      ).tail ⟨.arrive 0 0, rfl⟩
      ).tail ⟨.returns 0 (some (.account openedAccount)), rfl⟩
      ).tail ⟨.respond 0, rfl⟩
      ).tail ⟨.arrive 1 0, rfl⟩
      ).tail ⟨.respond 1, rfl⟩
      ).tail ⟨.arrive 2 0, rfl⟩
      ).tail ⟨.respond 2, rfl⟩
  refine ⟨_, _, _, hrun, rfl, rfl, rfl, rfl, rfl, rfl, rfl, ?_⟩
  intro j hj sent received hsent hreceived h
  obtain rfl := Option.some.inj hsent
  have hresponse := h.response
  match j with
  | 0 => exact hj rfl
  | 1 =>
      obtain rfl := Option.some.inj hreceived
      have hheaders := congrArg (fun r => r.headers.length) hresponse
      exact absurd hheaders (by decide)
  | 2 => exact absurd h.route (by decide)

end InvestApi.Ref
