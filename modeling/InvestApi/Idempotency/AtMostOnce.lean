import InvestApi.Idempotency.Intercept

/-!
# At most once in 24 hours

Two requests with one user and one key whose handlers both commit arrived at
least 24 hours apart. The invariant ties every request that was let through to
its handler to the record of its key: until 24 hours after its arrival, and
unless its response has been sent with an error, the key has a record that does
not expire before that. A second request finds that record and is refused or
answered from it.

A 'finish' callback writes the store without looking. It can only do harm by
deleting a record that a later request put there, and then the two would both be
within 24 hours of their arrival, which the invariant excludes.
-/

namespace InvestApi.Ref

variable {ι B R : Type}

/-! ## The invariant -/

/-- Not answered with an error. -/
def Exchange.Kept (x : Exchange R) : Prop :=
  ∀ statusCode, x.ended = some (.finish statusCode) → statusCode = CREATED

instance (x : Exchange R) : Decidable x.Kept :=
  decidable_of_iff (∀ e ∈ x.ended, e = .close ∨ e = .finish CREATED) (by
    cases hx : x.ended with
    | none => simp [Exchange.Kept, hx]
    | some e => cases e <;> simp [Exchange.Kept, hx])

def DayApart (x y : Exchange R) : Prop :=
  x.arrivedAt + TTL_MS ≤ y.arrivedAt ∨ y.arrivedAt + TTL_MS ≤ x.arrivedAt

/-- The key has a record that lasts until `t`. -/
def GuardedUntil (store : IdempotencyStore R) (key : String) (t : Instant) : Prop :=
  ∃ rec, store key = some rec ∧ t ≤ rec.expiresAt

structure Spaced (req : ι → IdempotencyRequest B) (s : IdempotencyState ι R) :
    Prop where
  past : ∀ i x, s.exchange i = some x → x.arrivedAt ≤ s.clock
  runs : ∀ i x key, s.exchange i = some x → x.handled = true →
    (req i).key = some key → x.Runs key
  admitted : ∀ i x key, s.exchange i = some x → x.Runs key → (req i).key = some key
  committed : ∀ i x, s.exchange i = some x → x.committed = true →
    x.handled = true ∧ x.Kept
  guarded : ∀ i x key, s.exchange i = some x → x.Runs key → x.Kept →
    s.clock < x.arrivedAt + TTL_MS → GuardedUntil s.store key (x.arrivedAt + TTL_MS)
  apart : ∀ i j x y key, i ≠ j → s.exchange i = some x → s.exchange j = some y →
    x.Runs key → y.Runs key → x.Kept → y.Kept → DayApart x y

/-- What the runs are assumed to do: a response that is sent in full is sent
within 24 hours of the request's arrival, and a handler that commits is answered,
if at all, with 201. -/
def Assumed (s : IdempotencyState ι R) : IdempotencyEvent ι R → Prop
  | .finish i statusCode => ∀ x ∈ s.exchange i,
      s.clock < x.arrivedAt + TTL_MS ∧ (x.committed = true → statusCode = CREATED)
  | .commit i => ∀ x ∈ s.exchange i, x.Kept
  | _ => True

instance (s : IdempotencyState ι R) (e : IdempotencyEvent ι R) : Decidable (Assumed s e) :=
  match e with
  | .finish i statusCode => inferInstanceAs (Decidable (∀ x ∈ s.exchange i,
      s.clock < x.arrivedAt + TTL_MS ∧ (x.committed = true → statusCode = CREATED)))
  | .commit i => inferInstanceAs (Decidable (∀ x ∈ s.exchange i, x.Kept))
  | .arrive _ _ => inferInstanceAs (Decidable True)
  | .emit _ _ => inferInstanceAs (Decidable True)
  | .close _ => inferInstanceAs (Decidable True)
  | .advance _ => inferInstanceAs (Decidable True)

theorem Spaced.init (req : ι → IdempotencyRequest B) (clock : Instant) :
    Spaced req (IdempotencyState.init clock : IdempotencyState ι R) where
  past i x hx := by simp [IdempotencyState.init] at hx
  runs i x key hx := by simp [IdempotencyState.init] at hx
  admitted i x key hx := by simp [IdempotencyState.init] at hx
  committed i x hx := by simp [IdempotencyState.init] at hx
  guarded i x key hx := by simp [IdempotencyState.init] at hx
  apart i j x y key _ hx := by simp [IdempotencyState.init] at hx

variable {fingerprint : B → String} {req : ι → IdempotencyRequest B}
  {s s' : IdempotencyState ι R}

/-- The clock only makes less be asked. -/
theorem Spaced.advance (h : Spaced req s) {now : Instant} (ht : s.clock ≤ now) :
    Spaced req { s with clock := now } where
  past i x hx := le_trans (h.past i x hx) ht
  runs := h.runs
  admitted := h.admitted
  committed := h.committed
  guarded i x key hx hr hk hclock := h.guarded i x key hx hr hk (lt_of_le_of_lt ht hclock)
  apart := h.apart

variable [DecidableEq ι]

/-- An event of a request that has arrived: `x` becomes `x'`, and the store is
whatever still guards the keys. -/
theorem Spaced.setExchange (h : Spaced req s) {i : ι} {x : Exchange R} (x' : Exchange R)
    (hx : s.exchange i = some x) (harrived : x'.arrivedAt = x.arrivedAt)
    (hanswer : x'.answer = x.answer) (hkept : x'.Kept → x.Kept)
    (hcommitted : x'.committed = true → x'.handled = true ∧ x'.Kept)
    {store : IdempotencyStore R}
    (hguard : ∀ j y key, Function.update s.exchange i (some x') j = some y →
      y.Runs key → y.Kept → s.clock < y.arrivedAt + TTL_MS →
      GuardedUntil store key (y.arrivedAt + TTL_MS)) :
    Spaced req ⟨store, s.clock, Function.update s.exchange i (some x')⟩ := by
  -- Seen from the invariant, the new exchange is the old one.
  have back : ∀ j y, Function.update s.exchange i (some x') j = some y →
      ∃ y₀, s.exchange j = some y₀ ∧ y.arrivedAt = y₀.arrivedAt ∧
        y.answer = y₀.answer ∧ (y.Kept → y₀.Kept) := by
    intro j y hy
    rcases update_some_cases hy with ⟨rfl, rfl⟩ | ⟨hj, hy⟩
    · exact ⟨x, hx, harrived, hanswer, hkept⟩
    · exact ⟨y, hy, rfl, rfl, fun hk => hk⟩
  refine ⟨fun j y hy => ?_, fun j y key hy hh hkey => ?_, fun j y key hy hr => ?_,
    fun j y hy hc => ?_, hguard, fun j j' y y' key hne hy hy' hr hr' hk hk' => ?_⟩
  · obtain ⟨y₀, hy₀, hat, _, _⟩ := back j y hy
    rw [hat]
    exact h.past j y₀ hy₀
  · obtain ⟨y₀, hy₀, _, hans, _⟩ := back j y hy
    have hh₀ : y₀.handled = true := by
      rw [Exchange.handled, ← hans]
      exact hh
    obtain ⟨fp, hrun⟩ := h.runs j y₀ key hy₀ hh₀ hkey
    exact ⟨fp, hans.trans hrun⟩
  · obtain ⟨y₀, hy₀, _, hans, _⟩ := back j y hy
    rw [Exchange.Runs, hans] at hr
    exact h.admitted j y₀ key hy₀ hr
  · dsimp only at hy
    rcases update_some_cases hy with ⟨rfl, rfl⟩ | ⟨hj, hy⟩
    · exact hcommitted hc
    · exact h.committed j y hy hc
  · obtain ⟨y₀, hy₀, hat, hans, hk₀⟩ := back j y hy
    obtain ⟨y₀', hy₀', hat', hans', hk₀'⟩ := back j' y' hy'
    rw [Exchange.Runs, hans] at hr
    rw [Exchange.Runs, hans'] at hr'
    have hday := h.apart j j' y₀ y₀' key hne hy₀ hy₀' hr hr' (hk₀ hk) (hk₀' hk')
    rw [DayApart, hat, hat']
    exact hday

/-- The same with the store as it was. -/
theorem Spaced.setExchange_store (h : Spaced req s) {i : ι} {x : Exchange R}
    (x' : Exchange R)
    (hx : s.exchange i = some x) (harrived : x'.arrivedAt = x.arrivedAt)
    (hanswer : x'.answer = x.answer) (hkept : x'.Kept → x.Kept)
    (hcommitted : x'.committed = true → x'.handled = true ∧ x'.Kept) :
    Spaced req (s.setExchange i x') := by
  refine h.setExchange x' hx harrived hanswer hkept hcommitted
    fun j y key hy hr hk hclock => ?_
  rcases update_some_cases hy with ⟨rfl, rfl⟩ | ⟨hj, hy⟩
  · rw [Exchange.Runs, hanswer] at hr
    rw [harrived] at hclock ⊢
    exact h.guarded j x key hx hr (hkept hk) hclock
  · exact h.guarded j y key hy hr hk hclock

omit [DecidableEq ι] in
/-- Two kept requests for one key cannot both be within their 24 hours. -/
theorem Spaced.not_both (h : Spaced req s) {i j : ι} {x y : Exchange R} {key : String}
    (hne : i ≠ j) (hx : s.exchange i = some x) (hy : s.exchange j = some y)
    (hrx : x.Runs key) (hry : y.Runs key) (hkx : x.Kept) (hky : y.Kept)
    (hcx : s.clock < x.arrivedAt + TTL_MS) (hcy : s.clock < y.arrivedAt + TTL_MS) :
    False := by
  have hpx := h.past i x hx
  have hpy := h.past j y hy
  rcases h.apart i j x y key hne hx hy hrx hry hkx hky with hday | hday
  · linarith
  · linarith

theorem Spaced.finish (h : Spaced req s) {i : ι} {x : Exchange R} {statusCode : Nat}
    (hx : s.exchange i = some x) (hopen : x.ended = none)
    (hc : Assumed s (.finish i statusCode)) : Spaced req (s.finish i x statusCode) := by
  obtain ⟨htime, hstatus⟩ := hc x hx
  have hkept : x.Kept := by
    intro statusCode' hended
    rw [hopen] at hended
    simp at hended
  refine h.setExchange { x with ended := some (.finish statusCode) } hx rfl rfl
    (fun _ => hkept) ?_ ?_
  · intro hcom
    refine ⟨(h.committed i x hx hcom).1, fun statusCode' hended => ?_⟩
    simp only [Option.some.injEq, Ending.finish.injEq] at hended
    rw [← hended]
    exact hstatus hcom
  intro j y key hy hr hk hclock
  -- What guarded the key before.
  have hold : ∀ y₀, s.exchange j = some y₀ → y.arrivedAt = y₀.arrivedAt →
      y.answer = y₀.answer → y₀.Kept → GuardedUntil s.store key (y.arrivedAt + TTL_MS) := by
    intro y₀ hy₀ hat hans hk₀
    rw [Exchange.Runs, hans] at hr
    rw [hat] at hclock ⊢
    exact h.guarded j y₀ key hy₀ hr hk₀ hclock
  have hguard : GuardedUntil s.store key (y.arrivedAt + TTL_MS) := by
    rcases update_some_cases hy with ⟨rfl, rfl⟩ | ⟨hj, hy⟩
    · exact hold x hx rfl rfl hkept
    · exact hold y hy rfl rfl hk
  split
  swap
  · exact hguard
  next key₀ fp hans =>
  unfold onFinish
  by_cases hkey : key = key₀
  swap
  · obtain ⟨rec, hrec, hexp⟩ := hguard
    split
    · exact ⟨rec, (Function.update_of_ne hkey _ _).trans hrec, hexp⟩
    · exact ⟨rec, (Function.update_of_ne hkey _ _).trans hrec, hexp⟩
  subst hkey
  split
  · refine ⟨_, Function.update_self _ _ _, ?_⟩
    have hpast : y.arrivedAt ≤ s.clock := by
      rcases update_some_cases hy with ⟨rfl, rfl⟩ | ⟨hj, hy⟩
      · exact h.past j x hx
      · exact h.past j y hy
    simp only [IdempotencyRecord.expiresAt]
    linarith
  · -- An error is sent: the record goes, and it was nobody else's.
    next hne =>
    exfalso
    rcases update_some_cases hy with ⟨rfl, rfl⟩ | ⟨hj, hy⟩
    · exact hne (hk statusCode rfl)
    · exact h.not_both (Ne.symm hj) hx hy ⟨fp, hans⟩ hr hkept hk htime hclock

/-- A request that arrives, with what it needs of the store it leaves. -/
theorem Spaced.add (h : Spaced req s) {i : ι} {now' : Instant}
    (ht : s.clock ≤ now') {store : IdempotencyStore R}
    {answer : Except ApiError (Admission R)}
    (hrun : ∀ key, (req i).key = some key →
      (⟨s.clock, now', answer, none, false, none⟩ : Exchange R).handled = true →
        ∃ fp, answer = .ok (.run key fp))
    (hguard : ∀ j y key, s.exchange j = some y → y.Runs key → y.Kept →
      s.clock < y.arrivedAt + TTL_MS → GuardedUntil store key (y.arrivedAt + TTL_MS))
    (hmine : ∀ key fp, answer = .ok (.run key fp) →
      (req i).key = some key ∧ GuardedUntil store key (s.clock + TTL_MS) ∧
        ∀ j y, s.exchange j = some y → y.Runs key → y.Kept →
          y.arrivedAt + TTL_MS ≤ s.clock) :
    Spaced req ⟨store, now', Function.update s.exchange i
      (some ⟨s.clock, now', answer, none, false, none⟩)⟩ := by
  refine ⟨fun j y hy => ?_, fun j y key hy hh hkey => ?_, fun j y key hy hr => ?_,
    fun j y hy hc => ?_, fun j y key hy hr hk hclock => ?_,
    fun j j' y y' key hne hy hy' hr hr' hk hk' => ?_⟩
  · rcases update_some_cases hy with ⟨rfl, rfl⟩ | ⟨hj, hy⟩
    · exact ht
    · exact le_trans (h.past j y hy) ht
  · rcases update_some_cases hy with ⟨rfl, rfl⟩ | ⟨hj, hy⟩
    · exact hrun key hkey hh
    · exact h.runs j y key hy hh hkey
  · rcases update_some_cases hy with ⟨rfl, rfl⟩ | ⟨hj, hy⟩
    · obtain ⟨fp, hans⟩ := hr
      exact (hmine key fp hans).1
    · exact h.admitted j y key hy hr
  · rcases update_some_cases hy with ⟨rfl, rfl⟩ | ⟨hj, hy⟩
    · simp at hc
    · exact h.committed j y hy hc
  · rcases update_some_cases hy with ⟨rfl, rfl⟩ | ⟨hj, hy⟩
    · obtain ⟨fp, hans⟩ := hr
      exact (hmine key fp hans).2.1
    · exact hguard j y key hy hr hk (lt_of_le_of_lt ht hclock)
  · dsimp only at hy hy'
    rcases update_some_cases hy with ⟨rfl, rfl⟩ | ⟨hj, hold⟩
    · rw [Function.update_of_ne (Ne.symm hne)] at hy'
      obtain ⟨fp, hans⟩ := hr
      exact Or.inr ((hmine key fp hans).2.2 j' y' hy' hr' hk')
    · rcases update_some_cases hy' with ⟨rfl, rfl⟩ | ⟨hj', hold'⟩
      · obtain ⟨fp, hans⟩ := hr'
        exact Or.inl ((hmine key fp hans).2.2 j y hold hr hk)
      · exact h.apart j j' y y' key hne hold hold' hr hr' hk hk'

theorem Spaced.arrive (h : Spaced req s) {i : ι} {now' : Instant}
    (ht : s.clock ≤ now') : Spaced req (s.arrive fingerprint (req i) i now') := by
  have hcases : Intercepted fingerprint s.store (req i) s.clock now' _ := intercept_cases
  unfold IdempotencyState.arrive
  generalize intercept fingerprint s.store (req i) s.clock now' = p at hcases ⊢
  cases hcases with
  | bypassed hkey =>
      refine h.add ht (fun key hkey' => ?_) h.guarded (by simp)
      rw [hkey] at hkey'
      simp at hkey'
  | @taken key hkey hfree =>
      -- A record that still guards the key would have stopped the request.
      have hpassed : ∀ j y, s.exchange j = some y → y.Runs key → y.Kept →
          y.arrivedAt + TTL_MS ≤ s.clock := by
        intro j y hy hr hk
        by_contra hlt
        obtain ⟨rec, hrec, hexp⟩ := h.guarded j y key hy hr hk (lt_of_not_ge hlt)
        exact hlt (le_trans hexp (hfree rec hrec))
      refine h.add ht (fun key' hkey' _ => ?_) (fun j y key' hy hr hk hclock => ?_)
        fun key' fp hans => ?_
      · rw [hkey] at hkey'
        obtain rfl := Option.some.inj hkey'
        exact ⟨_, rfl⟩
      · by_cases hk' : key' = key
        · subst hk'
          exact absurd (hpassed j y hy hr hk) (not_le_of_gt hclock)
        · obtain ⟨rec, hrec, hexp⟩ := h.guarded j y key' hy hr hk hclock
          exact ⟨rec, (Function.update_of_ne hk' _ _).trans hrec, hexp⟩
      · simp only [Except.ok.injEq, Admission.run.injEq] at hans
        obtain ⟨rfl, _⟩ := hans
        refine ⟨hkey, ⟨_, Function.update_self _ _ _, ?_⟩, hpassed⟩
        simp only [IdempotencyRecord.expiresAt]
        linarith
  | @answered key rec answer hkey hrec hlive hanswer =>
      refine h.add ht (fun key' _ hh => ?_) h.guarded fun key' fp hans => ?_
      · simp only [Exchange.handled] at hh
        split at hh
        · obtain ⟨body, hb⟩ := hanswer _ rfl
          simp at hb
        · obtain ⟨body, hb⟩ := hanswer _ rfl
          simp at hb
        · simp at hh
      · obtain ⟨body, hb⟩ := hanswer _ hans
        simp at hb

/-- One event of a run. -/
theorem Spaced.step (h : Spaced req s) {e : IdempotencyEvent ι R} (hc : Assumed s e)
    (hstep : IdempotencyStep fingerprint req s e s') : Spaced req s' := by
  cases hstep with
  | arrive hnew ht => exact h.arrive ht
  | @commit i x hx hh =>
      exact h.setExchange_store _ hx rfl rfl (fun hk => hk) fun _ => ⟨hh, hc x hx⟩
  | @emit i x body hx hh =>
      exact h.setExchange_store _ hx rfl rfl (fun hk => hk) (h.committed i x hx)
  | finish hx hopen => exact h.finish hx hopen hc
  | @close i x hx hopen =>
      refine h.setExchange_store _ hx rfl rfl (fun _ statusCode hended => ?_) fun hcom =>
        ⟨(h.committed i x hx hcom).1, fun statusCode hended => ?_⟩
      · rw [hopen] at hended
        simp at hended
      · simp at hended
  | advance ht => exact h.advance ht

theorem Spaced.of_run {clock : Instant}
    (hrun : IdempotencyRun fingerprint req Assumed (IdempotencyState.init clock) s) :
    Spaced req s := by
  induction hrun with
  | refl => exact .init req clock
  | tail _ hstep ih =>
      obtain ⟨e, hc, hnext⟩ := hstep
      exact ih.step hc (IdempotencyState.next_cases hnext)

/-! ## One user's records are not another's -/

/-- The request an event belongs to. -/
def IdempotencyEvent.request : IdempotencyEvent ι R → Option ι
  | .arrive i _ => some i
  | .commit i => some i
  | .emit i _ => some i
  | .finish i _ => some i
  | .close i => some i
  | .advance _ => none

/-- No event of a request touches a record of another user. -/
theorem Spaced.isolated (h : Spaced req s) {e : IdempotencyEvent ι R} {i : ι}
    (hstep : IdempotencyStep fingerprint req s e s') (he : e.request = some i)
    {user other : Uuid} (huser : (req i).user = some user) (hne : other ≠ user)
    (rawKey : String) :
    s'.store (recordKey other rawKey) = s.store (recordKey other rawKey) := by
  have hmine : ∀ key, (req i).key = some key → recordKey other rawKey ≠ key := by
    intro key hkey heq
    obtain ⟨owner, rawKey', howner, rfl⟩ := (req i).keyed_of_key hkey
    obtain rfl : user = owner := Option.some.inj (huser.symm.trans howner.user_eq)
    exact hne (recordKey_injective heq).1
  cases hstep with
  | @arrive j now' hnew ht =>
      obtain rfl : j = i := Option.some.inj he
      exact intercept_writes fun hkey => hmine _ hkey rfl
  | commit hx hh => rfl
  | emit hx hh => rfl
  | @finish j x statusCode hx hopen =>
      obtain rfl : j = i := Option.some.inj he
      cases hans : x.answer with
      | error error => simp only [IdempotencyState.finish, hans]
      | ok a =>
          cases a with
          | bypass => simp only [IdempotencyState.finish, hans]
          | replay body => simp only [IdempotencyState.finish, hans]
          | run key fp =>
              simp only [IdempotencyState.finish, hans]
              exact onFinish_writes (hmine key (h.admitted j x key hx ⟨fp, hans⟩))
  | close hx hopen => rfl
  | advance ht => simp [IdempotencyEvent.request] at he

/-! ## The result -/

omit [DecidableEq ι] in
theorem Spaced.dayApart (h : Spaced req s) {i j : ι} {x y : Exchange R} {user : Uuid}
    {rawKey : String} (hne : i ≠ j) (hi : (req i).Keyed user rawKey)
    (hj : (req j).Keyed user rawKey) (hx : s.exchange i = some x)
    (hy : s.exchange j = some y) (hcx : x.committed = true) (hcy : y.committed = true) :
    DayApart x y := by
  obtain ⟨hhx, hkx⟩ := h.committed i x hx hcx
  obtain ⟨hhy, hky⟩ := h.committed j y hy hcy
  exact h.apart i j x y _ hne hx hy (h.runs i x _ hx hhx hi.key)
    (h.runs j y _ hy hhy hj.key) hkx hky

/-- In every state of every run: two requests with one user and one key whose
handlers have both committed arrived at least 24 hours apart. Nothing a request
does writes a record of another user, and no such record decides its answer. -/
theorem idempotencyKey_atMostOnce {clock : Instant}
    (hrun : IdempotencyRun fingerprint req Assumed (IdempotencyState.init clock) s) :
    (∀ i j x y user rawKey, i ≠ j → (req i).Keyed user rawKey →
      (req j).Keyed user rawKey → s.exchange i = some x → s.exchange j = some y →
      x.committed = true → y.committed = true → DayApart x y) ∧
    (∀ e s' i user other rawKey, s.next fingerprint req e = some s' →
      e.request = some i → (req i).user = some user → other ≠ user →
      s'.store (recordKey other rawKey) = s.store (recordKey other rawKey)) ∧
    ∀ i user store', (req i).user = some user →
      (∀ rawKey, s.store (recordKey user rawKey) = store' (recordKey user rawKey)) →
      ∀ now now', (intercept fingerprint s.store (req i) now now').2
        = (intercept fingerprint store' (req i) now now').2 := by
  have h := Spaced.of_run hrun
  refine ⟨?_, ?_, ?_⟩
  · intro i j x y user rawKey hne hi hj hx hy hcx hcy
    exact h.dayApart hne hi hj hx hy hcx hcy
  · intro e s' i user other rawKey hnext he huser hne
    exact h.isolated (IdempotencyState.next_cases hnext) he huser hne rawKey
  · intro i user store' huser hsame now now'
    exact intercept_reads huser hsame now now'

/-! A run of it: the key is used again as soon as its record has expired. -/

def retryRequests : Fin 2 → IdempotencyRequest String :=
  fun _ => ⟨"POST", some "order-17", some 1, "body"⟩

theorem idempotencyKey_atMostOnce_nextDay :
    ∃ s : IdempotencyState (Fin 2) Unit,
      IdempotencyRun id retryRequests Assumed (IdempotencyState.init 0) s ∧
      (∀ i j x y user rawKey, i ≠ j → (retryRequests i).Keyed user rawKey →
        (retryRequests j).Keyed user rawKey → s.exchange i = some x →
        s.exchange j = some y → x.committed = true → y.committed = true →
        DayApart x y) ∧
      (s.exchange 0).any (·.committed) = true ∧ (s.exchange 1).any (·.committed) = true := by
  have hrun : IdempotencyRun id retryRequests Assumed
      (IdempotencyState.init 0 : IdempotencyState (Fin 2) Unit) _ :=
    (((((((Relation.ReflTransGen.refl
      ).tail ⟨.arrive 0 0, trivial, rfl⟩
      ).tail ⟨.commit 0, by decide, rfl⟩
      ).tail ⟨.emit 0 (), trivial, rfl⟩
      ).tail ⟨.finish 0 201, by decide, rfl⟩
      ).tail ⟨.advance TTL_MS, trivial, rfl⟩
      ).tail ⟨.arrive 1 TTL_MS, trivial, rfl⟩
      ).tail ⟨.commit 1, by decide, rfl⟩
  exact ⟨_, hrun, (idempotencyKey_atMostOnce hrun).1, by decide, by decide⟩

end InvestApi.Ref
