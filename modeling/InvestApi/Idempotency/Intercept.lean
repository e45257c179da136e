import Mathlib.Tactic.Linarith
import InvestApi.Ref.Idempotency

/-!
# What one request can do to the store

`intercept` in cases, and the keys it can reach: the store's key of a request
names its user before the first colon, so no request reads or writes a record
of another user.
-/

namespace InvestApi.Ref

variable {ι B R : Type}

theorem update_some_cases {α β : Type} [DecidableEq α] {f : α → Option β} {i j : α}
    {x y : β} (h : Function.update f i (some x) j = some y) :
    (j = i ∧ y = x) ∨ (j ≠ i ∧ f j = some y) := by
  by_cases hj : j = i
  · subst hj
    rw [Function.update_self] at h
    exact Or.inl ⟨rfl, (Option.some.inj h).symm⟩
  · rw [Function.update_of_ne hj] at h
    exact Or.inr ⟨hj, h⟩

/-! ## `intercept`, in cases -/

section Intercept

variable {fingerprint : B → String} {store : IdempotencyStore R}
  {req : IdempotencyRequest B} {now now' : Instant}

/-- The three things that can become of an arriving request. -/
inductive Intercepted (fingerprint : B → String) (store : IdempotencyStore R)
    (req : IdempotencyRequest B) (now now' : Instant) :
    IdempotencyStore R × Except ApiError (Admission R) → Prop
  | bypassed (hkey : req.key = none) :
      Intercepted fingerprint store req now now' (store, .ok .bypass)
  | taken {key} (hkey : req.key = some key)
      (hfree : ∀ rec, store key = some rec → rec.expiresAt ≤ now) :
      Intercepted fingerprint store req now now'
        (Function.update store key
          (some (.inFlight (fingerprint req.body) (now' + TTL_MS))),
          .ok (.run key (fingerprint req.body)))
  | answered {key rec answer} (hkey : req.key = some key)
      (hrec : store key = some rec) (hlive : now < rec.expiresAt)
      (hanswer : ∀ a, answer = .ok a → ∃ body, a = .replay body) :
      Intercepted fingerprint store req now now' (store, answer)

theorem intercept_cases :
    Intercepted fingerprint store req now now'
      (intercept fingerprint store req now now') := by
  unfold intercept
  split
  · next hkey => exact .bypassed hkey
  next key hkey =>
  unfold getRecord
  cases hrec : store key with
  | none =>
      refine .taken hkey fun rec h => ?_
      rw [hrec] at h
      simp at h
  | some rec =>
      by_cases hexp : rec.expiresAt ≤ now
      · simp only [hexp, if_true, Function.update_idem]
        refine .taken hkey fun rec' h => ?_
        rw [hrec] at h
        rw [← Option.some.inj h]
        exact hexp
      · simp only [hexp, if_false]
        have hlive : now < rec.expiresAt := lt_of_not_ge hexp
        split
        · exact .answered hkey hrec hlive (by simp)
        · split
          · exact .answered hkey hrec hlive (by simp)
          · refine .answered hkey hrec hlive fun a ha => ?_
            injection ha with ha
            exact ⟨_, ha.symm⟩

end Intercept

/-- Let through to its handler, with a callback for `key`. -/
def Exchange.Runs (x : Exchange R) (key : String) : Prop :=
  ∃ fp, x.answer = .ok (.run key fp)

/-! ## One user's keys are not another's -/

/-- The user is what stands before the first colon. -/
theorem recordKey_injective {u u' : Uuid} {k k' : String}
    (h : recordKey u k = recordKey u' k') : u = u' ∧ k = k' := by
  have before : ∀ (v : Uuid) (r : List Char),
      (v.chars ++ (':' :: r)).takeWhile (· ≠ ':') = v.chars := by
    intro v r
    rw [List.takeWhile_append_of_pos, List.takeWhile_cons_of_neg (by simp),
      List.append_nil]
    intro c hc
    have hne : c ≠ ':' := fun he => v.colon_notMem_chars (he ▸ hc)
    simpa using hne
  have hlist := congrArg String.toList h
  have hcolon : (":" : String).toList = [':'] := by decide
  simp only [recordKey, String.toList_append, Uuid.text, String.toList_ofList, hcolon,
    List.append_assoc, List.singleton_append] at hlist
  have hchars : u.chars = u'.chars := by
    rw [← before u k.toList, hlist, before]
  rw [hchars] at hlist
  have htail := List.append_cancel_left hlist
  injection htail with _ hkeys
  refine ⟨Uuid.text_injective ?_, String.toList_injective hkeys⟩
  rw [Uuid.text, Uuid.text, hchars]

/-- A request the interceptor acts on: its user and its key. -/
structure IdempotencyRequest.Keyed (req : IdempotencyRequest B) (user : Uuid)
    (rawKey : String) : Prop where
  method_eq : req.method = "POST"
  rawKey_eq : req.rawKey = some rawKey
  rawKey_ne : rawKey.length ≠ 0
  user_eq : req.user = some user

theorem IdempotencyRequest.Keyed.key {r : IdempotencyRequest B} {user : Uuid}
    {rawKey : String} (h : r.Keyed user rawKey) : r.key = some (recordKey user rawKey) := by
  simp only [IdempotencyRequest.key, h.rawKey_eq, h.user_eq, h.method_eq, ne_eq,
    not_true_eq_false, false_or, if_neg h.rawKey_ne]

theorem IdempotencyRequest.keyed_of_key {r : IdempotencyRequest B} {key : String}
    (h : r.key = some key) :
    ∃ user rawKey, r.Keyed user rawKey ∧ key = recordKey user rawKey := by
  unfold IdempotencyRequest.key at h
  split at h
  · next rawKey user hraw huser =>
      split at h
      · simp at h
      · next hgate =>
          rw [not_or, not_not] at hgate
          exact ⟨user, rawKey, ⟨hgate.1, hraw, hgate.2, huser⟩, (Option.some.inj h).symm⟩
  · simp at h

section Reach

variable {fingerprint : B → String}

/-- What an arriving request is answered depends on its own user's records. -/
theorem intercept_reads {store store' : IdempotencyStore R} {r : IdempotencyRequest B}
    {user : Uuid} (huser : r.user = some user)
    (h : ∀ rawKey, store (recordKey user rawKey) = store' (recordKey user rawKey))
    (now now' : Instant) :
    (intercept fingerprint store r now now').2
      = (intercept fingerprint store' r now now').2 := by
  unfold intercept
  split
  · rfl
  next key hkey =>
  obtain ⟨owner, rawKey, howner, rfl⟩ := r.keyed_of_key hkey
  obtain rfl : user = owner := Option.some.inj (huser.symm.trans howner.user_eq)
  simp only [getRecord, h rawKey]
  cases store' (recordKey user rawKey) with
  | none => rfl
  | some rec =>
      by_cases hexp : rec.expiresAt ≤ now
      · simp only [hexp, if_true]
      · simp only [hexp, if_false]
        split
        · rfl
        · split <;> rfl

/-- It writes no other record. -/
theorem intercept_writes {store : IdempotencyStore R} {r : IdempotencyRequest B}
    {now now' : Instant} {key : String} (hkey : r.key ≠ some key) :
    (intercept fingerprint store r now now').1 key = store key := by
  have hcases : Intercepted fingerprint store r now now' _ := intercept_cases
  generalize intercept fingerprint store r now now' = p at hcases ⊢
  cases hcases with
  | bypassed _ => rfl
  | taken hkey' _ =>
      refine Function.update_of_ne ?_ _ _
      rintro rfl
      exact hkey hkey'
  | answered _ _ _ _ => rfl

theorem onFinish_writes {store : IdempotencyStore R} {key key' fp : String}
    {captured : Option R} {statusCode : Nat} {now : Instant} (hne : key' ≠ key) :
    onFinish store key fp captured statusCode now key' = store key' := by
  unfold onFinish
  split
  · exact Function.update_of_ne hne _ _
  · exact Function.update_of_ne hne _ _

end Reach

end InvestApi.Ref
