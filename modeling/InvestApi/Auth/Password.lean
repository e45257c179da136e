import InvestApi.Ref.Password

/-!
# What a stored password accepts

`verifyPassword` asks scrypt for as many bytes as it has read from the stored value,
and compares. So it accepts exactly the passwords whose key of that length is what
was read; of a value `hashPassword` wrote that is the password's own hash, and of
one whose third part says no bytes it is every password.
-/

namespace InvestApi.Ref

open InvestApi.Codec

/-- What `hashPassword` writes for some password. -/
structure Written (stored : String) (salt hash : List Nat) : Prop where
  text : stored = record salt hash
  salt_length : salt.length = SALT_LENGTH
  salt_lt : ∀ b ∈ salt, b < 256
  hash_length : hash.length = KEY_LENGTH
  hash_lt : ∀ b ∈ hash, b < 256

/-- The stored value is a hash of the password. -/
def Genuine (scrypt : Scrypt) (password : String) (stored : Option String) : Prop :=
  ∃ s salt hash, stored = some s ∧ Written s salt hash ∧
    scrypt.key password salt KEY_LENGTH = hash

/-! ## Reading what was written -/

theorem sextetChar_ne_dollar {n : Nat} (h : n < 64) : sextetChar n ≠ '$' := by
  interval_cases n <;> decide

theorem dollar_notMem_encode {bytes : List Nat} (h : ∀ b ∈ bytes, b < 256) :
    '$' ∉ encode bytes := by
  intro hmem
  obtain ⟨n, hn, heq⟩ := List.mem_map.mp hmem
  exact sextetChar_ne_dollar (toSextets_lt h n hn) heq

theorem encode_ne_nil {bytes : List Nat} (h : bytes ≠ []) : encode bytes ≠ [] := by
  intro hnil
  match bytes with
  | [] => exact h rfl
  | [x] => simp [encode, toSextets] at hnil
  | [x, y] => simp [encode, toSextets] at hnil
  | x :: y :: z :: rest => simp [encode, toSextets] at hnil

theorem toList_record (salt hash : List Nat) : (record salt hash).toList
    = ['$'].intercalate ["scrypt".toList, encode salt, encode hash] := by
  simp [record, List.intercalate, String.toList_append]

theorem split_record {salt hash : List Nat} (hsalt : ∀ b ∈ salt, b < 256)
    (hhash : ∀ b ∈ hash, b < 256) : (record salt hash).toList.splitOn '$'
      = ["scrypt".toList, encode salt, encode hash] := by
  rw [toList_record]
  refine List.splitOn_intercalate _ ?_ (by simp)
  intro part hpart
  simp only [List.mem_cons, List.not_mem_nil, or_false] at hpart
  rcases hpart with rfl | rfl | rfl
  · decide
  · exact dollar_notMem_encode hsalt
  · exact dollar_notMem_encode hhash

theorem Written.read {stored : String} {salt hash : List Nat} (h : Written stored salt hash) :
    readStored stored = some (salt, hash) := by
  have hsalt : encode salt ≠ [] := encode_ne_nil fun hnil => by
    have hlen := h.salt_length
    rw [hnil] at hlen
    cases hlen
  have hhash : encode hash ≠ [] := encode_ne_nil fun hnil => by
    have hlen := h.hash_length
    rw [hnil] at hlen
    cases hlen
  rw [readStored, h.text, split_record h.salt_lt h.hash_lt]
  simp [hsalt, hhash, decode_encode h.salt_lt, decode_encode h.hash_lt]

/-! ## What is accepted -/

variable {scrypt : Scrypt} {password : String}

/-- A stored value accepts the passwords that have the key it says, of the length it
says. -/
theorem verifyPassword_iff {stored : Option String} :
    verifyPassword scrypt password stored = .ok true ↔
      ∃ s salt hash, stored = some s ∧ readStored s = some (salt, hash) ∧
        scrypt.key password salt hash.length = hash := by
  rw [verifyPassword]
  cases stored with
  | none =>
      refine iff_of_false ?_ (by simp)
      split
      · simp
      · next salt expected =>
          rw [timingSafeEqual, if_pos (scrypt.length_key _ _ _)]
          simp [Except.map]
  | some s =>
      rw [Option.getD_some]
      cases hread : readStored s with
      | none => simp [hread]
      | some parts =>
          obtain ⟨salt, expected⟩ := parts
          dsimp only
          rw [timingSafeEqual, if_pos (scrypt.length_key _ _ _)]
          simp [Except.map, hread]

/-- It never throws. -/
theorem verifyPassword_ok (stored : Option String) :
    ∃ answer, verifyPassword scrypt password stored = .ok answer := by
  rw [verifyPassword]
  split
  · exact ⟨false, rfl⟩
  · next salt expected hread =>
      rw [timingSafeEqual, if_pos (scrypt.length_key _ _ _)]
      exact ⟨_, rfl⟩

theorem Genuine.verify {stored : Option String} (h : Genuine scrypt password stored) :
    verifyPassword scrypt password stored = .ok true := by
  obtain ⟨s, salt, hash, rfl, hwritten, hkey⟩ := h
  refine verifyPassword_iff.mpr ⟨s, salt, hash, rfl, hwritten.read, ?_⟩
  rw [hwritten.hash_length]
  exact hkey

theorem written_hashPassword (scrypt : Scrypt) (password : String) {salt : List Nat}
    (hlength : salt.length = SALT_LENGTH) (hsalt : ∀ b ∈ salt, b < 256) :
    Written (hashPassword scrypt password salt) salt (scrypt.key password salt KEY_LENGTH) where
  text := rfl
  salt_length := hlength
  salt_lt := hsalt
  hash_length := scrypt.length_key _ _ _
  hash_lt := scrypt.key_lt _ _ _

/-- Of a value `hashPassword` wrote, the passwords with its hash. -/
theorem Written.genuine {stored : String} {salt hash : List Nat}
    (h : Written stored salt hash)
    (hverify : verifyPassword scrypt password (some stored) = .ok true) :
    Genuine scrypt password (some stored) := by
  obtain ⟨s, salt', hash', hs, hread, hkey⟩ := verifyPassword_iff.mp hverify
  obtain rfl := Option.some.inj hs
  obtain ⟨rfl, rfl⟩ := Prod.mk.inj (Option.some.inj (h.read.symm.trans hread))
  exact ⟨stored, salt, hash, rfl, h, by rw [← h.hash_length]; exact hkey⟩

/-! ## Exactly when -/

/-- A value that is read is one `hashPassword` wrote. -/
def Sound (stored : Option String) : Prop :=
  ∀ s parts, stored = some s → readStored s = some parts → ∃ salt hash, Written s salt hash

theorem sextetOf_lt {c : Char} {n : Nat} (h : sextetOf c = some n) : n < 64 := by
  unfold sextetOf at h
  split at h
  · next hc =>
      have hlow : 65 ≤ c.toNat := hc.1
      have hhigh : c.toNat ≤ 90 := hc.2
      simp only [Option.some.injEq] at h
      omega
  · split at h
    · next hc =>
        have hlow : 97 ≤ c.toNat := hc.1
        have hhigh : c.toNat ≤ 122 := hc.2
        simp only [Option.some.injEq] at h
        omega
    · split at h
      · next hc =>
          have hhigh : c.toNat ≤ 57 := hc.2
          simp only [Option.some.injEq] at h
          omega
      · split at h
        · simp only [Option.some.injEq] at h
          omega
        · split at h
          · simp only [Option.some.injEq] at h
            omega
          · cases h

theorem ofSextets_lt : ∀ {sextets : List Nat}, (∀ n ∈ sextets, n < 64) →
    ∀ b ∈ ofSextets sextets, b < 256
  | a :: b :: c :: d :: rest, h => by
      have ha := h a (by simp)
      have hd := h d (by simp)
      have hb := h b (by simp)
      have hc := h c (by simp)
      have hrest := @ofSextets_lt rest fun n hn => h n (by simp [hn])
      intro x hx
      rw [ofSextets] at hx
      simp only [List.mem_cons] at hx
      rcases hx with rfl | rfl | rfl | hx
      · omega
      · omega
      · omega
      · exact hrest x hx
  | [a, b, c], h => by
      have ha := h a (by simp)
      have hb := h b (by simp)
      have hc := h c (by simp)
      intro x hx
      simp only [ofSextets, List.mem_cons, List.not_mem_nil, or_false] at hx
      omega
  | [a, b], h => by
      have ha := h a (by simp)
      have hb := h b (by simp)
      intro x hx
      simp only [ofSextets, List.mem_cons, List.not_mem_nil, or_false] at hx
      omega
  | [a], _ => by simp [ofSextets]
  | [], _ => by simp [ofSextets]

theorem decode_lt (text : List Char) : ∀ b ∈ decode text, b < 256 := by
  refine ofSextets_lt fun n hn => ?_
  obtain ⟨c, -, hc⟩ := List.mem_filterMap.mp hn
  exact sextetOf_lt hc

theorem readStored_lt {s : String} {salt hash : List Nat}
    (h : readStored s = some (salt, hash)) : ∀ b ∈ hash, b < 256 := by
  rw [readStored] at h
  split at h
  · split at h
    · cases h
    · obtain ⟨-, rfl⟩ := Prod.mk.inj (Option.some.inj h)
      exact decode_lt _
  · cases h

/-- A scrypt with this key, for every password. -/
def Scrypt.constant (hash : List Nat) (hhash : ∀ b ∈ hash, b < 256) : Scrypt where
  key _ _ keylen := if keylen = hash.length then hash else List.replicate keylen 0
  length_key _ _ keylen := by
    split
    · next h => exact h.symm
    · exact List.length_replicate
  key_lt _ _ keylen := by
    split
    · exact hhash
    · intro b hb
      rw [(List.mem_replicate.mp hb).2]
      omega

/-- As far as the documentation of scrypt goes, only a sound value keeps a wrong
password out. -/
theorem sound_iff {stored : Option String} :
    (∀ scrypt password, verifyPassword scrypt password stored = .ok true ↔
      Genuine scrypt password stored) ↔ Sound stored := by
  constructor
  · intro h s parts hs hread
    obtain ⟨salt, hash⟩ := parts
    have hkey : (Scrypt.constant hash (readStored_lt hread)).key "" salt hash.length = hash :=
      if_pos rfl
    obtain ⟨s', salt', hash', hs', hwritten, -⟩ :=
      (h _ "").mp (verifyPassword_iff.mpr ⟨s, salt, hash, hs, hread, hkey⟩)
    obtain rfl := Option.some.inj (hs.symm.trans hs')
    exact ⟨salt', hash', hwritten⟩
  · intro hsound scrypt password
    refine ⟨fun hverify => ?_, Genuine.verify⟩
    obtain ⟨s, salt, hash, hs, hread, -⟩ := verifyPassword_iff.mp hverify
    obtain ⟨salt', hash', hwritten⟩ := hsound s _ hs hread
    subst hs
    exact hwritten.genuine hverify

/-- A value that is not sound, and one password. -/
theorem verify_iff_genuine_iff {stored : Option String} :
    (verifyPassword scrypt password stored = .ok true ↔ Genuine scrypt password stored) ↔
      Sound stored ∨ ∀ s salt hash, stored = some s → readStored s = some (salt, hash) →
        scrypt.key password salt hash.length ≠ hash := by
  constructor
  · intro h
    by_cases hverify : verifyPassword scrypt password stored = .ok true
    · obtain ⟨s, salt, hash, rfl, hwritten, -⟩ := h.mp hverify
      refine Or.inl fun s' parts hs' _ => ?_
      obtain rfl := Option.some.inj hs'
      exact ⟨salt, hash, hwritten⟩
    · refine Or.inr fun s salt hash hs hread hkey => hverify ?_
      exact verifyPassword_iff.mpr ⟨s, salt, hash, hs, hread, hkey⟩
  · intro h
    rcases h with hsound | hother
    · exact sound_iff.mpr hsound scrypt password
    · refine ⟨fun hverify => ?_, Genuine.verify⟩
      obtain ⟨s, salt, hash, hs, hread, hkey⟩ := verifyPassword_iff.mp hverify
      exact absurd hkey (hother s salt hash hs hread)

/-- Where two passwords differ in their keys, the values that accept all of them are
those that say no bytes. -/
theorem accepts_all_iff (hvaries : ∀ salt keylen, 0 < keylen →
      ∃ p q, scrypt.key p salt keylen ≠ scrypt.key q salt keylen) {stored : Option String} :
    (∀ password, verifyPassword scrypt password stored = .ok true) ↔
      ∃ s salt, stored = some s ∧ readStored s = some (salt, []) := by
  constructor
  · intro hall
    obtain ⟨s, salt, hash, hs, hread, -⟩ := verifyPassword_iff.mp (hall "")
    have hkeys : ∀ password, scrypt.key password salt hash.length = hash := by
      intro password
      obtain ⟨s', salt', hash', hs', hread', hkey⟩ := verifyPassword_iff.mp (hall password)
      obtain rfl := Option.some.inj (hs.symm.trans hs')
      obtain ⟨rfl, rfl⟩ := Prod.mk.inj (Option.some.inj (hread.symm.trans hread'))
      exact hkey
    have hempty : hash.length = 0 := by
      by_contra hne
      obtain ⟨p, q, hpq⟩ := hvaries salt hash.length (by omega)
      exact hpq ((hkeys p).trans (hkeys q).symm)
    obtain rfl := List.length_eq_zero_iff.mp hempty
    exact ⟨s, salt, hs, hread⟩
  · intro h password
    obtain ⟨s, salt, hs, hread⟩ := h
    refine verifyPassword_iff.mpr ⟨s, salt, [], hs, hread, ?_⟩
    exact List.length_eq_zero_iff.mp (scrypt.length_key _ _ _)

/-- Over sound values a login is that of the user with the email, with a password the
stored hash is of. -/
theorem validateUser_iff {users : List UserRow} {email : String} {login : LoginUser}
    (hsound : ∀ user ∈ users, Sound user.password_hash) :
    AuthService.validateUser scrypt users email password = .ok (some login) ↔
      ∃ user, findByEmail users email = some user ∧ login = ⟨user.id, user.role⟩ ∧
        Genuine scrypt password user.password_hash := by
  rw [AuthService.validateUser]
  obtain ⟨answer, hanswer⟩ :=
    @verifyPassword_ok scrypt password ((findByEmail users email).bind (·.password_hash))
  cases huser : findByEmail users email with
  | none =>
      rw [huser] at hanswer
      rw [hanswer]
      cases answer <;> simp [Except.map]
  | some user =>
      rw [huser] at hanswer
      have hmem : user ∈ users := List.mem_of_find?_eq_some huser
      have hiff := sound_iff.mpr (hsound user hmem) scrypt password
      have hverify : verifyPassword scrypt password user.password_hash = .ok answer := hanswer
      rw [hanswer]
      constructor
      · intro h
        cases answer with
        | false => simp [Except.map] at h
        | true =>
            have hlogin : (⟨user.id, user.role⟩ : LoginUser) = login := by
              simpa [Except.map] using h
            exact ⟨user, rfl, hlogin.symm, hiff.mp hverify⟩
      · intro h
        obtain ⟨user', hfound, rfl, hgenuine⟩ := h
        obtain rfl := Option.some.inj hfound
        obtain rfl : answer = true := Except.ok.inj (hverify.symm.trans (hiff.mpr hgenuine))
        rfl

/-- A stored value accepts only a genuine hash exactly if it is one `hashPassword` wrote
or is not read at all; any other accepts the passwords whose key it happens to have,
and every password if it says no bytes. -/
theorem verify_genuine_iff (scrypt : Scrypt) (password : String) (stored : Option String) :
    ((∀ scrypt' password', verifyPassword scrypt' password' stored = .ok true ↔
      Genuine scrypt' password' stored) ↔ Sound stored) ∧
    ((verifyPassword scrypt password stored = .ok true ↔ Genuine scrypt password stored) ↔
      Sound stored ∨ ∀ s salt hash, stored = some s → readStored s = some (salt, hash) →
        scrypt.key password salt hash.length ≠ hash) ∧
    (∀ salt, salt.length = SALT_LENGTH → (∀ b ∈ salt, b < 256) →
      verifyPassword scrypt password (some (hashPassword scrypt password salt)) = .ok true) ∧
    ((∀ salt keylen, 0 < keylen →
        ∃ p q, scrypt.key p salt keylen ≠ scrypt.key q salt keylen) →
      ((∀ password', verifyPassword scrypt password' stored = .ok true) ↔
        ∃ s salt, stored = some s ∧ readStored s = some (salt, []))) := by
  refine ⟨sound_iff, verify_iff_genuine_iff, ?_, fun hvaries => accepts_all_iff hvaries⟩
  intro salt hlength hsalt
  exact Genuine.verify ⟨_, salt, _, rfl, written_hashPassword scrypt password hlength hsalt, rfl⟩

/-- The key of a password is its length, over and over. -/
def sampleScrypt : Scrypt where
  key password _ keylen := List.replicate keylen (password.length % 256)
  length_key _ _ _ := List.length_replicate
  key_lt password _ _ b hb := by
    rw [(List.mem_replicate.mp hb).2]
    omega

/-- A value that was cut after the first character of its hash. -/
def truncated : String := "scrypt$AAAAAAAAAAAAAAAAAAAAAA$A"

theorem readStored_truncated : readStored truncated = some (List.replicate 16 0, []) := by
  decide +kernel

theorem verify_genuine_iff_secret :
    verifyPassword sampleScrypt "secret"
        (some (hashPassword sampleScrypt "secret" (List.replicate 16 7))) = .ok true ∧
      ∀ password, verifyPassword sampleScrypt password (some truncated) = .ok true := by
  obtain ⟨-, -, hown, hall⟩ := verify_genuine_iff sampleScrypt "secret" (some truncated)
  have hvaries : ∀ salt keylen, 0 < keylen →
      ∃ p q, sampleScrypt.key p salt keylen ≠ sampleScrypt.key q salt keylen := by
    intro salt keylen hpos
    refine ⟨"", "a", fun heq => ?_⟩
    have hmem : 0 ∈ sampleScrypt.key "" salt keylen := List.mem_replicate.mpr ⟨by omega, rfl⟩
    rw [heq] at hmem
    exact absurd (List.mem_replicate.mp hmem).2 (by decide)
  refine ⟨hown _ (by decide) (by decide), ?_⟩
  exact (hall hvaries).mpr ⟨_, _, rfl, readStored_truncated⟩

/-- It accepts every password, whatever scrypt computes. -/
theorem verify_truncated (scrypt : Scrypt) (password : String) :
    verifyPassword scrypt password (some truncated) = .ok true ∧
      ¬Genuine scrypt password (some truncated) := by
  constructor
  · refine verifyPassword_iff.mpr ⟨_, _, _, rfl, readStored_truncated, ?_⟩
    exact List.length_eq_zero_iff.mp (scrypt.length_key _ _ _)
  · intro h
    obtain ⟨s, salt, hash, hs, hwritten, -⟩ := h
    obtain rfl := Option.some.inj hs
    have hread := hwritten.read.symm.trans readStored_truncated
    obtain ⟨-, hempty⟩ := Prod.mk.inj (Option.some.inj hread)
    have hlength := hwritten.hash_length
    rw [hempty] at hlength
    cases hlength

theorem truncated_hash_accepts_secret :
    verifyPassword sampleScrypt "secret" (some truncated) = .ok true ∧
      ¬Genuine sampleScrypt "secret" (some truncated) :=
  verify_truncated sampleScrypt "secret"

end InvestApi.Ref
