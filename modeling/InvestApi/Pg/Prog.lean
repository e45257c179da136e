import InvestApi.Pg.Db

/-!
# Transactions as programs, and what one statement does

A transaction body is a tree of SQL statements: each node is one statement,
its continuation takes what the statement answers. `bind` makes it a monad,
so a body is written in `do` notation under the names its source has.
Returning from the body asks for COMMIT, raising asks for ROLLBACK.

`TxStep` gives the statements their READ COMMITTED meaning. A statement
reads the rows committed when it starts, over the transaction's own writes.
A locking statement (UPDATE, DELETE, SELECT … FOR UPDATE) fixes its
candidate rows in that snapshot and then takes them one at a time, in any
order: it waits until nobody else holds the row, reads the row again as it
is by then, and decides there whether it still qualifies. A row that was
inserted after the snapshot is never looked at.

`Prog.exec` is the same body run with nobody else about.
-/

namespace InvestApi.Pg

variable {K : Type} {V : K → Type} {γ ε α β : Type}

/-- What a locking statement does with a row, read again under its lock. -/
inductive RowAct (R : Type) where
  /-- The row does not qualify (any more). -/
  | skip
  /-- The row stays or becomes `r`; SELECT … FOR UPDATE puts it back as it is. -/
  | put (r : R)
  | delete
  /-- The statement fails on the row, an overflow say. -/
  | fail

/-- A transaction body. `γ` tags its locking statements, `ε` is what it
raises, `α` what it returns. -/
inductive Prog (V : K → Type) (γ ε α : Type) where
  | ret (a : α)
  | raise (e : ε)
  /-- A plain SELECT: `next` gets everything the statement could read. -/
  | select (next : Db V → Prog V γ ε α)
  /-- A locking statement over the keys `cand` finds in its snapshot. -/
  | update (tag : γ) (cand : Db V → List K) (act : (k : K) → V k → RowAct (V k))
      (next : Db V → List (KeyedRow V) → Prog V γ ε α)
  /-- A locking statement under way: `todo` is still to be locked, `acc` are
  the rows it has put. No body starts with one. -/
  | scan (todo : List K) (act : (k : K) → V k → RowAct (V k))
      (acc : List (KeyedRow V)) (next : List (KeyedRow V) → Prog V γ ε α)
  /-- INSERT of one or more rows; `check` is what the constraints ask. -/
  | insert (rows : List (KeyedRow V)) (check : Db V → Bool)
      (next : Prog V γ ε α)
  /-- INSERT … ON CONFLICT DO NOTHING of one row. -/
  | insertIgnore (k : K) (v : V k) (next : Prog V γ ε α)

namespace Prog

def bind (p : Prog V γ ε α) (f : α → Prog V γ ε β) : Prog V γ ε β :=
  match p with
  | ret a => f a
  | raise e => raise e
  | select next => select fun d => (next d).bind f
  | update tag cand act next =>
      update tag cand act fun d rows => (next d rows).bind f
  | scan todo act acc next => scan todo act acc fun rows => (next rows).bind f
  | insert rows check next => insert rows check (next.bind f)
  | insertIgnore k v next => insertIgnore k v (next.bind f)

instance : Monad (Prog V γ ε) where
  pure := ret
  bind := bind

@[simp] theorem pure_eq (a : α) : (pure a : Prog V γ ε α) = ret a := rfl

@[simp] theorem bind_eq (p : Prog V γ ε α) (f : α → Prog V γ ε β) :
    p >>= f = p.bind f := rfl

theorem bind_assoc {δ : Type} (p : Prog V γ ε α) (f : α → Prog V γ ε β)
    (g : β → Prog V γ ε δ) :
    (p.bind f).bind g = p.bind fun a => (f a).bind g := by
  induction p with
  | ret a => rfl
  | raise e => rfl
  | select next ih => simp only [bind, ih]
  | update tag cand act next ih => simp only [bind, ih]
  | scan todo act acc next ih => simp only [bind, ih]
  | insert rows check next ih => simp only [bind, ih]
  | insertIgnore k v next ih => simp only [bind, ih]

theorem bind_ret (p : Prog V γ ε α) : p.bind ret = p := by
  induction p with
  | ret a => rfl
  | raise e => rfl
  | select next ih => simp only [bind, ih]
  | update tag cand act next ih => simp only [bind, ih]
  | scan todo act acc next ih => simp only [bind, ih]
  | insert rows check next ih => simp only [bind, ih]
  | insertIgnore k v next ih => simp only [bind, ih]

instance : LawfulMonad (Prog V γ ε) :=
  LawfulMonad.mk' _ (fun p => bind_ret p) (fun _ _ => rfl) bind_assoc

/-- A list of checks that ask the database nothing either answers every
question or raises. -/
theorem mapM_value {f : β → Prog V γ ε α}
    (hf : ∀ b, (∃ a, f b = .ret a) ∨ ∃ e, f b = .raise e) (l : List β) :
    (∃ as, l.mapM f = .ret as ∧ List.Forall₂ (fun b a => f b = .ret a) l as) ∨
      ∃ e, l.mapM f = .raise e := by
  induction l with
  | nil => exact Or.inl ⟨[], rfl, .nil⟩
  | cons b l ih =>
      rw [List.mapM_cons]
      rcases hf b with ⟨a, ha⟩ | ⟨e, he⟩
      · rcases ih with ⟨as, has, hall⟩ | ⟨e, he⟩
        · exact Or.inl ⟨a :: as, by rw [ha, has]; rfl, .cons ha hall⟩
        · exact Or.inr ⟨e, by rw [ha, he]; rfl⟩
      · exact Or.inr ⟨e, by rw [he]; rfl⟩

/-- SELECT as a statement of its own. -/
def query (f : Db V → β) : Prog V γ ε β := select fun d => ret (f d)

end Prog

/-- What a transaction has done so far: its uncommitted writes, the keys it
holds, the tags of the locking statements it has started. -/
structure Session (V : K → Type) (γ : Type) where
  writes : List (Write V)
  locks : List K
  trace : List γ

namespace Session

def put (s : Session V γ) (k : K) (v : Option (V k)) : Session V γ :=
  { s with writes := s.writes ++ [⟨k, v⟩], locks := k :: s.locks }

def putRows (s : Session V γ) (rows : List (KeyedRow V)) : Session V γ :=
  rows.foldl (fun s r => s.put r.1 (some r.2)) s

def tag (s : Session V γ) (t : γ) : Session V γ :=
  { s with trace := t :: s.trace }

@[simp] theorem locks_put (s : Session V γ) (k : K) (v : Option (V k)) :
    (s.put k v).locks = k :: s.locks := rfl

@[simp] theorem trace_put (s : Session V γ) (k : K) (v : Option (V k)) :
    (s.put k v).trace = s.trace := rfl

@[simp] theorem writes_put (s : Session V γ) (k : K) (v : Option (V k)) :
    (s.put k v).writes = s.writes ++ [⟨k, v⟩] := rfl

@[simp] theorem writes_tag (s : Session V γ) (t : γ) :
    (s.tag t).writes = s.writes := rfl

@[simp] theorem locks_tag (s : Session V γ) (t : γ) :
    (s.tag t).locks = s.locks := rfl

@[simp] theorem putRows_nil (s : Session V γ) : s.putRows [] = s := rfl

@[simp] theorem putRows_cons (s : Session V γ) (r : KeyedRow V)
    (rows : List (KeyedRow V)) :
    s.putRows (r :: rows) = (s.put r.1 (some r.2)).putRows rows := rfl

theorem writes_putRows (s : Session V γ) (rows : List (KeyedRow V)) :
    (s.putRows rows).writes
      = s.writes ++ rows.map fun r => ⟨r.1, some r.2⟩ := by
  induction rows generalizing s with
  | nil => simp
  | cons r rows ih => simp [ih]

@[simp] theorem trace_putRows (s : Session V γ) (rows : List (KeyedRow V)) :
    (s.putRows rows).trace = s.trace := by
  induction rows generalizing s with
  | nil => rfl
  | cons r rows ih => rw [putRows_cons, ih, trace_put]

theorem mem_locks_putRows {s : Session V γ} {rows : List (KeyedRow V)}
    {k : K} :
    k ∈ (s.putRows rows).locks ↔ k ∈ s.locks ∨ k ∈ rows.map (·.1) := by
  induction rows generalizing s with
  | nil => simp
  | cons r rows ih =>
      rw [putRows_cons, ih, locks_put, List.map_cons]
      simp only [List.mem_cons]
      tauto

/-- Every key the session writes is a key it holds. -/
def Held (s : Session V γ) : Prop := ∀ k ∈ s.writes.map (·.1), k ∈ s.locks

theorem Held.put {s : Session V γ} (h : s.Held) (k : K) (v : Option (V k)) :
    (s.put k v).Held := by
  intro k' hk'
  simp only [writes_put, List.map_append, List.mem_append, List.map_cons,
    List.map_nil, List.mem_singleton] at hk'
  rcases hk' with hk' | hk'
  · exact List.mem_cons_of_mem _ (h k' hk')
  · subst hk'; exact List.mem_cons_self

theorem Held.tag {s : Session V γ} (h : s.Held) (t : γ) : (s.tag t).Held := h

theorem Held.putRows {s : Session V γ} (h : s.Held)
    (rows : List (KeyedRow V)) : (s.putRows rows).Held := by
  induction rows generalizing s with
  | nil => exact h
  | cons r rows ih => exact ih (h.put r.1 (some r.2))

variable [DecidableEq K]

/-- What the transaction sees: its own writes over the committed rows. -/
def view (s : Session V γ) (d : Db V) : Db V := d.writeAll s.writes

@[simp] theorem view_put (s : Session V γ) (k : K) (v : Option (V k))
    (d : Db V) : (s.put k v).view d = (s.view d).set k v := by
  simp [view, put, Db.writeAll_append]

@[simp] theorem view_tag (s : Session V γ) (t : γ) (d : Db V) :
    (s.tag t).view d = s.view d := rfl

theorem view_putRows (s : Session V γ) (rows : List (KeyedRow V)) (d : Db V) :
    (s.putRows rows).view d
      = (s.view d).writeAll (rows.map fun r => ⟨r.1, some r.2⟩) := by
  rw [view, writes_putRows, Db.writeAll_append, view]

/-- A key the session does not hold it sees as committed. -/
theorem get_view_of_notMem {s : Session V γ} (h : s.Held) {k : K}
    (hk : k ∉ s.locks) (d : Db V) : (s.view d).get k = d.get k :=
  Db.get_writeAll_of_notMem (fun hw => hk (h k hw)) d

end Session

/-- One step of a transaction over the committed rows `d`; `free k` says that
nobody else holds `k`. -/
inductive TxStep [DecidableEq K] (d : Db V) (free : K → Prop) :
    Prog V γ ε α × Session V γ → Prog V γ ε α × Session V γ → Prop
  | select {next s} :
      TxStep d free (.select next, s) (next (s.view d), s)
  | update {tag cand act next s l} (hl : l.Perm (cand (s.view d))) :
      TxStep d free (.update tag cand act next, s)
        (.scan l act [] (next (s.view d)), s.tag tag)
  | done {act acc next s} :
      TxStep d free (.scan [] act acc next, s) (next acc, s)
  | gone {k ks act acc next s} (hf : free k) (hv : (s.view d).get k = none) :
      TxStep d free (.scan (k :: ks) act acc next, s) (.scan ks act acc next, s)
  | skip {k ks act acc next s v} (hf : free k)
      (hv : (s.view d).get k = some v) (ha : act k v = .skip) :
      TxStep d free (.scan (k :: ks) act acc next, s) (.scan ks act acc next, s)
  | put {k ks act acc next s v v'} (hf : free k)
      (hv : (s.view d).get k = some v) (ha : act k v = .put v') :
      TxStep d free (.scan (k :: ks) act acc next, s)
        (.scan ks act (acc ++ [⟨k, v'⟩]) next, s.put k (some v'))
  | delete {k ks act acc next s v} (hf : free k)
      (hv : (s.view d).get k = some v) (ha : act k v = .delete) :
      TxStep d free (.scan (k :: ks) act acc next, s)
        (.scan ks act acc next, s.put k none)
  | insert {rows check next s}
      (hf : ∀ r ∈ rows, free r.1 ∧ (s.view d).get r.1 = none)
      (hn : (rows.map (·.1)).Nodup) (hc : check (s.view d) = true) :
      TxStep d free (.insert rows check next, s) (next, s.putRows rows)
  | insertNew {k v next s} (hf : free k) (hv : (s.view d).get k = none) :
      TxStep d free (.insertIgnore k v next, s) (next, s.put k (some v))
  | insertOld {k v next s} (hf : free k) (hv : (s.view d).get k ≠ none) :
      TxStep d free (.insertIgnore k v next, s) (next, s)

section Steps

variable [DecidableEq K] {d : Db V} {free : K → Prop}

/-- A step only adds writes and locks, the new locks on free keys, and every
write is on a held key. -/
theorem TxStep.locks {t t' : Prog V γ ε α × Session V γ}
    (h : TxStep d free t t') (hs : t.2.Held) :
    t'.2.Held ∧ ∀ k ∈ t'.2.locks, k ∈ t.2.locks ∨ free k := by
  cases h with
  | select => exact ⟨hs, fun k hk => Or.inl hk⟩
  | update hl => exact ⟨hs, fun k hk => Or.inl hk⟩
  | done => exact ⟨hs, fun k hk => Or.inl hk⟩
  | gone hf hv => exact ⟨hs, fun k hk => Or.inl hk⟩
  | skip hf hv ha => exact ⟨hs, fun k hk => Or.inl hk⟩
  | put hf hv ha =>
      refine ⟨hs.put _ _, fun k hk => ?_⟩
      rcases List.mem_cons.mp hk with rfl | hk
      · exact Or.inr hf
      · exact Or.inl hk
  | delete hf hv ha =>
      refine ⟨hs.put _ _, fun k hk => ?_⟩
      rcases List.mem_cons.mp hk with rfl | hk
      · exact Or.inr hf
      · exact Or.inl hk
  | insert hf hn hc =>
      refine ⟨hs.putRows _, fun k hk => ?_⟩
      rcases Session.mem_locks_putRows.mp hk with hk | hk
      · exact Or.inl hk
      · obtain ⟨r, hr, rfl⟩ := List.mem_map.mp hk
        exact Or.inr (hf r hr).1
  | insertNew hf hv =>
      refine ⟨hs.put _ _, fun k hk => ?_⟩
      rcases List.mem_cons.mp hk with rfl | hk
      · exact Or.inr hf
      · exact Or.inl hk
  | insertOld hf hv => exact ⟨hs, fun k hk => Or.inl hk⟩

end Steps

/-! ## Running a body alone -/

/-- How a transaction ended. An abort is any failure the body does not
raise itself: a constraint, a lost connection, a deadlock victim. -/
inductive Finish (ε α : Type) where
  | committed (a : α)
  | raised (e : ε)
  | aborted
  deriving DecidableEq, Repr

namespace Prog

variable [DecidableEq K]

/-- A locking statement's pass over its candidates, nobody else about; `none`
if it fails on a row. -/
def scanAll (d : Db V) (act : (k : K) → V k → RowAct (V k)) :
    List K → List (KeyedRow V) → Session V γ →
      Option (List (KeyedRow V) × Session V γ)
  | [], acc, s => some (acc, s)
  | k :: ks, acc, s =>
      match (s.view d).get k with
      | none => scanAll d act ks acc s
      | some v =>
          match act k v with
          | .skip => scanAll d act ks acc s
          | .put v' => scanAll d act ks (acc ++ [⟨k, v'⟩]) (s.put k (some v'))
          | .delete => scanAll d act ks acc (s.put k none)
          | .fail => none

/-- An INSERT goes through when its keys are new and distinct and the
constraints hold. -/
def canInsert (d : Db V) (rows : List (KeyedRow V)) (check : Db V → Bool) :
    Bool :=
  rows.all (fun r => (d.get r.1).isNone) && decide (rows.map (·.1)).Nodup
    && check d

/-- The body run from its start to its end over the committed rows `d`,
nobody else about. `fault` counts down the statements, COMMIT included, and
fails the one it names. -/
def exec (d : Db V) :
    Prog V γ ε α → Option Nat → Session V γ → Finish ε α × Session V γ
  | ret _, some 0, s => (.aborted, s)
  | ret a, _, s => (.committed a, s)
  | raise e, _, s => (.raised e, s)
  | select _, some 0, s => (.aborted, s)
  | select next, f, s => exec d (next (s.view d)) (f.map Nat.pred) s
  | update _ _ _ _, some 0, s => (.aborted, s)
  | update tag cand act next, f, s =>
      match scanAll d act (cand (s.view d)) [] (s.tag tag) with
      | none => (.aborted, s)
      | some (rows, s') =>
          exec d (next (s.view d) rows) (f.map Nat.pred) s'
  | scan _ _ _ _, some 0, s => (.aborted, s)
  | scan todo act acc next, f, s =>
      match scanAll d act todo acc s with
      | none => (.aborted, s)
      | some (rows, s') => exec d (next rows) (f.map Nat.pred) s'
  | insert _ _ _, some 0, s => (.aborted, s)
  | insert rows check next, f, s =>
      if canInsert (s.view d) rows check then
        exec d next (f.map Nat.pred) (s.putRows rows)
      else (.aborted, s)
  | insertIgnore _ _ _, some 0, s => (.aborted, s)
  | insertIgnore k v next, f, s =>
      if ((s.view d).get k).isNone then
        exec d next (f.map Nat.pred) (s.put k (some v))
      else exec d next (f.map Nat.pred) s

/-- A body that got to its COMMIT has met no fault. -/
theorem exec_of_committed {d : Db V} {p : Prog V γ ε α} :
    ∀ {fault : Option Nat} {s s' : Session V γ} {a : α},
      p.exec d fault s = (.committed a, s') → p.exec d none s = (.committed a, s') := by
  induction p with
  | ret a =>
      intro fault s s' a' h
      match fault with
      | none => exact h
      | some 0 => simp [exec] at h
      | some (n + 1) => exact h
  | raise e => intro fault s s' a h; simp [exec] at h
  | select next ih =>
      intro fault s s' a h
      match fault with
      | none => exact h
      | some 0 => simp [exec] at h
      | some (n + 1) => exact ih _ h
  | update tag cand act next ih =>
      intro fault s s' a h
      match fault with
      | none => exact h
      | some 0 => simp [exec] at h
      | some (n + 1) =>
          simp only [exec] at h ⊢
          split at h
          · simp at h
          · exact ih _ _ h
  | scan todo act acc next ih =>
      intro fault s s' a h
      match fault with
      | none => exact h
      | some 0 => simp [exec] at h
      | some (n + 1) =>
          simp only [exec] at h ⊢
          split at h
          · simp at h
          · exact ih _ h
  | insert rows check next ih =>
      intro fault s s' a h
      match fault with
      | none => exact h
      | some 0 => simp [exec] at h
      | some (n + 1) =>
          simp only [exec] at h ⊢
          split at h
          · next hc => rw [if_pos hc]; exact ih h
          · simp at h
  | insertIgnore k v next ih =>
      intro fault s s' a h
      match fault with
      | none => exact h
      | some 0 => simp [exec] at h
      | some (n + 1) =>
          simp only [exec] at h ⊢
          split at h
          · next hc => rw [if_pos hc]; exact ih h
          · next hc => rw [if_neg hc]; exact ih h

end Prog

end InvestApi.Pg
