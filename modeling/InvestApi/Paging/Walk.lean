import InvestApi.Paging.Listing

/-!
# Following the pages while the table changes

A client asks for the first page and then, as long as a page names a next one,
for that. Between any two statements of its requests rows may come, change and
go. A new row has an id no row has had before it (ids are random), and a change
leaves a row's key as it is: that is all that is asked of the writers.

What a client has after any such run is below the cursor it goes on from, in the
sense of `Keyset.Covers`; what the page adds is the page of one snapshot, and
the rows that have stayed are in every snapshot.
-/

namespace InvestApi.Paging

open InvestApi.Pg InvestApi.Ref

inductive Reader (T : Type) where
  /-- A request under way, its statements still to come. -/
  | asking (request : LedgerProg (Page T))
  /-- The last page had no next one. -/
  | finished

structure Traversal (T : Type) where
  db : LedgerDb
  /-- The sort instant of every row there is or has been. -/
  history : LedgerKey → Option Instant
  reader : Reader T
  items : List T

section Runs

variable {T : Type} (request : Option String → LedgerProg (Page T))

def Traversal.start (d : LedgerDb) : Traversal T where
  db := d
  history k := (d.get k).map (sortInstant k)
  reader := .asking (request none)
  items := []

inductive Step : Traversal T → Traversal T → Prop
  | insert {s k row} (hnew : s.history k = none) :
      Step s { s with
        db := s.db.set k (some row)
        history := Function.update s.history k (some (sortInstant k row)) }
  | update {s k row row'} (hrow : s.db.get k = some row)
      (hsame : sortInstant k row' = sortInstant k row) :
      Step s { s with db := s.db.set k (some row') }
  | delete {s k} : Step s { s with db := s.db.set k none }
  | read {s next} (hr : s.reader = .asking (.select next)) :
      Step s { s with reader := .asking (next s.db) }
  | more {s page cursor} (hr : s.reader = .asking (.ret page))
      (hc : page.next_cursor = some cursor) :
      Step s { s with
        reader := .asking (request (some cursor))
        items := s.items ++ page.items }
  | stop {s page} (hr : s.reader = .asking (.ret page)) (hc : page.next_cursor = none) :
      Step s { s with reader := .finished, items := s.items ++ page.items }

/-- The states of the runs in which every state of the table meets `P`. -/
inductive Walk (P : LedgerDb → Prop) : Traversal T → Prop
  | start {d} (h : P d) : Walk P (Traversal.start request d)
  | step {s s'} (hw : Walk P s) (hs : Step request s s') (h : P s'.db) : Walk P s'

variable {request} {P : LedgerDb → Prop} {s : Traversal T}

theorem Walk.holds (hw : Walk request P s) : P s.db := by
  cases hw with
  | start h => exact h
  | step _ _ h => exact h

theorem Walk.insert (hw : Walk request P s) (k : LedgerKey) (row : LedgerRow k)
    (hnew : s.history k = none) (h : P (s.db.set k (some row))) :
    Walk request P { s with
      db := s.db.set k (some row)
      history := Function.update s.history k (some (sortInstant k row)) } :=
  hw.step (.insert hnew) h

theorem Walk.read {page : LedgerDb → Page T} (hw : Walk request P s)
    (hr : s.reader = .asking (.query page)) :
    Walk request P { s with reader := .asking (.ret (page s.db)) } :=
  hw.step (.read hr) hw.holds

theorem Walk.more {page : Page T} {cursor : String} (hw : Walk request P s)
    (hr : s.reader = .asking (.ret page)) (hc : page.next_cursor = some cursor) :
    Walk request P { s with
      reader := .asking (request (some cursor)), items := s.items ++ page.items } :=
  hw.step (.more hr hc) hw.holds

theorem Walk.stop {page : Page T} (hw : Walk request P s)
    (hr : s.reader = .asking (.ret page)) (hc : page.next_cursor = none) :
    Walk request P { s with reader := .finished, items := s.items ++ page.items } :=
  hw.step (.stop hr hc) hw.holds

end Runs

/-- Postgres reads the text of every sort instant in the table back. -/
def Readable (env : Env) (d : LedgerDb) : Prop :=
  ∀ k row, d.get k = some row → ReadsBack env (sortInstant k row)

/-! ## The invariant of a walk -/

section Invariant

variable {ρ T : Type} (L : Listing ρ T) (env : Env)

/-- The row is in the history, and its instant is one Postgres reads back. -/
structure Known (history : LedgerKey → Option Instant) (r : Uuid × ρ) : Prop where
  recorded : history (L.table r.1) = some (L.instant r.2)
  readable : ReadsBack env (L.instant r.2)

/-- The rows of a snapshot, of which some have been there all the time. -/
structure Snapshot (always : SortKey → Prop) (history : LedgerKey → Option Instant)
    (d : LedgerDb) : Prop where
  known : ∀ r ∈ L.rows d, Known L env history r
  holds : ∀ k, always k → ∃ r ∈ L.rows d, L.key r = k

/-- Where the reader is: on its way to a page, at one, or past the last. -/
inductive Position (limit : Nat) (always : SortKey → Prop)
    (history : LedgerKey → Option Instant) (seen : List (Uuid × ρ)) : Reader T → Prop
  | asking {after request} (hcov : Keyset.Covers always after (seen.map L.key))
      (hreads : Reads (L.page limit after) request) :
      Position limit always history seen (.asking request)
  | answered {after d} (hcov : Keyset.Covers always after (seen.map L.key))
      (hd : Snapshot L env always history d) :
      Position limit always history seen (.asking (.ret (L.page limit after d)))
  | finished (hcov : Keyset.Covered always (seen.map L.key)) :
      Position limit always history seen .finished

structure Inv (limit : Nat) (always : SortKey → Prop) (s : Traversal T) : Prop where
  recorded : ∀ k row, s.db.get k = some row → s.history k = some (sortInstant k row)
  position : ∃ seen : List (Uuid × ρ), s.items = seen.map L.wire
    ∧ (∀ r ∈ seen, Known L env s.history r)
    ∧ Position L env limit always s.history seen s.reader

end Invariant

section Invariant

variable {ρ T : Type} {L : Listing ρ T} {env : Env} {limit : Nat} {always : SortKey → Prop}
  {history history' : LedgerKey → Option Instant} {seen : List (Uuid × ρ)} {s s' : Traversal T}

theorem Known.mono {r : Uuid × ρ} (h : Known L env history r)
    (hle : ∀ k t, history k = some t → history' k = some t) : Known L env history' r :=
  ⟨hle _ _ h.recorded, h.readable⟩

theorem Position.mono {reader : Reader T} (h : Position L env limit always history seen reader)
    (hle : ∀ k t, history k = some t → history' k = some t) :
    Position L env limit always history' seen reader := by
  cases h with
  | asking hcov hreads => exact .asking hcov hreads
  | answered hcov hd => exact .answered hcov ⟨fun r hr => (hd.known r hr).mono hle, hd.holds⟩
  | finished hcov => exact .finished hcov

/-- A write that keeps to the rules changes nothing for the reader. -/
theorem Inv.write (h : Inv L env limit always s)
    (hrec : ∀ k row, s'.db.get k = some row → s'.history k = some (sortInstant k row))
    (hle : ∀ k t, s.history k = some t → s'.history k = some t)
    (hreader : s'.reader = s.reader) (hitems : s'.items = s.items) :
    Inv L env limit always s' := by
  obtain ⟨seen, hseen, hknown, hpos⟩ := h.position
  refine ⟨hrec, seen, hitems.trans hseen, fun r hr => (hknown r hr).mono hle, ?_⟩
  rw [hreader]
  exact hpos.mono hle

/-- The rows a listing finds in the table as it is now. -/
theorem Inv.snapshot (h : Inv L env limit always s) (hread : Readable env s.db)
    (hholds : ∀ k, always k → ∃ r ∈ L.rows s.db, L.key r = k) :
    Snapshot L env always s.history s.db where
  known r hr := by
    obtain ⟨v, hv, hinstant⟩ := L.stored hr
    refine ⟨?_, ?_⟩
    · rw [h.recorded _ _ hv, hinstant]
    · rw [← hinstant]
      exact hread _ _ hv
  holds := hholds

theorem Snapshot.known_page {after : Option SortKey} {d : LedgerDb}
    (hd : Snapshot L env always history d) {r : Uuid × ρ}
    (hr : r ∈ Keyset.page L.key limit after (L.rows d)) : Known L env history r :=
  hd.known r (Keyset.mem_of_mem_page hr).1

variable {request : Option String → LedgerProg (Page T)}

theorem Inv.start
    (hserves : ∀ {cursor after}, CursorAt env cursor after →
      Reads (L.page limit after) (request cursor)) (d : LedgerDb) :
    Inv L env limit always (Traversal.start request d) where
  recorded k row hrow := by
    show (d.get k).map (sortInstant k) = _
    rw [show d.get k = some row from hrow, Option.map_some]
  position := ⟨[], rfl, by simp, .asking (.start always) (hserves .first)⟩

/-- A page with a next cursor leaves the reader at the key of its last row. -/
theorem Inv.more (h : Inv L env limit always s) {page : Page T} {cursor : String}
    (hr : s.reader = .asking (.ret page)) (hc : page.next_cursor = some cursor)
    (hserves : ∀ {cursor after}, CursorAt env cursor after →
      Reads (L.page limit after) (request cursor)) :
    Inv L env limit always { s with
      reader := .asking (request (some cursor)), items := s.items ++ page.items } := by
  obtain ⟨seen, hseen, hknown, hpos⟩ := h.position
  rw [hr] at hpos
  cases hpos with
  | asking hcov hreads => cases hreads
  | @answered after d hcov hd =>
      dsimp only [Listing.page] at hc
      split at hc
      · obtain ⟨l, hl, hcursor⟩ := Option.map_eq_some_iff.mp hc
        have hlast : Known L env s.history l :=
          hd.known_page (List.mem_of_getLast? hl)
        refine ⟨h.recorded, seen ++ Keyset.page L.key limit after (L.rows d), ?_, ?_, ?_⟩
        · rw [List.map_append, ← hseen]
          rfl
        · intro r hr
          rcases List.mem_append.mp hr with hr | hr
          · exact hknown r hr
          · exact hd.known_page hr
        · have hnext := hcov.next (L.nodup_key d) hd.holds hl
          rw [← List.map_append] at hnext
          rw [← hcursor]
          exact .asking hnext (hserves (.issued l.1 hlast.readable))
      · exact absurd hc (by simp)

/-- A page without one has every row that was left. -/
theorem Inv.stop (h : Inv L env limit always s) (hlimit : 1 ≤ limit) {page : Page T}
    (hr : s.reader = .asking (.ret page)) (hc : page.next_cursor = none) :
    Inv L env limit always
      { s with reader := .finished, items := s.items ++ page.items } := by
  obtain ⟨seen, hseen, hknown, hpos⟩ := h.position
  rw [hr] at hpos
  cases hpos with
  | asking hcov hreads => cases hreads
  | @answered after d hcov hd =>
      have hshort : (Keyset.page L.key limit after (L.rows d)).length < limit := by
        refine lt_of_le_of_ne Keyset.length_page_le fun hfull => ?_
        dsimp only [Listing.page] at hc
        rw [if_pos hfull, Option.map_eq_none_iff, List.getLast?_eq_none_iff] at hc
        rw [hc, List.length_nil] at hfull
        omega
      refine ⟨h.recorded, seen ++ Keyset.page L.key limit after (L.rows d), ?_, ?_, ?_⟩
      · rw [List.map_append, ← hseen]
        rfl
      · intro r hr
        rcases List.mem_append.mp hr with hr | hr
        · exact hknown r hr
        · exact hd.known_page hr
      · have hdone := hcov.finish (L.nodup_key d) hd.holds hshort
        rw [← List.map_append] at hdone
        exact .finished hdone

theorem Inv.step (h : Inv L env limit always s) (hlimit : 1 ≤ limit)
    (hserves : ∀ {cursor after}, CursorAt env cursor after →
      Reads (L.page limit after) (request cursor))
    (hread : Readable env s.db)
    (hholds : ∀ k, always k → ∃ r ∈ L.rows s.db, L.key r = k)
    (hs : Step request s s') : Inv L env limit always s' := by
  cases hs with
  | @insert k row hnew =>
      refine h.write (fun k' row' hrow' => ?_) (fun k' t ht => ?_) rfl rfl
      · dsimp only at hrow' ⊢
        by_cases hk : k' = k
        · subst hk
          rw [Db.get_set_self] at hrow'
          injection hrow' with hrow'
          rw [Function.update_self, hrow']
        · rw [Db.get_set_ne _ _ hk] at hrow'
          rw [Function.update_of_ne hk]
          exact h.recorded _ _ hrow'
      · have hk : k' ≠ k := by
          intro hk
          rw [hk, hnew] at ht
          exact absurd ht (by simp)
        dsimp only
        rw [Function.update_of_ne hk, ht]
  | @update k row row' hrow hsame =>
      refine h.write (fun k' row'' hrow' => ?_) (fun k' t ht => ht) rfl rfl
      dsimp only at hrow' ⊢
      by_cases hk : k' = k
      · subst hk
        rw [Db.get_set_self] at hrow'
        injection hrow' with hrow'
        rw [h.recorded _ _ hrow, ← hrow', hsame]
      · rw [Db.get_set_ne _ _ hk] at hrow'
        exact h.recorded _ _ hrow'
  | @delete k =>
      refine h.write (fun k' row' hrow' => ?_) (fun k' t ht => ht) rfl rfl
      dsimp only at hrow' ⊢
      by_cases hk : k' = k
      · subst hk
        rw [Db.get_set_self] at hrow'
        exact absurd hrow' (by simp)
      · rw [Db.get_set_ne _ _ hk] at hrow'
        exact h.recorded _ _ hrow'
  | @read next hr =>
      have hsnap := h.snapshot hread hholds
      obtain ⟨seen, hseen, hknown, hpos⟩ := h.position
      refine ⟨h.recorded, seen, hseen, hknown, ?_⟩
      rw [hr] at hpos
      cases hpos with
      | asking hcov hreads =>
          cases hreads with
          | last => exact .answered hcov hsnap
          | check hnext => exact .asking hcov (hnext _)
  | more hr hc => exact h.more hr hc hserves
  | stop hr hc => exact h.stop hlimit hr hc

theorem Inv.walk {P : LedgerDb → Prop} (hlimit : 1 ≤ limit)
    (hserves : ∀ {cursor after}, CursorAt env cursor after →
      Reads (L.page limit after) (request cursor))
    (hread : ∀ d, P d → Readable env d)
    (hholds : ∀ d, P d → ∀ k, always k → ∃ r ∈ L.rows d, L.key r = k)
    (hw : Walk request P s) : Inv L env limit always s := by
  have hrun : Inv L env limit always s ∧ P s.db := by
    induction hw with
    | start h => exact ⟨.start hserves _, h⟩
    | step _ hs h ih => exact ⟨ih.1.step hlimit hserves (hread _ ih.2) (hholds _ ih.2) hs, h⟩
  exact hrun.1

/-! ## What the client has -/

/-- The key of an item, as Postgres reads its text. -/
def wireKey (env : Env) (time : String) (id : Uuid) : Option SortKey :=
  (env.pgTimestamptzIn time).map fun t => toLex (t, id)

/-- No id twice, and one key below the other all the way. -/
structure Descending (env : Env) (time : T → String) (id : T → Uuid) (items : List T) :
    Prop where
  nodup : (items.map id).Nodup
  decreasing : ∃ keys : List SortKey,
    items.map (fun x => wireKey env (time x) (id x)) = keys.map some
      ∧ keys.Pairwise (· > ·)

theorem wireKey_wire {r : Uuid × ρ} (h : Known L env history r) :
    wireKey env (L.time (L.wire r)) (L.id (L.wire r)) = some (L.key r) := by
  rw [wireKey, L.time_wire, L.id_wire, show env.pgTimestamptzIn _ = _ from h.readable]
  rfl

/-- Two rows of one id are in the history under one instant, so they have one
key, and no key comes twice. -/
theorem descending (hknown : ∀ r ∈ seen, Known L env history r)
    (hdec : (seen.map L.key).Pairwise (· > ·)) :
    Descending env L.time L.id (seen.map L.wire) where
  nodup := by
    rw [List.map_map, List.Nodup, List.pairwise_map]
    rw [List.pairwise_map] at hdec
    refine hdec.imp_of_mem fun {r r'} hr hr' hlt heq => ?_
    have hid : r.1 = r'.1 := by
      simpa only [Function.comp_apply, L.id_wire] using heq
    have h₁ := (hknown r hr).recorded
    have h₂ := (hknown r' hr').recorded
    rw [hid, h₂] at h₁
    injection h₁ with h₁
    have hkey : L.key r = L.key r' := by rw [Listing.key, Listing.key, hid, h₁]
    rw [hkey] at hlt
    exact lt_irrefl _ hlt
  decreasing := by
    refine ⟨seen.map L.key, ?_, hdec⟩
    rw [List.map_map, List.map_map]
    exact List.map_congr_left fun r hr => wireKey_wire (hknown r hr)

theorem Inv.descending (h : Inv L env limit always s) :
    Descending env L.time L.id s.items := by
  obtain ⟨seen, hseen, hknown, hpos⟩ := h.position
  rw [hseen]
  refine Paging.descending hknown ?_
  generalize s.reader = reader at hpos
  cases hpos with
  | asking hcov _ => exact hcov.decreasing
  | answered hcov _ => exact hcov.decreasing
  | finished hcov => exact hcov.decreasing

/-- At the end every row that has been there all the time is in once. -/
theorem Inv.count (h : Inv L env limit always s) (hdone : s.reader = .finished) {u : Uuid}
    {t : Instant} (hk : always (toLex (t.timestamptz, u))) : (s.items.map L.id).count u = 1 := by
  have hnodup := h.descending.nodup
  obtain ⟨seen, hseen, _, hpos⟩ := h.position
  rw [hdone] at hpos
  cases hpos with
  | finished hcov =>
      obtain ⟨r, hr, hkey⟩ := List.mem_map.mp (hcov.reached _ hk)
      have hid : L.id (L.wire r) = u := by
        rw [L.id_wire]
        exact congrArg (fun k : SortKey => (ofLex k).2) hkey
      refine List.count_eq_one_of_mem hnodup ?_
      rw [hseen, List.map_map, ← hid]
      exact List.mem_map_of_mem hr

end Invariant

/-- In `d` the user has the transaction `u`, booked at `bookedAt`, and the filter
lets it through. -/
def HasTransaction (user : AuthUser) (accountId : Option String) (u : Uuid)
    (bookedAt : Instant) (d : LedgerDb) : Prop :=
  ∃ row owner, d.get (.transaction u) = some row ∧ row.bookedAt = bookedAt
    ∧ d.get (.account row.accountId) = some owner ∧ owner.userId = user.id
    ∧ ∀ a, truthy accountId = some a → pgUuidIn a = some row.accountId

def HasAccount (user : AuthUser) (u : Uuid) (createdAt : Instant) (d : LedgerDb) : Prop :=
  ∃ row, d.get (.account u) = some row ∧ row.createdAt = createdAt ∧ row.userId = user.id

theorem HasTransaction.mem_rows {env : Env} {user : AuthUser} {accountId : Option String}
    {u : Uuid} {bookedAt : Instant} {d : LedgerDb}
    (h : HasTransaction user accountId u bookedAt d) :
    ∃ r ∈ (transactions env user (filterAccount accountId)).rows d,
      (transactions env user (filterAccount accountId)).key r
        = toLex (bookedAt.timestamptz, u) := by
  obtain ⟨row, owner, hrow, hbooked, howner, huser, hfilter⟩ := h
  refine ⟨(u, row), mem_ownedTransactions.mpr ⟨hrow, ⟨owner, howner, huser⟩, ?_⟩, ?_⟩
  · intro a ha
    obtain ⟨text, htext, hread⟩ := Option.bind_eq_some_iff.mp ha
    have := hfilter text htext
    rw [hread] at this
    injection this with this
    exact this.symm
  · rw [← hbooked]
    rfl

theorem HasAccount.mem_rows {user : AuthUser} {u : Uuid} {createdAt : Instant}
    {d : LedgerDb} (h : HasAccount user u createdAt d) :
    ∃ r ∈ (accounts user).rows d,
      (accounts user).key r = toLex (createdAt.timestamptz, u) := by
  obtain ⟨row, hrow, hcreated, huser⟩ := h
  refine ⟨(u, row), mem_ownedAccounts.mpr ⟨hrow, huser⟩, ?_⟩
  rw [← hcreated]
  rfl

/-- Following `next_cursor` from the first page, whatever is written meanwhile:
the items go strictly down and none comes twice, and once there is no next page
each row that has been there all the time has come exactly once. -/
theorem paging_complete {env : Env} {user : AuthUser} {limit : Nat}
    (hlimit : 1 ≤ limit ∧ limit ≤ 100) :
    (∀ accountId s,
      Walk (fun c => TransactionsService.list env user limit c accountId) (Readable env) s →
        Descending env (·.booked_at) (·.id) s.items)
    ∧ (∀ accountId u bookedAt s,
      Walk (fun c => TransactionsService.list env user limit c accountId)
        (fun d => Readable env d ∧ HasTransaction user accountId u bookedAt d) s →
        s.reader = .finished → (s.items.map (·.id)).count u = 1)
    ∧ (∀ s,
      Walk (fun c => AccountsService.list env user limit c) (Readable env) s →
        Descending env (·.created_at) (·.id) s.items)
    ∧ (∀ u createdAt s,
      Walk (fun c => AccountsService.list env user limit c)
        (fun d => Readable env d ∧ HasAccount user u createdAt d) s →
        s.reader = .finished → (s.items.map (·.id)).count u = 1) := by
  refine ⟨fun accountId s hw => ?_, fun accountId u bookedAt s hw hdone => ?_,
    fun s hw => ?_, fun u createdAt s hw hdone => ?_⟩
  · have hinv : Inv (transactions env user (filterAccount accountId)) env limit
        (fun _ => False) s :=
      .walk hlimit.1 (reads_transactions user limit accountId) (fun _ h => h)
        (fun _ _ _ hk => hk.elim) hw
    exact hinv.descending
  · have hinv : Inv (transactions env user (filterAccount accountId)) env limit
        (fun k => k = toLex (bookedAt.timestamptz, u)) s :=
      .walk hlimit.1 (reads_transactions user limit accountId) (fun _ h => h.1)
        (fun _ h k hk => by rw [hk]; exact h.2.mem_rows) hw
    exact hinv.count hdone rfl
  · have hinv : Inv (accounts user) env limit (fun _ => False) s :=
      .walk hlimit.1 (reads_accounts user limit) (fun _ h => h)
        (fun _ _ _ hk => hk.elim) hw
    exact hinv.descending
  · have hinv : Inv (accounts user) env limit
        (fun k => k = toLex (createdAt.timestamptz, u)) s :=
      .walk hlimit.1 (reads_accounts user limit) (fun _ h => h.1)
        (fun _ h k hk => by rw [hk]; exact h.2.mem_rows) hw
    exact hinv.count hdone rfl

/-! A walk over one transaction in pages of one: a later one is booked after the
first page has been read, and the second page is empty. -/

def pageEnv : Env where
  users := [1]
  currencies := ["UAH"]
  categories := []
  instruments := []
  fxRates := []
  cache := []
  drift := false
  newDate := fun _ => none
  pgTimestamptzIn := fun s =>
    ([1787659200000, 1787659260000].find? fun t => toISOString t = s).map
      Instant.timestamptz
  numberText := fun x => toString x.num

def pageUser : AuthUser := ⟨1, .viewer, 0, 0, 0⟩

def pageRow (bookedAt : Instant) : TransactionRow where
  accountId := 7
  instrumentId := none
  categoryId := none
  currency := "UAH"
  type := .income
  status := .posted
  amountCents := 50
  fxRate := Numeric.one
  quantityMicro := none
  unitPrice := none
  bookedAt := bookedAt
  description := none
  createdAt := bookedAt

def pageOwner : AccountRow := ⟨1, "UAH", "cash", .cash, 50, false, 1787659200000⟩

def pageDb : LedgerDb :=
  (Db.empty.set (.account 7) (some pageOwner)).set (.transaction 20)
    (some (pageRow 1787659200000))

def pageDb' : LedgerDb := pageDb.set (.transaction 21) (some (pageRow 1787659260000))

theorem readable_of_keys {env : Env} {d : LedgerDb}
    (h : ∀ k ∈ d.keys, (d.get k).all (fun row =>
      decide (env.pgTimestamptzIn (toISOString (sortInstant k row))
        = some (sortInstant k row).timestamptz)) = true) : Readable env d := by
  intro k row hrow
  have hk := h k ((d.mem_keys k).mpr (by rw [hrow]; rfl))
  rw [hrow] at hk
  rw [Option.all_some, decide_eq_true_eq] at hk
  exact hk

abbrev pageRequest (cursor : Option String) : LedgerProg (Page TransactionResponse) :=
  TransactionsService.list pageEnv pageUser 1 cursor none

theorem pageRequest_eq {cursor : Option String} {after : Option SortKey}
    (h : CursorAt pageEnv cursor after) :
    pageRequest cursor = .query ((transactions pageEnv pageUser none).page 1 after) :=
  transactionsList_eq pageUser 1 h rfl

theorem paging_complete_sample :
    ∃ s : Traversal TransactionResponse, s.reader = .finished
      ∧ (s.items.map (·.id)).count 20 = 1 := by
  let L := transactions pageEnv pageUser none
  let row := pageRow 1787659200000
  let P := fun d => Readable pageEnv d ∧ HasTransaction pageUser none 20 1787659200000 d
  have hP : P pageDb :=
    ⟨readable_of_keys (by decide +kernel), row, pageOwner, by decide +kernel, rfl,
      by decide +kernel, rfl, by simp [truthy]⟩
  have hP' : P pageDb' :=
    ⟨readable_of_keys (by decide +kernel), row, pageOwner, by decide +kernel, rfl,
      by decide +kernel, rfl, by simp [truthy]⟩
  have hback : ReadsBack pageEnv 1787659200000 := by
    unfold ReadsBack
    decide +kernel
  have hfull : Keyset.page L.key 1 none (L.rows pageDb) = [(20, row)] := by decide +kernel
  have hempty : (Keyset.page L.key 1 (some (L.key (20, row))) (L.rows pageDb')).length < 1 := by
    decide +kernel
  have hnew : (Traversal.start pageRequest pageDb).history (.transaction 21) = none := by
    decide +kernel
  have h₀ : Walk pageRequest P (Traversal.start pageRequest pageDb) := .start hP
  have h₁ := h₀.read (congrArg Reader.asking (pageRequest_eq .first))
  have h₂ := h₁.more rfl (L.next_cursor_full hfull rfl)
  have h₃ := h₂.insert (.transaction 21) (pageRow 1787659260000) hnew hP'
  have h₄ := h₃.read (congrArg Reader.asking (pageRequest_eq (.issued 20 hback)))
  have h₅ := h₄.stop rfl (L.next_cursor_short hempty)
  exact ⟨_, rfl, (paging_complete (by omega)).2.1 none 20 1787659200000 _ h₅ rfl⟩

end InvestApi.Paging
