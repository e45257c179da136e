import InvestApi.Fx.Corrections

/-!
# Instances that sync at once

No lock keeps two instances from syncing at the same time, nor two currencies of
one. It costs nothing: what is written for a day is NBU's quote of it, whoever
writes it, and a sync that begins while others are under way takes up from a day
below which nothing is missing. So once some instance has synced a currency, the
table holds of it what one sync alone would have put there, whoever else fetched,
wrote or failed in the meantime.
-/

namespace InvestApi.Ref

open InvestApi.Lts

variable {ι : Type}

/-! ## One sync alone -/

/-- A statement for each chunk, until no row is left. -/
def FxStore.upsertMany (source : String) (S : FxStore) :
    List FxRateRow → Except ApiError FxStore
  | [] => .ok S
  | row :: rows =>
      match S.upsert source ((row :: rows).take UPSERT_CHUNK) with
      | .error e => .error e
      | .ok S' => upsertMany source S' ((row :: rows).drop UPSERT_CHUNK)
  termination_by rows => rows.length
  decreasing_by
    rw [List.length_drop, List.length_cons, UPSERT_CHUNK]
    omega

/-- `syncCurrency` with nobody else about, and NBU answering. -/
def FxStore.syncCurrency (S : FxStore) (archive : NbuArchive) (backfillFrom toDate : String)
    (currency : QuotedCurrency) : Except ApiError FxStore :=
  let fromDate := ((S.findLastDates NBU_SOURCE).lookup currency.code).getD backfillFrom
  let quotes := archive.quotes.filter fun q =>
    (nbuRequest currency fromDate toDate).covers q.day
  S.upsertMany NBU_SOURCE (quotes.map fun q => q.row currency.code)

theorem FxStore.upsert_stored {S : FxStore} {source : String} {rows : List FxRateRow}
    {stored : List StoredFxRate}
    (h : List.Forall₂ (fun row r => StoredFxRate.ofRow source row = .ok r) rows stored)
    (hn : (stored.map StoredFxRate.sortKey).Nodup) :
    S.upsert source rows = .ok (stored.foldl put S) := by
  have hmap : rows.mapM (StoredFxRate.ofRow source) = .ok stored := by
    induction h with
    | nil => rfl
    | cons hrow _ ih =>
        rw [List.map_cons, List.nodup_cons] at hn
        rw [List.mapM_cons, hrow, ih hn.2]
        rfl
  rw [upsert, hmap]
  exact if_pos hn

/-- The chunks together are one upsert. -/
theorem FxStore.upsertMany_stored {source : String} {stored : List StoredFxRate} {S : FxStore}
    {rows : List FxRateRow}
    (h : List.Forall₂ (fun row r => StoredFxRate.ofRow source row = .ok r) rows stored)
    (hn : (stored.map StoredFxRate.sortKey).Nodup) :
    S.upsertMany source rows = .ok (stored.foldl put S) := by
  induction hlen : rows.length using Nat.strong_induction_on generalizing S rows stored with
  | _ n ih =>
      cases rows with
      | nil =>
          cases h
          rw [upsertMany]
          rfl
      | cons row rows =>
          have htake := List.forall₂_take UPSERT_CHUNK h
          have hdrop := List.forall₂_drop UPSERT_CHUNK h
          have hsplit := List.take_append_drop UPSERT_CHUNK stored
          rw [← hsplit, List.map_append, List.nodup_append] at hn
          rw [upsertMany, upsert_stored htake hn.1]
          dsimp only
          rw [ih _ ?_ hdrop hn.2.1 rfl, ← List.foldl_append, hsplit]
          rw [List.length_drop, ← hlen, List.length_cons, UPSERT_CHUNK]
          omega

/-! ## What the table holds meanwhile -/

/-- The day a sync of the currency over `S` begins at. -/
def FxStore.Resumes (S : FxStore) (backfill : Int) (code : String) (first : Int) : Prop :=
  S.LastDay NBU_SOURCE code first ∨
    (∀ r ∈ S.rows, r.source = NBU_SOURCE → r.currency ≠ code) ∧ first = backfill

/-- The currency's row of the day is the quote. -/
def FxStore.Holds (S : FxStore) (code : String) (q : NbuQuote) : Prop :=
  ∃ r ∈ S.rows, r.currency = code ∧ r.OfQuote q

/-- The days from `first` on that are before `day` are as NBU quotes them. -/
def FxStore.Caught (S : FxStore) (A : String → NbuArchive) (first : String → Int)
    (code : String) (day : Int) : Prop :=
  ∀ q ∈ (A code.toLower).quotes, first code ≤ q.day → q.day < day → S.Holds code q

/-- What a task still has to write, and with it nothing is missing up to `last`, nor
up to any of the days it writes. -/
structure Filling (A : String → NbuArchive) (first : String → Int) (last : Int)
    (S : FxStore) (code : String) (quotes : List NbuQuote) : Prop where
  quoted : ∀ q ∈ quotes, q ∈ (A code.toLower).quotes ∧ first code ≤ q.day
  ascending : quotes.Pairwise fun p q => p.day < q.day
  before : ∀ q ∈ quotes, ∀ p ∈ (A code.toLower).quotes, first code ≤ p.day →
    p.day ≤ q.day → S.Holds code p ∨ p ∈ quotes
  reaches : ∀ p ∈ (A code.toLower).quotes, first code ≤ p.day → p.day ≤ last →
    S.Holds code p ∨ p ∈ quotes

def SyncTask.Fills (A : String → NbuArchive) (first : String → Int) (last : Int)
    (S : FxStore) : SyncTask → Prop
  | .fetching currency fromDate toDate => ∃ day upTo : Int,
      fromDate = String.ofList (dateText day) ∧ Dated day ∧ first currency.code ≤ day ∧
        S.Caught A first currency.code day ∧ nbuDateIn (toNbuParam toDate) = some upTo ∧
        last ≤ upTo
  | .upserting currency _ rows => ∃ quotes : List NbuQuote,
      rows = quotes.map (fun q => q.row currency.code) ∧
        Filling A first last S currency.code quotes
  | .synced currency _ => S.Caught A first currency.code (last + 1)
  | .failed _ => True

/-- The tasks of a boot, ended or not. -/
def Boot.tasks : Boot → List SyncTask
  | .off => []
  | .syncing tasks => tasks
  | .serving tasks _ => tasks

/-- The table `S₀` with some of NBU's days from `first` on written over it. -/
structure FxStore.Overlays (S : FxStore) (A : String → NbuArchive) (first : String → Int)
    (S₀ : FxStore) : Prop where
  rows : ∀ r ∈ S.rows, r.source = NBU_SOURCE → r ∈ S₀.rows ∨
    ∃ q ∈ (A r.currency.toLower).quotes, first r.currency ≤ q.day ∧ r.OfQuote q
  kept : ∀ r ∈ S₀.rows, r.source = NBU_SOURCE → r ∈ S.rows ∨
    ∃ q ∈ (A r.currency.toLower).quotes, first r.currency ≤ q.day ∧ q.day = r.rateDate ∧
      S.Holds r.currency q
  gapless : ∀ r ∈ S.rows, r.source = NBU_SOURCE → S.Caught A first r.currency r.rateDate

structure TogetherInv (A : String → NbuArchive) (first : String → Int) (last : Int)
    (S₀ : FxStore) (w : FxWorld ι) : Prop where
  archive : w.archive = A
  store : w.store.Overlays A first S₀
  tasks : ∀ i, ∀ t ∈ (w.boots i).tasks, t.Fills A first last w.store

section Holds

variable {A : String → NbuArchive} {first : String → Int} {last : Int} {S S' : FxStore}

/-- No day NBU has is any worse in `S'`. -/
def FxStore.Improves (A : String → NbuArchive) (S S' : FxStore) : Prop :=
  ∀ code, ∀ q ∈ (A code.toLower).quotes, S.Holds code q → S'.Holds code q

theorem FxStore.Caught.later {code : String} {day : Int} (h : S.Caught A first code day)
    (hl : S.Improves A S') : S'.Caught A first code day :=
  fun q hq hfirst hlt => hl code q hq (h q hq hfirst hlt)

theorem Filling.later {code : String} {quotes : List NbuQuote}
    (h : Filling A first last S code quotes) (hl : S.Improves A S') :
    Filling A first last S' code quotes where
  quoted := h.quoted
  ascending := h.ascending
  before q hq p hp hfirst hle := (h.before q hq p hp hfirst hle).imp_left (hl code p hp)
  reaches p hp hfirst hle := (h.reaches p hp hfirst hle).imp_left (hl code p hp)

theorem SyncTask.Fills.later {t : SyncTask} (h : t.Fills A first last S)
    (hl : S.Improves A S') : t.Fills A first last S' := by
  cases t with
  | fetching currency fromDate toDate =>
      obtain ⟨day, upTo, htext, hdated, hfirst, hcaught, hto, hlast⟩ := h
      exact ⟨day, upTo, htext, hdated, hfirst, hcaught.later hl, hto, hlast⟩
  | upserting currency answered rows =>
      obtain ⟨quotes, hrows, hfill⟩ := h
      exact ⟨quotes, hrows, hfill.later hl⟩
  | synced currency answered => exact FxStore.Caught.later h hl
  | failed currency => trivial

/-- Where nothing is left to write, everything up to `last` is in. -/
theorem Filling.chunks {currency : QuotedCurrency} {answered : NbuArchive}
    {quotes : List NbuQuote} (h : Filling A first last S currency.code quotes) :
    (SyncTask.chunks currency answered (quotes.map fun q => q.row currency.code)).Fills
      A first last S := by
  cases quotes with
  | nil =>
      show S.Caught A first currency.code (last + 1)
      intro q hq hfirst hlt
      exact (h.reaches q hq hfirst (by omega)).resolve_right List.not_mem_nil
  | cons q quotes => exact ⟨q :: quotes, rfl, h⟩

end Holds

/-! ## One upsert -/

section Upsert

variable {A : String → NbuArchive} {first : String → Int} {last : Int} {S₀ S S' : FxStore}
  {code : String} {chunk : List NbuQuote}

/-- What one statement writes of NBU's quotes. -/
structure ChunkWritten (S S' : FxStore) (code : String) (chunk : List NbuQuote) : Prop where
  holds : ∀ q ∈ chunk, S'.Holds code q
  rows : ∀ r ∈ S'.rows, r ∈ S.rows ∨ ∃ q ∈ chunk, r.currency = code ∧ r.OfQuote q
  kept : ∀ r ∈ S.rows, r ∈ S'.rows ∨ ∃ q ∈ chunk, r.currency = code ∧ q.day = r.rateDate

theorem written_of_upsert
    (hdated : ∀ q ∈ chunk, 1 ≤ (civil q.day).1 ∧ (civil q.day).1 ≤ 9999)
    (h : S.upsert NBU_SOURCE (chunk.map fun q => q.row code) = .ok S') :
    ChunkWritten S S' code chunk := by
  obtain ⟨stored, hstored, hmem⟩ := FxStore.upsert_ok h
  obtain ⟨hleft, hright⟩ := mem_of_forall₂ hstored
  have hquote : ∀ {q : NbuQuote} {r : StoredFxRate},
      StoredFxRate.ofRow NBU_SOURCE (q.row code) = .ok r → r.currency = code ∧ r.OfQuote q := by
    intro q r hof
    have hc : r.currency = code := (StoredFxRate.ofRow_ok hof).2.1
    exact ⟨hc, by rw [StoredFxRate.OfQuote, hc]; exact hof⟩
  refine ⟨fun q hq => ?_, fun r hr => ?_, fun r hr => ?_⟩
  · obtain ⟨r, hr, hof⟩ := hleft _ (List.mem_map_of_mem hq)
    exact ⟨r, (hmem r).mpr (Or.inl hr), hquote hof⟩
  · rcases (hmem r).mp hr with hnew | ⟨hold, _⟩
    · obtain ⟨row, hrow, hof⟩ := hright r hnew
      obtain ⟨q, hq, rfl⟩ := List.mem_map.mp hrow
      exact Or.inr ⟨q, hq, hquote hof⟩
    · exact Or.inl hold
  · by_cases hkey : r.sortKey ∈ stored.map StoredFxRate.sortKey
    · obtain ⟨r', hr', hsame⟩ := List.mem_map.mp hkey
      obtain ⟨row, hrow, hof⟩ := hright r' hr'
      obtain ⟨q, hq, rfl⟩ := List.mem_map.mp hrow
      obtain ⟨hc, hquoted⟩ := hquote hof
      obtain ⟨hc', hd', _⟩ := StoredFxRate.sortKey_eq_iff.mp hsame
      have hday := (hquoted.day (hdated q hq)).2
      exact Or.inr ⟨q, hq, hc'.symm.trans hc, hday.symm.trans hd'⟩
    · exact Or.inl ((hmem r).mpr (Or.inr ⟨hr, hkey⟩))

/-- NBU's own quotes are written over by themselves only. -/
theorem ChunkWritten.improves (h : ChunkWritten S S' code chunk)
    (hquoted : ∀ q ∈ chunk, q ∈ (A code.toLower).quotes) : S.Improves A S' := by
  rintro code' q hq ⟨r, hr, rfl, hof⟩
  rcases h.kept r hr with hkept | ⟨p, hp, hcode, hday⟩
  · exact ⟨r, hkept, rfl, hof⟩
  · rw [hcode] at hq ⊢
    have hsame : p.day = q.day := hday.trans (hof.day ((A _).dated q hq)).2
    rw [← NbuArchive.eq_of_day (hquoted p hp) hq hsame]
    exact h.holds p hp

theorem ChunkWritten.overlays (h : ChunkWritten S S' code chunk) (ho : S.Overlays A first S₀)
    (hquoted : ∀ q ∈ chunk, q ∈ (A code.toLower).quotes ∧ first code ≤ q.day)
    (hbefore : ∀ q ∈ chunk, ∀ p ∈ (A code.toLower).quotes, first code ≤ p.day →
      p.day < q.day → S.Holds code p ∨ p ∈ chunk) :
    S'.Overlays A first S₀ := by
  have hl : S.Improves A S' := h.improves fun q hq => (hquoted q hq).1
  refine ⟨fun r hr hs => ?_, fun r hr hs => ?_, fun r hr hs => ?_⟩
  · rcases h.rows r hr with hold | ⟨q, hq, rfl, hof⟩
    · exact ho.rows r hold hs
    · exact Or.inr ⟨q, (hquoted q hq).1, (hquoted q hq).2, hof⟩
  · rcases ho.kept r hr hs with hin | ⟨q, hq, hfirst, hday, hholds⟩
    · rcases h.kept r hin with hkept | ⟨q, hq, rfl, hday⟩
      · exact Or.inl hkept
      · exact Or.inr ⟨q, (hquoted q hq).1, (hquoted q hq).2, hday, h.holds q hq⟩
    · exact Or.inr ⟨q, hq, hfirst, hday, hl _ q hq hholds⟩
  · rcases h.rows r hr with hold | ⟨q, hq, rfl, hof⟩
    · exact (ho.gapless r hold hs).later hl
    · intro p hp hfirst hlt
      rw [(hof.day ((A _).dated q (hquoted q hq).1)).2] at hlt
      rcases hbefore q hq p hp hfirst hlt with hholds | hin
      · exact hl _ p hp hholds
      · exact h.holds p hin

/-- A chunk of what a task has to write. -/
theorem Filling.upsert {quotes : List NbuQuote} (h : Filling A first last S code quotes)
    (ho : S.Overlays A first S₀) {n : Nat}
    (hstore : S.upsert NBU_SOURCE ((quotes.map fun q => q.row code).take n) = .ok S') :
    S'.Overlays A first S₀ ∧ S.Improves A S' ∧ Filling A first last S' code (quotes.drop n) := by
  have hquoted : ∀ q ∈ quotes.take n, q ∈ (A code.toLower).quotes ∧ first code ≤ q.day :=
    fun q hq => h.quoted q (List.mem_of_mem_take hq)
  have hasc := h.ascending
  rw [← List.take_append_drop n quotes, List.pairwise_append] at hasc
  have hsplit : ∀ q ∈ quotes, q ∈ quotes.take n ∨ q ∈ quotes.drop n := by
    intro q hq
    rw [← List.take_append_drop n quotes] at hq
    exact List.mem_append.mp hq
  rw [← List.map_take] at hstore
  have hw := written_of_upsert (fun q hq => (A _).dated q (hquoted q hq).1) hstore
  have hl : S.Improves A S' := hw.improves fun q hq => (hquoted q hq).1
  have hleft : ∀ p ∈ (A code.toLower).quotes, S.Holds code p ∨ p ∈ quotes →
      S'.Holds code p ∨ p ∈ quotes.drop n := by
    intro p hp hcase
    rcases hcase with hholds | hin
    · exact Or.inl (hl code p hp hholds)
    · exact (hsplit p hin).imp_left (hw.holds p)
  refine ⟨hw.overlays ho hquoted fun q hq p hp hfirst hlt => ?_, hl, ?_⟩
  · refine (h.before q (List.mem_of_mem_take hq) p hp hfirst (by omega)).imp_right fun hin => ?_
    refine (hsplit p hin).resolve_right fun hdrop => ?_
    have hlater := hasc.2.2 q hq p hdrop
    omega
  · exact
      { quoted := fun q hq => h.quoted q (List.mem_of_mem_drop hq)
        ascending := hasc.2.1
        before := fun q hq p hp hfirst hle =>
          hleft p hp (h.before q (List.mem_of_mem_drop hq) p hp hfirst hle)
        reaches := fun p hp hfirst hle => hleft p hp (h.reaches p hp hfirst hle) }

end Upsert

/-! ## One step -/

/-- NBU keeps still, and tomorrow by the clock of every sync is not before `last`. -/
def KeepsStill (last : Int) (_ : FxWorld ι) : FxEvent ι → Prop
  | .publish _ _ => False
  | .revise _ _ => False
  | .start _ now _ => Dated (now / MS_PER_DAY) ∧ Dated (now / MS_PER_DAY + 1) ∧
      last ≤ now / MS_PER_DAY + 1
  | _ => True

section Steps

variable {A : String → NbuArchive} {first : String → Int} {last backfill : Int}
  {S₀ : FxStore} {w : FxWorld ι}

/-- A sync that begins takes up from a day below which nothing is missing. -/
theorem FxStore.Overlays.start {S : FxStore} (h : S.Overlays A first S₀) (hb : Dated backfill)
    {code : String} (hfirst : S₀.Resumes backfill code (first code)) :
    ∃ day, ((S.findLastDates NBU_SOURCE).lookup code).getD (String.ofList (dateText backfill))
        = String.ofList (dateText day) ∧ Dated day ∧ first code ≤ day ∧
      S.Caught A first code day := by
  rcases S.findLastDates_lookup NBU_SOURCE code with ⟨day, hlast, hlookup⟩ | ⟨hnone, hlookup⟩
  · obtain ⟨⟨r, hr, hs, rfl, rfl⟩, hlatest⟩ := hlast
    obtain ⟨hdated, htext⟩ := toChar_read r.dated
    refine ⟨r.rateDate, by rw [hlookup, Option.getD_some, htext], hdated, ?_, h.gapless r hr hs⟩
    have hquote : ∀ q ∈ (A r.currency.toLower).quotes, r.OfQuote q → q.day = r.rateDate :=
      fun q hq hof => ((hof.day ((A _).dated q hq)).2).symm
    rcases hfirst with ⟨⟨r₀, hr₀, hs₀, hc₀, hd₀⟩, hmax⟩ | ⟨hno, _⟩
    · -- the row of the first day is still there, or one has come in its place
      rcases h.kept r₀ hr₀ hs₀ with hin | ⟨q, hq, _, hday, r', hr', hc', hof⟩
      · exact hd₀ ▸ hlatest r₀ hin hs₀ hc₀
      · obtain ⟨hs', hd'⟩ := hof.day ((A _).dated q hq)
        have hle := hlatest r' hr' hs' (hc'.trans hc₀)
        omega
    · rcases h.rows r hr hs with hold | ⟨q, hq, hle, hof⟩
      · exact absurd rfl (hno r hold hs)
      · rw [← hquote q hq hof]
        exact hle
  · have hfirst' : first code = backfill := by
      rcases hfirst with ⟨⟨r₀, hr₀, hs₀, hc₀, _⟩, _⟩ | ⟨_, heq⟩
      · rcases h.kept r₀ hr₀ hs₀ with hin | ⟨q, hq, _, _, r', hr', hc', hof⟩
        · exact absurd hc₀ (hnone r₀ hin hs₀)
        · exact absurd (hc'.trans hc₀) (hnone r' hr' (hof.day ((A _).dated q hq)).1)
      · exact heq
    refine ⟨backfill, by rw [hlookup]; rfl, hb, hfirst'.le, fun q _ hge hlt => ?_⟩
    omega

/-- What is parsed of an answer is all that is missing. -/
theorem parsed_fills {S : FxStore} {currency : QuotedCurrency} {fromDate toDate : String}
    {answered : NbuArchive} (h : (SyncTask.fetching currency fromDate toDate).Fills A first last S)
    {body : Option (List NbuRecord)} (hanswer : (A currency.code.toLower).Answers
      (nbuRequest currency fromDate toDate) body) :
    (SyncTask.parsed currency answered body).Fills A first last S := by
  obtain ⟨day, upTo, htext, hdated, hfirst, hcaught, hto, hlast⟩ := h
  obtain ⟨records, rfl, hquotes⟩ := hanswer
  rw [SyncTask.parsed]
  split
  · trivial
  next rows hparse =>
  rw [parsed_rows dated_of_covered hquotes hparse]
  have hread : nbuDateIn (nbuRequest currency fromDate toDate).start = some day := by
    rw [htext]
    exact nbuDateIn_dateText hdated
  refine Filling.chunks ⟨fun q hq => ?_, (A _).ascending.filter _, fun q hq p hp hge hle => ?_,
    fun p hp hge hle => ?_⟩
  · obtain ⟨hmem, hge, _⟩ := mem_covered htext hdated hq
    exact ⟨hmem, by omega⟩
  · by_cases hlt : p.day < day
    · exact Or.inl (hcaught p hp hge hlt)
    · exact Or.inr ((mem_covered htext hdated hq).2.2 p hp (by omega) hle)
  · by_cases hlt : p.day < day
    · exact Or.inl (hcaught p hp hge hlt)
    · refine Or.inr (List.mem_filter.mpr ⟨hp, (covers_iff hread).mpr ⟨upTo, hto, ?_, ?_⟩⟩)
      · omega
      · omega

variable [DecidableEq ι]

theorem tasks_setBoot {i j : ι} {b : Boot} {t : SyncTask}
    (ht : t ∈ ((w.setBoot i b).boots j).tasks) :
    t ∈ (w.boots j).tasks ∨ t ∈ b.tasks := by
  by_cases hj : j = i
  · subst hj
    simp only [FxWorld.setBoot, Function.update_self] at ht
    exact Or.inr ht
  · simp only [FxWorld.setBoot, Function.update_of_ne hj] at ht
    exact Or.inl ht

/-- A step of one boot that leaves the table alone. -/
theorem TogetherInv.setBoot (h : TogetherInv A first last S₀ w) {i : ι} {b : Boot}
    (hb : ∀ t ∈ b.tasks, t ∈ (w.boots i).tasks ∨ t.Fills A first last w.store) :
    TogetherInv A first last S₀ (w.setBoot i b) where
  archive := h.archive
  store := h.store
  tasks j t ht := by
    rcases tasks_setBoot ht with hold | hnew
    · exact h.tasks j t hold
    · exact (hb t hnew).elim (h.tasks i t) id

theorem TogetherInv.step (hb : Dated backfill)
    (hfirst : ∀ code, S₀.Resumes backfill code (first code))
    (h : TogetherInv A first last S₀ w) {e : FxEvent ι} {w' : FxWorld ι}
    (hok : KeepsStill last w e) (hstep : w.Step (String.ofList (dateText backfill)) e w') :
    TogetherInv A first last S₀ w' := by
  have task : ∀ {i : ι} {n : Nat} {tasks : List SyncTask} {t : SyncTask},
      w.boots i = .syncing tasks → tasks[n]? = some t → t.Fills A first last w.store := by
    intro i n tasks t hboot htask
    refine h.tasks i t ?_
    rw [hboot]
    exact List.mem_of_getElem? htask
  cases hstep with
  | publish harchive => exact absurd hok id
  | revise harchive => exact absurd hok id
  | @other store hstore =>
      have hsame : ∀ r : StoredFxRate, r.source = NBU_SOURCE →
          (r ∈ store.rows ↔ r ∈ w.store.rows) := fun r hs => mem_other hstore hs
      have hl : w.store.Improves A store := by
        rintro code q hq ⟨r, hr, hc, hof⟩
        have hs := (hof.day ((A _).dated q (hc ▸ hq))).1
        exact ⟨r, (hsame r hs).mpr hr, hc, hof⟩
      refine ⟨h.archive, ⟨fun r hr hs => h.store.rows r ((hsame r hs).mp hr) hs,
        fun r hr hs => ?_, fun r hr hs => (h.store.gapless r ((hsame r hs).mp hr) hs).later hl⟩,
        fun i t ht => (h.tasks i t ht).later hl⟩
      rcases h.store.kept r hr hs with hin | ⟨q, hq, hge, hday, hholds⟩
      · exact Or.inl ((hsame r hs).mpr hin)
      · exact Or.inr ⟨q, hq, hge, hday, hl _ q hq hholds⟩
  | @start i now currencies toDate hoff hto =>
      obtain ⟨hnow, hnext, hle⟩ := hok
      obtain ⟨day, hday⟩ : ∃ day, now / MS_PER_DAY = day := ⟨_, rfl⟩
      rw [hday] at hnow hnext hle
      rw [addDays_dated hday hnow hnext] at hto
      obtain rfl := Option.some.inj hto
      refine h.setBoot fun t ht => Or.inr ?_
      obtain ⟨currency, _, rfl⟩ := List.mem_map.mp ht
      obtain ⟨from₀, htext, hdated, hge, hcaught⟩ := h.store.start hb (hfirst currency.code)
      exact ⟨from₀, day + 1, htext, hdated, hge, hcaught, nbuDateIn_dateText hnext, hle⟩
  | skip hoff => exact h.setBoot fun t ht => absurd ht List.not_mem_nil
  | @fetch i n body tasks currency fromDate toDate hboot htask hanswer =>
      refine h.setBoot fun t ht => ?_
      rw [hboot]
      rcases List.mem_or_eq_of_mem_set ht with hold | rfl
      · exact Or.inl hold
      · rw [h.archive] at hanswer
        exact Or.inr (parsed_fills (task hboot htask) hanswer)
  | @upsert i n tasks currency answered rows store hboot htask hstore =>
      obtain ⟨quotes, rfl, hfill⟩ := task hboot htask
      obtain ⟨hover, hl, hleft⟩ := hfill.upsert h.store hstore
      refine ⟨h.archive, hover, fun j t ht => ?_⟩
      rcases tasks_setBoot (w := w) ht with hold | hnew
      · exact (h.tasks j t hold).later hl
      · rcases List.mem_or_eq_of_mem_set hnew with hold | rfl
        · refine (h.tasks i t ?_).later hl
          rw [hboot]
          exact hold
        · rw [← List.map_drop]
          exact hleft.chunks
  | @fail i n tasks task' hboot htask hrunning =>
      refine h.setBoot fun t ht => ?_
      rw [hboot]
      rcases List.mem_or_eq_of_mem_set ht with hold | rfl
      · exact Or.inl hold
      · exact Or.inr trivial
  | load hboot hdone =>
      refine h.setBoot fun t ht => Or.inl ?_
      rw [hboot]
      exact ht
  | unloaded hboot hdone =>
      refine h.setBoot fun t ht => Or.inl ?_
      rw [hboot]
      exact ht

end Steps

/-! ## Every run -/

section Runs

variable {backfill last : Int} {S₀ : FxStore} {A : String → NbuArchive}
  {first : String → Int}

theorem FxStore.exists_resumes (S : FxStore) (backfill : Int) (code : String) :
    ∃ first, S.Resumes backfill code first := by
  rcases S.findLastDates_lookup NBU_SOURCE code with ⟨day, hlast, _⟩ | ⟨hnone, _⟩
  · exact ⟨day, Or.inl hlast⟩
  · exact ⟨backfill, Or.inr ⟨hnone, rfl⟩⟩

theorem FxStore.Resumes.text {day : Int} {code : String} (hb : Dated backfill)
    (h : S₀.Resumes backfill code day) :
    ((S₀.findLastDates NBU_SOURCE).lookup code).getD (String.ofList (dateText backfill))
      = String.ofList (dateText day) ∧ Dated day := by
  rcases S₀.findLastDates_lookup NBU_SOURCE code with
    ⟨day', ⟨⟨r, hr, hs, hc, rfl⟩, hlatest⟩, hlookup⟩ | ⟨hnone, hlookup⟩
  · rcases h with ⟨⟨r', hr', hs', hc', rfl⟩, hlatest'⟩ | ⟨hno, _⟩
    · obtain ⟨hdated, htext⟩ := toChar_read r.dated
      have hsame : r'.rateDate = r.rateDate :=
        le_antisymm (hlatest r' hr' hs' hc') (hlatest' r hr hs hc)
      rw [hlookup, Option.getD_some, htext, hsame]
      exact ⟨rfl, hdated⟩
    · exact absurd hc (hno r hr hs)
  · rcases h with ⟨⟨r, hr, hs, hc, _⟩, _⟩ | ⟨_, rfl⟩
    · exact absurd hc (hnone r hr hs)
    · rw [hlookup]
      exact ⟨rfl, hb⟩

theorem FxStore.Overlays.refl (hfirst : ∀ code, S₀.Resumes backfill code (first code)) :
    S₀.Overlays A first S₀ where
  rows r hr _ := Or.inl hr
  kept r hr _ := Or.inl hr
  gapless r hr hs q _ hge hlt := by
    rcases hfirst r.currency with hlast | ⟨hnone, _⟩
    · have hle := hlast.latest r hr hs rfl
      omega
    · exact absurd rfl (hnone r hr hs)

/-- The rows a list of quotes is stored as. -/
theorem stored_of_holds {S : FxStore} {code : String} {quotes : List NbuQuote}
    (hholds : ∀ q ∈ quotes, S.Holds code q)
    (hdated : ∀ q ∈ quotes, 1 ≤ (civil q.day).1 ∧ (civil q.day).1 ≤ 9999)
    (hasc : quotes.Pairwise fun p q => p.day < q.day) :
    ∃ stored : List StoredFxRate,
      List.Forall₂ (fun row r => StoredFxRate.ofRow NBU_SOURCE row = .ok r)
        (quotes.map fun q => q.row code) stored ∧ (stored.map StoredFxRate.sortKey).Nodup ∧
      ∀ r, r ∈ stored ↔ ∃ q ∈ quotes, r.currency = code ∧ r.OfQuote q := by
  have hrow : ∀ q ∈ quotes, ∃ r, StoredFxRate.ofRow NBU_SOURCE (q.row code) = .ok r := by
    intro q hq
    obtain ⟨r, _, rfl, hof⟩ := hholds q hq
    exact ⟨r, hof⟩
  obtain ⟨stored, hstored⟩ := exists_mapM_ok (f := StoredFxRate.ofRow NBU_SOURCE)
    (l := quotes.map fun q => q.row code) fun row hin => by
      obtain ⟨q, hq, rfl⟩ := List.mem_map.mp hin
      exact hrow q hq
  have hpairs := mapM_ok hstored
  have hquote : ∀ {q : NbuQuote} {r : StoredFxRate},
      StoredFxRate.ofRow NBU_SOURCE (q.row code) = .ok r → r.currency = code ∧ r.OfQuote q := by
    intro q r hof
    have hc : r.currency = code := (StoredFxRate.ofRow_ok hof).2.1
    exact ⟨hc, by rw [StoredFxRate.OfQuote, hc]; exact hof⟩
  obtain ⟨hleft, hright⟩ := mem_of_forall₂ hpairs
  refine ⟨stored, hpairs, ?_, fun r => ⟨fun hr => ?_, ?_⟩⟩
  · have hdays : stored.map StoredFxRate.rateDate = quotes.map NbuQuote.day := by
      rw [List.forall₂_map_left_iff] at hpairs
      clear hstored hleft hright hrow hholds hasc
      induction hpairs with
      | nil => rfl
      | @cons q r quotes stored hof _ ih =>
          rw [List.map_cons, List.map_cons, ih fun q hq => hdated q (List.mem_cons_of_mem _ hq),
            ((hquote hof).2.day (hdated q List.mem_cons_self)).2]
    have hn : (stored.map StoredFxRate.rateDate).Nodup := by
      rw [hdays, List.Nodup, List.pairwise_map]
      exact hasc.imp fun hlt => by omega
    have hkeys : stored.map StoredFxRate.rateDate
        = (stored.map StoredFxRate.sortKey).map fun k => (ofLex (ofLex k).2).1 := by
      rw [List.map_map]
      rfl
    rw [hkeys] at hn
    exact hn.of_map _
  · obtain ⟨row, hin, hof⟩ := hright r hr
    obtain ⟨q, hq, rfl⟩ := List.mem_map.mp hin
    exact ⟨q, hq, hquote hof⟩
  · rintro ⟨q, hq, rfl, hof⟩
    obtain ⟨r', hr', hof'⟩ := hleft _ (List.mem_map_of_mem hq)
    rw [StoredFxRate.OfQuote] at hof
    obtain rfl := Except.ok.inj (hof.symm.trans hof')
    exact hr'

/-- Where a currency is synced up to `last`, its rows are those one sync leaves. -/
theorem FxStore.Overlays.agrees {S : FxStore} (h : S.Overlays A first S₀)
    (hb : Dated backfill) (hlast : Dated last)
    {currency : QuotedCurrency} (hfirst : S₀.Resumes backfill currency.code (first currency.code))
    (hcaught : S.Caught A first currency.code (last + 1)) :
    ∃ S₁, S₀.syncCurrency (A currency.code.toLower) (String.ofList (dateText backfill))
        (String.ofList (dateText last)) currency = .ok S₁ ∧
      ∀ r : StoredFxRate, r.source = NBU_SOURCE → r.currency = currency.code →
        r.rateDate ≤ last → (r ∈ S.rows ↔ r ∈ S₁.rows) := by
  obtain ⟨htext, hdated⟩ := hfirst.text hb
  rw [FxStore.syncCurrency, htext]
  obtain ⟨quotes, hquotes⟩ : ∃ quotes, quotes = (A currency.code.toLower).quotes.filter fun q =>
    (nbuRequest currency (String.ofList (dateText (first currency.code)))
      (String.ofList (dateText last))).covers q.day := ⟨_, rfl⟩
  rw [← hquotes]
  have hread : nbuDateIn (nbuRequest currency (String.ofList (dateText (first currency.code)))
      (String.ofList (dateText last))).start = some (first currency.code) :=
    nbuDateIn_dateText hdated
  have hend : nbuDateIn (nbuRequest currency (String.ofList (dateText (first currency.code)))
      (String.ofList (dateText last))).endDate = some last := nbuDateIn_dateText hlast
  have hmem : ∀ q, q ∈ quotes ↔ q ∈ (A currency.code.toLower).quotes ∧
      first currency.code ≤ q.day ∧ q.day ≤ last := by
    intro q
    rw [hquotes, List.mem_filter, covers_iff hread, hend]
    simp
  have hin : ∀ q ∈ quotes, 1 ≤ (civil q.day).1 ∧ (civil q.day).1 ≤ 9999 :=
    fun q hq => (A _).dated q ((hmem q).mp hq).1
  have hholds : ∀ q ∈ quotes, S.Holds currency.code q := by
    intro q hq
    obtain ⟨hq, hge, hle⟩ := (hmem q).mp hq
    exact hcaught q hq hge (by omega)
  obtain ⟨stored, hpairs, hn, hstored⟩ := stored_of_holds hholds hin
    (hquotes ▸ (A _).ascending.filter _)
  refine ⟨_, FxStore.upsertMany_stored hpairs hn, fun r hs hc hle => ?_⟩
  rw [FxStore.mem_foldl_put hn]
  constructor
  · intro hr
    by_cases hkey : r.sortKey ∈ stored.map StoredFxRate.sortKey
    · -- the row of that day is the one the quote is stored as
      obtain ⟨r₁, hr₁, hsame⟩ := List.mem_map.mp hkey
      obtain ⟨q, hq, hc₁, hof₁⟩ := (hstored r₁).mp hr₁
      obtain ⟨r₂, hr₂, hc₂, hof₂⟩ := hholds q hq
      rw [StoredFxRate.OfQuote, hc₁] at hof₁
      rw [StoredFxRate.OfQuote, hc₂] at hof₂
      obtain rfl := Except.ok.inj (hof₁.symm.trans hof₂)
      rw [S.eq_of_sortKey hr hr₂ hsame.symm]
      exact Or.inl hr₁
    · rcases h.rows r hr hs with hold | ⟨q, hq, hge, hof⟩
      · exact Or.inr ⟨hold, hkey⟩
      · rw [hc] at hq hge
        rw [(hof.day ((A _).dated q hq)).2] at hle
        exact Or.inl ((hstored r).mpr ⟨q, (hmem q).mpr ⟨hq, hge, hle⟩, hc, hof⟩)
  · rintro (hr | ⟨hr, hkey⟩)
    · obtain ⟨q, hq, _, hof⟩ := (hstored r).mp hr
      obtain ⟨r₂, hr₂, hc₂, hof₂⟩ := hholds q hq
      rw [StoredFxRate.OfQuote, hc] at hof
      rw [StoredFxRate.OfQuote, hc₂] at hof₂
      obtain rfl := Except.ok.inj (hof.symm.trans hof₂)
      exact hr₂
    · rcases h.kept r hr hs with hkept | ⟨q, hq, hge, hday, _⟩
      · exact hkept
      · rw [hc] at hq hge
        have hq' := (hmem q).mpr ⟨hq, hge, by omega⟩
        obtain ⟨r₂, hr₂, hc₂, hof₂⟩ := hholds q hq'
        obtain ⟨hs₂, hd₂⟩ := hof₂.day (hin q hq')
        refine absurd (List.mem_map.mpr ⟨r₂, (hstored r₂).mpr ⟨q, hq', hc₂, hof₂⟩, ?_⟩) hkey
        exact StoredFxRate.sortKey_eq_iff.mpr ⟨hc₂.trans hc.symm, hd₂.trans hday,
          hs₂.trans hs.symm⟩

/-- However many instances sync at once, and however their fetches, chunks and failures
interleave: of a currency some instance has synced, the table holds up to `last` what
one sync alone would have left. -/
theorem syncs_agree [DecidableEq ι] (hb : Dated backfill) (hlast : Dated last)
    {w₀ w : FxWorld ι} (hoff : ∀ i, w₀.boots i = .off)
    (h : Reach (FxWorld.Step (String.ofList (dateText backfill))) (KeepsStill last) w₀ w)
    {i : ι} {currency : QuotedCurrency} {answered : NbuArchive}
    (hsynced : .synced currency answered ∈ (w.boots i).tasks) :
    ∃ S, w₀.store.syncCurrency (w₀.archive currency.code.toLower)
        (String.ofList (dateText backfill)) (String.ofList (dateText last)) currency = .ok S ∧
      ∀ r : StoredFxRate, r.source = NBU_SOURCE → r.currency = currency.code →
        r.rateDate ≤ last → (r ∈ w.store.rows ↔ r ∈ S.rows) := by
  choose first hfirst using w₀.store.exists_resumes backfill
  have h₀ : TogetherInv w₀.archive first last w₀.store w₀ :=
    ⟨rfl, .refl hfirst, fun i t ht => by rw [hoff i] at ht; exact absurd ht List.not_mem_nil⟩
  have hinv : TogetherInv w₀.archive first last w₀.store w :=
    h.invariant h₀ fun _ _ _ hi hok hstep => hi.step hb hfirst hok hstep
  exact hinv.store.agrees hb hlast (hfirst _) (hinv.tasks i _ hsynced)

end Runs

/-! Two instances boot on one day and are in the middle of the same answer. -/

theorem syncs_agree_twice : ∃ w : FxWorld Nat,
    Reach (FxWorld.Step firstOfSeptember) (KeepsStill (daysFromCivil 2026 9 2)) beforeSync w ∧
      w.boots 1 = .syncing [.upserting dollar septemberQuotes septemberRows] ∧
      ∃ S, FxStore.empty.syncCurrency septemberQuotes firstOfSeptember
          (String.ofList (dateText (daysFromCivil 2026 9 2))) dollar = .ok S ∧
        ∀ r : StoredFxRate, r.source = NBU_SOURCE → r.currency = "USD" →
          r.rateDate ≤ daysFromCivil 2026 9 2 → (r ∈ w.store.rows ↔ r ∈ S.rows) := by
  have hdated : Dated (daysFromCivil 2026 9 1) ∧ Dated (daysFromCivil 2026 9 2) := by
    unfold Dated
    decide +kernel
  have hclock : KeepsStill (daysFromCivil 2026 9 2) beforeSync
      (.start 0 (daysFromCivil 2026 9 1 * MS_PER_DAY) [dollar]) := by
    unfold KeepsStill Dated
    decide +kernel
  have hto : addDays (toDateOnly (daysFromCivil 2026 9 1 * MS_PER_DAY)) 1
      = some "2026-09-02" := by decide +kernel
  have hrows : SyncTask.parsed dollar septemberQuotes
      (septemberQuotes.answer (nbuRequest dollar firstOfSeptember "2026-09-02") "USD")
      = .upserting dollar septemberQuotes septemberRows := by decide +kernel
  have hupsert : FxStore.empty.upsert NBU_SOURCE (septemberRows.take UPSERT_CHUNK)
      = .ok (FxStore.empty.upserted septemberRows) :=
    FxStore.upsert_upserted (by decide +kernel)
  have hanswer := septemberQuotes.answers_answer
    (nbuRequest dollar firstOfSeptember "2026-09-02") "USD"
  have h₂ : Reach (FxWorld.Step firstOfSeptember) (KeepsStill (daysFromCivil 2026 9 2))
      beforeSync ((beforeSync.setBoot 0 (.syncing
        [.fetching dollar firstOfSeptember "2026-09-02"])).setBoot 1 (.syncing
        [.fetching dollar firstOfSeptember "2026-09-02"])) :=
    (Reach.then .refl (.start 0 _ [dollar]) hclock (.start rfl hto)).then (.start 1 _ [dollar])
      hclock (.start rfl hto)
  have h₃ := h₂.then (.fetch 0 0 _) trivial (.fetch rfl rfl hanswer)
  have h₄ := h₃.then (.fetch 1 0 _) trivial (.fetch rfl rfl hanswer)
  have h₅ := h₄.then (.upsert 0 0) trivial (.upsert rfl (congrArg some hrows) hupsert)
  have hdrop : SyncTask.chunks dollar septemberQuotes (septemberRows.drop UPSERT_CHUNK)
      = .synced dollar septemberQuotes := by decide +kernel
  have hrun : ∃ w : FxWorld Nat,
      Reach (FxWorld.Step firstOfSeptember) (KeepsStill (daysFromCivil 2026 9 2)) beforeSync w ∧
      w.boots 1 = .syncing [.upserting dollar septemberQuotes septemberRows] ∧
      SyncTask.synced dollar septemberQuotes ∈ (w.boots 0).tasks :=
    ⟨_, h₅, congrArg (fun t => Boot.syncing [t]) hrows, List.mem_singleton.mpr hdrop.symm⟩
  obtain ⟨w, hr, hother, hsynced⟩ := hrun
  exact ⟨w, hr, hother, syncs_agree hdated.1 hdated.2 (fun _ => rfl) hr hsynced⟩

end InvestApi.Ref
