import InvestApi.Fx.Cache
import InvestApi.Fx.Sync

/-!
# Corrections at a restart

A sync asks again for the last day it has stored and for nothing before it. So
what NBU revises between two boots comes in where it is of that day; an older
day keeps its old quote, in the table and in every cache loaded from it.

A row is stale while it is no longer what NBU quotes. Of a currency only the
last day's row is ever stale, as long as only its last day is revised, and
every sync under way still has that day to write.
-/

namespace InvestApi.Ref

open InvestApi.Lts

variable {ι : Type}

/-- The row is what a quote is stored as. -/
def StoredFxRate.OfQuote (r : StoredFxRate) (q : NbuQuote) : Prop :=
  StoredFxRate.ofRow NBU_SOURCE (q.row r.currency) = .ok r

/-- An NBU row that is no longer NBU's quote. -/
structure FxWorld.Stale (w : FxWorld ι) (r : StoredFxRate) : Prop where
  stored : r ∈ w.store.rows
  source : r.source = NBU_SOURCE
  revised : ∀ q ∈ (w.archive r.currency.toLower).quotes, ¬ r.OfQuote q

theorem StoredFxRate.OfQuote.day {r : StoredFxRate} {q : NbuQuote} (h : r.OfQuote q)
    (hdated : 1 ≤ (civil q.day).1 ∧ (civil q.day).1 ≤ 9999) :
    r.source = NBU_SOURCE ∧ r.rateDate = q.day := by
  obtain ⟨hs, _, hd⟩ := StoredFxRate.ofRow_ok h
  have hday : pgDateIn (q.row r.currency).rateDate = some q.day :=
    (pgDateIn_dateText ⟨by omega, hdated.2⟩).trans (if_neg (by omega))
  exact ⟨hs, Option.some.inj (hd.symm.trans hday)⟩

theorem NbuArchive.eq_of_day {archive : NbuArchive} {p q : NbuQuote}
    (hp : p ∈ archive.quotes) (hq : q ∈ archive.quotes) (h : p.day = q.day) : p = q := by
  have hn : (archive.quotes.map (·.day)).Nodup := by
    rw [List.Nodup, List.pairwise_map]
    exact archive.ascending.imp fun hlt => by omega
  exact List.inj_on_of_nodup_map hn hp hq h

/-! ## The condition -/

/-- NBU revises between boots, not while one is under way. -/
def BetweenBoots (w : FxWorld ι) : FxEvent ι → Prop
  | .revise _ _ => ∀ i tasks, w.boots i ≠ .syncing tasks
  | _ => True

/-- A revised day that is stored is the currency's last, or is stored as the
revision has it; and where the last day has been revised, tomorrow by the clock
of a sync is not before it. -/
def RevisesLast (w : FxWorld ι) : FxEvent ι → Prop
  | .revise valcode q => ∀ r ∈ w.store.rows, r.source = NBU_SOURCE →
      r.currency.toLower = valcode → r.rateDate = q.day →
      r.OfQuote q ∨ ∀ p ∈ w.store.rows, p.source = NBU_SOURCE →
        p.currency = r.currency → p.rateDate ≤ r.rateDate
  | .start _ now currencies => ∀ r, w.Stale r → ∀ currency ∈ currencies,
      r.currency = currency.code → Dated (now / MS_PER_DAY) ∧
        Dated (now / MS_PER_DAY + 1) ∧ r.rateDate ≤ now / MS_PER_DAY + 1
  | _ => True

/-! ## The invariant -/

/-- Whatever is stale of the task's currency it will write. -/
def SyncTask.Corrects (w : FxWorld ι) : SyncTask → Prop
  | .fetching currency fromDate toDate => ∀ r, w.Stale r → r.currency = currency.code →
      (nbuRequest currency fromDate toDate).covers r.rateDate = true
  | .upserting currency answered rows =>
      (∀ q ∈ answered.quotes, q ∈ (w.archive currency.code.toLower).quotes) ∧
      ∃ quotes : List NbuQuote, rows = quotes.map (fun q => q.row currency.code) ∧
        quotes.Pairwise (fun p q => p.day < q.day) ∧
        (∀ q ∈ quotes, q ∈ (w.archive currency.code.toLower).quotes) ∧
        ∀ r, w.Stale r → r.currency = currency.code → r.rateDate ∈ quotes.map (·.day)
  | .synced currency answered =>
      (∀ q ∈ answered.quotes, q ∈ (w.archive currency.code.toLower).quotes) ∧
      ∀ r, w.Stale r → r.currency ≠ currency.code
  | .failed _ => True

/-- The quote of the row is the one NBU answered with, if it had published the
day by then. -/
def StoredFxRate.AsAnswered (r : StoredFxRate) (answered : NbuArchive) (q : NbuQuote) :
    Prop :=
  r.OfQuote q ∧ (q.day ∈ answered.days → q ∈ answered.quotes)

/-- The NBU rates a cache has of the currency are those NBU answered with. -/
def FxRateCache.AsAnswered (cache : FxRateCache) (code : String) (answered : NbuArchive) :
    Prop :=
  ∀ series, cache.lookup code = some series → ∀ row ∈ series, row.source = NBU_SOURCE →
    ∃ r q, row = r.view.cached ∧ r.currency = code ∧
      StoredFxRate.AsAnswered r answered q

structure CorrectedInv (backfill : Int) (w : FxWorld ι) : Prop where
  sync : SyncInv backfill w
  last : ∀ r, w.Stale r → ∀ p ∈ w.store.rows, p.source = NBU_SOURCE →
    p.currency = r.currency → p.rateDate ≤ r.rateDate
  tasks : ∀ i, ∀ t ∈ (w.boots i).running, t.Corrects w
  caches : ∀ i tasks cache, w.boots i = .serving tasks cache → ∀ currency answered,
    .synced currency answered ∈ tasks → cache.AsAnswered currency.code answered

/-! ## What a step without revisions does -/

section Unrevised

variable {w w' : FxWorld ι}

/-- NBU has kept its quotes, and nothing has become stale. -/
structure Unrevised (w w' : FxWorld ι) : Prop where
  quotes : ∀ valcode, ∀ q ∈ (w.archive valcode).quotes, q ∈ (w'.archive valcode).quotes
  stale : ∀ r, w'.Stale r → w.Stale r

theorem Unrevised.of_store {w' : FxWorld ι} (harchive : w'.archive = w.archive)
    (hstore : w'.store = w.store) : Unrevised w w' := by
  refine ⟨fun v q hq => by rw [harchive]; exact hq, fun r hr => ⟨?_, hr.source, ?_⟩⟩
  · rw [← hstore]
    exact hr.stored
  · rw [← harchive]
    exact hr.revised

theorem SyncTask.Corrects.later {t : SyncTask} (h : t.Corrects w) (hk : Unrevised w w') :
    t.Corrects w' := by
  cases t with
  | fetching currency fromDate toDate => exact fun r hr hc => h r (hk.stale r hr) hc
  | upserting currency answered rows =>
      obtain ⟨hanswered, quotes, hrows, hasc, hquotes, hstale⟩ := h
      exact ⟨fun q hq => hk.quotes _ q (hanswered q hq), quotes, hrows, hasc,
        fun q hq => hk.quotes _ q (hquotes q hq), fun r hr => hstale r (hk.stale r hr)⟩
  | synced currency answered =>
      obtain ⟨hanswered, hstale⟩ := h
      exact ⟨fun q hq => hk.quotes _ q (hanswered q hq), fun r hr => hstale r (hk.stale r hr)⟩
  | failed currency => trivial

theorem chunks_corrects {currency : QuotedCurrency} {answered : NbuArchive}
    {quotes : List NbuQuote}
    (hanswered : ∀ q ∈ answered.quotes, q ∈ (w.archive currency.code.toLower).quotes)
    (hasc : quotes.Pairwise fun p q => p.day < q.day)
    (hquotes : ∀ q ∈ quotes, q ∈ (w.archive currency.code.toLower).quotes)
    (hstale : ∀ r, w.Stale r → r.currency = currency.code →
      r.rateDate ∈ quotes.map (·.day)) :
    (SyncTask.chunks currency answered (quotes.map fun q => q.row currency.code)).Corrects
      w := by
  cases quotes with
  | nil => exact ⟨hanswered, fun r hr hc => absurd (hstale r hr hc) List.not_mem_nil⟩
  | cons q quotes => exact ⟨hanswered, q :: quotes, rfl, hasc, hquotes, hstale⟩

end Unrevised

/-! ## One step -/

section Steps

variable {backfill : Int} {w : FxWorld ι}

/-- A step that adds no tasks but those that correct, and no cache but such. -/
theorem CorrectedInv.next {w' : FxWorld ι} (h : CorrectedInv backfill w)
    (hsync : SyncInv backfill w') (hk : Unrevised w w')
    (hrows : ∀ r, w'.Stale r → ∀ p ∈ w'.store.rows, p.source = NBU_SOURCE →
      p.currency = r.currency → p ∈ w.store.rows ∨ p.rateDate ≤ r.rateDate)
    (htasks : ∀ i, ∀ t ∈ (w'.boots i).running,
      t ∈ (w.boots i).running ∨ t.Corrects w')
    (hcaches : ∀ i tasks cache, w'.boots i = .serving tasks cache →
      w.boots i = .serving tasks cache ∨ ∀ currency answered,
        .synced currency answered ∈ tasks → cache.AsAnswered currency.code answered) :
    CorrectedInv backfill w' := by
  refine ⟨hsync, fun r hr p hp hs hc => ?_, fun i t ht => ?_, fun i tasks cache hboot => ?_⟩
  · rcases hrows r hr p hp hs hc with hold | hle
    · exact h.last r (hk.stale r hr) p hold hs hc
    · exact hle
  · rcases htasks i t ht with hold | hnew
    · exact (h.tasks i t hold).later hk
    · exact hnew
  · rcases hcaches i tasks cache hboot with hold | hnew
    · exact h.caches i tasks cache hold
    · exact hnew

variable [DecidableEq ι]

theorem serving_setBoot {i j : ι} {b : Boot} {tasks : List SyncTask} {cache : FxRateCache}
    (h : (w.setBoot i b).boots j = .serving tasks cache) :
    w.boots j = .serving tasks cache ∨ b = .serving tasks cache := by
  by_cases hj : j = i
  · subst hj
    simp only [FxWorld.setBoot, Function.update_self] at h
    exact Or.inr h
  · simp only [FxWorld.setBoot, Function.update_of_ne hj] at h
    exact Or.inl h

/-- A step of one boot that leaves the table alone. -/
theorem CorrectedInv.setBoot (h : CorrectedInv backfill w) {i : ι} {b : Boot}
    (hsync : SyncInv backfill (w.setBoot i b))
    (htasks : ∀ t ∈ b.running, t ∈ (w.boots i).running ∨ t.Corrects w)
    (hcache : ∀ tasks cache, b = .serving tasks cache → ∀ currency answered,
      .synced currency answered ∈ tasks → cache.AsAnswered currency.code answered) :
    CorrectedInv backfill (w.setBoot i b) := by
  have hk : Unrevised w (w.setBoot i b) := .of_store rfl rfl
  refine h.next hsync hk (fun r _ p hp _ _ => Or.inl hp) (fun j t ht => ?_)
    fun j tasks cache hboot => ?_
  · rcases running_other ht with hold | ⟨rfl, hnew⟩
    · exact Or.inl hold
    · exact (htasks t hnew).imp_right fun hc => hc.later hk
  · exact (serving_setBoot hboot).imp_right fun hb => hcache tasks cache hb

omit [DecidableEq ι] in
/-- A sync that begins asks for the stale day of each of its currencies. -/
theorem start_corrects (h : CorrectedInv backfill w) {i : ι} {now : Instant}
    {currencies : List QuotedCurrency}
    (hok : RevisesLast w (.start i now currencies)) {backfillFrom toDate : String}
    (hto : addDays (toDateOnly now) 1 = some toDate) :
    ∀ t ∈ w.tasks backfillFrom toDate currencies, t.Corrects w := by
  intro t ht
  obtain ⟨currency, hmem, rfl⟩ := List.mem_map.mp ht
  intro r hr hc
  obtain ⟨hnow, hnext, hle⟩ := hok r hr currency hmem hc
  obtain ⟨day, hday⟩ : ∃ day, now / MS_PER_DAY = day := ⟨_, rfl⟩
  rw [hday] at hnow hnext hle
  rw [addDays_dated hday hnow hnext] at hto
  obtain rfl := Option.some.inj hto
  rcases w.store.findLastDates_lookup NBU_SOURCE currency.code with
    ⟨last, hlast, hlookup⟩ | ⟨hnone, _⟩
  · obtain ⟨⟨l, hl, hls, hlc, rfl⟩, hmax⟩ := hlast
    have hge := hmax r hr.stored hr.source hc
    have hle' := h.last r hr l hl hls (hlc.trans hc.symm)
    obtain ⟨hdated, htext⟩ := toChar_read l.dated
    rw [hlookup, Option.getD_some, htext]
    have hstart : nbuDateIn (nbuRequest currency (String.ofList (dateText l.rateDate))
        (String.ofList (dateText (day + 1)))).start = some l.rateDate :=
      nbuDateIn_dateText hdated
    exact (covers_iff hstart).mpr ⟨day + 1, nbuDateIn_dateText hnext, by omega, hle⟩
  · exact absurd hc (hnone r hr.stored hr.source)

omit [DecidableEq ι] in
/-- What is parsed of an answer has the stale day in it. -/
theorem parsed_corrects (h : CorrectedInv backfill w) {currency : QuotedCurrency}
    {fromDate toDate : String}
    (hstale : ∀ r, w.Stale r → r.currency = currency.code →
      (nbuRequest currency fromDate toDate).covers r.rateDate = true)
    {body : Option (List NbuRecord)}
    (hanswer : (w.archive currency.code.toLower).Answers
      (nbuRequest currency fromDate toDate) body) :
    (SyncTask.parsed currency (w.archive currency.code.toLower) body).Corrects w := by
  obtain ⟨records, rfl, hquotes⟩ := hanswer
  rw [SyncTask.parsed]
  split
  · trivial
  next rows hparse =>
  rw [parsed_rows dated_of_covered hquotes hparse]
  refine chunks_corrects (fun q hq => hq) ((w.archive _).ascending.filter _)
    (fun q hq => List.mem_of_mem_filter hq) fun r hr hc => ?_
  have hday : r.rateDate ∈ (w.archive currency.code.toLower).days := by
    rw [← hc]
    exact (h.sync.noHole r.currency).published _ ⟨r, hr.stored, hr.source, rfl, rfl⟩
  obtain ⟨q, hq, hqd⟩ := List.mem_map.mp hday
  refine List.mem_map.mpr ⟨q, List.mem_filter.mpr ⟨hq, ?_⟩, hqd⟩
  rw [hqd]
  exact hstale r hr hc

omit [DecidableEq ι] in
/-- The rows of a chunk are NBU's quotes; what stays stale is of none of its
days. -/
theorem upsert_stale {currency : QuotedCurrency} {chunk : List NbuQuote}
    (hquotes : ∀ q ∈ chunk, q ∈ (w.archive currency.code.toLower).quotes) {store : FxStore}
    (hstore : w.store.upsert NBU_SOURCE (chunk.map fun q => q.row currency.code)
      = .ok store) {w' : FxWorld ι} (harchive : w'.archive = w.archive)
    (hw' : w'.store = store) :
    (∀ r, w'.Stale r → w.Stale r ∧
      (r.currency = currency.code → ∀ q ∈ chunk, q.day ≠ r.rateDate)) ∧
    ∀ p ∈ store.rows, p ∈ w.store.rows ∨
      ∃ q ∈ chunk, p.currency = currency.code ∧ p.rateDate = q.day := by
  obtain ⟨stored, hstored, hmem⟩ := FxStore.upsert_ok hstore
  obtain ⟨hleft, hright⟩ := mem_of_forall₂ hstored
  have hnew : ∀ p ∈ stored, ∃ q ∈ chunk, p.currency = currency.code ∧ p.OfQuote q := by
    intro p hp
    obtain ⟨row, hrow, hof⟩ := hright p hp
    obtain ⟨q, hq, rfl⟩ := List.mem_map.mp hrow
    have hc : p.currency = currency.code := (StoredFxRate.ofRow_ok hof).2.1
    refine ⟨q, hq, hc, ?_⟩
    rw [StoredFxRate.OfQuote, hc]
    exact hof
  have hdated : ∀ q ∈ chunk, 1 ≤ (civil q.day).1 ∧ (civil q.day).1 ≤ 9999 :=
    fun q hq => (w.archive _).dated q (hquotes q hq)
  constructor
  · intro r hr
    have hin := hr.stored
    rw [hw'] at hin
    rcases (hmem r).mp hin with hfresh | ⟨hold, hkey⟩
    · obtain ⟨q, hq, hc, hof⟩ := hnew r hfresh
      refine absurd hof (hr.revised q ?_)
      rw [harchive, hc]
      exact hquotes q hq
    · refine ⟨⟨hold, hr.source, ?_⟩, fun hc q hq hday => hkey ?_⟩
      · rw [← harchive]
        exact hr.revised
      · obtain ⟨p, hp, hof⟩ := hleft _ (List.mem_map_of_mem hq)
        have hpc : p.currency = currency.code := (StoredFxRate.ofRow_ok hof).2.1
        have hpq : p.OfQuote q := by
          rw [StoredFxRate.OfQuote, hpc]
          exact hof
        obtain ⟨hps, hpd⟩ := hpq.day (hdated q hq)
        refine List.mem_map.mpr ⟨p, hp, StoredFxRate.sortKey_eq_iff.mpr ?_⟩
        exact ⟨hpc.trans hc.symm, hpd.trans hday, hps.trans hr.source.symm⟩
  · intro p hp
    rcases (hmem p).mp hp with hfresh | ⟨hold, _⟩
    · obtain ⟨q, hq, hc, hof⟩ := hnew p hfresh
      exact Or.inr ⟨q, hq, hc, (hof.day (hdated q hq)).2⟩
    · exact Or.inl hold

theorem CorrectedInv.upsert (h : CorrectedInv backfill w) {i : ι} {n : Nat}
    {tasks : List SyncTask} {currency : QuotedCurrency} {answered : NbuArchive}
    {rows : List FxRateRow} {store : FxStore} (hboot : w.boots i = .syncing tasks)
    (htask : tasks[n]? = some (.upserting currency answered rows))
    (hstore : w.store.upsert NBU_SOURCE (rows.take UPSERT_CHUNK) = .ok store)
    (hsync : SyncInv backfill { w.setBoot i (.syncing (tasks.set n
      (.chunks currency answered (rows.drop UPSERT_CHUNK)))) with store := store }) :
    CorrectedInv backfill { w.setBoot i (.syncing (tasks.set n
      (.chunks currency answered (rows.drop UPSERT_CHUNK)))) with store := store } := by
  have hmem : SyncTask.upserting currency answered rows ∈ (w.boots i).running := by
    rw [hboot]
    exact List.mem_of_getElem? htask
  obtain ⟨hanswered, quotes, rfl, hasc, hquotes, hstale⟩ := h.tasks i _ hmem
  obtain ⟨w', hw'⟩ : ∃ w' : FxWorld ι, w' = { w.setBoot i (.syncing (tasks.set n
      (.chunks currency answered ((quotes.map fun q => q.row currency.code).drop
        UPSERT_CHUNK)))) with store := store } := ⟨_, rfl⟩
  rw [← hw'] at hsync ⊢
  have harchive : w'.archive = w.archive := by rw [hw']; rfl
  have hstore' : w'.store = store := by rw [hw']
  rw [← List.map_take] at hstore
  have htake : ∀ q ∈ quotes.take UPSERT_CHUNK, q ∈ quotes := fun q => List.mem_of_mem_take
  obtain ⟨hold, hnew⟩ := upsert_stale (fun q hq => hquotes q (htake q hq)) hstore harchive
    hstore'
  have hk : Unrevised w w' :=
    ⟨fun v q hq => by rw [harchive]; exact hq, fun r hr => (hold r hr).1⟩
  rw [← List.take_append_drop UPSERT_CHUNK quotes, List.pairwise_append] at hasc
  -- the stale day is among those still to be written, after this chunk's
  have hleft : ∀ r, w'.Stale r → r.currency = currency.code →
      ∃ q ∈ quotes.drop UPSERT_CHUNK, q.day = r.rateDate := by
    intro r hr hc
    obtain ⟨hw, hnot⟩ := hold r hr
    obtain ⟨q, hq, hqd⟩ := List.mem_map.mp (hstale r hw hc)
    rw [← List.take_append_drop UPSERT_CHUNK quotes, List.mem_append] at hq
    exact ⟨q, hq.resolve_left fun htk => hnot hc q htk hqd, hqd⟩
  refine h.next hsync hk (fun r hr p hp hs hc => ?_) (fun j t ht => ?_)
    fun j ts cache hj => ?_
  · rw [hstore'] at hp
    rcases hnew p hp with hp | ⟨q, hq, hpc, hpd⟩
    · exact Or.inl hp
    · obtain ⟨q', hq', hqd⟩ := hleft r hr (hc.symm.trans hpc)
      have hlt := hasc.2.2 q hq q' hq'
      exact Or.inr (by omega)
  · rw [hw'] at ht
    rcases running_set hboot ht with ht | rfl
    · exact Or.inl ht
    · rw [← List.map_drop]
      refine Or.inr (chunks_corrects ?_ hasc.2.1 ?_ fun r hr hc => ?_)
      · rwa [harchive]
      · rw [harchive]
        exact fun q hq => hquotes q (List.mem_of_mem_drop hq)
      · obtain ⟨q, hq, hqd⟩ := hleft r hr hc
        exact List.mem_map.mpr ⟨q, hq, hqd⟩
  · rw [hw'] at hj
    rcases serving_setBoot hj with hj | hj
    · exact Or.inl hj
    · simp at hj

omit [DecidableEq ι] in
/-- Where nothing is stale of a currency, its rows are as NBU answered. -/
theorem answered_of_fresh {code : String} {answered : NbuArchive}
    (hanswered : ∀ q ∈ answered.quotes, q ∈ (w.archive code.toLower).quotes)
    (hstale : ∀ r, w.Stale r → r.currency ≠ code) {r : StoredFxRate}
    (hr : r ∈ w.store.rows) (hs : r.source = NBU_SOURCE) (hc : r.currency = code) :
    ∃ q ∈ (w.archive code.toLower).quotes, r.AsAnswered answered q := by
  subst hc
  by_contra hnone
  refine hstale r ⟨hr, hs, fun q hq hof => hnone ⟨q, hq, hof, fun hday => ?_⟩⟩ rfl
  obtain ⟨p, hp, hpq⟩ := List.mem_map.mp hday
  rw [← NbuArchive.eq_of_day (hanswered p hp) hq hpq]
  exact hp

end Steps

/-- The table as the lookups and the cache see it. -/
def FxStore.fxTable (S : FxStore) : FxTable where
  rows := S.table
  key := by
    have hkeys : S.table.map FxRate.sortKey = S.rows.map StoredFxRate.sortKey := by
      rw [FxStore.table, List.map_map]
      rfl
    rw [hkeys]
    exact S.key
  dated := by
    intro r hr
    obtain ⟨s, hs, rfl⟩ := List.mem_map.mp hr
    exact s.dated

section Steps

variable {backfill : Int} {w : FxWorld ι}

/-- So are the rates of a cache loaded then. -/
theorem load_answered {code : String} {answered : NbuArchive}
    (hanswered : ∀ q ∈ answered.quotes, q ∈ (w.archive code.toLower).quotes)
    (hstale : ∀ r, w.Stale r → r.currency ≠ code) :
    FxRateCache.AsAnswered
      (FxRateCache.load (FxRateRepository.findAllEffective w.store.table)) code answered := by
  intro series hseries row hrow hs
  have hlookup := @FxTable.lookup_cache w.store.fxTable code
  rw [show w.store.fxTable.rows = w.store.table from rfl, hseries] at hlookup
  split at hlookup
  · simp at hlookup
  · rw [Option.some.inj hlookup] at hrow
    obtain ⟨x, hx, rfl⟩ := List.mem_map.mp hrow
    obtain ⟨hmem, hc⟩ := FxTable.mem_series hx
    obtain ⟨r, hr, rfl⟩ := List.mem_map.mp hmem
    obtain ⟨q, _, hq⟩ := answered_of_fresh hanswered hstale hr hs hc
    exact ⟨r, q, rfl, hc, hq⟩

/-- A revision of the last day leaves only that day's row stale. -/
theorem CorrectedInv.revise (h : CorrectedInv backfill w) {valcode : String} {q : NbuQuote}
    {archive : NbuArchive}
    (harchive : archive.quotes = (w.archive valcode).quotes.map fun p =>
      if p.day = q.day then q else p)
    (hbetween : BetweenBoots w (.revise valcode q)) (hok : RevisesLast w (.revise valcode q))
    (hsync : SyncInv backfill
      { w with archive := Function.update w.archive valcode archive }) :
    CorrectedInv backfill
      { w with archive := Function.update w.archive valcode archive } := by
  refine ⟨hsync, fun r hr p hp hs hc => ?_, fun i t ht => ?_, h.caches⟩
  · by_cases hold : w.Stale r
    · exact h.last r hold p hp hs hc
    · -- the row was NBU's quote before, so the revision is of its day
      obtain ⟨p', hp', hof⟩ : ∃ p' ∈ (w.archive r.currency.toLower).quotes, r.OfQuote p' := by
        by_contra hnone
        exact hold ⟨hr.stored, hr.source, fun p' hp' hof => hnone ⟨p', hp', hof⟩⟩
      have hrevised := hr.revised
      by_cases hv : r.currency.toLower = valcode
      · subst hv
        simp only [Function.update_self, harchive] at hrevised
        by_cases hday : p'.day = q.day
        · have hrd : r.rateDate = q.day :=
            ((hof.day ((w.archive _).dated p' hp')).2).trans hday
          rcases hok r hr.stored hr.source rfl hrd with hq | hlast
          · exact absurd hq (hrevised q (List.mem_map.mpr ⟨p', hp', if_pos hday⟩))
          · exact hlast p hp hs hc
        · exact absurd hof (hrevised p' (List.mem_map.mpr ⟨p', hp', if_neg hday⟩))
      · simp only [Function.update_of_ne hv] at hrevised
        exact absurd hof (hrevised p' hp')
  · cases hboot : w.boots i with
    | off =>
        rw [show ({ w with archive := Function.update w.archive valcode archive } :
          FxWorld ι).boots i = .off from hboot] at ht
        exact absurd ht List.not_mem_nil
    | syncing tasks => exact absurd hboot (hbetween i tasks)
    | serving tasks cache =>
        rw [show ({ w with archive := Function.update w.archive valcode archive } :
          FxWorld ι).boots i = .serving tasks cache from hboot] at ht
        exact absurd ht List.not_mem_nil

theorem CorrectedInv.step [DecidableEq ι] (hb : Dated backfill) (h : CorrectedInv backfill w)
    {e : FxEvent ι} {w' : FxWorld ι} (hbetween : BetweenBoots w e) (hok : RevisesLast w e)
    (hstep : w.Step (String.ofList (dateText backfill)) e w') :
    CorrectedInv backfill w' := by
  have hsync := h.sync.step hb hstep
  cases hstep with
  | @publish valcode q archive harchive =>
      have hkeeps : ∀ v, ∀ p ∈ (w.archive v).quotes,
          p ∈ (Function.update w.archive valcode archive v).quotes := by
        intro v p hp
        by_cases hv : v = valcode
        · subst hv
          rw [Function.update_self, harchive]
          exact List.mem_append_left _ hp
        · rwa [Function.update_of_ne hv]
      have hk : Unrevised w { w with archive := Function.update w.archive valcode archive } :=
        ⟨hkeeps, fun r hr => ⟨hr.stored, hr.source, fun p hp =>
          hr.revised p (hkeeps _ p hp)⟩⟩
      exact h.next hsync hk (fun r _ p hp _ _ => Or.inl hp) (fun i t ht => Or.inl ht)
        fun i tasks cache hi => Or.inl hi
  | revise harchive => exact h.revise harchive hbetween hok hsync
  | @other store hstore =>
      have hk : Unrevised w { w with store := store } :=
        ⟨fun v q hq => hq, fun r hr => ⟨(mem_other hstore hr.source).mp hr.stored, hr.source,
          hr.revised⟩⟩
      exact h.next hsync hk (fun r _ p hp hs _ => Or.inl ((mem_other hstore hs).mp hp))
        (fun i t ht => Or.inl ht) fun i tasks cache hi => Or.inl hi
  | start hoff hto =>
      exact h.setBoot hsync (fun t ht => Or.inr (start_corrects h hok hto t ht))
        fun _ _ hb => by simp at hb
  | skip hoff =>
      exact h.setBoot hsync (fun t ht => absurd ht List.not_mem_nil) fun _ _ hb => by simp at hb
  | @fetch i n body tasks currency fromDate toDate hboot htask hanswer =>
      have hmem : SyncTask.fetching currency fromDate toDate ∈ (w.boots i).running := by
        rw [hboot]
        exact List.mem_of_getElem? htask
      refine h.setBoot hsync (fun t ht => ?_) fun _ _ hb => by simp at hb
      rw [hboot]
      rcases List.mem_or_eq_of_mem_set ht with hold | rfl
      · exact Or.inl hold
      · exact Or.inr (parsed_corrects h (h.tasks i _ hmem) hanswer)
  | upsert hboot htask hstore => exact h.upsert hboot htask hstore hsync
  | fail hboot htask hrunning =>
      refine h.setBoot hsync (fun t ht => ?_) fun _ _ hb => by simp at hb
      rw [hboot]
      rcases List.mem_or_eq_of_mem_set ht with hold | rfl
      · exact Or.inl hold
      · exact Or.inr trivial
  | @load i tasks hboot hdone =>
      refine h.setBoot hsync (fun t ht => absurd ht List.not_mem_nil) ?_
      intro ts cache hb currency answered hmem
      obtain ⟨rfl, rfl⟩ := Boot.serving.inj hb
      have hin : SyncTask.synced currency answered ∈ (w.boots i).running := by
        rw [hboot]
        exact hmem
      obtain ⟨hanswered, hstale⟩ := h.tasks i _ hin
      exact load_answered hanswered hstale
  | unloaded hboot hdone =>
      refine h.setBoot hsync (fun t ht => absurd ht List.not_mem_nil) ?_
      intro ts cache hb currency answered _ series hseries
      obtain ⟨-, rfl⟩ := Boot.serving.inj hb
      simp at hseries

end Steps

/-! ## Whole histories -/

theorem FxWorld.Fresh.corrected {backfill : Int} {w : FxWorld ι} (h : w.Fresh) :
    CorrectedInv backfill w := by
  refine ⟨h.inv, fun r hr => absurd hr.source (h.store r hr.stored), fun i t ht => ?_,
    fun i tasks cache hi => ?_⟩
  · rw [h.boots i] at ht
    exact absurd ht List.not_mem_nil
  · rw [h.boots i] at hi
    simp at hi

/-- In a history whose revisions are of the last stored day: once a boot's sync
of a currency has succeeded, each of its NBU rows is what NBU quoted for the day
when it answered, and so is each rate the boot caches. A day that NBU had not
published by then is another instance's. -/
theorem restart_picks_up_corrections [DecidableEq ι] {backfill : Int} (hb : Dated backfill)
    {w₀ w : FxWorld ι} (h₀ : w₀.Fresh)
    (h : Reach (FxWorld.Step (String.ofList (dateText backfill)))
      (fun w e => BetweenBoots w e ∧ RevisesLast w e) w₀ w)
    {i : ι} {tasks : List SyncTask} {currency : QuotedCurrency} {answered : NbuArchive}
    (hsynced : .synced currency answered ∈ tasks) :
    (w.boots i = .syncing tasks → ∀ r ∈ w.store.rows, r.source = NBU_SOURCE →
      r.currency = currency.code → ∃ q ∈ (w.archive currency.code.toLower).quotes,
        r.AsAnswered answered q) ∧
    (∀ cache, w.boots i = .serving tasks cache →
      cache.AsAnswered currency.code answered) := by
  have hinv : CorrectedInv backfill w :=
    h.invariant h₀.corrected fun _ _ _ hi hok hstep => hi.step hb hok.1 hok.2 hstep
  constructor
  · intro hboot r hr hs hc
    have hin : SyncTask.synced currency answered ∈ (w.boots i).running := by
      rw [hboot]
      exact hsynced
    obtain ⟨hanswered, hstale⟩ := hinv.tasks i _ hin
    exact answered_of_fresh hanswered hstale hr hs hc
  · intro cache hboot
    exact hinv.caches i tasks cache hboot currency answered hsynced

/-! Two boots of the dollar with a revision between them. -/

/-- The first boot has ended. -/
def served : FxWorld Nat :=
  afterSync.setBoot 0 (.serving [.synced dollar septemberQuotes]
    (FxRateCache.load (FxRateRepository.findAllEffective afterSync.store.table)))

/-- And NBU has revised a day. -/
def revisedTo (archive : NbuArchive) : FxWorld Nat :=
  { served with archive := Function.update served.archive dollar.code.toLower archive }

/-- And the second boot has written what it asked for. -/
def resynced (archive : NbuArchive) (rows : List FxRateRow) : FxWorld Nat :=
  { (revisedTo archive).setBoot 1 (.syncing [.synced dollar archive]) with
    store := served.store.upserted rows }

theorem served_boots (i : Nat) (tasks : List SyncTask) : served.boots i ≠ .syncing tasks := by
  intro h
  by_cases hi : i = 0
  · subst hi
    rw [served, FxWorld.setBoot] at h
    simp at h
  · simp only [served, FxWorld.setBoot, afterSync, beforeSync, Function.update_of_ne hi] at h
    simp at h

theorem resynced_reach {ok : FxWorld Nat → FxEvent Nat → Prop} {archive : NbuArchive}
    (q : NbuQuote) {rows : List FxRateRow}
    (harchive : archive.quotes = septemberQuotes.quotes.map fun p =>
      if p.day = q.day then q else p)
    (hrows : SyncTask.parsed dollar archive
      (archive.answer (nbuRequest dollar "2026-09-02" "2026-09-03") "USD")
      = .upserting dollar archive rows) (hshort : rows.length ≤ UPSERT_CHUNK)
    (hupsert : (served.store.upsert NBU_SOURCE rows).isOk = true)
    (hok : ∀ w i n body, ok w (.fetch i n body) ∧ ok w (.upsert i n) ∧ ok w (.load i))
    (hfirst : ok beforeSync (.start 0 (daysFromCivil 2026 9 1 * MS_PER_DAY) [dollar]))
    (hrevise : ok served (.revise dollar.code.toLower q))
    (hsecond : ok (revisedTo archive)
      (.start 1 (daysFromCivil 2026 9 2 * MS_PER_DAY) [dollar])) :
    Reach (FxWorld.Step firstOfSeptember) ok beforeSync (resynced archive rows) := by
  have h₁ : Reach (FxWorld.Step firstOfSeptember) ok beforeSync afterSync :=
    afterSync_reach hfirst (fun w body => (hok w 0 0 body).1) fun w => (hok w 0 0 none).2.1
  have h₂ : Reach (FxWorld.Step firstOfSeptember) ok beforeSync served :=
    h₁.then (.load 0) (hok _ 0 0 none).2.2 (.load rfl rfl)
  have h₃ : Reach (FxWorld.Step firstOfSeptember) ok beforeSync (revisedTo archive) :=
    h₂.then _ hrevise (.revise harchive)
  have harchive' : (revisedTo archive).archive dollar.code.toLower = archive :=
    Function.update_self ..
  have hfrom : ((served.store.findLastDates NBU_SOURCE).lookup dollar.code).getD
      firstOfSeptember = "2026-09-02" := by decide +kernel
  have h₄ := @sync_dollar Nat _ ok (revisedTo archive) 1 firstOfSeptember
    (daysFromCivil 2026 9 2 * MS_PER_DAY) "2026-09-02" "2026-09-03" rows rfl
    (by decide +kernel) hfrom (by rw [harchive']; exact hrows) hshort hupsert
    hsecond (fun w body => (hok w 1 0 body).1) fun w => (hok w 1 0 none).2.1
  rw [harchive'] at h₄
  exact h₃.trans h₄

/-- The first of September is revised, which is not the last stored day. -/
def firstRevised : NbuArchive where
  quotes := [quoteOn 2026 9 1 40, quoteOn 2026 9 2 42]
  ascending := by decide +kernel
  dated := by decide +kernel

/-- The second boot's sync succeeds and the old rate stays. -/
theorem restart_keeps_old_quote : ∃ w : FxWorld Nat, ∃ r ∈ w.store.rows,
    Reach (FxWorld.Step firstOfSeptember) BetweenBoots beforeSync w ∧
      w.boots 1 = .syncing [.synced dollar firstRevised] ∧
      quoteOn 2026 9 1 40 ∈ firstRevised.quotes ∧ r.source = NBU_SOURCE ∧
      r.currency = "USD" ∧ r.rateDate = (quoteOn 2026 9 1 40).day ∧
      r.rate = ⟨41 * 10 ^ 10⟩ ∧ ¬ r.OfQuote (quoteOn 2026 9 1 40) := by
  obtain ⟨w, hw⟩ : ∃ w, w = resynced firstRevised [(quoteOn 2026 9 2 42).row "USD"] :=
    ⟨_, rfl⟩
  have hreach : Reach (FxWorld.Step firstOfSeptember) BetweenBoots beforeSync w := by
    rw [hw]
    exact resynced_reach (quoteOn 2026 9 1 40) (by decide +kernel) (by decide +kernel)
      (by decide +kernel) (by decide +kernel)
      (fun _ _ _ _ => ⟨trivial, trivial, trivial⟩) trivial served_boots trivial
  have hrow : ∃ r ∈ w.store.rows, r.source = NBU_SOURCE ∧ r.currency = "USD" ∧
      r.rateDate = (quoteOn 2026 9 1 40).day ∧ r.rate = ⟨41 * 10 ^ 10⟩ ∧
      ¬ r.OfQuote (quoteOn 2026 9 1 40) := by
    rw [hw]
    unfold StoredFxRate.OfQuote
    decide +kernel
  obtain ⟨r, hr, hrow⟩ := hrow
  exact ⟨w, r, hr, hreach, by rw [hw]; rfl, by decide +kernel, hrow⟩

/-- The second of September is, and it is the last stored day. -/
def secondRevised : NbuArchive where
  quotes := [quoteOn 2026 9 1 41, quoteOn 2026 9 2 43]
  ascending := by decide +kernel
  dated := by decide +kernel

theorem restart_picks_up_corrections_sample :
    ∃ w : FxWorld Nat, w.boots 1 = .syncing [.synced dollar secondRevised] ∧
      (∃ r ∈ w.store.rows, r.rate = ⟨43 * 10 ^ 10⟩) ∧
      ∀ r ∈ w.store.rows, r.source = NBU_SOURCE → r.currency = "USD" →
        ∃ q ∈ (w.archive "usd").quotes, r.AsAnswered secondRevised q := by
  obtain ⟨w, hw⟩ : ∃ w, w = resynced secondRevised [(quoteOn 2026 9 2 43).row "USD"] :=
    ⟨_, rfl⟩
  have hlast : ∀ r ∈ served.store.rows, r.rateDate = (quoteOn 2026 9 2 43).day →
      ∀ p ∈ served.store.rows, p.rateDate ≤ r.rateDate := by decide +kernel
  have hclock : ∀ r ∈ served.store.rows,
      r.rateDate ≤ daysFromCivil 2026 9 2 * MS_PER_DAY / MS_PER_DAY + 1 := by decide +kernel
  have hnow : Dated (daysFromCivil 2026 9 2 * MS_PER_DAY / MS_PER_DAY) ∧
      Dated (daysFromCivil 2026 9 2 * MS_PER_DAY / MS_PER_DAY + 1) := by
    unfold Dated
    decide +kernel
  have hreach : Reach (FxWorld.Step firstOfSeptember)
      (fun w e => BetweenBoots w e ∧ RevisesLast w e) beforeSync w := by
    rw [hw]
    refine resynced_reach (quoteOn 2026 9 2 43) (by decide +kernel) (by decide +kernel)
      (by decide +kernel) (by decide +kernel)
      (fun _ _ _ _ => ⟨⟨trivial, trivial⟩, ⟨trivial, trivial⟩, trivial, trivial⟩)
      ⟨trivial, fun r hr => absurd hr.stored List.not_mem_nil⟩
      ⟨served_boots, fun r hr _ _ hday => Or.inr fun p hp _ _ => hlast r hr hday p hp⟩
      ⟨trivial, fun r hr _ _ _ => ⟨hnow.1, hnow.2, hclock r hr.stored⟩⟩
  have hboot : w.boots 1 = .syncing [.synced dollar secondRevised] := by
    rw [hw]
    rfl
  have hdated : Dated (daysFromCivil 2026 9 1) := by unfold Dated; decide +kernel
  have hrows := (restart_picks_up_corrections hdated beforeSync_fresh hreach
    (List.mem_singleton_self (SyncTask.synced dollar secondRevised))).1 hboot
  rw [show dollar.code.toLower = "usd" by decide +kernel] at hrows
  refine ⟨w, hboot, ?_, hrows⟩
  rw [hw]
  decide +kernel

end InvestApi.Ref
