import InvestApi.Lts.Run
import InvestApi.Fx.Store

/-!
# Resuming never leaves a hole

A sync starts from the last NBU day of a currency, so a day missing below it is
never asked for again. None is: what a sync still has to write is, up to each of
its rows, all that the table lacks. `SyncTask.Sound` says so of one task, and a
day NBU publishes later, being after every earlier one, is after all those rows.
-/

namespace InvestApi.Ref

open InvestApi.Lts

variable {ι : Type}

/-! ## The days -/

def NbuArchive.days (archive : NbuArchive) : List Int := archive.quotes.map (·.day)

/-- A later state of an archive: the new days are after every old one. -/
structure NbuArchive.Grows (archive later : NbuArchive) : Prop where
  keeps : ∀ d ∈ archive.days, d ∈ later.days
  after : ∀ d ∈ later.days, d ∉ archive.days → ∀ e ∈ archive.days, e < d

theorem NbuArchive.Grows.refl (archive : NbuArchive) : archive.Grows archive where
  keeps _ h := h
  after _ h hnot := absurd h hnot

/-- A day not after an old one is old. -/
theorem NbuArchive.Grows.old {archive later : NbuArchive} (h : archive.Grows later)
    {d e : Int} (hd : d ∈ later.days) (he : e ∈ archive.days) (hle : d ≤ e) :
    d ∈ archive.days := by
  by_contra hnot
  have hlt := h.after d hd hnot e he
  omega

theorem NbuArchive.grows_publish {archive later : NbuArchive} {q : NbuQuote}
    (h : later.quotes = archive.quotes ++ [q]) : archive.Grows later := by
  have hdays : later.days = archive.days ++ [q.day] := by rw [days, days, h, List.map_append]; rfl
  have hasc := later.ascending
  rw [h, List.pairwise_append] at hasc
  constructor
  · intro d hd
    rw [hdays]
    exact List.mem_append_left _ hd
  · intro d hd hnot e he
    rw [hdays, List.mem_append, List.mem_singleton] at hd
    obtain rfl := hd.resolve_left hnot
    obtain ⟨p, hp, rfl⟩ := List.mem_map.mp he
    exact hasc.2.2 p hp q (List.mem_singleton_self q)

theorem NbuArchive.days_revise {archive later : NbuArchive} {q : NbuQuote}
    (h : later.quotes = archive.quotes.map fun p => if p.day = q.day then q else p) :
    later.days = archive.days := by
  rw [days, days, h, List.map_map]
  refine List.map_congr_left fun p _ => ?_
  show (if p.day = q.day then q else p).day = p.day
  split
  · next heq => exact heq.symm
  · rfl

theorem NbuArchive.dated_day (archive : NbuArchive) {d : Int} (h : d ∈ archive.days) :
    1 ≤ (civil d).1 ∧ (civil d).1 ≤ 9999 := by
  obtain ⟨q, hq, rfl⟩ := List.mem_map.mp h
  exact archive.dated q hq

/-- NBU's day `d` of the currency is stored. -/
def FxStore.HasDay (S : FxStore) (code : String) (d : Int) : Prop :=
  ∃ r ∈ S.rows, r.source = NBU_SOURCE ∧ r.currency = code ∧ r.rateDate = d

/-- An upsert of parsed quotes stores their days, and no others. -/
theorem FxStore.hasDay_upsert {S S' : FxStore} {code : String} {quotes : List NbuQuote}
    (hdated : ∀ q ∈ quotes, 1 ≤ (civil q.day).1 ∧ (civil q.day).1 ≤ 9999)
    (h : S.upsert NBU_SOURCE (quotes.map fun q => q.row code) = .ok S') (c : String)
    (d : Int) :
    S'.HasDay c d ↔ S.HasDay c d ∨ (c = code ∧ ∃ q ∈ quotes, q.day = d) := by
  obtain ⟨stored, hstored, hmem⟩ := upsert_ok h
  have hread : ∀ q ∈ quotes, ∀ r, StoredFxRate.ofRow NBU_SOURCE (q.row code) = .ok r →
      r.source = NBU_SOURCE ∧ r.currency = code ∧ r.rateDate = q.day := by
    intro q hq r hr
    obtain ⟨h1, h2⟩ := hdated q hq
    obtain ⟨hs, hc, hd⟩ := StoredFxRate.ofRow_ok hr
    have hday : pgDateIn (q.row code).rateDate = some q.day :=
      (pgDateIn_dateText ⟨by omega, h2⟩).trans (if_neg (by omega))
    exact ⟨hs, hc, Option.some.inj (hd.symm.trans hday)⟩
  obtain ⟨hquote, hrow⟩ := mem_of_forall₂ hstored
  constructor
  · rintro ⟨r, hr, hs, hc, hd⟩
    rcases (hmem r).mp hr with hr | ⟨hr, _⟩
    · obtain ⟨row, hrow', hof⟩ := hrow r hr
      obtain ⟨q, hq, rfl⟩ := List.mem_map.mp hrow'
      obtain ⟨_, hcode, hday⟩ := hread q hq r hof
      exact Or.inr ⟨hc.symm.trans hcode, q, hq, hday.symm.trans hd⟩
    · exact Or.inl ⟨r, hr, hs, hc, hd⟩
  · rintro (⟨r, hr, hs, hc, hd⟩ | ⟨rfl, q, hq, rfl⟩)
    · by_cases hkey : r.sortKey ∈ stored.map StoredFxRate.sortKey
      · obtain ⟨r', hr', heq⟩ := List.mem_map.mp hkey
        obtain ⟨hc', hd', hs'⟩ := StoredFxRate.sortKey_eq_iff.mp heq
        exact ⟨r', (hmem r').mpr (Or.inl hr'), hs'.trans hs, hc'.trans hc, hd'.trans hd⟩
      · exact ⟨r, (hmem r).mpr (Or.inr ⟨hr, hkey⟩), hs, hc, hd⟩
    · obtain ⟨r, hr, hof⟩ := hquote _ (List.mem_map_of_mem hq)
      obtain ⟨hs, hc, hd⟩ := hread q hq r hof
      exact ⟨r, (hmem r).mpr (Or.inl hr), hs, hc, hd⟩

/-! ## The invariant -/

/-- The stored days are published, and from FX_BACKFILL_FROM on they are all the
published ones up to the last. -/
structure NoHole (backfill : Int) (w : FxWorld ι) (code : String) : Prop where
  published : ∀ d, w.store.HasDay code d → d ∈ (w.archive code.toLower).days
  full : ∀ p ∈ (w.archive code.toLower).days, backfill ≤ p →
    ∀ d, w.store.HasDay code d → p ≤ d → w.store.HasDay code p

/-- A fetch from day `first`: all that is published from FX_BACKFILL_FROM on and
before it is stored. -/
structure FetchSound (backfill : Int) (w : FxWorld ι) (code fromDate : String)
    (first : Int) : Prop where
  text : fromDate = String.ofList (dateText first)
  dated : Dated first
  begins : first = backfill ∨ first ∈ (w.archive code.toLower).days
  before : ∀ p ∈ (w.archive code.toLower).days, backfill ≤ p → p < first →
    w.store.HasDay code p

/-- What is left of an answer: up to each of its days, whatever is published is
stored or still to be written here. -/
structure RowsSound (backfill : Int) (w : FxWorld ι) (code : String)
    (quotes : List NbuQuote) : Prop where
  ascending : quotes.Pairwise fun p q => p.day < q.day
  published : ∀ q ∈ quotes, q.day ∈ (w.archive code.toLower).days
  before : ∀ q ∈ quotes, ∀ p ∈ (w.archive code.toLower).days, backfill ≤ p → p ≤ q.day →
    w.store.HasDay code p ∨ p ∈ quotes.map (·.day)

def SyncTask.Sound (backfill : Int) (w : FxWorld ι) : SyncTask → Prop
  | .fetching currency fromDate _ => ∃ first,
      FetchSound backfill w currency.code fromDate first
  | .upserting currency _ rows => ∃ quotes : List NbuQuote,
      rows = quotes.map (fun q => q.row currency.code) ∧
        RowsSound backfill w currency.code quotes
  | .synced _ _ => True
  | .failed _ => True

/-- The tasks of a boot that has not ended. -/
def Boot.running : Boot → List SyncTask
  | .off => []
  | .syncing tasks => tasks
  | .serving _ _ => []

structure SyncInv (backfill : Int) (w : FxWorld ι) : Prop where
  noHole : ∀ code, NoHole backfill w code
  tasks : ∀ i, ∀ t ∈ (w.boots i).running, t.Sound backfill w

/-! ## What time does to it -/

section Later

variable {backfill : Int} {w w' : FxWorld ι}

/-- NBU has only published, the table only gained days. -/
structure Later (w w' : FxWorld ι) : Prop where
  grows : ∀ valcode, (w.archive valcode).Grows (w'.archive valcode)
  keeps : ∀ code d, w.store.HasDay code d → w'.store.HasDay code d

theorem FetchSound.later {code fromDate : String} {first : Int}
    (h : FetchSound backfill w code fromDate first) (hl : Later w w') :
    FetchSound backfill w' code fromDate first where
  text := h.text
  dated := h.dated
  begins := h.begins.imp_right ((hl.grows _).keeps first)
  before := by
    intro p hp hb hlt
    rcases h.begins with rfl | hfirst
    · omega
    · have hold := (hl.grows _).old hp hfirst (by omega)
      exact hl.keeps code p (h.before p hold hb hlt)

theorem RowsSound.later {code : String} {quotes : List NbuQuote}
    (h : RowsSound backfill w code quotes) (hl : Later w w') :
    RowsSound backfill w' code quotes where
  ascending := h.ascending
  published q hq := (hl.grows _).keeps _ (h.published q hq)
  before := by
    intro q hq p hp hb hle
    have hold := (hl.grows _).old hp (h.published q hq) hle
    exact (h.before q hq p hold hb hle).imp_left (hl.keeps code p)

theorem SyncTask.Sound.later {t : SyncTask} (h : t.Sound backfill w) (hl : Later w w') :
    t.Sound backfill w' := by
  cases t with
  | fetching currency fromDate toDate =>
      obtain ⟨first, hf⟩ := h
      exact ⟨first, hf.later hl⟩
  | upserting currency answered rows =>
      obtain ⟨quotes, hrows, hq⟩ := h
      exact ⟨quotes, hrows, hq.later hl⟩
  | synced currency answered => trivial
  | failed currency => trivial

/-- Where the table has the same days, no hole appears. -/
theorem NoHole.later {code : String} (h : NoHole backfill w code) (hl : Later w w')
    (hsame : ∀ d, w'.store.HasDay code d → w.store.HasDay code d) :
    NoHole backfill w' code where
  published d hd := (hl.grows _).keeps d (h.published d (hsame d hd))
  full := by
    intro p hp hb d hd hle
    have hstored := hsame d hd
    have hold := (hl.grows _).old hp (h.published d hstored) hle
    exact hl.keeps code p (h.full p hold hb d hstored hle)

end Later

/-! ## One step -/

section Steps

variable {backfill : Int} {w : FxWorld ι}

theorem toChar_read {n : Int} (h : 1 ≤ (civil n).1 ∧ (civil n).1 ≤ 9999) :
    Dated n ∧ toChar n = String.ofList (dateText n) :=
  ⟨⟨by omega, h.2⟩, toChar_dated h⟩

/-- A sync begins each currency at its last stored day or at FX_BACKFILL_FROM. -/
theorem start_sound (hb : Dated backfill) (h : ∀ code, NoHole backfill w code)
    {toDate : String} {currencies : List QuotedCurrency} :
    ∀ t ∈ w.tasks (String.ofList (dateText backfill)) toDate currencies,
      t.Sound backfill w := by
  intro t ht
  obtain ⟨currency, _, rfl⟩ := List.mem_map.mp ht
  rcases w.store.findLastDates_lookup NBU_SOURCE currency.code with
    ⟨last, hlast, hlookup⟩ | ⟨_, hlookup⟩
  · obtain ⟨⟨r, hr, hs, hc, rfl⟩, _⟩ := hlast
    obtain ⟨hdated, htext⟩ := toChar_read r.dated
    have hstored : w.store.HasDay currency.code r.rateDate := ⟨r, hr, hs, hc, rfl⟩
    refine ⟨r.rateDate, ⟨?_, hdated, Or.inr ((h _).published _ hstored), ?_⟩⟩
    · rw [hlookup]
      exact htext
    · intro p hp hbp hlt
      exact (h _).full p hp hbp _ hstored (le_of_lt hlt)
  · refine ⟨backfill, ⟨?_, hb, Or.inl rfl, ?_⟩⟩
    · rw [hlookup]
      rfl
    · intro p _ hbp hlt
      omega

theorem chunks_sound {currency : QuotedCurrency} {answered : NbuArchive}
    {quotes : List NbuQuote} (h : RowsSound backfill w currency.code quotes) :
    (SyncTask.chunks currency answered (quotes.map fun q => q.row currency.code)).Sound
      backfill w := by
  cases quotes with
  | nil => trivial
  | cons q quotes => exact ⟨q :: quotes, rfl, h⟩

/-- A request with a first day that reads asks for the days up to its last one. -/
theorem covers_iff {request : NbuRequest} {first day : Int}
    (hstart : nbuDateIn request.start = some first) :
    request.covers day = true ↔
      ∃ last, nbuDateIn request.endDate = some last ∧ first ≤ day ∧ day ≤ last := by
  rw [NbuRequest.covers, hstart]
  cases nbuDateIn request.endDate with
  | none => simp
  | some last => simp

/-- The quotes an answer lists are those of a range that begins at `first`. -/
theorem mem_covered {archive : NbuArchive} {currency : QuotedCurrency}
    {fromDate toDate : String} {first : Int} (htext : fromDate = String.ofList (dateText first))
    (hdated : Dated first) {q : NbuQuote}
    (hq : q ∈ archive.quotes.filter fun q => (nbuRequest currency fromDate toDate).covers q.day) :
    q ∈ archive.quotes ∧ first ≤ q.day ∧
      ∀ p ∈ archive.quotes, first ≤ p.day → p.day ≤ q.day →
        p ∈ archive.quotes.filter fun q =>
          (nbuRequest currency fromDate toDate).covers q.day := by
  have hread : nbuDateIn (nbuRequest currency fromDate toDate).start = some first := by
    rw [htext]
    exact nbuDateIn_dateText hdated
  obtain ⟨hmem, hcovers⟩ := List.mem_filter.mp hq
  obtain ⟨last, hlast, hge, hle⟩ := (covers_iff hread).mp hcovers
  refine ⟨hmem, hge, fun p hp hfirst hpq => List.mem_filter.mpr ⟨hp, ?_⟩⟩
  exact (covers_iff hread).mpr ⟨last, hlast, hfirst, by omega⟩

theorem dated_of_covered {archive : NbuArchive} {request : NbuRequest} :
    ∀ q ∈ archive.quotes.filter fun q => request.covers q.day, Dated q.day := by
  intro q hq
  obtain ⟨h1, h2⟩ := archive.dated q (List.mem_of_mem_filter hq)
  exact ⟨by omega, h2⟩

/-- What an answer leaves to be written. -/
theorem parsed_sound {currency : QuotedCurrency} {fromDate toDate : String} {first : Int}
    (h : FetchSound backfill w currency.code fromDate first) {body : Option (List NbuRecord)}
    (hanswer : (w.archive currency.code.toLower).Answers
      (nbuRequest currency fromDate toDate) body) :
    (SyncTask.parsed currency (w.archive currency.code.toLower) body).Sound backfill w := by
  obtain ⟨records, rfl, hquotes⟩ := hanswer
  rw [SyncTask.parsed]
  split
  · trivial
  next rows hparse =>
  rw [parsed_rows dated_of_covered hquotes hparse]
  refine chunks_sound ⟨(w.archive _).ascending.filter _, fun q hq => ?_, ?_⟩
  · exact List.mem_map_of_mem (List.mem_of_mem_filter hq)
  · intro q hq p hp hbp hle
    obtain ⟨_, _, hrange⟩ := mem_covered h.text h.dated hq
    by_cases hlt : p < first
    · exact Or.inl (h.before p hp hbp hlt)
    · obtain ⟨p', hp', rfl⟩ := List.mem_map.mp hp
      exact Or.inr (List.mem_map_of_mem (hrange p' hp' (by omega) hle))

/-- A chunk moves days from what is left to what is stored. -/
theorem upsert_sound {currency : QuotedCurrency} {quotes : List NbuQuote} {n : Nat}
    (h : RowsSound backfill w currency.code quotes)
    (hole : ∀ code, NoHole backfill w code) {store : FxStore}
    (hstore : w.store.upsert NBU_SOURCE
      ((quotes.map fun q => q.row currency.code).take n) = .ok store) :
    Later w { w with store := store } ∧
      (∀ code, NoHole backfill { w with store := store } code) ∧
      RowsSound backfill { w with store := store } currency.code (quotes.drop n) := by
  rw [← List.map_take] at hstore
  have hdays := FxStore.hasDay_upsert (fun q hq =>
    (w.archive _).dated_day (h.published q (List.mem_of_mem_take hq))) hstore
  have hlater : Later w { w with store := store } :=
    ⟨fun _ => .refl _, fun code d hd => (hdays code d).mpr (Or.inl hd)⟩
  have hsplit : ∀ q ∈ quotes, q ∈ quotes.take n ∨ q ∈ quotes.drop n := by
    intro q hq
    rw [← List.take_append_drop n quotes] at hq
    exact List.mem_append.mp hq
  have hasc := h.ascending
  rw [← List.take_append_drop n quotes, List.pairwise_append] at hasc
  -- up to a day of this chunk nothing published is left out
  have hchunk : ∀ q ∈ quotes.take n, ∀ p ∈ (w.archive currency.code.toLower).days,
      backfill ≤ p → p ≤ q.day → store.HasDay currency.code p := by
    intro q hq p hp hbp hle
    rcases h.before q (List.mem_of_mem_take hq) p hp hbp hle with hold | hleft
    · exact hlater.keeps _ _ hold
    · obtain ⟨q', hq', rfl⟩ := List.mem_map.mp hleft
      rcases hsplit q' hq' with htake | hdrop
      · exact (hdays _ _).mpr (Or.inr ⟨rfl, q', htake, rfl⟩)
      · have hlt := hasc.2.2 q hq q' hdrop
        omega
  refine ⟨hlater, fun code => ?_, ?_⟩
  · by_cases hcode : code = currency.code
    · subst hcode
      constructor
      · intro d hd
        rcases (hdays _ d).mp hd with hold | ⟨_, q, hq, rfl⟩
        · exact (hole _).published d hold
        · exact h.published q (List.mem_of_mem_take hq)
      · intro p hp hbp d hd hle
        rcases (hdays _ d).mp hd with hold | ⟨_, q, hq, rfl⟩
        · exact hlater.keeps _ _ ((hole _).full p hp hbp d hold hle)
        · exact hchunk q hq p hp hbp hle
    · exact (hole code).later hlater fun d hd =>
        ((hdays code d).mp hd).resolve_right fun hnew => hcode hnew.1
  · refine ⟨hasc.2.1, fun q hq => h.published q (List.mem_of_mem_drop hq), ?_⟩
    intro q hq p hp hbp hle
    rcases h.before q (List.mem_of_mem_drop hq) p hp hbp hle with hold | hleft
    · exact Or.inl (hlater.keeps _ _ hold)
    · obtain ⟨q', hq', rfl⟩ := List.mem_map.mp hleft
      rcases hsplit q' hq' with htake | hdrop
      · exact Or.inl ((hdays _ _).mpr (Or.inr ⟨rfl, q', htake, rfl⟩))
      · exact Or.inr (List.mem_map_of_mem hdrop)

/-- A step that adds no tasks but sound ones. -/
theorem SyncInv.next {w' : FxWorld ι} (h : SyncInv backfill w) (hl : Later w w')
    (hole : ∀ code, NoHole backfill w' code)
    (htasks : ∀ i, ∀ t ∈ (w'.boots i).running,
      t ∈ (w.boots i).running ∨ t.Sound backfill w') : SyncInv backfill w' := by
  refine ⟨hole, fun i t ht => ?_⟩
  rcases htasks i t ht with hold | hnew
  · exact (h.tasks i t hold).later hl
  · exact hnew

theorem later_archive {archive : String → NbuArchive}
    (h : ∀ valcode, (w.archive valcode).Grows (archive valcode)) :
    Later w { w with archive := archive } :=
  ⟨h, fun _ _ hd => hd⟩

theorem mem_other {S S' : FxStore}
    (h : S'.rows.filter (fun r => r.source = NBU_SOURCE)
      = S.rows.filter (fun r => r.source = NBU_SOURCE)) {r : StoredFxRate}
    (hs : r.source = NBU_SOURCE) : r ∈ S'.rows ↔ r ∈ S.rows := by
  have hin := congrArg (fun l => r ∈ l) h
  simpa [hs] using hin

theorem hasDay_other {S S' : FxStore}
    (h : S'.rows.filter (fun r => r.source = NBU_SOURCE)
      = S.rows.filter (fun r => r.source = NBU_SOURCE)) (code : String) (d : Int) :
    S'.HasDay code d ↔ S.HasDay code d := by
  constructor
  · rintro ⟨r, hr, hs, hc, hd⟩
    exact ⟨r, (mem_other h hs).mp hr, hs, hc, hd⟩
  · rintro ⟨r, hr, hs, hc, hd⟩
    exact ⟨r, (mem_other h hs).mpr hr, hs, hc, hd⟩

theorem SyncInv.archive (h : SyncInv backfill w) {valcode : String} {archive : NbuArchive}
    (hgrows : (w.archive valcode).Grows archive) :
    SyncInv backfill { w with archive := Function.update w.archive valcode archive } := by
  have hl : Later w { w with archive := Function.update w.archive valcode archive } := by
    refine later_archive fun v => ?_
    by_cases hv : v = valcode
    · subst hv
      rw [Function.update_self]
      exact hgrows
    · rw [Function.update_of_ne hv]
      exact .refl _
  exact h.next hl (fun code => (h.noHole code).later hl fun d hd => hd)
    fun i t ht => Or.inl ht

variable [DecidableEq ι]

theorem later_setBoot (i : ι) (b : Boot) : Later w (w.setBoot i b) :=
  ⟨fun _ => .refl _, fun _ _ hd => hd⟩

/-- The tasks of the boot that took the step are its old ones and the new. -/
theorem running_set {i : ι} {tasks : List SyncTask} (hboot : w.boots i = .syncing tasks)
    {n : Nat} {t' : SyncTask} {j : ι} {t : SyncTask}
    (ht : t ∈ ((w.setBoot i (.syncing (tasks.set n t'))).boots j).running) :
    t ∈ (w.boots j).running ∨ t = t' := by
  by_cases hj : j = i
  · subst hj
    simp only [FxWorld.setBoot, Function.update_self] at ht
    rw [hboot]
    exact List.mem_or_eq_of_mem_set ht
  · simp only [FxWorld.setBoot, Function.update_of_ne hj] at ht
    exact Or.inl ht

theorem running_other {i j : ι} {b : Boot} {t : SyncTask}
    (ht : t ∈ ((w.setBoot i b).boots j).running) :
    t ∈ (w.boots j).running ∨ (j = i ∧ t ∈ b.running) := by
  by_cases hj : j = i
  · subst hj
    simp only [FxWorld.setBoot, Function.update_self] at ht
    exact Or.inr ⟨rfl, ht⟩
  · simp only [FxWorld.setBoot, Function.update_of_ne hj] at ht
    exact Or.inl ht

theorem SyncInv.setBoot (h : SyncInv backfill w) {i : ι} {b : Boot}
    (hb : ∀ t ∈ b.running, t ∈ (w.boots i).running ∨ t.Sound backfill w) :
    SyncInv backfill (w.setBoot i b) := by
  have hl := later_setBoot (w := w) i b
  refine h.next hl (fun code => (h.noHole code).later hl fun d hd => hd) fun j t ht => ?_
  rcases running_other ht with hold | ⟨rfl, hnew⟩
  · exact Or.inl hold
  · exact (hb t hnew).imp_right fun hs => hs.later hl

/-- Every step keeps it. -/
theorem SyncInv.step (hb : Dated backfill) (h : SyncInv backfill w) {e : FxEvent ι}
    {w' : FxWorld ι} (hstep : w.Step (String.ofList (dateText backfill)) e w') :
    SyncInv backfill w' := by
  cases hstep with
  | publish harchive => exact h.archive (NbuArchive.grows_publish harchive)
  | @revise valcode q archive harchive =>
      refine h.archive ⟨fun d hd => ?_, fun d hd hnot => absurd ?_ hnot⟩
      · rwa [NbuArchive.days_revise harchive]
      · rwa [NbuArchive.days_revise harchive] at hd
  | @other store hstore =>
      have hsame := hasDay_other hstore
      have hl : Later w { w with store := store } :=
        ⟨fun _ => .refl _, fun code d hd => (hsame code d).mpr hd⟩
      exact h.next hl (fun code => (h.noHole code).later hl fun d hd => (hsame code d).mp hd)
        fun i t ht => Or.inl ht
  | start hoff hto => exact h.setBoot fun t ht => Or.inr (start_sound hb h.noHole t ht)
  | skip hoff => exact h.setBoot fun t ht => absurd ht List.not_mem_nil
  | @fetch i n body tasks currency fromDate toDate hboot htask hanswer =>
      have hmem : SyncTask.fetching currency fromDate toDate ∈ (w.boots i).running := by
        rw [hboot]
        exact List.mem_of_getElem? htask
      obtain ⟨first, hfetch⟩ := h.tasks i _ hmem
      refine h.setBoot fun t ht => ?_
      rw [hboot]
      rcases List.mem_or_eq_of_mem_set ht with hold | rfl
      · exact Or.inl hold
      · exact Or.inr (parsed_sound hfetch hanswer)
  | @upsert i n tasks currency answered rows store hboot htask hstore =>
      have hmem : SyncTask.upserting currency answered rows ∈ (w.boots i).running := by
        rw [hboot]
        exact List.mem_of_getElem? htask
      obtain ⟨quotes, rfl, hrows⟩ := h.tasks i _ hmem
      obtain ⟨hl, hole, hleft⟩ := upsert_sound hrows h.noHole hstore
      refine SyncInv.next h ⟨hl.grows, hl.keeps⟩ (fun code => ⟨(hole code).published,
        (hole code).full⟩) fun j t ht => ?_
      rcases running_set hboot ht with hold | rfl
      · exact Or.inl hold
      · rw [← List.map_drop]
        exact Or.inr (chunks_sound ⟨hleft.ascending, hleft.published, hleft.before⟩)
  | @fail i n tasks task hboot htask hrunning =>
      refine h.setBoot fun t ht => ?_
      rw [hboot]
      rcases List.mem_or_eq_of_mem_set ht with hold | rfl
      · exact Or.inl hold
      · exact Or.inr trivial
  | load hboot hdone => exact h.setBoot fun t ht => absurd ht List.not_mem_nil
  | unloaded hboot hdone => exact h.setBoot fun t ht => absurd ht List.not_mem_nil

end Steps

/-! ## Whole histories -/

/-- Before the first sync: no row is NBU's and nobody has booted. -/
structure FxWorld.Fresh (w : FxWorld ι) : Prop where
  store : ∀ r ∈ w.store.rows, r.source ≠ NBU_SOURCE
  boots : ∀ i, w.boots i = .off

theorem FxWorld.Fresh.inv {backfill : Int} {w : FxWorld ι} (h : w.Fresh) :
    SyncInv backfill w := by
  have hnone : ∀ code d, ¬ w.store.HasDay code d := by
    rintro code d ⟨r, hr, hs, _⟩
    exact h.store r hr hs
  refine ⟨fun code => ⟨fun d hd => absurd hd (hnone code d), ?_⟩, fun i t ht => ?_⟩
  · intro p _ _ d hd
    exact absurd hd (hnone code d)
  · rw [h.boots i] at ht
    exact absurd ht List.not_mem_nil

/-- However the syncs of any instances interleave and fail: what NBU has
published between FX_BACKFILL_FROM and the last stored day is stored. -/
theorem resume_leaves_no_hole [DecidableEq ι] {backfill : Int} (hb : Dated backfill)
    {w₀ w : FxWorld ι} (h₀ : w₀.Fresh)
    (h : Reachable (FxWorld.Step (String.ofList (dateText backfill))) w₀ w)
    (code : String) {last : Int} (hlast : w.store.LastDay NBU_SOURCE code last) :
    ∀ q ∈ (w.archive code.toLower).quotes, backfill ≤ q.day → q.day ≤ last →
      w.store.HasDay code q.day := by
  have hinv : SyncInv backfill w :=
    h.invariant h₀.inv fun _ _ _ hi _ hstep => hi.step hb hstep
  intro q hq hfrom hle
  exact (hinv.noHole code).full q.day (List.mem_map_of_mem hq) hfrom last hlast.stored hle

/-! One instance, an empty table, two published days. -/

def dollar : QuotedCurrency := ⟨"USD", 840⟩

def quoteOn (y m d : Int) (rate : Number) : NbuQuote := ⟨daysFromCivil y m d, rate, 1⟩

def septemberQuotes : NbuArchive where
  quotes := [quoteOn 2026 9 1 41, quoteOn 2026 9 2 42]
  ascending := by decide +kernel
  dated := by decide +kernel

def firstOfSeptember : String := String.ofList (dateText (daysFromCivil 2026 9 1))

def beforeSync : FxWorld Nat := ⟨fun _ => septemberQuotes, .empty, fun _ => .off⟩

theorem beforeSync_fresh : beforeSync.Fresh :=
  ⟨fun _ hr => absurd hr List.not_mem_nil, fun _ => rfl⟩

/-- The answer of an archive to a request, record for record. -/
def NbuArchive.answer (archive : NbuArchive) (request : NbuRequest) (code : String) :
    Option (List NbuRecord) :=
  some ((archive.quotes.filter fun q => request.covers q.day).map fun q =>
    ⟨nbuDateText q.day, 840, code, q.rate, q.units⟩)

theorem NbuArchive.answers_answer (archive : NbuArchive) (request : NbuRequest)
    (code : String) : archive.Answers request (archive.answer request code) :=
  ⟨_, rfl, List.forall₂_map_left_iff.mpr (List.forall₂_same.mpr fun _ _ => ⟨rfl, rfl, rfl⟩)⟩

/-- The table with rows upserted, where it takes them. -/
def FxStore.upserted (S : FxStore) (rows : List FxRateRow) : FxStore :=
  match S.upsert NBU_SOURCE rows with
  | .ok S' => S'
  | .error _ => S

theorem FxStore.upsert_upserted {S : FxStore} {rows : List FxRateRow}
    (h : (S.upsert NBU_SOURCE rows).isOk = true) :
    S.upsert NBU_SOURCE rows = .ok (S.upserted rows) := by
  rw [upserted]
  cases hS : S.upsert NBU_SOURCE rows with
  | ok S' => rfl
  | error e => rw [hS] at h; exact absurd h (by simp [Except.isOk, Except.toBool])

theorem setBoot_setBoot [DecidableEq ι] (w : FxWorld ι) (i : ι) (a b : Boot) :
    (w.setBoot i a).setBoot i b = w.setBoot i b := by
  simp [FxWorld.setBoot, Function.update_idem]

/-- One boot's sync of one currency in one chunk, from its first read to its
last write. -/
theorem sync_dollar [DecidableEq ι] {ok : FxWorld ι → FxEvent ι → Prop} {w : FxWorld ι}
    {i : ι} {backfillFrom : String} (now : Instant) (fromDate toDate : String)
    (rows : List FxRateRow) (hoff : w.boots i = .off)
    (hto : addDays (toDateOnly now) 1 = some toDate)
    (hfrom : ((w.store.findLastDates NBU_SOURCE).lookup dollar.code).getD backfillFrom
      = fromDate)
    (hrows : SyncTask.parsed dollar (w.archive dollar.code.toLower)
        ((w.archive dollar.code.toLower).answer (nbuRequest dollar fromDate toDate) "USD")
      = .upserting dollar (w.archive dollar.code.toLower) rows)
    (hshort : rows.length ≤ UPSERT_CHUNK)
    (hupsert : (w.store.upsert NBU_SOURCE rows).isOk = true)
    (hstart : ok w (.start i now [dollar])) (hfetch : ∀ w' body, ok w' (.fetch i 0 body))
    (hchunk : ∀ w', ok w' (.upsert i 0)) :
    Reach (FxWorld.Step backfillFrom) ok w
      { w.setBoot i (.syncing [.synced dollar (w.archive dollar.code.toLower)]) with
        store := w.store.upserted rows } := by
  have htasks : w.tasks backfillFrom toDate [dollar] = [.fetching dollar fromDate toDate] := by
    rw [FxWorld.tasks, List.map_singleton, hfrom]
  have h₁ : Reach (FxWorld.Step backfillFrom) ok w
      (w.setBoot i (.syncing [.fetching dollar fromDate toDate])) := by
    rw [← htasks]
    exact Reach.then .refl _ hstart (.start hoff hto)
  have h₂ := h₁.then (.fetch i 0 _) (hfetch _ _) (.fetch (Function.update_self ..) rfl
    ((w.archive dollar.code.toLower).answers_answer (nbuRequest dollar fromDate toDate) "USD"))
  rw [setBoot_setBoot] at h₂
  have hparsed : ([.fetching dollar fromDate toDate] : List SyncTask).set 0
      (.parsed dollar ((w.setBoot i (.syncing [.fetching dollar fromDate toDate])).archive
        (nbuRequest dollar fromDate toDate).valcode)
        ((w.archive dollar.code.toLower).answer (nbuRequest dollar fromDate toDate) "USD"))
      = [.upserting dollar (w.archive dollar.code.toLower) rows] := congrArg (fun t => [t]) hrows
  rw [hparsed] at h₂
  have hstore : w.store.upsert NBU_SOURCE (rows.take UPSERT_CHUNK)
      = .ok (w.store.upserted rows) := by
    rw [List.take_of_length_le hshort]
    exact FxStore.upsert_upserted hupsert
  have h₃ := h₂.then (.upsert i 0) (hchunk _) (.upsert (Function.update_self ..) rfl hstore)
  rw [List.drop_eq_nil_of_le hshort, setBoot_setBoot] at h₃
  exact h₃

def septemberRows : List FxRateRow := septemberQuotes.quotes.map fun q => q.row "USD"

/-- The world after one boot's sync. -/
def afterSync : FxWorld Nat :=
  { beforeSync.setBoot 0 (.syncing [.synced dollar septemberQuotes]) with
    store := FxStore.empty.upserted septemberRows }

theorem afterSync_reach {ok : FxWorld Nat → FxEvent Nat → Prop}
    (hstart : ok beforeSync (.start 0 (daysFromCivil 2026 9 1 * MS_PER_DAY) [dollar]))
    (hfetch : ∀ w body, ok w (.fetch 0 0 body)) (hchunk : ∀ w, ok w (.upsert 0 0)) :
    Reach (FxWorld.Step firstOfSeptember) ok beforeSync afterSync :=
  sync_dollar _ firstOfSeptember "2026-09-02" septemberRows rfl (by decide +kernel) rfl
    (by decide +kernel) (by decide +kernel) (by decide +kernel) hstart hfetch hchunk

theorem resume_leaves_no_hole_sample : ∃ w : FxWorld Nat, ∃ last,
    Reachable (FxWorld.Step firstOfSeptember) beforeSync w ∧
      w.store.LastDay NBU_SOURCE "USD" last ∧
      ∀ q ∈ (w.archive "usd").quotes, daysFromCivil 2026 9 1 ≤ q.day → q.day ≤ last →
        w.store.HasDay "USD" q.day := by
  have hdated : Dated (daysFromCivil 2026 9 1) := by unfold Dated; decide +kernel
  have hlast : afterSync.store.LastDay NBU_SOURCE "USD" (daysFromCivil 2026 9 2) :=
    ⟨by decide +kernel, by decide +kernel⟩
  have hreach : Reachable (FxWorld.Step firstOfSeptember) beforeSync afterSync :=
    afterSync_reach trivial (fun _ _ => trivial) fun _ => trivial
  have hstored := resume_leaves_no_hole hdated beforeSync_fresh hreach "USD" hlast
  exact ⟨afterSync, daysFromCivil 2026 9 2, hreach, hlast, hstored⟩

end InvestApi.Ref
