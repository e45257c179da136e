import Mathlib.Data.Prod.Lex
import InvestApi.Concurrency.Pool

/-!
# The pool takes the oldest job first

However many workers there are, the jobs that somebody has taken are the first
ones of the queue, and each worker's own come in the order of the queue. A scan
starts with every pending row, in order, and passes over a row only when it is
taken; so when it takes one, what stood before it is taken already.
-/

namespace InvestApi.Ref

open InvestApi.Pg InvestApi.Lts

variable {ι : Type}

/-- What a worker has locked or finished, the oldest first. -/
def Worker.got (w : Worker) : List Uuid := w.claims ++ w.pc.holds.toList

def Pool.Taken (s : Pool ι) (u : Uuid) : Prop := ∃ w, u ∈ (s.workers w).got

/-- In terms of the queue the pool has started with. -/
structure InQueueOrder (jobs₀ : JobDb) (s : Pool ι) : Prop where
  oldestFirst : ∀ u v, s.Taken u → jobs₀.pending v = true → jobs₀.before v u = true →
    s.Taken v
  each : ∀ w, (s.workers w).got.Pairwise fun u v => jobs₀.before u v = true

/-! ## The queue -/

/-- Where a row stands in the queue; the id decides between equal times. -/
def JobDb.place (d : JobDb) (u : Uuid) : Lex (Instant × Uuid) :=
  toLex (((d.get u).map (·.createdAt)).getD 0, u)

theorem place_inj {d : JobDb} {u v : Uuid} (h : d.place u = d.place v) : u = v :=
  congrArg (fun p => (ofLex p).2) h

theorem before_iff {d : JobDb} {u v : Uuid} {row row' : JobRow} (hu : d.get u = some row)
    (hv : d.get v = some row') : d.before u v = true ↔ d.place u ≤ d.place v := by
  rw [JobDb.before, hu, hv, JobDb.place, JobDb.place, hu, hv, Prod.Lex.toLex_le_toLex]
  simp

theorem exists_row_of_pending {d : JobDb} {u : Uuid} (h : d.pending u = true) :
    ∃ row, d.get u = some row := by
  obtain ⟨row, hrow, _⟩ := pending_iff.mp h
  exact ⟨row, hrow⟩

theorem before_iff_of_pending {d : JobDb} {u v : Uuid} (hu : d.pending u = true)
    (hv : d.pending v = true) : d.before u v = true ↔ d.place u ≤ d.place v := by
  obtain ⟨row, hrow⟩ := exists_row_of_pending hu
  obtain ⟨row', hrow'⟩ := exists_row_of_pending hv
  exact before_iff hrow hrow'

theorem pairwise_pendingIds (d : JobDb) :
    d.pendingIds.Pairwise fun u v => d.place u ≤ d.place v := by
  have : Std.Total fun u v => d.place u ≤ d.place v := ⟨fun u v => le_total _ _⟩
  have : IsTrans Uuid fun u v => d.place u ≤ d.place v := ⟨fun u v w => le_trans⟩
  have hmap := List.map_insertionSort (fun u v => d.before u v = true)
    (fun u v => d.place u ≤ d.place v) id (d.keys.filter d.pending) fun u hu v hv =>
      before_iff_of_pending (List.mem_filter.mp hu).2 (List.mem_filter.mp hv).2
  rw [List.map_id, List.map_id] at hmap
  rw [JobDb.pendingIds, hmap]
  exact List.pairwise_insertionSort _ _

/-! ## The invariant -/

structure Queued (jobs₀ : JobDb) (s : Pool ι) : Prop where
  places : ∀ u, s.jobs.place u = jobs₀.place u
  scans : ∀ w todo, (s.workers w).pc = .claiming todo →
    todo.Pairwise fun u v => jobs₀.place u ≤ jobs₀.place v
  oldestFirst : ∀ u v, s.Taken u → jobs₀.pending v = true →
    jobs₀.place v ≤ jobs₀.place u → s.Taken v
  each : ∀ w, (s.workers w).got.Pairwise fun u v => jobs₀.place u ≤ jobs₀.place v

section Queued

variable [DecidableEq ι] {options : ι → WorkerOptions} {s s' : Pool ι} {jobs₀ : JobDb}

/-- A step of one worker that takes nothing and gives nothing back. -/
theorem Queued.setWorker (h : Queued jobs₀ s) {w : ι} {worker : Worker}
    (hgot : worker.got = (s.workers w).got)
    (hscan : ∀ todo, worker.pc = .claiming todo →
      todo.Pairwise fun u v => jobs₀.place u ≤ jobs₀.place v) :
    Queued jobs₀ (s.setWorker w worker) := by
  have hsame : ∀ w', ((s.setWorker w worker).workers w').got = (s.workers w').got := by
    intro w'
    by_cases e : w' = w
    · subst e
      rw [setWorker_self, hgot]
    · rw [setWorker_ne _ e]
  refine ⟨h.places, fun w' todo hw' => ?_, fun u v hu hv hle => ?_, fun w' => ?_⟩
  · by_cases e : w' = w
    · subst e
      rw [setWorker_self] at hw'
      exact hscan todo hw'
    · rw [setWorker_ne _ e] at hw'
      exact h.scans w' todo hw'
  · simp only [Pool.Taken, hsame] at hu ⊢
    exact h.oldestFirst u v hu hv hle
  · rw [hsame]
    exact h.each w'

theorem got_moveTo {w : Worker} {pc : WorkerPc} (hold : ∀ u, w.pc ≠ .answered (some u))
    (hnew : ∀ u, pc ≠ .answered (some u)) (hholds : pc.holds = w.pc.holds) :
    (w.moveTo pc).got = w.got := by
  rw [Worker.got, Worker.got, claims_moveTo w hnew, claims_eq_jobIds hold, ← hholds]
  rfl

theorem Queued.moveTo (h : Queued jobs₀ s) {w : ι} {pc : WorkerPc}
    (hold : ∀ u, (s.workers w).pc ≠ .answered (some u))
    (hnew : ∀ u, pc ≠ .answered (some u)) (hholds : pc.holds = (s.workers w).pc.holds)
    (hscan : ∀ todo, pc = .claiming todo →
      todo.Pairwise fun u v => jobs₀.place u ≤ jobs₀.place v) :
    Queued jobs₀ (s.moveTo w pc) :=
  h.setWorker (got_moveTo hold hnew hholds) hscan

omit [DecidableEq ι] in
/-- What stands before the row a scan is about to take is taken. -/
theorem Queued.taken_before (h : Queued jobs₀ s) (hd : Draining jobs₀ s) {w : ι} {u v : Uuid}
    {todo : List Uuid} (hw : (s.workers w).pc = .claiming (u :: todo))
    (hv : jobs₀.pending v = true) (hle : jobs₀.place v ≤ jobs₀.place u) (hne : v ≠ u) :
    s.Taken v := by
  rcases hd.accounted v hv with hpending | ⟨w', hw'⟩
  · have hknown := hd.known w v hpending
    rw [hw] at hknown
    rcases hknown with hmem | ⟨w', hw'⟩
    · -- A row of the scan stands behind its first one.
      have htodo := (List.mem_cons.mp hmem).resolve_left hne
      have hge := List.rel_of_pairwise_cons (h.scans w _ hw) htodo
      exact absurd (place_inj (le_antisymm hle hge)) hne
    · exact ⟨w', List.mem_append_right _ (by simp [hw'])⟩
  · exact ⟨w', List.mem_append_left _ hw'⟩

omit [DecidableEq ι] in
/-- A row that is pending and free is nobody's. -/
theorem not_taken_of_free (hs : PoolSound options s) {w : ι} {u : Uuid} (hfree : s.free w u)
    (hmine : (s.workers w).pc.holds ≠ some u) (hpending : s.jobs.pending u = true) :
    ¬s.Taken u := by
  rintro ⟨w', hw'⟩
  rcases List.mem_append.mp hw' with hclaimed | hheld
  · obtain ⟨row, hrow, hdone⟩ := hs.done w' u hclaimed
    rw [not_pending_of_done hrow hdone] at hpending
    simp at hpending
  · rw [Option.mem_toList] at hheld
    by_cases e : w' = w
    · exact hmine (e ▸ hheld)
    · exact hfree w' e hheld

theorem Queued.claim (h : Queued jobs₀ s) (hs : PoolSound options s) (hd : Draining jobs₀ s)
    {w : ι} {u : Uuid} {todo : List Uuid} (hw : (s.workers w).pc = .claiming (u :: todo))
    (hfree : s.free w u) (hpending : s.jobs.pending u = true) :
    Queued jobs₀ (s.moveTo w (.claimed u)) := by
  have hnot : ¬s.Taken u := not_taken_of_free hs hfree (by simp [hw, WorkerPc.holds]) hpending
  have hgot : ∀ w', ((s.moveTo w (.claimed u)).workers w').got
      = (s.workers w').got ++ if w' = w then [u] else [] := by
    intro w'
    by_cases e : w' = w
    · subst e
      simp [Pool.moveTo, Worker.moveTo, Worker.got, Worker.claims, hw, WorkerPc.holds]
    · simp [Pool.moveTo, e]
  have htaken : ∀ v, (s.moveTo w (.claimed u)).Taken v ↔ s.Taken v ∨ v = u := by
    intro v
    simp only [Pool.Taken, hgot, List.mem_append]
    constructor
    · rintro ⟨w', hv | hv⟩
      · exact Or.inl ⟨w', hv⟩
      · refine Or.inr ?_
        split at hv
        · exact List.mem_singleton.mp hv
        · simp at hv
    · rintro (⟨w', hv⟩ | hv)
      · exact ⟨w', Or.inl hv⟩
      · exact ⟨w, Or.inr (by simp [hv])⟩
  refine ⟨h.places, fun w' todo' hw' => ?_, fun x v hx hv hle => ?_, fun w' => ?_⟩
  · by_cases e : w' = w
    · subst e
      simp [Pool.moveTo, Worker.moveTo] at hw'
    · exact h.scans w' todo' (by simpa [Pool.moveTo, e] using hw')
  · rw [htaken] at hx ⊢
    by_cases e : v = u
    · exact Or.inr e
    · rcases hx with hx | rfl
      · exact Or.inl (h.oldestFirst x v hx hv hle)
      · exact Or.inl (h.taken_before hd hw hv hle e)
  · rw [hgot]
    by_cases e : w' = w
    · rw [if_pos e]
      refine List.pairwise_append.mpr ⟨h.each w', List.pairwise_singleton _ u, ?_⟩
      intro v hv v' hv'
      rw [List.mem_singleton.mp hv']
      -- Else the row would be taken already.
      by_contra hlt
      exact hnot (h.oldestFirst v u ⟨w', hv⟩ (hd.pending u hpending)
        (le_of_lt (not_le.mp hlt)))
    · rw [if_neg e, List.append_nil]
      exact h.each w'

omit [DecidableEq ι] in
theorem Queued.jobs (h : Queued jobs₀ s) {d : JobDb}
    (hplaces : ∀ u, d.place u = s.jobs.place u) : Queued jobs₀ { s with jobs := d } where
  places u := (hplaces u).trans (h.places u)
  scans := h.scans
  oldestFirst := h.oldestFirst
  each := h.each

theorem place_set {d : JobDb} {u : Uuid} {old row : JobRow} (hold : d.get u = some old)
    (hrow : row.createdAt = old.createdAt) (v : Uuid) :
    JobDb.place (d.set u (some row)) v = d.place v := by
  by_cases e : v = u
  · subst e
    rw [JobDb.place, JobDb.place, Db.get_set_self, hold, Option.map_some, Option.map_some, hrow]
  · rw [JobDb.place, JobDb.place, Db.get_set_ne _ _ e]

theorem Queued.commit (h : Queued jobs₀ s) (hs : PoolSound options s) {w : ι} {u : Uuid}
    {row : JobRow} (hw : (s.workers w).pc = .updated u row) :
    Queued jobs₀
      { s.moveTo w (.answered (some u)) with jobs := s.jobs.set u (some row) } := by
  obtain ⟨old, hold, rfl⟩ := hs.written w u row hw
  have hmoved : Queued jobs₀ (s.moveTo w (.answered (some u))) := by
    refine h.setWorker ?_ (by simp [Worker.moveTo])
    simp [Worker.moveTo, Worker.got, Worker.claims, hw, WorkerPc.holds]
  exact hmoved.jobs (place_set hold rfl)

theorem afterClaim_ne_claiming (w : Worker) (claimedId : Option Uuid) (o : WorkerOptions)
    (todo : List Uuid) : (w.afterClaim o claimedId).pc ≠ .claiming todo := by
  cases claimedId with
  | some u => simp [Worker.afterClaim]
  | none =>
      simp only [Worker.afterClaim]
      split
      · simp
      · simp

theorem Queued.step (h : Queued jobs₀ s) (hs : PoolSound options s) (hd : Draining jobs₀ s)
    {t : PoolTurn ι} (hok : LeftAlone s t) (hstep : PoolStep options s t s') :
    Queued jobs₀ s' := by
  -- The rest of a scan is in order.
  have rest : ∀ {w u todo}, (s.workers w).pc = .claiming (u :: todo) →
      ∀ todo', WorkerPc.claiming todo = .claiming todo' →
        todo'.Pairwise fun u v => jobs₀.place u ≤ jobs₀.place v := by
    intro w u todo hw todo' heq
    rw [← WorkerPc.claiming.inj heq]
    exact (h.scans w _ hw).of_cons
  cases hstep with
  | @select w hw =>
      refine h.moveTo (by simp [hw]) (by simp) (by rw [hw]; rfl) fun todo heq => ?_
      rw [← WorkerPc.claiming.inj heq]
      refine (pairwise_pendingIds s.jobs).imp fun {u v} hle => ?_
      rwa [h.places u, h.places v] at hle
  | skipLocked hw hlocked =>
      exact h.moveTo (by simp [hw]) (by simp) (by rw [hw]; rfl) (rest hw)
  | skipDone hw hfree hdone =>
      exact h.moveTo (by simp [hw]) (by simp) (by rw [hw]; rfl) (rest hw)
  | claim hw hfree hpending => exact h.claim hs hd hw hfree hpending
  | nothing hw => exact h.moveTo (by simp [hw]) (by simp) (by rw [hw]; rfl) (by simp)
  | update hw hrow => exact h.moveTo (by simp [hw]) (by simp) (by rw [hw]; rfl) (by simp)
  | commit hw => exact h.commit hs hw
  | @round w claimedId hw =>
      have hholds := holds_afterClaim (s.workers w) claimedId (options w)
      refine h.setWorker ?_ fun todo htodo => ?_
      · rw [Worker.got, Worker.got, claims_afterClaim _ _ hw, hholds, hw]
        rfl
      · have hclaiming := afterClaim_ne_claiming (s.workers w) claimedId (options w) todo
        exact absurd htodo hclaiming
  | die hw => exact absurd hok id
  | add hnew hstatus hprocessed => exact absurd hok id

omit [DecidableEq ι] in
theorem Queued.boot (jobs₀ : JobDb) : Queued jobs₀ (.boot jobs₀ : Pool ι) where
  places _ := rfl
  scans _ _ hw := by simp [Pool.boot, Worker.start] at hw
  oldestFirst u v hu := by
    simp [Pool.Taken, Pool.boot, Worker.start, Worker.got, Worker.claims, WorkerPc.holds] at hu
  each w := by simp [Pool.boot, Worker.start, Worker.got, Worker.claims, WorkerPc.holds]

omit [DecidableEq ι] in
/-- Only what was pending is taken. -/
theorem pending_of_taken (hs : PoolSound options s) (hd : Draining jobs₀ s) {u : Uuid}
    (h : s.Taken u) : jobs₀.pending u = true := by
  obtain ⟨w, hw⟩ := h
  rcases List.mem_append.mp hw with hclaimed | hheld
  · exact hd.claims w u hclaimed
  · rw [Option.mem_toList] at hheld
    exact hd.pending u (hs.held w u hheld)

omit [DecidableEq ι] in
theorem Queued.inQueueOrder (h : Queued jobs₀ s) (hs : PoolSound options s)
    (hd : Draining jobs₀ s) : InQueueOrder jobs₀ s where
  oldestFirst u v hu hv hbefore :=
    h.oldestFirst u v hu hv
      ((before_iff_of_pending hv (pending_of_taken hs hd hu)).mp hbefore)
  each w := by
    refine (h.each w).imp_of_mem fun {u v} hu hv hle => ?_
    exact (before_iff_of_pending (pending_of_taken hs hd ⟨w, hu⟩)
      (pending_of_taken hs hd ⟨w, hv⟩)).mpr hle

end Queued

/-- Left alone, the pool has at any moment taken the first jobs of the queue,
and each worker its own in order. -/
theorem pool_takes_oldest_first [DecidableEq ι] {options : ι → WorkerOptions} {jobs₀ : JobDb}
    (hcounted : Counted jobs₀) :
    ∀ s, Lts.Reach (PoolStep options) LeftAlone (.boot jobs₀) s → InQueueOrder jobs₀ s := by
  intro s hr
  have h : PoolSound options s ∧ Draining jobs₀ s ∧ Queued jobs₀ s :=
    Lts.Reach.invariant (I := fun s => PoolSound options s ∧ Draining jobs₀ s ∧ Queued jobs₀ s)
      hr ⟨.boot hcounted, .boot jobs₀, .boot jobs₀⟩ fun _ _ _ hs hok hstep =>
        ⟨hs.1.step hstep, hs.2.1.step hs.1 hok hstep, hs.2.2.step hs.1 hs.2.1 hok hstep⟩
  exact h.2.2.inQueueOrder h.1 h.2.1

theorem pool_takes_oldest_first_pair :
    ∃ s, Lts.Reach (PoolStep twoWorkers) LeftAlone (.boot twoJobs) s ∧ InQueueOrder twoJobs s ∧
      decide ((s.workers 0).got = [1] ∧ (s.workers 1).got = [2]) = true := by
  have hrun : (follow (Pool.fire twoWorkers) poolSchedule (.boot twoJobs)).any (fun s =>
      decide ((s.workers 0).got = [1] ∧ (s.workers 1).got = [2])) = true := by
    decide +kernel
  obtain ⟨s, hr, hp⟩ := exists_follow Pool.fire_sound _ _ _ hrun
  exact ⟨s, hr, pool_takes_oldest_first counted_twoJobs s hr, hp⟩

end InvestApi.Ref
