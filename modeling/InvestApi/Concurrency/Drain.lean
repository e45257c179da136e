import InvestApi.Concurrency.Pool
import InvestApi.Lts.Progress

/-!
# The pool comes to an end

Left alone, a pool of workers drains the queue under every schedule. A worker
pays for its empty claims: it returns after so many in a row, and what ends such
a row is a job it has finished, of which there are only so many. A scan is paid
for row by row, and no snapshot has more rows than were pending at the start.
-/

namespace InvestApi.Ref

open InvestApi.Pg InvestApi.Lts

variable {ι : Type}

/-- How many empty claims in a row make a worker return. -/
def WorkerOptions.patience (options : WorkerOptions) : Nat :=
  max 1 options.maxIdlePolls.toNat

theorem WorkerOptions.patience_pos (options : WorkerOptions) : 0 < options.patience := by
  rw [patience]
  omega

/-- What is left of a worker, if a round takes at most `span` steps. -/
def Worker.left (options : WorkerOptions) (span : Nat) (w : Worker) : Nat :=
  match w.pc with
  | .polling => (options.patience - w.consecutiveIdle) * span
  | .claiming todo =>
      (options.patience - (w.consecutiveIdle + 1)) * span + todo.length + 2
  | .claimed _ => 2
  | .updated _ _ => 1
  | .answered (some _) => options.patience * span + 1
  | .answered none => (options.patience - (w.consecutiveIdle + 1)) * span + 1
  | .returned => 0
  | .dead => 0

/-- No claim has more rows to look at than `rows`, and a worker that has not
returned has patience left. -/
structure Worker.Waiting (options : WorkerOptions) (rows : Nat) (w : Worker) : Prop where
  idle : w.pc ≠ .returned → w.consecutiveIdle < options.patience
  scan : ∀ todo, w.pc = .claiming todo → todo.length ≤ rows

namespace Worker

variable {options : WorkerOptions} {rows span : Nat} {w : Worker}

theorem Waiting.start : Waiting options rows .start where
  idle _ := options.patience_pos
  scan _ hpc := by simp [Worker.start] at hpc

theorem Waiting.moveTo (h : w.Waiting options rows) (hw : w.pc ≠ .returned) {pc : WorkerPc}
    (hscan : ∀ todo, pc = .claiming todo → todo.length ≤ rows) :
    (w.moveTo pc).Waiting options rows where
  idle _ := h.idle hw
  scan := hscan

theorem not_returns_iff : ¬((w.consecutiveIdle + 1 : Nat) : Int) ≥ options.maxIdlePolls ↔
    w.consecutiveIdle + 1 < options.maxIdlePolls.toNat := by
  omega

theorem Waiting.afterClaim (claimedId : Option Uuid) :
    (w.afterClaim options claimedId).Waiting options rows := by
  cases claimedId with
  | some u => exact ⟨fun _ => options.patience_pos, fun _ hpc => by simp [Worker.afterClaim] at hpc⟩
  | none =>
      simp only [Worker.afterClaim]
      split
      · exact ⟨fun hpc => absurd rfl hpc, fun _ hpc => by simp at hpc⟩
      · next hle =>
          have hlt := not_returns_iff.mp hle
          refine ⟨fun _ => ?_, fun _ hpc => by simp at hpc⟩
          show w.consecutiveIdle + 1 < options.patience
          rw [WorkerOptions.patience]
          omega

/-- A round that found something gives all the patience back, the other ones
take a piece of it. -/
theorem left_afterClaim {claimedId : Option Uuid} (hw : w.pc = .answered claimedId) :
    (w.afterClaim options claimedId).left options span < w.left options span := by
  cases claimedId with
  | some u =>
      show (options.patience - 0) * span < w.left options span
      rw [Worker.left, hw, Nat.sub_zero]
      exact Nat.lt_succ_self _
  | none =>
      have hleft : w.left options span
          = (options.patience - (w.consecutiveIdle + 1)) * span + 1 := by
        rw [Worker.left, hw]
      rw [hleft, Worker.left]
      by_cases hle : ((w.consecutiveIdle + 1 : Nat) : Int) ≥ options.maxIdlePolls
      · simp only [Worker.afterClaim, if_pos hle]
        exact Nat.succ_pos _
      · simp only [Worker.afterClaim, if_neg hle]
        exact Nat.lt_succ_self _

/-- A claim is paid for by the piece of patience it may cost. -/
theorem left_select (hw : w.pc = .polling) (hwaiting : w.Waiting options rows)
    {todo : List Uuid} (htodo : todo.length ≤ rows) :
    (w.moveTo (.claiming todo)).left options (rows + 3) < w.left options (rows + 3) := by
  have hidle := hwaiting.idle (by simp [hw])
  obtain ⟨k, hk⟩ : ∃ k, options.patience = w.consecutiveIdle + 1 + k :=
    ⟨options.patience - (w.consecutiveIdle + 1), by omega⟩
  have hbefore : w.left options (rows + 3) = (k + 1) * (rows + 3) := by
    rw [Worker.left, hw]
    show (options.patience - w.consecutiveIdle) * (rows + 3) = _
    congr 1
    omega
  have hafter : (w.moveTo (.claiming todo)).left options (rows + 3)
      = k * (rows + 3) + todo.length + 2 := by
    show (options.patience - (w.consecutiveIdle + 1)) * (rows + 3) + _ + 2 = _
    congr 3
    omega
  rw [hbefore, hafter, Nat.succ_mul]
  omega

end Worker

/-! ## The pool -/

/-- The invariant. -/
structure Emptying (options : ι → WorkerOptions) (jobs₀ : JobDb) (s : Pool ι) : Prop where
  sound : PoolSound options s
  draining : Draining jobs₀ s
  waiting : ∀ w, (s.workers w).Waiting (options w) jobs₀.pendingIds.length

theorem nodup_pendingIds (d : JobDb) : d.pendingIds.Nodup := by
  rw [JobDb.pendingIds, (List.perm_insertionSort _ _).nodup_iff]
  exact d.nodup.filter _

theorem length_pendingIds_le {d d' : JobDb}
    (h : ∀ u, d'.pending u = true → d.pending u = true) :
    d'.pendingIds.length ≤ d.pendingIds.length := by
  refine (List.Nodup.subperm (nodup_pendingIds d') fun u hu => ?_).length_le
  exact mem_pendingIds.mpr (h u (mem_pendingIds.mp hu))

/-- Fewer rows are pending when one that was is not. -/
theorem length_pendingIds_lt {d d' : JobDb} {u : Uuid}
    (h : ∀ v, d'.pending v = true → d.pending v = true) (hu : d.pending u = true)
    (hu' : d'.pending u = false) : d'.pendingIds.length < d.pendingIds.length := by
  have hnodup : (u :: d'.pendingIds).Nodup := by
    refine List.nodup_cons.mpr ⟨fun hmem => ?_, nodup_pendingIds d'⟩
    rw [mem_pendingIds, hu'] at hmem
    simp at hmem
  have hle : (u :: d'.pendingIds).length ≤ d.pendingIds.length := by
    refine (List.Nodup.subperm hnodup fun v hv => ?_).length_le
    rcases List.mem_cons.mp hv with heq | hv
    · exact mem_pendingIds.mpr (heq ▸ hu)
    · exact mem_pendingIds.mpr (h v (mem_pendingIds.mp hv))
  exact hle

section Emptying

variable [DecidableEq ι] {options : ι → WorkerOptions} {s s' : Pool ι} {jobs₀ : JobDb}

theorem Waiting.set {rows : Nat} (h : ∀ w, (s.workers w).Waiting (options w) rows) {w : ι}
    {worker : Worker} (hworker : worker.Waiting (options w) rows) (w' : ι) :
    ((s.setWorker w worker).workers w').Waiting (options w') rows := by
  by_cases e : w' = w
  · subst e
    rw [setWorker_self]
    exact hworker
  · rw [setWorker_ne _ e]
    exact h w'

omit [DecidableEq ι] in
theorem Emptying.scan_le (h : Emptying options jobs₀ s) :
    s.jobs.pendingIds.length ≤ jobs₀.pendingIds.length :=
  length_pendingIds_le h.draining.pending

theorem Emptying.step (h : Emptying options jobs₀ s) {t : PoolTurn ι} (hok : LeftAlone s t)
    (hstep : PoolStep options s t s') : Emptying options jobs₀ s' := by
  refine ⟨h.sound.step hstep, h.draining.step h.sound hok hstep, ?_⟩
  -- The rest of a scan is no longer than the scan.
  have rest : ∀ {w u todo}, (s.workers w).pc = .claiming (u :: todo) →
      ∀ todo', WorkerPc.claiming todo = .claiming todo' →
        todo'.length ≤ jobs₀.pendingIds.length := by
    intro w u todo hw todo' heq
    have hle := (h.waiting w).scan _ hw
    rw [List.length_cons] at hle
    rw [← WorkerPc.claiming.inj heq]
    omega
  cases hstep with
  | @select w hw =>
      refine Waiting.set h.waiting ((h.waiting w).moveTo (by simp [hw]) fun todo heq => ?_)
      rw [← WorkerPc.claiming.inj heq]
      exact h.scan_le
  | @skipLocked w u todo hw hlocked =>
      exact Waiting.set h.waiting ((h.waiting w).moveTo (by simp [hw]) (rest hw))
  | @skipDone w u todo hw hfree hdone =>
      exact Waiting.set h.waiting ((h.waiting w).moveTo (by simp [hw]) (rest hw))
  | @claim w u todo hw hfree hpending =>
      exact Waiting.set h.waiting ((h.waiting w).moveTo (by simp [hw]) (by simp))
  | @nothing w hw =>
      exact Waiting.set h.waiting ((h.waiting w).moveTo (by simp [hw]) (by simp))
  | @update w u row hw hrow =>
      exact Waiting.set h.waiting ((h.waiting w).moveTo (by simp [hw]) (by simp))
  | @commit w u row hw =>
      exact Waiting.set h.waiting ((h.waiting w).moveTo (by simp [hw]) (by simp))
  | @round w claimedId hw =>
      exact Waiting.set h.waiting (Worker.Waiting.afterClaim claimedId)
  | die hw => exact absurd hok id
  | add hnew hstatus hprocessed => exact absurd hok id

variable [Fintype ι]

/-- What is left of a pool; a job pays for the patience it gives back. -/
def Pool.left (options : ι → WorkerOptions) (span : Nat) (s : Pool ι) : Nat :=
  ∑ w, (s.workers w).left (options w) span +
    (∑ w, (options w).patience * span + 1) * s.jobs.pendingIds.length

/-- A step of one worker that changes no job. -/
theorem left_setWorker {span : Nat} {w : ι} {worker : Worker}
    (hlt : worker.left (options w) span < (s.workers w).left (options w) span) :
    (s.setWorker w worker).left options span < s.left options span := by
  have hsum : ∑ w', ((s.setWorker w worker).workers w').left (options w') span
      < ∑ w', (s.workers w').left (options w') span := by
    refine sum_lt_of_moves w ?_ fun w' hne => ?_
    · rw [setWorker_self]
      exact hlt
    · rw [setWorker_ne _ hne]
  rw [Pool.left, Pool.left, setWorker_jobs]
  omega

/-- The worker gets all its patience back, and a job is gone. -/
theorem Emptying.left_commit (h : Emptying options jobs₀ s) {span : Nat} {w : ι} {u : Uuid}
    {row : JobRow} (hw : (s.workers w).pc = .updated u row) :
    Pool.left options span
        { s.moveTo w (.answered (some u)) with jobs := s.jobs.set u (some row) }
      < s.left options span := by
  obtain ⟨old, hold, rfl⟩ := h.sound.written w u row hw
  have hpending := h.sound.held w u (by rw [hw]; rfl)
  have hgone : JobDb.pending (s.jobs.set u (some (finished (options w).workerId old))) u
      = false := not_pending_of_done (Db.get_set_self _ _ _) rfl
  have hjobs : (JobDb.pendingIds
      (s.jobs.set u (some (finished (options w).workerId old)))).length
        < s.jobs.pendingIds.length := by
    refine length_pendingIds_lt (fun v hv => ?_) hpending hgone
    by_cases e : v = u
    · rw [e]
      exact hpending
    · rwa [pending_set_ne e] at hv
  have hsum : ∑ w', ((s.moveTo w (.answered (some u))).workers w').left (options w') span
      ≤ ∑ w', ((s.workers w').left (options w') span + (options w').patience * span) := by
    refine Finset.sum_le_sum fun w' _ => ?_
    by_cases e : w' = w
    · subst e
      have hbefore : (s.workers w').left (options w') span = 1 := by rw [Worker.left, hw]
      have hafter : ((s.moveTo w' (.answered (some u))).workers w').left (options w') span
          = (options w').patience * span + 1 := by
        rw [Pool.moveTo, setWorker_self]
        rfl
      omega
    · rw [Pool.moveTo, setWorker_ne _ e]
      exact Nat.le_add_right _ _
  rw [Finset.sum_add_distrib] at hsum
  have hprice := Nat.mul_le_mul_left (∑ w, (options w).patience * span + 1)
    (Nat.succ_le_of_lt hjobs)
  rw [Nat.mul_succ] at hprice
  show ∑ w', ((s.moveTo w (.answered (some u))).workers w').left (options w') span
    + (∑ w, (options w).patience * span + 1) * (JobDb.pendingIds
      (s.jobs.set u (some (finished (options w).workerId old)))).length < _
  rw [Pool.left]
  omega

theorem Emptying.left_lt (h : Emptying options jobs₀ s) {t : PoolTurn ι} (hok : LeftAlone s t)
    (hstep : PoolStep options s t s') :
    s'.left options (jobs₀.pendingIds.length + 3)
      < s.left options (jobs₀.pendingIds.length + 3) := by
  cases hstep with
  | @select w hw => exact left_setWorker (Worker.left_select hw (h.waiting w) h.scan_le)
  | @skipLocked w u todo hw hlocked =>
      refine left_setWorker ?_
      simp only [Worker.left, Worker.moveTo, hw, List.length_cons]
      omega
  | @skipDone w u todo hw hfree hdone =>
      refine left_setWorker ?_
      simp only [Worker.left, Worker.moveTo, hw, List.length_cons]
      omega
  | @claim w u todo hw hfree hpending =>
      refine left_setWorker ?_
      simp only [Worker.left, Worker.moveTo, hw, List.length_cons]
      omega
  | @nothing w hw =>
      refine left_setWorker ?_
      simp only [Worker.left, Worker.moveTo, hw, List.length_nil]
      omega
  | @update w u row hw hrow =>
      refine left_setWorker ?_
      simp only [Worker.left, Worker.moveTo, hw]
      omega
  | commit hw => exact h.left_commit hw
  | round hw => exact left_setWorker (Worker.left_afterClaim hw)
  | die hw => exact absurd hok id
  | add hnew hstatus hprocessed => exact absurd hok id

omit [Fintype ι] in
/-- A worker that has not returned can take a step. -/
theorem Emptying.returned_of_stuck (h : Emptying options jobs₀ s)
    (hstuck : Stuck (PoolStep options) LeftAlone s) (w : ι) :
    (s.workers w).pc = .returned := by
  cases hw : (s.workers w).pc with
  | returned => rfl
  | dead => exact absurd hw (h.draining.alive w)
  | polling => exact absurd ⟨.select w, trivial, .select hw⟩ (hstuck _)
  | claiming todo =>
      cases todo with
      | nil => exact absurd ⟨.nothing w, trivial, .nothing hw⟩ (hstuck _)
      | cons u todo =>
          by_cases hfree : s.free w u
          · cases hpending : s.jobs.pending u with
            | true => exact absurd ⟨.look w, trivial, .claim hw hfree hpending⟩ (hstuck _)
            | false => exact absurd ⟨.look w, trivial, .skipDone hw hfree hpending⟩ (hstuck _)
          · exact absurd ⟨.look w, trivial, .skipLocked hw hfree⟩ (hstuck _)
  | claimed u =>
      obtain ⟨row, hrow, _⟩ := pending_iff.mp (h.sound.held w u (by rw [hw]; rfl))
      exact absurd ⟨.update w, trivial, .update hw hrow⟩ (hstuck _)
  | updated u row => exact absurd ⟨.commit w, trivial, .commit hw⟩ (hstuck _)
  | answered claimedId => exact absurd ⟨.round w, trivial, .round hw⟩ (hstuck _)

omit [DecidableEq ι] [Fintype ι] in
theorem Emptying.boot (hcounted : Counted jobs₀) :
    Emptying options jobs₀ (.boot jobs₀ : Pool ι) where
  sound := .boot hcounted
  draining := .boot jobs₀
  waiting _ := .start

variable (options jobs₀) in
theorem Emptying.descends : Descends (PoolStep options) LeftAlone (Emptying options jobs₀)
    (Pool.left options (jobs₀.pendingIds.length + 3)) where
  keeps _ _ _ h hok hstep := h.step hok hstep
  lowers _ _ _ h hok hstep := h.left_lt hok hstep

end Emptying

/-! ## Signed -/

/-- A finished job bears the name of who has finished it. -/
def Signed (options : ι → WorkerOptions) (s : Pool ι) : Prop :=
  ∀ w, ∀ u ∈ (s.workers w).claims, ∃ row, s.jobs.get u = some row ∧
    row.workerId = some (options w).workerId

/-- What the workers return and what is committed. -/
structure Finished (options : ι → WorkerOptions) (jobs₀ : JobDb) (s : Pool ι) : Prop where
  returned : ∀ w, (s.workers w).pc = .returned
  drained : Drained jobs₀ s
  ranOnce : RanOnce s
  signed : ∀ w u row, jobs₀.pending u = true → s.jobs.get u = some row →
    (row.workerId = some (options w).workerId ↔ u ∈ (s.workers w).jobIds)

section Signed

variable [DecidableEq ι] {options : ι → WorkerOptions} {s s' : Pool ι} {jobs₀ : JobDb}

theorem Signed.setWorker (h : Signed options s) {w : ι} {worker : Worker}
    (hclaims : worker.claims.Sublist (s.workers w).claims) :
    Signed options (s.setWorker w worker) := by
  intro w' u hu
  by_cases e : w' = w
  · subst e
    rw [setWorker_self] at hu
    exact h w' u (hclaims.subset hu)
  · rw [setWorker_ne _ e] at hu
    exact h w' u hu

theorem Signed.moveTo (h : Signed options s) {w : ι} {pc : WorkerPc}
    (hanswer : ∀ u, pc ≠ .answered (some u)) : Signed options (s.moveTo w pc) := by
  refine h.setWorker ?_
  rw [claims_moveTo _ hanswer]
  exact jobIds_sublist _

theorem Signed.commit (h : Signed options s) (hs : PoolSound options s) {w : ι} {u : Uuid}
    {row : JobRow} (hw : (s.workers w).pc = .updated u row) :
    Signed options
      { s.moveTo w (.answered (some u)) with jobs := s.jobs.set u (some row) } := by
  obtain ⟨old, hold, rfl⟩ := hs.written w u row hw
  have hpending := hs.held w u (by rw [hw]; rfl)
  -- What was finished before is another job.
  have hkept : ∀ w', ∀ v ∈ (s.workers w').claims, ∃ row,
      (s.jobs.set u (some (finished (options w).workerId old))).get v = some row ∧
        row.workerId = some (options w').workerId := by
    intro w' v hv
    obtain ⟨row', hrow', hdone⟩ := hs.done w' v hv
    have hne : v ≠ u := by
      intro e
      rw [e] at hrow'
      rw [not_pending_of_done hrow' hdone] at hpending
      simp at hpending
    rw [Db.get_set_ne _ _ hne]
    exact h w' v hv
  intro w' v hv
  by_cases e : w' = w
  · subst e
    simp only [Pool.moveTo, setWorker_self] at hv
    rcases List.mem_append.mp hv with hv | hv
    · exact hkept w' v ((jobIds_sublist _).subset hv)
    · rw [List.mem_singleton.mp hv]
      exact ⟨_, Db.get_set_self _ _ _, rfl⟩
  · simp only [Pool.moveTo, setWorker_ne _ e] at hv
    exact hkept w' v hv

theorem Signed.step (h : Signed options s) (hs : PoolSound options s) {t : PoolTurn ι}
    (hstep : PoolStep options s t s') : Signed options s' := by
  cases hstep with
  | select hw => exact h.moveTo (by simp)
  | skipLocked hw hlocked => exact h.moveTo (by simp)
  | skipDone hw hfree hdone => exact h.moveTo (by simp)
  | claim hw hfree hpending => exact h.moveTo (by simp)
  | nothing hw => exact h.moveTo (by simp)
  | update hw hrow => exact h.moveTo (by simp)
  | commit hw => exact h.commit hs hw
  | @round w claimedId hw =>
      refine h.setWorker ?_
      rw [claims_afterClaim _ _ hw]
  | die hw => exact h.moveTo (by simp)
  | @add u row hnew hstatus hprocessed =>
      intro w v hv
      obtain ⟨row', hrow', hname⟩ := h w v hv
      have hne : v ≠ u := by
        intro e
        rw [e, hnew] at hrow'
        simp at hrow'
      exact ⟨row', by rw [Db.get_set_ne _ _ hne]; exact hrow', hname⟩

omit [DecidableEq ι] in
theorem Signed.boot (options : ι → WorkerOptions) (jobs : JobDb) :
    Signed options (.boot jobs) := by
  intro w u hu
  simp [Pool.boot, Worker.start, Worker.claims] at hu

theorem signed_of_reach (hcounted : Counted jobs₀)
    (hr : Lts.Reach (PoolStep options) LeftAlone (.boot jobs₀) s) : Signed options s := by
  have h : PoolSound options s ∧ Signed options s :=
    Lts.Reach.invariant (I := fun s => PoolSound options s ∧ Signed options s) hr
      ⟨.boot hcounted, .boot options jobs₀⟩ fun _ _ _ hs _ hstep =>
        ⟨hs.1.step hstep, hs.2.step hs.1 hstep⟩
  exact h.2

omit [DecidableEq ι] in
theorem PoolSound.ranOnce (h : PoolSound options s) : RanOnce s where
  counted := h.counted
  nodup w := (h.nodup w).sublist (jobIds_sublist _)
  apart w w' hne u hu hu' :=
    h.apart w w' hne u ((jobIds_sublist _).subset hu) ((jobIds_sublist _).subset hu')

omit [DecidableEq ι] in
theorem Emptying.finished [Nonempty ι] (h : Emptying options jobs₀ s) (hsigned : Signed options s)
    (hnames : Function.Injective fun w => (options w).workerId)
    (hall : ∀ w, (s.workers w).pc = .returned) : Finished options jobs₀ s := by
  have hdrained := h.draining.drained hall
  refine ⟨hall, hdrained, h.sound.ranOnce, fun w u row hu hrow => ⟨fun hname => ?_, fun hmem => ?_⟩⟩
  · obtain ⟨w', hw'⟩ := (hdrained.partition u).mp hu
    obtain ⟨row', hrow', hname'⟩ := hsigned w' u ((jobIds_sublist _).subset hw')
    rw [hrow, Option.some.injEq] at hrow'
    rw [← hrow', hname, Option.some.injEq] at hname'
    have heq : w = w' := hnames hname'
    rw [heq]
    exact hw'
  · obtain ⟨row', hrow', hname'⟩ := hsigned w u ((jobIds_sublist _).subset hmem)
    rw [hrow, Option.some.injEq] at hrow'
    rw [hrow']
    exact hname'

end Signed

/-- Left alone, the pool comes to an end under every schedule: all workers have
returned, each job is done once, and the table names the worker that has it in
its list. -/
theorem pool_finishes [Fintype ι] [Nonempty ι] [DecidableEq ι] {options : ι → WorkerOptions}
    {jobs₀ : JobDb} (hcounted : Counted jobs₀)
    (hnames : Function.Injective fun w => (options w).workerId) :
    Completes (PoolStep options) LeftAlone (.boot jobs₀) (Finished options jobs₀) :=
  (Emptying.descends options jobs₀).completes (.boot hcounted) fun _ hr h hstuck =>
    h.finished (signed_of_reach hcounted hr) hnames (h.returned_of_stuck hstuck)

theorem twoWorkers_injective : Function.Injective fun w => (twoWorkers w).workerId := by
  decide

theorem pool_finishes_pair :
    Completes (PoolStep twoWorkers) LeftAlone (.boot twoJobs) (Finished twoWorkers twoJobs) :=
  pool_finishes counted_twoJobs twoWorkers_injective

end InvestApi.Ref
