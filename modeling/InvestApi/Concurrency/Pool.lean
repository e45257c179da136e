import InvestApi.Ref.Worker

/-!
# The pool runs each job once and drains the queue

Once: a job is done by the COMMIT of the one worker that has it locked, and
that worker writes it down. Each other step changes no job and at most gives a
lock up.

Drained: an empty claim only says that every pending row it looked at was
locked. A lock is given up by finishing the job, unless its holder dies, so
from that look on the row is covered: done or in somebody's hands. A worker
that returns has had an empty claim, and when all have returned nothing is in
anybody's hands.
-/

namespace InvestApi.Ref

open InvestApi.Pg InvestApi.Lts

variable {ι : Type}

/-- Done means handled once, pending means not at all. -/
def Counted (d : JobDb) : Prop :=
  ∀ u row, d.get u = some row →
    row.processed = match row.status with | .done => 1 | .pending => 0

/-- The jobs a worker has finished, the one it has not written down yet
included. -/
def Worker.claims (w : Worker) : List Uuid :=
  w.jobIds ++ match w.pc with
    | .answered (some u) => [u]
    | _ => []

/-- No job twice. -/
structure RanOnce (s : Pool ι) : Prop where
  counted : Counted s.jobs
  nodup : ∀ w, (s.workers w).jobIds.Nodup
  apart : ∀ w w', w ≠ w' → ∀ u ∈ (s.workers w).jobIds, u ∉ (s.workers w').jobIds

/-- Every job is done, and the lists hold the jobs that were pending. -/
structure Drained (jobs₀ : JobDb) (s : Pool ι) : Prop where
  done : ∀ u row, s.jobs.get u = some row → row.status = .done
  jobs : ∀ u, s.jobs.get u = none ↔ jobs₀.get u = none
  partition : ∀ u, jobs₀.pending u = true ↔ ∃ w, u ∈ (s.workers w).jobIds

/-- Nobody dies and nobody adds a job. -/
def LeftAlone (_ : Pool ι) : PoolTurn ι → Prop
  | .die _ => False
  | .add _ _ => False
  | _ => True

theorem pending_iff {d : JobDb} {u : Uuid} :
    d.pending u = true ↔ ∃ row, d.get u = some row ∧ row.status = .pending := by
  rw [JobDb.pending, Option.any_eq_true]
  simp only [decide_eq_true_eq]

theorem not_pending_of_done {d : JobDb} {u : Uuid} {row : JobRow}
    (hrow : d.get u = some row) (hdone : row.status = .done) : d.pending u = false := by
  rw [JobDb.pending, hrow, Option.any_some, hdone]
  rfl

/-! ## Once -/

/-- The invariant. -/
structure PoolSound (options : ι → WorkerOptions) (s : Pool ι) : Prop where
  counted : Counted s.jobs
  exclusive : ∀ w w' u, (s.workers w).pc.holds = some u →
    (s.workers w').pc.holds = some u → w = w'
  held : ∀ w u, (s.workers w).pc.holds = some u → s.jobs.pending u = true
  written : ∀ w u row, (s.workers w).pc = .updated u row →
    ∃ old, s.jobs.get u = some old ∧ row = finished (options w).workerId old
  done : ∀ w, ∀ u ∈ (s.workers w).claims, ∃ row, s.jobs.get u = some row ∧
    row.status = .done
  nodup : ∀ w, (s.workers w).claims.Nodup
  apart : ∀ w w', w ≠ w' → ∀ u ∈ (s.workers w).claims, u ∉ (s.workers w').claims

theorem PoolSound.boot {options : ι → WorkerOptions} {jobs : JobDb} (h : Counted jobs) :
    PoolSound options (.boot jobs) where
  counted := h
  exclusive _ _ _ hw := by simp [Pool.boot, Worker.start, WorkerPc.holds] at hw
  held _ _ hw := by simp [Pool.boot, Worker.start, WorkerPc.holds] at hw
  written _ _ _ hw := by simp [Pool.boot, Worker.start] at hw
  done _ _ hu := by simp [Pool.boot, Worker.start, Worker.claims] at hu
  nodup _ := by simp [Pool.boot, Worker.start, Worker.claims]
  apart _ _ _ _ hu := by simp [Pool.boot, Worker.start, Worker.claims] at hu

section Once

variable [DecidableEq ι] {options : ι → WorkerOptions} {s s' : Pool ι}

@[simp] theorem setWorker_jobs (w : ι) (worker : Worker) :
    (s.setWorker w worker).jobs = s.jobs := rfl

@[simp] theorem setWorker_self (w : ι) (worker : Worker) :
    (s.setWorker w worker).workers w = worker := by
  simp [Pool.setWorker]

@[simp] theorem setWorker_ne {w w' : ι} (worker : Worker) (h : w' ≠ w) :
    (s.setWorker w worker).workers w' = s.workers w' := by
  simp [Pool.setWorker, h]

/-- A step of one worker that changes no job and locks at most a free row. -/
theorem PoolSound.setWorker (h : PoolSound options s) {w : ι} {worker : Worker}
    (hlock : ∀ u, worker.pc.holds = some u → (s.workers w).pc.holds = some u ∨
      s.free w u ∧ s.jobs.pending u = true)
    (hwritten : ∀ u row, worker.pc = .updated u row →
      ∃ old, s.jobs.get u = some old ∧ row = finished (options w).workerId old)
    (hclaims : worker.claims.Sublist (s.workers w).claims) :
    PoolSound options (s.setWorker w worker) := by
  refine ⟨h.counted, fun w₁ w₂ u h₁ h₂ => ?_, fun w' u hw' => ?_, fun w' u row hw' => ?_,
    fun w' u hu => ?_, fun w' => ?_, fun w₁ w₂ hne u h₁ h₂ => ?_⟩
  · -- Whoever else holds the row held it before.
    have key : ∀ w', w' ≠ w → (s.workers w').pc.holds = some u →
        worker.pc.holds ≠ some u := by
      intro w' hne hw' hmine
      rcases hlock u hmine with hold | ⟨hfree, _⟩
      · exact hne (h.exclusive w' w u hw' hold)
      · exact hfree w' hne hw'
    by_cases e₁ : w₁ = w
    · by_cases e₂ : w₂ = w
      · rw [e₁, e₂]
      · subst e₁
        rw [setWorker_ne _ e₂] at h₂
        rw [setWorker_self] at h₁
        exact absurd h₁ (key w₂ e₂ h₂)
    · rw [setWorker_ne _ e₁] at h₁
      by_cases e₂ : w₂ = w
      · subst e₂
        rw [setWorker_self] at h₂
        exact absurd h₂ (key w₁ e₁ h₁)
      · rw [setWorker_ne _ e₂] at h₂
        exact h.exclusive w₁ w₂ u h₁ h₂
  · by_cases e : w' = w
    · subst e
      rw [setWorker_self] at hw'
      rcases hlock u hw' with hold | ⟨_, hpending⟩
      · exact h.held w' u hold
      · exact hpending
    · rw [setWorker_ne _ e] at hw'
      exact h.held w' u hw'
  · by_cases e : w' = w
    · subst e
      rw [setWorker_self] at hw'
      exact hwritten u row hw'
    · rw [setWorker_ne _ e] at hw'
      exact h.written w' u row hw'
  · by_cases e : w' = w
    · subst e
      rw [setWorker_self] at hu
      exact h.done w' u (hclaims.subset hu)
    · rw [setWorker_ne _ e] at hu
      exact h.done w' u hu
  · by_cases e : w' = w
    · subst e
      rw [setWorker_self]
      exact (h.nodup w').sublist hclaims
    · rw [setWorker_ne _ e]
      exact h.nodup w'
  · by_cases e₁ : w₁ = w
    · subst e₁
      rw [setWorker_self] at h₁
      rw [setWorker_ne _ hne.symm] at h₂
      exact h.apart w₁ w₂ hne u (hclaims.subset h₁) h₂
    · rw [setWorker_ne _ e₁] at h₁
      by_cases e₂ : w₂ = w
      · subst e₂
        rw [setWorker_self] at h₂
        exact h.apart w₁ w₂ hne u h₁ (hclaims.subset h₂)
      · rw [setWorker_ne _ e₂] at h₂
        exact h.apart w₁ w₂ hne u h₁ h₂

theorem pending_set_ne {d : JobDb} {u v : Uuid} {row : Option JobRow} (h : v ≠ u) :
    JobDb.pending (d.set u row) v = d.pending v := by
  rw [JobDb.pending, JobDb.pending, Db.get_set_ne _ _ h]

theorem claims_moveTo (w : Worker) {pc : WorkerPc} (h : ∀ u, pc ≠ .answered (some u)) :
    (w.moveTo pc).claims = w.jobIds := by
  show w.jobIds ++ _ = w.jobIds
  split
  · next u hu => exact absurd hu (h u)
  · rw [List.append_nil]

theorem jobIds_sublist (w : Worker) : w.jobIds.Sublist w.claims :=
  List.sublist_append_left _ _

/-- The COMMIT of the worker that has the row. -/
theorem PoolSound.commit (h : PoolSound options s) {w : ι} {u : Uuid} {row : JobRow}
    (hw : (s.workers w).pc = .updated u row) :
    PoolSound options
      { s.moveTo w (.answered (some u)) with jobs := s.jobs.set u (some row) } := by
  obtain ⟨old, hold, rfl⟩ := h.written w u row hw
  have hmine : (s.workers w).pc.holds = some u := by rw [hw]; rfl
  have hpending := h.held w u hmine
  have hold' : old.processed = 0 := by
    obtain ⟨old', hget, hstatus⟩ := pending_iff.mp hpending
    rw [hold, Option.some.injEq] at hget
    have hcount := h.counted u old hold
    rw [hget, hstatus] at hcount
    rw [hget]
    exact hcount
  have hclaims : ((s.workers w).moveTo (.answered (some u))).claims
      = (s.workers w).jobIds ++ [u] := rfl
  -- What was done before is another job.
  have hother : ∀ w', ∀ v ∈ (s.workers w').claims, v ≠ u := by
    rintro w' v hv rfl
    obtain ⟨row, hrow, hdone⟩ := h.done w' v hv
    rw [not_pending_of_done hrow hdone] at hpending
    simp at hpending
  refine ⟨fun v row hrow => ?_, fun w₁ w₂ v h₁ h₂ => ?_, fun w' v hv => ?_,
    fun w' v row hv => ?_, fun w' v hv => ?_, fun w' => ?_, fun w₁ w₂ hne v h₁ h₂ => ?_⟩
  · by_cases e : v = u
    · subst e
      rw [Db.get_set_self, Option.some.injEq] at hrow
      rw [← hrow]
      show old.processed + 1 = 1
      omega
    · rw [Db.get_set_ne _ _ e] at hrow
      exact h.counted v row hrow
  · by_cases e₁ : w₁ = w
    · subst e₁
      simp [Pool.moveTo, Worker.moveTo, WorkerPc.holds] at h₁
    · by_cases e₂ : w₂ = w
      · subst e₂
        simp [Pool.moveTo, Worker.moveTo, WorkerPc.holds] at h₂
      · exact h.exclusive w₁ w₂ v (by simpa [Pool.moveTo, e₁] using h₁)
          (by simpa [Pool.moveTo, e₂] using h₂)
  · by_cases e : w' = w
    · subst e
      simp [Pool.moveTo, Worker.moveTo, WorkerPc.holds] at hv
    · have hv' : (s.workers w').pc.holds = some v := by simpa [Pool.moveTo, e] using hv
      have hne : v ≠ u := by
        rintro rfl
        exact e (h.exclusive w' w v hv' hmine)
      rw [pending_set_ne hne]
      exact h.held w' v hv'
  · by_cases e : w' = w
    · subst e
      simp [Pool.moveTo, Worker.moveTo] at hv
    · have hv' : (s.workers w').pc = .updated v row := by simpa [Pool.moveTo, e] using hv
      have hne : v ≠ u := by
        rintro rfl
        exact e (h.exclusive w' w v (by rw [hv']; rfl) hmine)
      rw [Db.get_set_ne _ _ hne]
      exact h.written w' v row hv'
  · have hrow : v = u ∨ v ∈ (s.workers w').claims := by
      by_cases e : w' = w
      · subst e
        simp only [Pool.moveTo, setWorker_self, hclaims, List.mem_append,
          List.mem_singleton] at hv
        rcases hv with hv | hv
        · exact Or.inr ((jobIds_sublist _).subset hv)
        · exact Or.inl hv
      · exact Or.inr (by simpa [Pool.moveTo, e] using hv)
    rcases hrow with rfl | hv
    · exact ⟨_, Db.get_set_self _ _ _, rfl⟩
    · rw [Db.get_set_ne _ _ (hother w' v hv)]
      exact h.done w' v hv
  · by_cases e : w' = w
    · subst e
      simp only [Pool.moveTo, setWorker_self, hclaims]
      refine List.nodup_append.mpr ⟨(h.nodup w').sublist (jobIds_sublist _),
        List.nodup_singleton u, fun v hv v' hv' => ?_⟩
      rw [List.mem_singleton.mp hv']
      exact hother w' v ((jobIds_sublist _).subset hv)
    · simpa [Pool.moveTo, e] using h.nodup w'
  · by_cases e₁ : w₁ = w
    · subst e₁
      simp only [Pool.moveTo, setWorker_self, hclaims, List.mem_append,
        List.mem_singleton] at h₁
      have h₂' : v ∈ (s.workers w₂).claims := by simpa [Pool.moveTo, hne.symm] using h₂
      rcases h₁ with h₁ | h₁
      · exact h.apart w₁ w₂ hne v ((jobIds_sublist _).subset h₁) h₂'
      · exact hother w₂ v h₂' h₁
    · have h₁' : v ∈ (s.workers w₁).claims := by simpa [Pool.moveTo, e₁] using h₁
      by_cases e₂ : w₂ = w
      · subst e₂
        simp only [Pool.moveTo, setWorker_self, hclaims, List.mem_append,
          List.mem_singleton] at h₂
        rcases h₂ with h₂ | h₂
        · exact h.apart w₁ w₂ hne v h₁' ((jobIds_sublist _).subset h₂)
        · exact hother w₁ v h₁' h₂
      · exact h.apart w₁ w₂ hne v h₁' (by simpa [Pool.moveTo, e₂] using h₂)

omit [DecidableEq ι] in
theorem PoolSound.add (h : PoolSound options s) {u : Uuid} {row : JobRow}
    (hnew : s.jobs.get u = none) (hstatus : row.status = .pending)
    (hprocessed : row.processed = 0) :
    PoolSound options { s with jobs := s.jobs.set u (some row) } := by
  have hkeep : ∀ v row', s.jobs.get v = some row' →
      (s.jobs.set u (some row)).get v = some row' := by
    intro v row' hrow
    have hne : v ≠ u := by
      rintro rfl
      rw [hnew] at hrow
      simp at hrow
    rw [Db.get_set_ne _ _ hne, hrow]
  refine ⟨fun v row' hrow => ?_, h.exclusive, fun w v hv => ?_, fun w v row' hv => ?_,
    fun w v hv => ?_, h.nodup, h.apart⟩
  · by_cases e : v = u
    · subst e
      rw [Db.get_set_self, Option.some.injEq] at hrow
      rw [← hrow, hstatus, hprocessed]
    · rw [Db.get_set_ne _ _ e] at hrow
      exact h.counted v row' hrow
  · obtain ⟨row', hrow, hpending⟩ := pending_iff.mp (h.held w v hv)
    exact pending_iff.mpr ⟨row', hkeep v row' hrow, hpending⟩
  · obtain ⟨old, hold, hrow⟩ := h.written w v row' hv
    exact ⟨old, hkeep v old hold, hrow⟩
  · obtain ⟨row', hrow, hdone⟩ := h.done w v hv
    exact ⟨row', hkeep v row' hrow, hdone⟩

/-- A move to a place that neither has a row nor a job to write down. -/
theorem PoolSound.letGo (h : PoolSound options s) {w : ι} {pc : WorkerPc}
    (hholds : pc.holds = none) (hanswer : ∀ u, pc ≠ .answered (some u)) :
    PoolSound options (s.moveTo w pc) := by
  refine h.setWorker (fun u hu => ?_) (fun u row hu => ?_) ?_
  · have hpc : pc.holds = some u := hu
    rw [hholds] at hpc
    simp at hpc
  · have hpc : pc = .updated u row := hu
    rw [hpc] at hholds
    simp [WorkerPc.holds] at hholds
  · rw [claims_moveTo _ hanswer]
    exact jobIds_sublist _

theorem claims_afterClaim (w : Worker) {claimedId : Option Uuid} (o : WorkerOptions)
    (hw : w.pc = .answered claimedId) : (w.afterClaim o claimedId).claims = w.claims := by
  cases claimedId with
  | some u => simp [Worker.afterClaim, Worker.claims, hw]
  | none =>
      simp only [Worker.afterClaim, Worker.claims, hw]
      split
      · next h => split at h <;> simp at h
      · rfl

theorem holds_afterClaim (w : Worker) (claimedId : Option Uuid) (o : WorkerOptions) :
    (w.afterClaim o claimedId).pc.holds = none := by
  cases claimedId with
  | some u => rfl
  | none =>
      simp only [Worker.afterClaim]
      split
      · rfl
      · rfl

theorem PoolSound.step (h : PoolSound options s) {t : PoolTurn ι}
    (hstep : PoolStep options s t s') : PoolSound options s' := by
  cases hstep with
  | select hw => exact h.letGo rfl (by simp)
  | skipLocked hw hlocked => exact h.letGo rfl (by simp)
  | skipDone hw hfree hdone => exact h.letGo rfl (by simp)
  | @claim w u todo hw hfree hpending =>
      refine h.setWorker (fun v hv => ?_) (fun v row hv => ?_) ?_
      · have heq : u = v := Option.some.inj hv
        subst heq
        exact Or.inr ⟨hfree, hpending⟩
      · simp [Worker.moveTo] at hv
      · rw [claims_moveTo _ (by simp)]
        exact jobIds_sublist _
  | nothing hw => exact h.letGo rfl (by simp)
  | @update w u row hw hrow =>
      refine h.setWorker (fun v hv => ?_) (fun v row' hv => ?_) ?_
      · have heq : u = v := Option.some.inj hv
        subst heq
        exact Or.inl (by rw [hw]; rfl)
      · have heq : WorkerPc.updated u (finished (options w).workerId row)
            = .updated v row' := hv
        obtain ⟨rfl, rfl⟩ := WorkerPc.updated.inj heq
        exact ⟨row, hrow, rfl⟩
      · rw [claims_moveTo _ (by simp)]
        exact jobIds_sublist _
  | commit hw => exact h.commit hw
  | @round w claimedId hw =>
      have hholds := holds_afterClaim (s.workers w) claimedId (options w)
      refine h.setWorker (fun v hv => ?_) (fun v row hv => ?_) ?_
      · rw [hholds] at hv
        simp at hv
      · rw [hv] at hholds
        simp [WorkerPc.holds] at hholds
      · rw [claims_afterClaim _ _ hw]
  | die hw => exact h.letGo rfl (by simp)
  | add hnew hstatus hprocessed => exact h.add hnew hstatus hprocessed

end Once

/-! ## Drained -/

/-- Row `u` is in the hands of a worker. -/
def Pool.InHand (s : Pool ι) (u : Uuid) : Prop :=
  ∃ w, (s.workers w).pc.holds = some u

/-- What a worker has found out about a pending row. -/
def WorkerPc.knows (pc : WorkerPc) (s : Pool ι) (u : Uuid) : Prop :=
  match pc with
  | .claiming todo => u ∈ todo ∨ s.InHand u
  | .answered none => s.InHand u
  | .returned => s.InHand u
  | _ => True

/-- The invariant of a pool that is left alone. -/
structure Draining (jobs₀ : JobDb) (s : Pool ι) : Prop where
  jobs : ∀ u, s.jobs.get u = none ↔ jobs₀.get u = none
  pending : ∀ u, s.jobs.pending u = true → jobs₀.pending u = true
  /-- A job that was pending is so still, or somebody has finished it. -/
  accounted : ∀ u, jobs₀.pending u = true →
    s.jobs.pending u = true ∨ ∃ w, u ∈ (s.workers w).claims
  claims : ∀ w, ∀ u ∈ (s.workers w).claims, jobs₀.pending u = true
  known : ∀ w u, s.jobs.pending u = true → (s.workers w).pc.knows s u
  alive : ∀ w, (s.workers w).pc ≠ .dead

theorem mem_pendingIds {d : JobDb} {u : Uuid} :
    u ∈ d.pendingIds ↔ d.pending u = true := by
  rw [JobDb.pendingIds, List.mem_insertionSort, List.mem_filter, d.mem_keys]
  refine and_iff_right_of_imp fun h => ?_
  obtain ⟨row, hrow, _⟩ := pending_iff.mp h
  rw [hrow]
  rfl

section Drain

variable [DecidableEq ι] {options : ι → WorkerOptions} {s s' : Pool ι} {jobs₀ : JobDb}

omit [DecidableEq ι] in
/-- Knowledge outlives a step after which whatever was in hand and is pending
still is in hand. -/
theorem WorkerPc.knows.mono {pc : WorkerPc} {u : Uuid} (h : pc.knows s u)
    (hkeep : s.InHand u → s'.InHand u) : pc.knows s' u := by
  cases pc with
  | claiming todo =>
      rcases h with h | h
      · exact Or.inl h
      · exact Or.inr (hkeep h)
  | answered claimedId =>
      cases claimedId with
      | none => exact hkeep h
      | some u => trivial
  | returned => exact hkeep h
  | polling => trivial
  | claimed u => trivial
  | updated u row => trivial
  | dead => trivial

theorem inHand_setWorker {w : ι} {worker : Worker} {u : Uuid} (h : s.InHand u)
    (hkeep : (s.workers w).pc.holds = some u → worker.pc.holds = some u) :
    (s.setWorker w worker).InHand u := by
  obtain ⟨w', hw'⟩ := h
  by_cases e : w' = w
  · subst e
    exact ⟨w', by rw [setWorker_self]; exact hkeep hw'⟩
  · exact ⟨w', by rw [setWorker_ne _ e]; exact hw'⟩

/-- A step of one worker that changes no job, keeps what it has locked and
written down, and knows what it says. -/
theorem Draining.setWorker (h : Draining jobs₀ s) {w : ι} {worker : Worker}
    (hkeep : ∀ u, (s.workers w).pc.holds = some u → worker.pc.holds = some u)
    (hclaims : worker.claims = (s.workers w).claims)
    (hknows : ∀ u, s.jobs.pending u = true → worker.pc.knows s u)
    (halive : worker.pc ≠ .dead) : Draining jobs₀ (s.setWorker w worker) := by
  have hsame : ∀ w', ((s.setWorker w worker).workers w').claims
      = (s.workers w').claims := by
    intro w'
    by_cases e : w' = w
    · subst e
      rw [setWorker_self, hclaims]
    · rw [setWorker_ne _ e]
  refine ⟨h.jobs, h.pending, fun u hu => ?_, fun w' u hu => ?_, fun w' u hu => ?_,
    fun w' => ?_⟩
  · simp only [hsame]
    exact h.accounted u hu
  · rw [hsame] at hu
    exact h.claims w' u hu
  · have hhand : s.InHand u → (s.setWorker w worker).InHand u :=
      fun hin => inHand_setWorker hin (hkeep u)
    by_cases e : w' = w
    · subst e
      rw [setWorker_self]
      exact (hknows u hu).mono hhand
    · rw [setWorker_ne _ e]
      exact (h.known w' u hu).mono hhand
  · by_cases e : w' = w
    · subst e
      rw [setWorker_self]
      exact halive
    · rw [setWorker_ne _ e]
      exact h.alive w'

/-- Whoever commits a job has it written down, and nobody need know of it. -/
theorem Draining.commit (h : Draining jobs₀ s) (hs : PoolSound options s) {w : ι}
    {u : Uuid} {row : JobRow} (hw : (s.workers w).pc = .updated u row) :
    Draining jobs₀
      { s.moveTo w (.answered (some u)) with jobs := s.jobs.set u (some row) } := by
  obtain ⟨old, hold, rfl⟩ := hs.written w u row hw
  have hmine : (s.workers w).pc.holds = some u := by rw [hw]; rfl
  have hset : ∀ v, JobDb.pending
      (s.jobs.set u (some (finished (options w).workerId old))) v = true →
        v ≠ u ∧ s.jobs.pending v = true := by
    intro v hv
    have hne : v ≠ u := by
      rintro rfl
      rw [not_pending_of_done (Db.get_set_self _ _ _) rfl] at hv
      simp at hv
    rw [pending_set_ne hne] at hv
    exact ⟨hne, hv⟩
  have hclaims : ∀ w', ((s.moveTo w (.answered (some u))).workers w').claims
      = (s.workers w').claims ++ if w' = w then [u] else [] := by
    intro w'
    by_cases e : w' = w
    · subst e
      simp [Pool.moveTo, Worker.moveTo, Worker.claims, hw]
    · simp [Pool.moveTo, e]
  refine ⟨fun v => ?_, fun v hv => h.pending v (hset v hv).2, fun v hv => ?_,
    fun w' v hv => ?_, fun w' v hv => ?_, fun w' => ?_⟩
  · by_cases e : v = u
    · subst e
      have hjobs := h.jobs v
      rw [hold] at hjobs
      rw [Db.get_set_self, ← hjobs]
      simp
    · rw [Db.get_set_ne _ _ e]
      exact h.jobs v
  · simp only [hclaims]
    rcases h.accounted v hv with hold' | ⟨w', hw'⟩
    · by_cases e : v = u
      · exact Or.inr ⟨w, by simp [e]⟩
      · exact Or.inl (by rw [pending_set_ne e]; exact hold')
    · exact Or.inr ⟨w', List.mem_append_left _ hw'⟩
  · replace hv : v ∈ ((s.moveTo w (.answered (some u))).workers w').claims := hv
    rw [hclaims, List.mem_append] at hv
    rcases hv with hv | hv
    · exact h.claims w' v hv
    · have heq : v = u := by
        split at hv
        · exact List.mem_singleton.mp hv
        · simp at hv
      rw [heq]
      exact h.pending u (hs.held w u hmine)
  · obtain ⟨hne, hpending⟩ := hset v hv
    have hhand : s.InHand v → Pool.InHand
        { s.moveTo w (.answered (some u)) with
          jobs := s.jobs.set u (some (finished (options w).workerId old)) } v := by
      intro hin
      refine inHand_setWorker hin fun hmine' => ?_
      rw [hmine, Option.some.injEq] at hmine'
      exact absurd hmine'.symm hne
    by_cases e : w' = w
    · subst e
      simp [Pool.moveTo, Worker.moveTo, WorkerPc.knows]
    · have hknown := (h.known w' v hpending).mono hhand
      simpa [Pool.moveTo, e] using hknown
  · by_cases e : w' = w
    · subst e
      simp [Pool.moveTo, Worker.moveTo]
    · simpa [Pool.moveTo, e] using h.alive w'

theorem claims_eq_jobIds {w : Worker} (h : ∀ u, w.pc ≠ .answered (some u)) :
    w.claims = w.jobIds := claims_moveTo w h

/-- A worker in a place without a job that has nothing to write down. -/
theorem Draining.moveTo (h : Draining jobs₀ s) {w : ι} {pc : WorkerPc}
    (hkeep : ∀ u, (s.workers w).pc.holds = some u → pc.holds = some u)
    (hold : ∀ u, (s.workers w).pc ≠ .answered (some u))
    (hnew : ∀ u, pc ≠ .answered (some u))
    (hknows : ∀ u, s.jobs.pending u = true → pc.knows s u) (halive : pc ≠ .dead) :
    Draining jobs₀ (s.moveTo w pc) :=
  h.setWorker hkeep (by rw [claims_moveTo _ hnew, claims_eq_jobIds hold]) hknows halive

theorem Draining.step (h : Draining jobs₀ s) (hs : PoolSound options s)
    {t : PoolTurn ι} (hok : LeftAlone s t) (hstep : PoolStep options s t s') :
    Draining jobs₀ s' := by
  -- What a scan knows once the row it looked at is in hand or done.
  have passed : ∀ {w u todo}, (s.workers w).pc = .claiming (u :: todo) →
      (s.jobs.pending u = true → s.InHand u) →
      ∀ v, s.jobs.pending v = true → (WorkerPc.claiming todo).knows s v := by
    intro w u todo hw hin v hv
    have hknown := h.known w v hv
    rw [hw] at hknown
    rcases hknown with hmem | hhand
    · rcases List.mem_cons.mp hmem with rfl | hmem
      · exact Or.inr (hin hv)
      · exact Or.inl hmem
    · exact Or.inr hhand
  cases hstep with
  | @select w hw =>
      exact h.moveTo (by simp [hw, WorkerPc.holds]) (by simp [hw]) (by simp)
        (fun u hu => Or.inl (mem_pendingIds.mpr hu)) (by simp)
  | @skipLocked w u todo hw hlocked =>
      refine h.moveTo (by simp [hw, WorkerPc.holds]) (by simp [hw]) (by simp)
        (passed hw fun _ => ?_) (by simp)
      simp only [Pool.free, not_forall, not_not] at hlocked
      obtain ⟨w', _, hw'⟩ := hlocked
      exact ⟨w', hw'⟩
  | @skipDone w u todo hw hfree hdone =>
      refine h.moveTo (by simp [hw, WorkerPc.holds]) (by simp [hw]) (by simp)
        (passed hw fun hpending => ?_) (by simp)
      rw [hdone] at hpending
      simp at hpending
  | @claim w u todo hw hfree hpending =>
      exact h.moveTo (by simp [hw, WorkerPc.holds]) (by simp [hw]) (by simp)
        (fun _ _ => trivial) (by simp)
  | @nothing w hw =>
      refine h.moveTo (by simp [hw, WorkerPc.holds]) (by simp [hw]) (by simp)
        (fun u hu => ?_) (by simp)
      have hknown := h.known w u hu
      rw [hw] at hknown
      rcases hknown with hmem | hhand
      · exact absurd hmem List.not_mem_nil
      · exact hhand
  | @update w u row hw hrow =>
      exact h.moveTo (by simp [hw, WorkerPc.holds]) (by simp [hw]) (by simp)
        (fun _ _ => trivial) (by simp)
  | commit hw => exact h.commit hs hw
  | @round w claimedId hw =>
      refine h.setWorker (by simp [hw, WorkerPc.holds])
        (claims_afterClaim _ _ hw) (fun u hu => ?_) ?_
      · cases claimedId with
        | some v => trivial
        | none =>
            have hknown := h.known w u hu
            rw [hw] at hknown
            simp only [Worker.afterClaim]
            split
            · exact hknown
            · trivial
      · cases claimedId with
        | some v => simp [Worker.afterClaim]
        | none =>
            simp only [Worker.afterClaim]
            split
            · simp
            · simp
  | die hw => exact absurd hok id
  | add hnew hstatus hprocessed => exact absurd hok id

omit [DecidableEq ι] in
theorem Draining.boot (jobs₀ : JobDb) : Draining jobs₀ (.boot jobs₀ : Pool ι) where
  jobs _ := Iff.rfl
  pending _ hu := hu
  accounted _ hu := Or.inl hu
  claims _ _ hu := by simp [Pool.boot, Worker.start, Worker.claims] at hu
  known _ _ _ := trivial
  alive _ := by simp [Pool.boot, Worker.start]

omit [DecidableEq ι] in
/-- When all have returned, nothing is in hand, so nothing is pending. -/
theorem Draining.drained [Nonempty ι] (h : Draining jobs₀ s)
    (hall : ∀ w, (s.workers w).pc = .returned) : Drained jobs₀ s := by
  have hnone : ∀ u, s.jobs.pending u = false := by
    intro u
    by_contra hu
    have hpending : s.jobs.pending u = true := by simpa using hu
    obtain ⟨w⟩ := ‹Nonempty ι›
    have hknown := h.known w u hpending
    rw [hall w] at hknown
    obtain ⟨w', hw'⟩ := hknown
    rw [hall w'] at hw'
    simp [WorkerPc.holds] at hw'
  have hclaims : ∀ w, (s.workers w).claims = (s.workers w).jobIds :=
    fun w => claims_eq_jobIds (by simp [hall w])
  refine ⟨fun u row hrow => ?_, h.jobs, fun u => ⟨fun hu => ?_, fun ⟨w, hw⟩ => ?_⟩⟩
  · cases hstatus : row.status with
    | done => rfl
    | pending =>
        have hpending := pending_iff.mpr ⟨row, hrow, hstatus⟩
        rw [hnone u] at hpending
        simp at hpending
  · rcases h.accounted u hu with hpending | ⟨w, hw⟩
    · rw [hnone u] at hpending
      simp at hpending
    · exact ⟨w, hclaims w ▸ hw⟩
  · exact h.claims w u (hclaims w ▸ hw)

end Drain

/-- The pool runs every job at most once whatever happens; left alone, it has
run each of them when the last worker returns. -/
theorem pool_runs_each_once [DecidableEq ι] [Nonempty ι] {options : ι → WorkerOptions}
    {jobs₀ : JobDb} (hcounted : Counted jobs₀) :
    (∀ s, Reachable (PoolStep options) (.boot jobs₀) s → RanOnce s) ∧
      ∀ s, Lts.Reach (PoolStep options) LeftAlone (.boot jobs₀) s →
        (∀ w, (s.workers w).pc = .returned) → Drained jobs₀ s := by
  have hsound : ∀ s, Reachable (PoolStep options) (.boot jobs₀) s →
      PoolSound options s :=
    fun s hr => Lts.Reach.invariant hr (.boot hcounted) fun _ _ _ hs _ hstep => hs.step hstep
  constructor
  · intro s hr
    have h := hsound s hr
    refine ⟨h.counted, fun w => (h.nodup w).sublist (jobIds_sublist _),
      fun w w' hne u hu hu' => ?_⟩
    exact h.apart w w' hne u ((jobIds_sublist _).subset hu) ((jobIds_sublist _).subset hu')
  · intro s hr hall
    have h : PoolSound options s ∧ Draining jobs₀ s :=
      Lts.Reach.invariant (I := fun s => PoolSound options s ∧ Draining jobs₀ s) hr
        ⟨.boot hcounted, .boot jobs₀⟩ fun _ _ _ hs hok hstep =>
          ⟨hs.1.step hstep, hs.2.step hs.1 hok hstep⟩
    exact h.2.drained hall

def WorkerPc.isReturned : WorkerPc → Bool
  | .returned => true
  | _ => false

theorem isReturned_iff {pc : WorkerPc} : pc.isReturned = true ↔ pc = .returned := by
  cases pc with
  | returned => simp [WorkerPc.isReturned]
  | _ => simp [WorkerPc.isReturned]

/-- A turn as a function, where it is possible. -/
def Pool.fire {n : Nat} (options : Fin n → WorkerOptions) (s : Pool (Fin n)) :
    PoolTurn (Fin n) → Option (Pool (Fin n))
  | .select w =>
      match (s.workers w).pc with
      | .polling => some (s.moveTo w (.claiming s.jobs.pendingIds))
      | _ => none
  | .look w =>
      match (s.workers w).pc with
      | .claiming (u :: todo) =>
          if ∀ w', w' ≠ w → (s.workers w').pc.holds ≠ some u then
            if s.jobs.pending u then some (s.moveTo w (.claimed u))
            else some (s.moveTo w (.claiming todo))
          else some (s.moveTo w (.claiming todo))
      | _ => none
  | .nothing w =>
      match (s.workers w).pc with
      | .claiming [] => some (s.moveTo w (.answered none))
      | _ => none
  | .update w =>
      match (s.workers w).pc with
      | .claimed u => (s.jobs.get u).map fun row =>
          s.moveTo w (.updated u (finished (options w).workerId row))
      | _ => none
  | .commit w =>
      match (s.workers w).pc with
      | .updated u row =>
          some { s.moveTo w (.answered (some u)) with jobs := s.jobs.set u (some row) }
      | _ => none
  | .round w =>
      match (s.workers w).pc with
      | .answered claimedId =>
          some (s.setWorker w ((s.workers w).afterClaim (options w) claimedId))
      | _ => none
  | _ => none

theorem Pool.fire_sound {n : Nat} {options : Fin n → WorkerOptions}
    (s : Pool (Fin n)) (t : PoolTurn (Fin n)) (s' : Pool (Fin n)) (h : s.fire options t = some s') :
    Next (PoolStep options) LeftAlone s s' := by
  cases t with
  | select w =>
      simp only [fire] at h
      split at h
      · next hw => exact Option.some.inj h ▸ ⟨.select w, trivial, .select hw⟩
      · simp at h
  | look w =>
      simp only [fire] at h
      split at h
      · next u todo hw =>
          split at h
          · next hfree =>
              split at h
              · next hpending =>
                  exact Option.some.inj h ▸ ⟨.look w, trivial, .claim hw hfree hpending⟩
              · next hdone =>
                  exact Option.some.inj h ▸
                    ⟨.look w, trivial, .skipDone hw hfree (by simpa using hdone)⟩
          · next hlocked =>
              exact Option.some.inj h ▸ ⟨.look w, trivial, .skipLocked hw hlocked⟩
      · simp at h
  | nothing w =>
      simp only [fire] at h
      split at h
      · next hw => exact Option.some.inj h ▸ ⟨.nothing w, trivial, .nothing hw⟩
      · simp at h
  | update w =>
      simp only [fire] at h
      split at h
      · next u hw =>
          obtain ⟨row, hrow, rfl⟩ := Option.map_eq_some_iff.mp h
          exact ⟨.update w, trivial, .update hw hrow⟩
      · simp at h
  | commit w =>
      simp only [fire] at h
      split at h
      · next u row hw => exact Option.some.inj h ▸ ⟨.commit w, trivial, .commit hw⟩
      · simp at h
  | round w =>
      simp only [fire] at h
      split at h
      · next claimedId hw =>
          exact Option.some.inj h ▸ ⟨.round w, trivial, .round hw⟩
      · simp at h
  | die w => simp [fire] at h
  | add u row => simp [fire] at h

def pendingJob (createdAt : Instant) : JobRow :=
  ⟨"order_receipt", ⟨0, "a-1"⟩, .pending, 0, none, createdAt⟩

def twoJobs : JobDb :=
  (Db.empty.set 1 (some (pendingJob 10))).set 2 (some (pendingJob 20))

def twoWorkers : Fin 2 → WorkerOptions
  | 0 => ⟨"worker-1", 1⟩
  | 1 => ⟨"worker-2", 1⟩

/-- The second worker passes over the row the first has, takes the next one and
returns on an empty claim while the first is still at work. -/
def poolSchedule : List (PoolTurn (Fin 2)) :=
  [.select 0, .look 0, .select 1, .look 1, .look 1, .update 1, .commit 1, .round 1,
    .select 1, .look 1, .nothing 1, .round 1, .update 0, .commit 0, .round 0,
    .select 0, .nothing 0, .round 0]

theorem counted_twoJobs : Counted twoJobs := by
  intro u row hrow
  by_cases h₂ : u = 2
  · subst h₂
    rw [twoJobs, Db.get_set_self, Option.some.injEq] at hrow
    rw [← hrow]
    rfl
  · rw [twoJobs, Db.get_set_ne _ _ h₂] at hrow
    by_cases h₁ : u = 1
    · subst h₁
      rw [Db.get_set_self, Option.some.injEq] at hrow
      rw [← hrow]
      rfl
    · rw [Db.get_set_ne _ _ h₁] at hrow
      simp at hrow

theorem pool_runs_each_once_pair :
    ∃ s, Lts.Reach (PoolStep twoWorkers) LeftAlone (.boot twoJobs) s ∧
      RanOnce s ∧ Drained twoJobs s ∧
      decide ((s.workers 0).jobIds = [1] ∧ (s.workers 1).jobIds = [2] ∧
        (s.workers 0).pc.isReturned ∧ (s.workers 1).pc.isReturned) = true := by
  have hrun : (follow (Pool.fire twoWorkers) poolSchedule (.boot twoJobs)).any (fun s =>
      decide ((s.workers 0).jobIds = [1] ∧ (s.workers 1).jobIds = [2] ∧
        (s.workers 0).pc.isReturned ∧ (s.workers 1).pc.isReturned)) = true := by
    decide +kernel
  obtain ⟨s, hr, hp⟩ := exists_follow Pool.fire_sound _ _ _ hrun
  have hall : ∀ w, (s.workers w).pc = .returned := by
    have hp' := of_decide_eq_true hp
    intro w
    match w with
    | 0 => exact isReturned_iff.mp hp'.2.2.1
    | 1 => exact isReturned_iff.mp hp'.2.2.2
  have hreach : Lts.Reach (PoolStep twoWorkers) LeftAlone (.boot twoJobs) s := hr
  exact ⟨s, hr,
    (pool_runs_each_once counted_twoJobs).1 s (hreach.weaken fun _ _ _ => trivial),
    (pool_runs_each_once counted_twoJobs).2 s hr hall, hp⟩

end InvestApi.Ref
