import Mathlib.Data.List.Sort
import InvestApi.Lts.Run
import InvestApi.Pg.Db
import InvestApi.Ref.Domain

/-!
# The worker pool

`src/concurrency/worker.ts`: any number of loops over one table, each round a
transaction of its own. The claim takes a snapshot and then looks at the
pending rows of it one after the other, oldest first: a row that somebody else
holds it passes over, a row that is not pending any more fails the re-check,
and the first other one it locks. A lock is held by who is between that look
and its COMMIT. The handler and the pauses take time and do nothing else.
-/

namespace InvestApi.Ref

open InvestApi.Pg

variable {ι : Type}

/-- `job_queue`. -/
abbrev JobDb := Db fun _ : Uuid => JobRow

namespace JobDb

def pending (d : JobDb) (u : Uuid) : Bool :=
  (d.get u).any fun row => row.status = .pending

/-- ORDER BY created_at, id. -/
def before (d : JobDb) (u v : Uuid) : Bool :=
  match d.get u, d.get v with
  | some a, some b =>
      decide (a.createdAt < b.createdAt ∨ a.createdAt = b.createdAt ∧ u ≤ v)
  | _, _ => false

def pendingIds (d : JobDb) : List Uuid :=
  (d.keys.filter d.pending).insertionSort fun u v => d.before u v = true

end JobDb

inductive WorkerPc where
  | polling
  /-- The rows of the snapshot that the claim has still to look at. -/
  | claiming (todo : List Uuid)
  | claimed (id : Uuid)
  /-- The new row is written and not committed. -/
  | updated (id : Uuid) (row : JobRow)
  /-- The transaction has committed; this is what it returned. -/
  | answered (claimedId : Option Uuid)
  | returned
  | dead

/-- The row a transaction in this place has locked. -/
def WorkerPc.holds : WorkerPc → Option Uuid
  | .claimed u => some u
  | .updated u _ => some u
  | _ => none

structure Worker where
  pc : WorkerPc
  jobIds : List Uuid
  idlePolls : Nat
  consecutiveIdle : Nat

structure Pool (ι : Type) where
  jobs : JobDb
  workers : ι → Worker

/-- What `runWorker` is called with. -/
structure WorkerOptions where
  workerId : String
  maxIdlePolls : Int

/-- UPDATE … SET status = 'done', processed = processed + 1, worker_id = $2. -/
def finished (workerId : String) (row : JobRow) : JobRow :=
  { row with status := .done, processed := row.processed + 1, workerId := some workerId }

namespace Worker

def start : Worker := ⟨.polling, [], 0, 0⟩

def moveTo (w : Worker) (pc : WorkerPc) : Worker := { w with pc := pc }

/-- The rest of a round. -/
def afterClaim (options : WorkerOptions) (w : Worker) : Option Uuid → Worker
  | some id => { w with pc := .polling, jobIds := w.jobIds ++ [id], consecutiveIdle := 0 }
  | none =>
      { w with
        pc := if ((w.consecutiveIdle + 1 : Nat) : Int) ≥ options.maxIdlePolls
          then .returned else .polling
        idlePolls := w.idlePolls + 1
        consecutiveIdle := w.consecutiveIdle + 1 }

end Worker

namespace Pool

variable [DecidableEq ι]

def boot (jobs : JobDb) : Pool ι := ⟨jobs, fun _ => .start⟩

def setWorker (s : Pool ι) (w : ι) (worker : Worker) : Pool ι :=
  { s with workers := Function.update s.workers w worker }

def moveTo (s : Pool ι) (w : ι) (pc : WorkerPc) : Pool ι :=
  s.setWorker w ((s.workers w).moveTo pc)

/-- Nobody but `w` has row `u` locked. -/
def free (s : Pool ι) (w : ι) (u : Uuid) : Prop :=
  ∀ w', w' ≠ w → (s.workers w').pc.holds ≠ some u

end Pool

inductive PoolTurn (ι : Type) where
  | select (w : ι)
  | look (w : ι)
  | nothing (w : ι)
  | update (w : ι)
  | commit (w : ι)
  | round (w : ι)
  | die (w : ι)
  | add (u : Uuid) (row : JobRow)

inductive PoolStep [DecidableEq ι] (options : ι → WorkerOptions) :
    Pool ι → PoolTurn ι → Pool ι → Prop
  | select {s w} (hw : (s.workers w).pc = .polling) :
      PoolStep options s (.select w) (s.moveTo w (.claiming s.jobs.pendingIds))
  | skipLocked {s w u todo} (hw : (s.workers w).pc = .claiming (u :: todo))
      (hlocked : ¬s.free w u) :
      PoolStep options s (.look w) (s.moveTo w (.claiming todo))
  | skipDone {s w u todo} (hw : (s.workers w).pc = .claiming (u :: todo))
      (hfree : s.free w u) (hdone : s.jobs.pending u = false) :
      PoolStep options s (.look w) (s.moveTo w (.claiming todo))
  | claim {s w u todo} (hw : (s.workers w).pc = .claiming (u :: todo))
      (hfree : s.free w u) (hpending : s.jobs.pending u = true) :
      PoolStep options s (.look w) (s.moveTo w (.claimed u))
  | nothing {s w} (hw : (s.workers w).pc = .claiming []) :
      PoolStep options s (.nothing w) (s.moveTo w (.answered none))
  | update {s w u row} (hw : (s.workers w).pc = .claimed u)
      (hrow : s.jobs.get u = some row) :
      PoolStep options s (.update w)
        (s.moveTo w (.updated u (finished (options w).workerId row)))
  | commit {s w u row} (hw : (s.workers w).pc = .updated u row) :
      PoolStep options s (.commit w)
        { s.moveTo w (.answered (some u)) with jobs := s.jobs.set u (some row) }
  | round {s w claimedId} (hw : (s.workers w).pc = .answered claimedId) :
      PoolStep options s (.round w)
        (s.setWorker w ((s.workers w).afterClaim (options w) claimedId))
  | die {s w} (hw : (s.workers w).pc ≠ .returned) :
      PoolStep options s (.die w) (s.moveTo w .dead)
  /-- A new job gets the column defaults. -/
  | add {s u row} (hnew : s.jobs.get u = none) (hstatus : row.status = .pending)
      (hprocessed : row.processed = 0) :
      PoolStep options s (.add u row) { s with jobs := s.jobs.set u (some row) }

end InvestApi.Ref
