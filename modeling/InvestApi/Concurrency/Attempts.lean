import Mathlib.Algebra.BigOperators.Intervals
import InvestApi.Concurrency.Retry
import InvestApi.Lts.Progress

/-!
# `withRetry` comes to an end

An attempt fails only because somebody else has committed since its snapshot,
and a call commits at most once. So a call with attempt number `n` has seen
`n - 1` others commit, each of its attempts another one: with as many attempts
as there are writers it never runs out of them, whatever the schedule. What is
left to a call is paid for by its attempts and its place in the current one, and
every step lowers the sum.
-/

namespace InvestApi.Ref

open InvestApi.Pg InvestApi.Lts

variable {ι V : Type}

/-- Nothing goes wrong but conflicts. -/
def OnlyConflicts (_ : RetryState ι V) : RetryTurn ι → Prop
  | .fail _ _ _ => False
  | .lose _ _ => False
  | _ => True

/-- As many attempts as there are writers, and a callback that throws nothing. -/
structure RetryOptions.Patient (options : RetryOptions) (writers : Nat) : Prop where
  attempts : ∀ maxAttempts, options.maxAttempts = some maxAttempts →
    (writers : Number) ≤ maxAttempts
  quiet : ∀ info, options.onRetry info = none

theorem RetryOptions.Patient.not_exhausted {options : RetryOptions} {writers attempt : Nat}
    (h : options.Patient writers) (hlt : attempt < writers) :
    options.exhausted attempt = false := by
  rw [RetryOptions.exhausted]
  split
  · next maxAttempts hmax =>
      have hle := h.attempts maxAttempts hmax
      have hlt' : (attempt : Number) < writers := Nat.cast_lt.mpr hlt
      exact decide_eq_false (not_le.mpr (lt_of_lt_of_le hlt' hle))
  · rfl

/-! ## One call -/

namespace RetryCall

/-- How many attempts have failed. -/
def failures (c : RetryCall V) : Nat :=
  match c.phase with
  | .sleeping => c.attempt
  | _ => c.attempt - 1

/-- The failed attempts have each seen another commit. -/
def Paced (c : RetryCall V) (tx : RowTx V) (version : Nat) : Prop :=
  match c.phase with
  | .attempting =>
      match tx with
      | .begun => c.attempt ≤ version + 1
      | .read seen => c.attempt ≤ seen.version + 1 ∧ seen.version ≤ version
      | .written _ => c.attempt ≤ version + 1
  | .sleeping => c.attempt ≤ version ∧ tx = .begun
  | .committed _ => tx = .begun
  | .returned outcome =>
      tx = .begun ∧ outcome.attempts = c.attempt ∧ outcome.retries = c.retries
  | .threw _ => False
  | .lost _ => False

/-- The failed attempts are written down in order, each a conflict. -/
structure Logged (c : RetryCall V) : Prop where
  positive : 0 < c.attempt
  attempts : c.retries.map (·.attempt) = List.range' 1 c.failures
  conflicts : ∀ info ∈ c.retries, info.sqlState = "40001"

/-- What is left of a call: its attempts, and its place in the current one. -/
def left (c : RetryCall V) (writers : Nat) (tx : RowTx V) : Nat :=
  match c.phase with
  | .attempting =>
      5 * (writers - c.attempt) +
        match tx with
        | .begun => 4
        | .read _ => 3
        | .written _ => 2
  | .sleeping => 5 * (writers - c.attempt)
  | .committed _ => 1
  | _ => 0

variable {c : RetryCall V} {tx : RowTx V} {version writers : Nat}

theorem Logged.length_eq (h : c.Logged) : c.retries.length = c.failures := by
  have hlen := congrArg List.length h.attempts
  simpa using hlen

/-- A call that moves on without failing keeps its log. -/
theorem Logged.moveTo (h : c.Logged) {phase : CallPhase V}
    (hfailures : RetryCall.failures { c with phase := phase } = c.failures) :
    Logged { c with phase := phase } :=
  ⟨h.positive, hfailures ▸ h.attempts, h.conflicts⟩

theorem Paced.mono (h : c.Paced tx version) {version' : Nat} (hle : version ≤ version') :
    c.Paced tx version' := by
  unfold Paced at h ⊢
  split
  · next hphase =>
      rw [hphase] at h
      cases tx with
      | begun => exact Nat.le_trans h (Nat.succ_le_succ hle)
      | read seen => exact ⟨h.1, Nat.le_trans h.2 hle⟩
      | written new => exact Nat.le_trans h (Nat.succ_le_succ hle)
  · next hphase =>
      rw [hphase] at h
      exact ⟨Nat.le_trans h.1 hle, h.2⟩
  · next hphase =>
      rw [hphase] at h
      exact h
  · next hphase =>
      rw [hphase] at h
      exact h
  · next hphase =>
      rw [hphase] at h
      exact h
  · next hphase =>
      rw [hphase] at h
      exact h

end RetryCall

/-! ## The invariant -/

/-- The invariant. -/
structure Pacing (s : RetryState ι V) : Prop where
  counted : RetryCounted s
  version : s.row.version = s.commits.length
  paced : ∀ i, (s.calls i).Paced (s.txs i) s.row.version
  logged : ∀ i, (s.calls i).Logged

def RetryTurn.writer : RetryTurn ι → ι
  | .read i => i
  | .write i => i
  | .conflict i _ => i
  | .fail i _ _ => i
  | .commit i => i
  | .answer i => i
  | .lose i _ => i
  | .wake i => i

/-- What is left to do. -/
def RetryState.left [Fintype ι] (s : RetryState ι V) : Nat :=
  ∑ i, (s.calls i).left (Fintype.card ι) (s.txs i)

section Runs

variable [DecidableEq ι] {options : ι → RetryOptions} {next : ι → V → V} {v₀ : V}
  {s s' : RetryState ι V}

/-- A step is one writer's. -/
theorem RetryStep.others {t : RetryTurn ι} (h : RetryStep options next s t s') {j : ι}
    (hj : j ≠ t.writer) : s'.calls j = s.calls j ∧ s'.txs j = s.txs j := by
  cases h with
  | read hc hr =>
      cases hr with
      | read ht => exact ⟨rfl, RowState.setTx_ne _ _ hj⟩
  | write hc hr =>
      cases hr with
      | write ht hfree hcurrent => exact ⟨rfl, RowState.setTx_ne _ _ hj⟩
  | conflict hc ht hold =>
      exact ⟨Function.update_of_ne hj _ _, RowState.setTx_ne _ _ hj⟩
  | fail hc => exact ⟨Function.update_of_ne hj _ _, RowState.setTx_ne _ _ hj⟩
  | commit hc ht =>
      exact ⟨Function.update_of_ne hj _ _, Function.update_of_ne hj _ _⟩
  | answer hc => exact ⟨Function.update_of_ne hj _ _, rfl⟩
  | lose hc herror => exact ⟨Function.update_of_ne hj _ _, rfl⟩
  | wake hc => exact ⟨Function.update_of_ne hj _ _, rfl⟩

/-- Only a commit moves the row on. -/
theorem RetryStep.version {t : RetryTurn ι} (h : RetryStep options next s t s')
    (hv : s.row.version = s.commits.length) :
    s'.row.version = s'.commits.length ∧ s.row.version ≤ s'.row.version := by
  cases h with
  | read hc hr =>
      cases hr with
      | read ht => exact ⟨hv, Nat.le_refl _⟩
  | write hc hr =>
      cases hr with
      | write ht hfree hcurrent => exact ⟨hv, Nat.le_refl _⟩
  | conflict hc ht hold => exact ⟨hv, Nat.le_refl _⟩
  | fail hc => exact ⟨hv, Nat.le_refl _⟩
  | commit hc ht =>
      refine ⟨?_, Nat.le_succ _⟩
      show s.row.version + 1 = (s.commits ++ [_]).length
      rw [hv, List.length_append, List.length_singleton]
  | answer hc => exact ⟨hv, Nat.le_refl _⟩
  | lose hc herror => exact ⟨hv, Nat.le_refl _⟩
  | wake hc => exact ⟨hv, Nat.le_refl _⟩

omit [DecidableEq ι] in
/-- Whoever has not committed has seen at most the others do it. -/
theorem Pacing.version_lt [Fintype ι] (h : Pacing s) {i : ι}
    (hi : (s.calls i).contributed = false) : s.row.version < Fintype.card ι := by
  have hmem : i ∉ s.commits := by
    rw [h.counted.mem, hi]
    simp
  rw [h.version]
  have hlt := List.Nodup.length_le_card (List.nodup_cons.mpr ⟨hmem, h.counted.nodup⟩)
  rw [List.length_cons] at hlt
  exact hlt

/-- The writer that moves keeps its pace, and has less left. -/
structure Advances (writers : Nat) (s s' : RetryState ι V) (i : ι) : Prop where
  paced : (s'.calls i).Paced (s'.txs i) s'.row.version
  logged : (s'.calls i).Logged
  less : (s'.calls i).left writers (s'.txs i) < (s.calls i).left writers (s.txs i)

omit [DecidableEq ι] in
theorem Advances.of {writers : Nat} {i : ι} {c : RetryCall V} {tx : RowTx V}
    (hcall : s'.calls i = c) (htx : s'.txs i = tx) (hpaced : c.Paced tx s'.row.version)
    (hlogged : c.Logged) (hless : c.left writers tx < (s.calls i).left writers (s.txs i)) :
    Advances writers s s' i := by
  subst hcall htx
  exact ⟨hpaced, hlogged, hless⟩

variable [Fintype ι]

/-- A conflict is not the last attempt. -/
theorem Pacing.conflict (h : Pacing s) (hpatient : ∀ i, (options i).Patient (Fintype.card ι))
    {i : ι} {seen : Versioned V} {random : Number} (hc : (s.calls i).phase = .attempting)
    (ht : s.txs i = .read seen) (hold : seen.version ≠ s.row.version) :
    Advances (Fintype.card ι) s (s.abort i (options i) serializationFailure random) i := by
  have hlt := h.version_lt (contributed_of_attempting hc)
  obtain ⟨hattempt, hseen⟩ : (s.calls i).attempt ≤ seen.version + 1 ∧
      seen.version ≤ s.row.version := by
    have hp := h.paced i
    simp only [RetryCall.Paced, hc, ht] at hp
    exact hp
  have hle : (s.calls i).attempt ≤ s.row.version := by omega
  have hlogged := h.logged i
  obtain ⟨info, hinfo⟩ : ∃ info : RetryInfo, info = ⟨(s.calls i).attempt, "40001",
      (options i).delayMs (s.calls i).attempt random⟩ := ⟨_, rfl⟩
  have hfailed : (s.calls i).failed (options i) serializationFailure random
      = { s.calls i with phase := .sleeping, retries := (s.calls i).retries ++ [info] } := by
    have hretryable : isRetryable serializationFailure = true := rfl
    have hcode : sqlStateOf serializationFailure = some "40001" := rfl
    rw [RetryCall.failed, hretryable, (hpatient i).not_exhausted (by omega), hcode]
    simp only [Bool.not_true, Bool.or_self, Bool.false_eq_true, if_false, Option.getD_some,
      (hpatient i).quiet, hinfo]
  refine .of ((Function.update_self _ _ _).trans hfailed) (RowState.setTx_self _ _ _)
    ⟨hle, rfl⟩ ⟨hlogged.positive, ?_, fun info' hinfo' => ?_⟩ ?_
  · have hattempts := hlogged.attempts
    simp only [RetryCall.failures, hc] at hattempts
    show ((s.calls i).retries ++ [info]).map (·.attempt) = List.range' 1 (s.calls i).attempt
    obtain ⟨k, hk⟩ : ∃ k, (s.calls i).attempt = k + 1 :=
      ⟨_, (Nat.succ_pred hlogged.positive.ne').symm⟩
    rw [List.map_append, hattempts, List.map_singleton, hinfo, hk, Nat.add_sub_cancel,
      List.range'_1_concat, Nat.add_comm 1]
  · rcases List.mem_append.mp hinfo' with hmem | hmem
    · exact hlogged.conflicts info' hmem
    · rw [List.mem_singleton.mp hmem, hinfo]
  · simp only [RetryCall.left, hc, ht]
    omega

theorem Pacing.advances (h : Pacing s) (hpatient : ∀ i, (options i).Patient (Fintype.card ι))
    {t : RetryTurn ι} (hok : OnlyConflicts s t) (hstep : RetryStep options next s t s') :
    Advances (Fintype.card ι) s s' t.writer := by
  have hp := h.paced t.writer
  have hlogged := h.logged t.writer
  cases hstep with
  | @read i _ hc hr =>
      cases hr with
      | read ht =>
          simp only [RetryTurn.writer, RetryCall.Paced, hc, ht] at hp
          refine .of rfl (RowState.setTx_self _ _ _) ?_ hlogged ?_
          · simp only [RetryTurn.writer, RetryCall.Paced, hc]
            exact ⟨hp, Nat.le_refl _⟩
          · simp only [RetryTurn.writer, RetryCall.left, hc, ht]
            omega
  | @write i _ hc hr =>
      cases hr with
      | write ht hfree hcurrent =>
          simp only [RetryTurn.writer, RetryCall.Paced, hc, ht] at hp
          refine .of rfl (RowState.setTx_self _ _ _) ?_ hlogged ?_
          · simp only [RetryTurn.writer, RetryCall.Paced, hc]
            show (s.calls i).attempt ≤ s.row.version + 1
            rw [← hcurrent]
            exact hp.1
          · simp only [RetryTurn.writer, RetryCall.left, hc, ht]
            omega
  | conflict hc ht hold => exact h.conflict hpatient hc ht hold
  | fail hc => exact absurd hok id
  | @commit i new hc ht =>
      refine .of (Function.update_self _ _ _) (Function.update_self _ _ _) rfl
        (hlogged.moveTo ?_) ?_
      · simp only [RetryTurn.writer, RetryCall.failures, hc]
      · simp only [RetryTurn.writer, RetryCall.left, hc, ht]
        omega
  | @answer i result hc =>
      simp only [RetryTurn.writer, RetryCall.Paced, hc] at hp
      refine .of (Function.update_self _ _ _) hp ⟨rfl, rfl, rfl⟩ (hlogged.moveTo ?_) ?_
      · simp only [RetryTurn.writer, RetryCall.failures, hc]
      · simp only [RetryTurn.writer, RetryCall.left, hc]
        omega
  | lose hc herror => exact absurd hok id
  | @wake i hc =>
      simp only [RetryTurn.writer, RetryCall.Paced, hc] at hp
      have hlt := h.version_lt (i := i) (by rw [RetryCall.contributed, hc])
      refine .of (Function.update_self _ _ _) hp.2 (Nat.succ_le_succ hp.1)
        ⟨Nat.succ_pos _, ?_, hlogged.conflicts⟩ ?_
      · have hattempts := hlogged.attempts
        simp only [RetryTurn.writer, RetryCall.failures, hc] at hattempts
        exact hattempts
      · simp only [RetryTurn.writer, RetryCall.left, RetryCall.wake, hc]
        omega

/-- The invariant is kept, and a step lowers what is left. -/
theorem Pacing.step (h : Pacing s) (hpatient : ∀ i, (options i).Patient (Fintype.card ι))
    {t : RetryTurn ι} (hok : OnlyConflicts s t) (hstep : RetryStep options next s t s') :
    Pacing s' ∧ s'.left < s.left := by
  have hmoved := h.advances hpatient hok hstep
  obtain ⟨hversion, hle⟩ := hstep.version h.version
  refine ⟨⟨h.counted.step hstep, hversion, fun j => ?_, fun j => ?_⟩, ?_⟩
  · by_cases e : j = t.writer
    · rw [e]
      exact hmoved.paced
    · obtain ⟨hcall, htx⟩ := hstep.others e
      rw [hcall, htx]
      exact (h.paced j).mono hle
  · by_cases e : j = t.writer
    · rw [e]
      exact hmoved.logged
    · rw [(hstep.others e).1]
      exact h.logged j
  · refine sum_lt_of_moves t.writer hmoved.less fun j hj => ?_
    obtain ⟨hcall, htx⟩ := hstep.others hj
    rw [hcall, htx]

omit [DecidableEq ι] [Fintype ι] in
theorem Pacing.boot : Pacing (.boot v₀ : RetryState ι V) where
  counted := ⟨List.nodup_nil, fun i => by
    simp [RetryState.boot, RowState.boot, RetryCall.start, RetryCall.contributed]⟩
  version := rfl
  paced _ := by simp [RetryState.boot, RowState.boot, RetryCall.start, RetryCall.Paced]
  logged _ := ⟨Nat.one_pos, rfl, fun _ h => by simp [RetryState.boot, RetryCall.start] at h⟩

theorem Pacing.descends (hpatient : ∀ i, (options i).Patient (Fintype.card ι)) :
    Descends (RetryStep options next) OnlyConflicts Pacing RetryState.left where
  keeps _ _ _ h hok hstep := (h.step hpatient hok hstep).1
  lowers _ _ _ h hok hstep := (h.step hpatient hok hstep).2

/-! ## How often a call fails -/

omit [Fintype ι] in
theorem retries_update (calls : ι → RetryCall V) (i : ι) (c : RetryCall V) :
    (Function.update calls i c i).retries = c.retries := by
  rw [Function.update_self]

omit [Fintype ι] in
/-- A call whose COMMIT is done fails no more. -/
theorem RetryStep.retries_eq {t : RetryTurn ι} (h : RetryStep options next s t s') {j : ι}
    (hj : (s.calls j).contributed = true) : (s'.calls j).retries = (s.calls j).retries := by
  by_cases e : j = t.writer
  · subst e
    cases h with
    | read hc hr => exact absurd hj (by simp [contributed_of_attempting hc, RetryTurn.writer])
    | write hc hr => exact absurd hj (by simp [contributed_of_attempting hc, RetryTurn.writer])
    | conflict hc ht hold =>
        exact absurd hj (by simp [contributed_of_attempting hc, RetryTurn.writer])
    | fail hc => exact absurd hj (by simp [contributed_of_attempting hc, RetryTurn.writer])
    | commit hc ht => exact (retries_update _ _ _).trans rfl
    | answer hc => exact (retries_update _ _ _).trans rfl
    | lose hc herror => exact (retries_update _ _ _).trans rfl
    | wake hc => exact (retries_update _ _ _).trans rfl
  · rw [(h.others e).1]

omit [Fintype ι] in
/-- Only a COMMIT is history. -/
theorem RetryStep.commits_eq {t : RetryTurn ι} (h : RetryStep options next s t s') :
    s'.commits = s.commits ∨ ∃ i new, (s.calls i).phase = .attempting ∧
      s.txs i = .written new ∧ s'.commits = s.commits ++ [i] ∧
      (s'.calls i).retries = (s.calls i).retries := by
  cases h with
  | read hc hr =>
      cases hr with
      | read ht => exact Or.inl rfl
  | write hc hr =>
      cases hr with
      | write ht hfree hcurrent => exact Or.inl rfl
  | conflict hc ht hold => exact Or.inl rfl
  | fail hc => exact Or.inl rfl
  | @commit i new hc ht =>
      exact Or.inr ⟨i, new, hc, ht, rfl, (retries_update _ _ _).trans rfl⟩
  | answer hc => exact Or.inl rfl
  | lose hc herror => exact Or.inl rfl
  | wake hc => exact Or.inl rfl

/-- Who commits as the `k`-th has failed at most `k` times before. -/
def Late (s : RetryState ι V) : Prop :=
  ∀ i ∈ s.commits, (s.calls i).retries.length ≤ s.commits.idxOf i

omit [Fintype ι] in
theorem Late.step (h : Late s) (hs : Pacing s) {t : RetryTurn ι}
    (hstep : RetryStep options next s t s') : Late s' := by
  have hkept : ∀ j ∈ s.commits, (s'.calls j).retries = (s.calls j).retries :=
    fun j hj => hstep.retries_eq ((hs.counted.mem j).mp hj)
  rcases hstep.commits_eq with hsame | ⟨i, new, hc, ht, hcommits, hretries⟩
  · intro j hj
    rw [hsame] at hj ⊢
    rw [hkept j hj]
    exact h j hj
  · have hnew : i ∉ s.commits := by
      rw [hs.counted.mem, contributed_of_attempting hc]
      simp
    intro j hj
    rw [hcommits, List.mem_append, List.mem_singleton] at hj
    rw [hcommits]
    rcases hj with hj | rfl
    · rw [hkept j hj, List.idxOf_append_of_mem hj]
      exact h j hj
    · have hp := hs.paced j
      simp only [RetryCall.Paced, hc, ht] at hp
      have hlen := (hs.logged j).length_eq
      simp only [RetryCall.failures, hc] at hlen
      have hversion := hs.version
      rw [hretries, hlen, List.idxOf_append_of_notMem hnew, List.idxOf_cons_self]
      omega

/-! ## The end -/

omit [Fintype ι] in
/-- Who has not returned can go on, or waits for somebody who can. -/
theorem Pacing.returned_of_stuck (h : Pacing s)
    (hstuck : Stuck (RetryStep options next) OnlyConflicts s) (i : ι) :
    ∃ outcome, (s.calls i).phase = .returned outcome := by
  have hcommit : ∀ j new, s.txs j = .written new → False := by
    intro j new ht
    have hp := h.paced j
    have hc : (s.calls j).phase = .attempting := by
      unfold RetryCall.Paced at hp
      cases hc : (s.calls j).phase with
      | attempting => rfl
      | committed result => simp [hc, ht] at hp
      | sleeping => simp [hc, ht] at hp
      | returned outcome => simp [hc, ht] at hp
      | threw error => simp [hc] at hp
      | lost error => simp [hc] at hp
    exact hstuck _ ⟨.commit j, trivial, .commit hc ht⟩
  have hp := h.paced i
  unfold RetryCall.Paced at hp
  cases hc : (s.calls i).phase with
  | returned outcome => exact ⟨outcome, rfl⟩
  | threw error => simp [hc] at hp
  | lost error => simp [hc] at hp
  | sleeping => exact absurd ⟨.wake i, trivial, .wake hc⟩ (hstuck _)
  | committed result => exact absurd ⟨.answer i, trivial, .answer hc⟩ (hstuck _)
  | attempting =>
      cases ht : s.txs i with
      | begun => exact absurd ⟨.read i, trivial, .read hc (.read ht)⟩ (hstuck _)
      | written new => exact absurd ht fun ht => hcommit i new ht
      | read seen =>
          -- Nobody holds the row, so the write is possible or is a conflict.
          have hfree : s.toRowState.free i := by
            intro j _
            cases hj : s.txs j with
            | written new => exact absurd hj fun hj => hcommit j new hj
            | begun => rfl
            | read seen => rfl
          by_cases hcurrent : seen.version = s.row.version
          · exact absurd ⟨.write i, trivial, .write hc (.write ht hfree hcurrent)⟩ (hstuck _)
          · exact absurd ⟨.conflict i 0, trivial, .conflict hc ht hcurrent⟩ (hstuck _)

omit [Fintype ι] in
/-- What a call answers. -/
theorem Pacing.outcome (h : Pacing s)
    (hstuck : Stuck (RetryStep options next) OnlyConflicts s) (i : ι) :
    ∃ outcome, (s.calls i).phase = .returned outcome ∧
      outcome.retries = (s.calls i).retries ∧
      outcome.attempts = (s.calls i).retries.length + 1 ∧
      (s.calls i).retries.map (·.attempt) = List.range' 1 (s.calls i).retries.length := by
  obtain ⟨outcome, hc⟩ := h.returned_of_stuck hstuck i
  have hp := h.paced i
  simp only [RetryCall.Paced, hc] at hp
  obtain ⟨_, hattempts, hretries⟩ := hp
  have hlogged := h.logged i
  have hlen := hlogged.length_eq
  have hnumbers := hlogged.attempts
  rw [← hlen] at hnumbers
  simp only [RetryCall.failures, hc] at hlen
  have hpos := hlogged.positive
  exact ⟨outcome, hc, hretries, by omega, hnumbers⟩

omit [Fintype ι] in
theorem Pacing.committed_of_stuck (h : Pacing s)
    (hstuck : Stuck (RetryStep options next) OnlyConflicts s) (i : ι) : i ∈ s.commits := by
  obtain ⟨outcome, hc⟩ := h.returned_of_stuck hstuck i
  rw [h.counted.mem, RetryCall.contributed, hc]

theorem sum_idxOf_mul_two {l : List ι} (hnodup : l.Nodup) (hall : ∀ i, i ∈ l) :
    (∑ i, l.idxOf i) * 2 = Fintype.card ι * (Fintype.card ι - 1) := by
  have hlen : l.length = Fintype.card ι := by
    have huniv : l.toFinset = Finset.univ := by
      ext i
      simp [hall i]
    rw [← List.toFinset_card_of_nodup hnodup, huniv, Finset.card_univ]
  have hinj : Function.Injective fun i => l.idxOf i :=
    fun i j hij => (List.idxOf_inj (hall i)).mp hij
  have himage : Finset.univ.image (fun i => l.idxOf i) = Finset.range (Fintype.card ι) := by
    refine Finset.eq_of_subset_of_card_le (fun k hk => ?_) ?_
    · obtain ⟨i, _, rfl⟩ := Finset.mem_image.mp hk
      rw [Finset.mem_range, ← hlen]
      exact List.idxOf_lt_length_of_mem (hall i)
    · rw [Finset.card_range, Finset.card_image_of_injective _ hinj, Finset.card_univ]
  rw [← Finset.sum_range_id_mul_two, ← himage, Finset.sum_image fun i _ j _ hij => hinj hij]

end Runs

theorem Pacing.value_of_stuck [DecidableEq ι] [Fintype ι] {options : ι → RetryOptions}
    {delta : ι → Int} {b₀ : Int} {s : RetryState ι Int} (h : Pacing s)
    (hr : Reachable (RetryStep options fun i b => b + delta i) (.boot b₀) s)
    (hstuck : Stuck (RetryStep options fun i b => b + delta i) OnlyConflicts s) :
    s.row.value = b₀ + ∑ i, delta i := by
  have hall : ∀ i, (s.calls i).contributed = true :=
    fun i => (h.counted.mem i).mp (h.committed_of_stuck hstuck i)
  rw [balance_contributed hr]
  simp [hall]

/-- Everybody has returned. -/
structure AllReturned [DecidableEq ι] [Fintype ι] (b₀ : Int) (delta : ι → Int)
    (s : RetryState ι Int) : Prop where
  value : s.row.value = b₀ + ∑ i, delta i
  returned : ∀ i, ∃ outcome, (s.calls i).phase = .returned outcome ∧
    outcome.attempts = outcome.retries.length + 1 ∧
    outcome.retries.length ≤ s.commits.idxOf i ∧
    outcome.retries.map (·.attempt) = List.range' 1 outcome.retries.length ∧
    ∀ info ∈ outcome.retries, info.sqlState = "40001"
  retries : (∑ i, (s.calls i).retries.length) * 2 ≤ Fintype.card ι * (Fintype.card ι - 1)

/-- With as many attempts as writers every run of conflicts ends, and has then
lost nothing: each call has returned, the `k`-th to commit after at most `k`
failures. -/
theorem withRetry_completes [DecidableEq ι] [Fintype ι] {options : ι → RetryOptions}
    {delta : ι → Int} {b₀ : Int} (hpatient : ∀ i, (options i).Patient (Fintype.card ι)) :
    Completes (RetryStep options fun i b => b + delta i) OnlyConflicts (.boot b₀)
      (AllReturned b₀ delta) := by
  refine (Pacing.descends hpatient).completes .boot fun s hr h hstuck => ?_
  have hlate : Pacing s ∧ Late s := by
    refine Lts.Reach.invariant (I := fun s => Pacing s ∧ Late s) hr ⟨.boot, fun i hi => ?_⟩
      fun _ _ _ hs hok hstep => ⟨(hs.1.step hpatient hok hstep).1, hs.2.step hs.1 hstep⟩
    simp [RetryState.boot, RowState.boot] at hi
  have hmem := h.committed_of_stuck hstuck
  refine ⟨h.value_of_stuck (hr.weaken fun _ _ _ => trivial) hstuck, fun i => ?_, ?_⟩
  · obtain ⟨outcome, hc, hretries, hattempts, hnumbers⟩ := h.outcome hstuck i
    rw [← hretries] at hattempts hnumbers
    refine ⟨outcome, hc, hattempts, ?_, hnumbers, ?_⟩
    · rw [hretries]
      exact hlate.2 i (hmem i)
    · rw [hretries]
      exact (h.logged i).conflicts
  · calc (∑ i, (s.calls i).retries.length) * 2
        ≤ (∑ i, s.commits.idxOf i) * 2 :=
          Nat.mul_le_mul_right _ (Finset.sum_le_sum fun i _ => hlate.2 i (hmem i))
      _ = Fintype.card ι * (Fintype.card ι - 1) := sum_idxOf_mul_two h.counted.nodup hmem

/-- Three writers with ten attempts each. -/
theorem withRetry_completes_three :
    Completes (RetryStep (fun _ : Fin 3 => ⟨some 10, 20, 400, fun _ => none⟩)
      fun i b => b + (100 + (i : Int))) OnlyConflicts (.boot 1000)
      (AllReturned 1000 fun i => 100 + (i : Int)) :=
  withRetry_completes fun _ =>
    ⟨fun _ hmax => by rw [← Option.some.inj hmax]; decide +kernel, fun _ => rfl⟩

end InvestApi.Ref
