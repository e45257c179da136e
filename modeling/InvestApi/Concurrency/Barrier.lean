import Mathlib.Algebra.BigOperators.Fin
import InvestApi.Concurrency.Attempts
import InvestApi.Ref.DemoRetry

/-!
# `demo:retry` proves what it sets out to prove

The barrier opens when all have read, and until then nobody has written: every
first attempt sees the balance as it was at the start. So one of them commits
and all others fail, each at least once. None fails for good, since there are
attempts for all of them, and the balance is right in the end. The script can
only print OK.
-/

namespace InvestApi.Ref.DemoRetry

open InvestApi.Pg InvestApi.Lts

variable {n : Nat} {s s' : DemoRetryState n}

/-- Nothing goes wrong but conflicts. -/
def NoFailure (s : DemoRetryState n) : Turn n → Prop
  | .retry t => OnlyConflicts s.toRetryState t
  | .arrive _ => True

/-- Where a first attempt is. -/
def FirstTry (c : RetryCall Int) (tx : RowTx Int) (version : Nat) (arrived opened : Bool) :
    Prop :=
  match c.phase with
  | .attempting =>
      match tx with
      | .begun => arrived = false
      | .read seen => seen.version = 0
      | .written _ => opened = true ∧ version = 0
  | _ => opened = true

theorem FirstTry.mono {c : RetryCall Int} {tx : RowTx Int} {version : Nat}
    {arrived opened opened' : Bool} (h : FirstTry c tx version arrived opened)
    (hopen : opened = true → opened' = true) : FirstTry c tx version arrived opened' := by
  unfold FirstTry at h ⊢
  cases hc : c.phase with
  | attempting =>
      rw [hc] at h
      cases tx with
      | begun => exact h
      | read seen => exact h
      | written new => exact ⟨hopen h.1, h.2⟩
  | committed result => rw [hc] at h; exact hopen h
  | sleeping => rw [hc] at h; exact hopen h
  | returned outcome => rw [hc] at h; exact hopen h
  | threw error => rw [hc] at h; exact hopen h
  | lost error => rw [hc] at h; exact hopen h

theorem FirstTry.of_opened {c : RetryCall Int} {tx : RowTx Int} {version : Nat}
    {arrived opened : Bool} (hopen : opened = true) (hc : c.phase ≠ .attempting) :
    FirstTry c tx version arrived opened := by
  unfold FirstTry
  cases hphase : c.phase with
  | attempting => exact absurd hphase hc
  | committed result => exact hopen
  | sleeping => exact hopen
  | returned outcome => exact hopen
  | threw error => exact hopen
  | lost error => exact hopen

theorem failed_fields (c : RetryCall Int) (options : RetryOptions) (error : ThrownError)
    (random : Number) : (c.failed options error random).attempt = c.attempt ∧
      (c.failed options error random).phase ≠ .attempting := by
  simp only [RetryCall.failed]
  split
  · exact ⟨rfl, by simp⟩
  · split
    · exact ⟨rfl, by simp⟩
    · exact ⟨rfl, by simp⟩

/-- The invariant. -/
structure Gated (s : DemoRetryState n) : Prop where
  pacing : Pacing s.toRetryState
  serial : s.toRowState.Serial (fun _ => next) START_BALANCE_CENTS
  count : s.barrier.arrived = (Finset.univ.filter fun i => s.arrived i = true).card
  opened : s.barrier.opened = true ↔ ∀ i, s.arrived i = true
  unarrived : ∀ i, s.arrived i = false →
    (s.calls i).attempt = 1 ∧ (s.calls i).phase = .attempting
  shut : s.barrier.opened = false → s.commits = [] ∧ ∀ i, (s.calls i).attempt = 1
  tries : ∀ i, (s.calls i).attempt = 1 →
    FirstTry (s.calls i) (s.txs i) s.row.version (s.arrived i) s.barrier.opened
  first : ∀ i ∈ s.commits, (s.calls i).retries = [] → s.commits.head? = some i

theorem card_arrived_update {arrived : Fin n → Bool} {i : Fin n} (hi : arrived i = false) :
    (Finset.univ.filter fun j => Function.update arrived i true j = true).card
      = (Finset.univ.filter fun j => arrived j = true).card + 1 := by
  have hset : (Finset.univ.filter fun j => Function.update arrived i true j = true)
      = insert i (Finset.univ.filter fun j => arrived j = true) := by
    ext j
    by_cases e : j = i
    · subst e
      simp
    · simp [e]
  rw [hset, Finset.card_insert_of_notMem (by simp [hi])]

theorem card_arrived_eq {arrived : Fin n → Bool} :
    (Finset.univ.filter fun j => arrived j = true).card = n ↔ ∀ i, arrived i = true := by
  have hcard := Finset.card_filter_eq_iff (s := Finset.univ) (p := fun j => arrived j = true)
  rw [Finset.card_univ, Fintype.card_fin] at hcard
  simpa using hcard

theorem Gated.boot (hn : 0 < n) : Gated (DemoRetry.boot : DemoRetryState n) where
  pacing := .boot
  serial := .boot
  count := by simp [DemoRetry.boot]
  opened := by
    have hfirst : ¬∀ i : Fin n, (DemoRetry.boot : DemoRetryState n).arrived i = true :=
      fun h => by simpa [DemoRetry.boot] using h ⟨0, hn⟩
    simpa [DemoRetry.boot] using hfirst
  unarrived _ _ := ⟨rfl, rfl⟩
  shut _ := ⟨rfl, fun _ => rfl⟩
  tries _ _ := rfl
  first _ hi := by simp [DemoRetry.boot, RetryState.boot, RowState.boot] at hi

theorem Gated.arrive (h : Gated s) {i : Fin n} {seen : Versioned Int}
    (hc : (s.calls i).phase = .attempting) (ht : s.txs i = .read seen)
    (hnew : s.arrived i = false) :
    Gated ⟨s.toRetryState, s.barrier.arrive n, Function.update s.arrived i true⟩ := by
  have hcount := card_arrived_update hnew
  have hshut : s.barrier.opened = false := by
    rw [Bool.eq_false_iff]
    intro hopen
    rw [h.opened.mp hopen i] at hnew
    simp at hnew
  have hbarrier : (s.barrier.arrive n).arrived
      = (Finset.univ.filter fun j => Function.update s.arrived i true j = true).card := by
    rw [hcount, ← h.count]
    rfl
  have hle : (s.barrier.arrive n).arrived ≤ n := by
    rw [hbarrier]
    exact (Finset.card_le_univ _).trans_eq (Fintype.card_fin n)
  refine ⟨h.pacing, h.serial, hbarrier, ?_, fun j hj => ?_, fun hstill => h.shut hshut,
    fun j hj => ?_, h.first⟩
  · rw [← card_arrived_eq, ← hbarrier]
    simp only [Barrier.arrive, hshut, Bool.false_or, decide_eq_true_eq] at hle ⊢
    omega
  · by_cases e : j = i
    · subst e
      simp at hj
    · simp only [Function.update_of_ne e] at hj
      exact h.unarrived j hj
  · by_cases e : j = i
    · subst e
      have htry := h.tries j hj
      unfold FirstTry at htry ⊢
      simp only [hc, ht] at htry ⊢
      exact htry
    · have htry := h.tries j hj
      rw [hshut] at htry
      simp only [Function.update_of_ne e]
      exact htry.mono (by simp)

/-- Before the barrier opens the row is as it was. -/
theorem Gated.version_zero (h : Gated s) (hshut : s.barrier.opened = false) :
    s.row.version = 0 := by
  rw [h.pacing.version, (h.shut hshut).1]
  rfl

theorem Gated.not_opened (h : Gated s) {i : Fin n} (hi : s.arrived i = false) :
    s.barrier.opened = false := by
  rw [Bool.eq_false_iff]
  intro hopen
  rw [h.opened.mp hopen i] at hi
  simp at hi

variable {r : RetryState (Fin n) Int}

/-- What the writer that moves finds at its first attempt. -/
theorem Gated.tries_writer (h : Gated s) {t : RetryTurn (Fin n)}
    (hstep : RetryStep (fun _ => options) (fun _ => next) s.toRetryState t r)
    (hok : OnlyConflicts s.toRetryState t) (hpassed : ∀ i, updates t = some i → passed s i)
    (hfirst : (r.calls t.writer).attempt = 1) :
    FirstTry (r.calls t.writer) (r.txs t.writer) r.row.version (s.arrived t.writer)
      s.barrier.opened := by
  cases hstep with
  | @read i _ hc hr =>
      cases hr with
      | read ht =>
          have htry := h.tries i hfirst
          simp only [FirstTry, hc, ht] at htry
          simp only [FirstTry, RetryTurn.writer, hc, RowState.setTx_self]
          exact h.version_zero (h.not_opened htry)
  | @write i _ hc hr =>
      cases hr with
      | write ht hfree hcurrent =>
          have htry := h.tries i hfirst
          simp only [FirstTry, hc, ht] at htry
          simp only [FirstTry, RetryTurn.writer, hc, RowState.setTx_self]
          refine ⟨(hpassed i rfl hfirst).2, ?_⟩
          rw [RowState.setTx_row, ← hcurrent]
          exact htry
  | @conflict i seen random hc ht hold =>
      obtain ⟨hattempt, hphase⟩ :=
        failed_fields (s.calls i) options serializationFailure random
      have hcall : (s.abort i options serializationFailure random).calls i
          = (s.calls i).failed options serializationFailure random :=
        Function.update_self _ _ _
      simp only [RetryTurn.writer] at hfirst ⊢
      rw [hcall] at hfirst ⊢
      exact .of_opened (hpassed i rfl (hattempt.symm.trans hfirst)).2 hphase
  | fail hc => exact absurd hok id
  | @commit i new hc ht =>
      have hcall : Function.update s.calls i { s.calls i with phase := .committed new } i
          = { s.calls i with phase := .committed new } := Function.update_self _ _ _
      simp only [RetryTurn.writer] at hfirst ⊢
      rw [hcall] at hfirst ⊢
      have htry := h.tries i hfirst
      simp only [FirstTry, hc, ht] at htry
      exact .of_opened htry.1 (by simp)
  | @answer i result hc =>
      obtain ⟨outcome, hout⟩ : ∃ outcome : RetryOutcome Int,
        outcome = ⟨result, (s.calls i).attempt, (s.calls i).retries⟩ := ⟨_, rfl⟩
      have hcall : (s.setPhase i (.returned outcome)).calls i
          = { s.calls i with phase := .returned outcome } := Function.update_self _ _ _
      rw [← hout] at hfirst ⊢
      simp only [RetryTurn.writer] at hfirst ⊢
      rw [hcall] at hfirst ⊢
      have htry := h.tries i hfirst
      simp only [FirstTry, hc] at htry
      exact .of_opened htry (by simp)
  | lose hc herror => exact absurd hok id
  | @wake i hc =>
      have hcall : (s.setCall i (s.calls i).wake).calls i = (s.calls i).wake :=
        Function.update_self _ _ _
      simp only [RetryTurn.writer] at hfirst
      rw [hcall] at hfirst
      have hpos := (h.pacing.logged i).positive
      have hnext : (s.calls i).attempt + 1 = 1 := hfirst
      omega

/-- Until the barrier opens there are only reads. -/
theorem Gated.shut_step (h : Gated s) {t : RetryTurn (Fin n)}
    (hstep : RetryStep (fun _ => options) (fun _ => next) s.toRetryState t r)
    (hok : OnlyConflicts s.toRetryState t) (hpassed : ∀ i, updates t = some i → passed s i)
    (hshut : s.barrier.opened = false) : r.calls = s.calls ∧ r.commits = s.commits := by
  have hattempt := (h.shut hshut).2
  have hblocked : ∀ i, passed s i → False := by
    intro i hi
    rw [(hi (hattempt i)).2] at hshut
    simp at hshut
  have hclosed : s.barrier.opened = true → False := by simp [hshut]
  cases hstep with
  | read hc hr =>
      cases hr with
      | read ht => exact ⟨rfl, rfl⟩
  | @write i _ hc hr => exact absurd (hpassed i rfl) (hblocked i)
  | @conflict i _ _ hc ht hold => exact absurd (hpassed i rfl) (hblocked i)
  | fail hc => exact absurd hok id
  | @commit i new hc ht =>
      have htry := h.tries i (hattempt i)
      simp only [FirstTry, hc, ht] at htry
      exact absurd htry.1 hclosed
  | @answer i result hc =>
      have htry := h.tries i (hattempt i)
      simp only [FirstTry, hc] at htry
      exact absurd htry hclosed
  | lose hc herror => exact absurd hok id
  | @wake i hc =>
      have htry := h.tries i (hattempt i)
      simp only [FirstTry, hc] at htry
      exact absurd htry hclosed

/-- Nobody commits while somebody else has the row. -/
theorem Gated.version_eq (h : Gated s) {t : RetryTurn (Fin n)} {j : Fin n}
    (hstep : RetryStep (fun _ => options) (fun _ => next) s.toRetryState t r)
    (hj : j ≠ t.writer) (hholds : (s.txs j).holds = true) :
    r.row.version = s.row.version := by
  cases hstep with
  | read hc hr =>
      cases hr with
      | read ht => rfl
  | write hc hr =>
      cases hr with
      | write ht hfree hcurrent => rfl
  | conflict hc ht hold => rfl
  | fail hc => rfl
  | @commit i new hc ht => exact absurd (h.serial.exclusive j i hholds (by rw [ht]; rfl)) hj
  | answer hc => rfl
  | lose hc herror => rfl
  | wake hc => rfl

theorem patient (hn : n ≤ 10) (i : Fin n) :
    ((fun _ => options : Fin n → RetryOptions) i).Patient (Fintype.card (Fin n)) := by
  refine ⟨fun maxAttempts hmax => ?_, fun _ => rfl⟩
  rw [← Option.some.inj hmax, Fintype.card_fin]
  exact_mod_cast hn

theorem Gated.retry (h : Gated s) (hn : n ≤ 10) {t : RetryTurn (Fin n)}
    (hstep : RetryStep (fun _ => options) (fun _ => next) s.toRetryState t r)
    (hok : OnlyConflicts s.toRetryState t) (hpassed : ∀ i, updates t = some i → passed s i) :
    Gated ⟨r, s.barrier, s.arrived⟩ := by
  refine ⟨(h.pacing.step (patient hn) hok hstep).1, ?_, h.count, h.opened, fun i hi => ?_,
    fun hshut => ?_, fun i hi => ?_, fun i hi hretries => ?_⟩
  · rcases hstep.row with hsame | ⟨e, he⟩
    · rw [hsame]
      exact h.serial
    · exact h.serial.step he
  · rw [(h.shut_step hstep hok hpassed (h.not_opened hi)).1]
    exact h.unarrived i hi
  · obtain ⟨hcalls, hcommits⟩ := h.shut_step hstep hok hpassed hshut
    rw [hcalls, hcommits]
    exact h.shut hshut
  · by_cases e : i = t.writer
    · subst e
      exact h.tries_writer hstep hok hpassed hi
    · obtain ⟨hcall, htx⟩ := hstep.others e
      rw [hcall] at hi ⊢
      rw [htx]
      have htry := h.tries i hi
      by_cases hholds : (s.txs i).holds = true
      · rw [h.version_eq hstep e hholds]
        exact htry
      · unfold FirstTry at htry ⊢
        cases ht : s.txs i with
        | written new => exact absurd (by rw [ht]; rfl) hholds
        | begun => rw [ht] at htry; exact htry
        | read seen => rw [ht] at htry; exact htry
  · rcases hstep.commits_eq with hsame | ⟨k, new, hc, ht, hcommits, hkept⟩
    · rw [hsame] at hi ⊢
      refine h.first i hi ?_
      rw [← hstep.retries_eq ((h.pacing.counted.mem i).mp hi)]
      exact hretries
    · rw [hcommits] at hi ⊢
      rcases List.mem_append.mp hi with hi | hi
      · have hhead := h.first i hi (by
          rw [← hstep.retries_eq ((h.pacing.counted.mem i).mp hi)]
          exact hretries)
        rw [List.head?_append, hhead, Option.some_or]
      · -- Whoever commits at its first attempt is the first to commit.
        obtain rfl := List.mem_singleton.mp hi
        rw [hkept] at hretries
        have hlogged := h.pacing.logged i
        have hlen := hlogged.length_eq
        simp only [RetryCall.failures, hc, hretries, List.length_nil] at hlen
        have hpos := hlogged.positive
        have htry := h.tries i (by omega)
        simp only [FirstTry, hc, ht] at htry
        have hnone : s.commits = [] := by
          rw [← List.length_eq_zero_iff, ← h.pacing.version]
          exact htry.2
        rw [hnone]
        rfl

/-- What is left to do. -/
def left (s : DemoRetryState n) : Nat := s.toRetryState.left + (n - s.barrier.arrived)

theorem Gated.arrived_lt (h : Gated s) {i : Fin n} (hi : s.arrived i = false) :
    s.barrier.arrived < n := by
  have hle : s.barrier.arrived ≤ n := by
    rw [h.count]
    exact (Finset.card_le_univ _).trans_eq (Fintype.card_fin n)
  refine lt_of_le_of_ne hle fun heq => ?_
  rw [h.count, card_arrived_eq] at heq
  rw [heq i] at hi
  simp at hi

theorem Gated.descends (hn : n ≤ 10) : Descends (Step (n := n)) NoFailure Gated left where
  keeps s e s' h hok hstep := by
    cases hstep with
    | retry hr hpassed => exact h.retry hn hr hok hpassed
    | arrive hc hfirst ht hnew => exact h.arrive hc ht hnew
  lowers s e s' h hok hstep := by
    cases hstep with
    | retry hr hpassed =>
        have hlt := (h.pacing.step (patient hn) hok hr).2
        exact Nat.add_lt_add_right hlt _
    | arrive hc hfirst ht hnew =>
        have hlt := h.arrived_lt hnew
        show s.toRetryState.left + (n - (s.barrier.arrived + 1)) < _
        unfold left
        omega

/-- Who waits at the barrier waits for somebody who has still to come. -/
theorem Gated.retry_stuck (h : Gated s) (hstuck : Stuck Step NoFailure s) :
    Stuck (RetryStep (fun _ => options) fun _ => next) OnlyConflicts s.toRetryState := by
  -- Nobody stands before the barrier, so it is open.
  have hcome : ∀ i seen, s.txs i = .read seen → s.arrived i = true := by
    intro i seen ht
    by_contra hi
    obtain ⟨hfirst, hc⟩ := h.unarrived i (by simpa using hi)
    exact hstuck _ ⟨.arrive i, trivial, .arrive hc hfirst ht (by simpa using hi)⟩
  have hopen : s.barrier.opened = true := by
    rw [h.opened]
    intro i
    by_contra hi
    obtain ⟨hfirst, hc⟩ := h.unarrived i (by simpa using hi)
    have htry := h.tries i hfirst
    simp only [FirstTry, hc] at htry
    cases ht : s.txs i with
    | begun =>
        exact hstuck _ ⟨.retry (.read i), trivial, .retry (.read hc (.read ht)) (by simp [updates])⟩
    | read seen => exact hi (hcome i seen ht)
    | written new =>
        rw [ht] at htry
        exact hi (h.opened.mp htry.1 i)
  rintro r ⟨t, hok, hr⟩
  exact hstuck _ ⟨.retry t, hok, .retry hr fun i _ _ => ⟨h.opened.mp hopen i, hopen⟩⟩

/-- All calls have returned, each but one after a failure, and the script finds
nothing wrong. -/
structure Passed (s : DemoRetryState n) : Prop where
  retries : n ≤ (∑ i, (s.calls i).retries.length) + 1
  printsOk : ∃ outcomes : Fin n → RetryOutcome Int,
    (∀ i, (s.calls i).phase = .returned (outcomes i)) ∧
    problems n (List.ofFn outcomes) s.row.value = []

/-- The first attempts but one have failed. -/
theorem Gated.le_retries (h : Gated s) (hall : ∀ i, i ∈ s.commits) :
    n ≤ (∑ i, (s.calls i).retries.length) + 1 := by
  cases hcommits : s.commits with
  | nil =>
      have hzero : n = 0 := by
        by_contra hpos
        have hmem := hall ⟨0, by omega⟩
        simp [hcommits] at hmem
      omega
  | cons k rest =>
      have hone : ∀ i ∈ Finset.univ.erase k, 1 ≤ (s.calls i).retries.length := by
        intro i hi
        by_contra hnone
        have hhead := h.first i (hall i) (List.length_eq_zero_iff.mp (by omega))
        rw [hcommits, List.head?_cons, Option.some_inj] at hhead
        exact (Finset.mem_erase.mp hi).1 hhead.symm
      have hcard : (Finset.univ.erase k).card = n - 1 := by
        rw [Finset.card_erase_of_mem (Finset.mem_univ k), Finset.card_univ, Fintype.card_fin]
      have hle : n - 1 ≤ ∑ i ∈ Finset.univ.erase k, (s.calls i).retries.length := by
        rw [← hcard]
        simpa using Finset.card_nsmul_le_sum _ _ _ hone
      have hsub : ∑ i ∈ Finset.univ.erase k, (s.calls i).retries.length
          ≤ ∑ i, (s.calls i).retries.length :=
        Finset.sum_le_sum_of_subset (Finset.erase_subset _ _)
      omega

/-- The right balance and conflicts alone leave nothing to complain of. -/
theorem problems_eq_nil {outcomes : List (RetryOutcome Int)} {finalBalance : Int}
    (hretries : (outcomes.map fun outcome => outcome.retries.length).sum ≠ 0)
    (hbalance : finalBalance = START_BALANCE_CENTS + n * DELTA_CENTS)
    (hstates : ∀ outcome ∈ outcomes, ∀ info ∈ outcome.retries, info.sqlState = "40001") :
    problems n outcomes finalBalance = [] := by
  have hfilter : ((outcomes.flatMap fun outcome =>
      outcome.retries.map (·.sqlState)).eraseDups.filter fun sqlState =>
        sqlState ≠ "40001" && sqlState ≠ "40P01") = [] := by
    rw [List.filter_eq_nil_iff]
    intro sqlState hmem
    obtain ⟨outcome, hout, hinfo⟩ := List.mem_flatMap.mp (List.mem_eraseDups.mp hmem)
    obtain ⟨info, hmem', rfl⟩ := List.mem_map.mp hinfo
    simp [hstates outcome hout info hmem']
  simp only [problems, hretries, hbalance, hfilter, if_false, ne_eq, not_true_eq_false,
    List.map_nil, List.append_nil]

/-- With two to ten writers the script prints OK, in every interleaving. -/
theorem demoRetry_passes (h2 : 2 ≤ n) (h10 : n ≤ 10) :
    Completes Step NoFailure (DemoRetry.boot : DemoRetryState n) Passed := by
  refine (Gated.descends h10).completes (.boot (by omega)) fun s hr h hstuck => ?_
  have hstuck' := h.retry_stuck hstuck
  have hreach : Reachable (RetryStep (fun _ => options) fun _ => next)
      (.boot START_BALANCE_CENTS) s.toRetryState := by
    refine Lts.Reach.project DemoRetryState.toRetryState hr fun s e s' hstep => ?_
    cases hstep with
    | retry hr hpassed => exact Or.inr ⟨_, hr⟩
    | arrive hc hfirst ht hnew => exact Or.inl rfl
  have hretries := h.le_retries (h.pacing.committed_of_stuck hstuck')
  have hvalue : s.row.value = START_BALANCE_CENTS + ∑ _i : Fin n, DELTA_CENTS :=
    h.pacing.value_of_stuck hreach hstuck'
  choose outcomes hreturned hlog _ using h.pacing.outcome hstuck'
  refine ⟨hretries, outcomes, hreturned, problems_eq_nil ?_ ?_ fun outcome hout => ?_⟩
  · rw [List.map_ofFn, List.sum_ofFn]
    simp only [Function.comp_apply, hlog]
    omega
  · rw [hvalue]
    simp
  · obtain ⟨i, rfl⟩ := (List.mem_ofFn' _ _).mp hout
    rw [hlog]
    exact (h.pacing.logged i).conflicts

/-- The script's own five. -/
theorem demoRetry_passes_five :
    Completes Step NoFailure (DemoRetry.boot : DemoRetryState WRITERS) Passed :=
  demoRetry_passes (by decide) (by decide)

end InvestApi.Ref.DemoRetry
