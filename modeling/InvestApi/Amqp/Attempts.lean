import InvestApi.Amqp.Queue

/-!
# How often a message is put back

A message that has been put back `n` times carries that number wherever it is
ready or delivered, and `n` is within the limit as long as it is in play; it is
dead-lettered with one more, or because a consumer has refused it for good. The
deliveries a queue can still make are therefore bounded by what it holds.
-/

namespace InvestApi.Amqp

variable {μ ι : Type}

/-! ## Deliveries that are open -/

/-- The open deliveries have numbers of their own. -/
structure Queue.Numbered (q : Queue μ ι) : Prop where
  nodup : (q.unacked.map (·.number)).Nodup
  below : ∀ d ∈ q.unacked, d.number < q.deliveries

/-- An answer to an open delivery takes it out and settles it. -/
theorem Queue.answer_cases (limit : Nat) (q : Queue μ ι) (number : Nat) (a : Answer) :
    (q.unacked.find? (·.number = number) = none ∧ q.answer limit number a = q) ∨
      ∃ d rest, q.unacked.find? (·.number = number) = some d ∧ d.number = number ∧
        rest.Sublist q.unacked ∧ q.unacked.Perm (d :: rest) ∧
        q.answer limit number a = ({ q with unacked := rest } : Queue μ ι).settle limit d a := by
  cases hd : q.unacked.find? (·.number = number) with
  | none => exact Or.inl ⟨rfl, by simp [answer, hd]⟩
  | some d =>
      have hmem := List.mem_of_find?_eq_some hd
      obtain ⟨d', pre, post, hno, hd', hpre, herase⟩ :=
        List.exists_of_eraseP hmem (List.find?_some hd)
      have hsame : d' = d := by
        rw [hpre, List.find?_append, List.find?_eq_none.mpr hno, Option.none_or] at hd
        simpa [of_decide_eq_true hd'] using hd
      subst hsame
      refine Or.inr ⟨d', q.unacked.eraseP (·.number = number), rfl, of_decide_eq_true hd',
        List.eraseP_sublist, ?_, by simp only [answer, hd]⟩
      rw [herase, hpre]
      exact List.perm_middle

namespace Queue

variable {q q' : Queue μ ι} {limit : Nat} {d : Delivery μ ι} {ds : List (Delivery μ ι)}

theorem unacked_settle (limit : Nat) (q : Queue μ ι) (d : Delivery μ ι) (a : Answer) :
    (q.settle limit d a).unacked = q.unacked := by
  cases a with
  | ack => rfl
  | reject requeue =>
      cases requeue with
      | false => rfl
      | true => exact unacked_requeue limit true q d

theorem Numbered.sublist (h : q.Numbered) (hsub : q'.unacked.Sublist q.unacked)
    (hdel : q'.deliveries = q.deliveries) : q'.Numbered where
  nodup := h.nodup.sublist (hsub.map _)
  below d hd := by
    rw [hdel]
    exact h.below d (hsub.subset hd)

theorem Numbered.deliver (h : q.Numbered) {c : ι} {i : Nat}
    (hd : q.deliver c i = some (d, q')) : q'.Numbered := by
  obtain ⟨hnumber, _, hunacked, hdel, _⟩ := deliver_fields hd
  refine ⟨?_, fun d' hd' => ?_⟩
  · rw [hunacked, List.map_append, List.nodup_append]
    refine ⟨h.nodup, by simp, ?_⟩
    intro n hn m hm
    obtain ⟨d', hd', rfl⟩ := List.mem_map.mp hn
    obtain rfl : m = d.number := by simpa using hm
    have hlt := h.below d' hd'
    omega
  · rw [hunacked, List.mem_append, List.mem_singleton] at hd'
    rcases hd' with hd' | rfl
    · have hlt := h.below d' hd'
      omega
    · omega

theorem sublist_answer (limit : Nat) (q : Queue μ ι) (number : Nat) (a : Answer) :
    (q.answer limit number a).unacked.Sublist q.unacked := by
  rcases q.answer_cases limit number a with ⟨_, hsame⟩ | ⟨d, rest, _, _, hsub, _, hans⟩
  · rw [hsame]
  · rw [hans, unacked_settle]
    exact hsub

/-- A message that is put back is ready again, or over the limit. -/
theorem ready_putBack {m : μ} {count : Nat} {entry : μ × Nat}
    (h : entry ∈ (q.putBack limit m count).ready) :
    entry ∈ q.ready ∨ entry = (m, count) ∧ count ≤ limit := by
  unfold putBack at h
  split at h
  · exact Or.inl h
  · next hle =>
      rcases List.mem_append.mp h with h | h
      · exact Or.inl h
      · exact Or.inr ⟨List.mem_singleton.mp h, Nat.le_of_not_lt hle⟩

theorem deadLettered_putBack {m m' : μ} {count : Nat}
    (h : m' ∈ (q.putBack limit m count).deadLettered) :
    m' ∈ q.deadLettered ∨ m' = m ∧ limit < count := by
  unfold putBack at h
  split at h
  · next hlt =>
      rcases List.mem_append.mp h with h | h
      · exact Or.inl h
      · exact Or.inr ⟨List.mem_singleton.mp h, hlt⟩
  · exact Or.inl h

/-! ## One message -/

/-- Message `m` has been put back `n` times; `ds` are deliveries that are being
settled, and `poison` what a consumer may refuse for good. -/
structure PutBack (limit : Nat) (poison : μ → Prop) (m : μ) (n : Nat) (q : Queue μ ι)
    (ds : List (Delivery μ ι)) : Prop where
  nodup : (q.contents + (ds.map (·.message) : Multiset μ)).Nodup
  absent : m ∉ q.contents + (ds.map (·.message) : Multiset μ) → n = 0
  ready : ∀ count, (m, count) ∈ q.ready → count = n ∧ n ≤ limit
  opened : ∀ d ∈ q.unacked ++ ds, d.message = m → d.count = n ∧ n ≤ limit
  acked : m ∈ q.acked → n ≤ limit
  dead : m ∈ q.deadLettered → n ≤ limit ∧ poison m ∨ n = limit + 1

/-- How often `m` is put back when the deliveries `ds` are. -/
def returns [DecidableEq μ] (ds : List (Delivery μ ι)) (m : μ) : Nat :=
  if ds.any (·.message = m) then 1 else 0

section PutBack

variable {poison : μ → Prop} {m : μ} {n : Nat}

theorem PutBack.le (h : PutBack limit poison m n q []) : n ≤ limit + 1 := by
  by_cases hm : m ∈ q.contents
  · simp only [contents, Multiset.mem_add, Multiset.mem_coe, List.mem_map] at hm
    rcases hm with ((⟨⟨_, count⟩, he, rfl⟩ | ⟨d, hd, rfl⟩) | hm) | hm
    · exact Nat.le_succ_of_le (h.ready count he).2
    · exact Nat.le_succ_of_le (h.opened d (by simpa using hd) rfl).2
    · exact Nat.le_succ_of_le (h.acked hm)
    · rcases h.dead hm with ⟨hle, _⟩ | rfl
      · exact Nat.le_succ_of_le hle
      · exact Nat.le_refl _
  · rw [h.absent (by simpa using hm)]
    exact Nat.zero_le _

/-- Past the limit a message is nowhere but dead-lettered. -/
theorem PutBack.deadLettered (h : PutBack limit poison m n q []) (hn : n = limit + 1) :
    m ∈ q.deadLettered := by
  by_contra hdead
  have hm : m ∈ q.contents := by
    by_contra hm
    have hzero := h.absent (by simpa using hm)
    omega
  simp only [contents, Multiset.mem_add, Multiset.mem_coe, List.mem_map] at hm
  rcases hm with ((⟨⟨_, count⟩, he, rfl⟩ | ⟨d, hd, rfl⟩) | hm) | hm
  · have hle := (h.ready count he).2
    omega
  · have hle := (h.opened d (by simpa using hd) rfl).2
    omega
  · have hle := h.acked hm
    omega
  · exact hdead hm

theorem PutBack.publish (h : PutBack limit poison m n q []) {m' : μ}
    (hnew : m' ∉ q.contents) : PutBack limit poison m n (q.publish m') [] := by
  have hmem : ∀ count, (m, count) ∈ (q.publish m').ready →
      (m, count) ∈ q.ready ∨ m = m' ∧ count = 0 := by
    intro count he
    rcases List.mem_append.mp he with he | he
    · exact Or.inl he
    · exact Or.inr (Prod.mk.inj (List.mem_singleton.mp he))
  refine ⟨?_, fun hm => ?_, fun count he => ?_, h.opened, h.acked, h.dead⟩
  · have hold := h.nodup
    simp only [List.map_nil, Multiset.coe_nil, add_zero] at hold ⊢
    rw [contents_publish, Multiset.add_comm, Multiset.singleton_add, Multiset.nodup_cons]
    exact ⟨hnew, hold⟩
  · refine h.absent fun hold => hm ?_
    rw [contents_publish]
    simp only [List.map_nil, Multiset.coe_nil, add_zero] at hold ⊢
    exact Multiset.mem_add.mpr (Or.inl hold)
  · rcases hmem count he with he | ⟨rfl, rfl⟩
    · exact h.ready count he
    · rw [h.absent (by simpa using hnew)]
      exact ⟨rfl, Nat.zero_le _⟩

theorem PutBack.deliver (h : PutBack limit poison m n q []) {c : ι} {i : Nat}
    (hd : q.deliver c i = some (d, q')) : PutBack limit poison m n q' [] := by
  have hcontents := contents_deliver hd
  obtain ⟨entry, hentry, heq⟩ := Option.map_eq_some_iff.mp hd
  obtain ⟨rfl, rfl⟩ := Prod.mk.inj heq
  refine ⟨hcontents ▸ h.nodup, fun hm => h.absent (hcontents ▸ hm), fun count he => ?_,
    fun d' hd' hm => ?_, h.acked, h.dead⟩
  · exact h.ready count (List.mem_of_mem_eraseIdx he)
  · simp only [List.append_nil, List.mem_append, List.mem_singleton] at hd'
    rcases hd' with hd' | rfl
    · exact h.opened d' (by simpa using hd') hm
    · subst hm
      exact h.ready _ (List.mem_of_getElem? hentry)

/-- Deliveries are taken out to be settled. -/
theorem PutBack.take (h : PutBack limit poison m n q []) {rest : List (Delivery μ ι)}
    (hperm : q.unacked.Perm (rest ++ ds)) :
    PutBack limit poison m n { q with unacked := rest } ds := by
  have hcontents : ({ q with unacked := rest } : Queue μ ι).contents
      + (ds.map (·.message) : Multiset μ) = q.contents := by
    have hmsgs : (q.unacked.map (·.message) : Multiset μ)
        = (rest.map (·.message) : Multiset μ) + (ds.map (·.message) : Multiset μ) := by
      rw [Multiset.coe_add, ← List.map_append, Multiset.coe_eq_coe]
      exact hperm.map _
    simp only [contents, hmsgs]
    abel
  have hnil : ((([] : List (Delivery μ ι)).map (·.message) : List μ) : Multiset μ) = 0 := rfl
  refine ⟨?_, fun hm => ?_, h.ready, fun d hd => ?_, h.acked, h.dead⟩
  · rw [hcontents]
    simpa using h.nodup
  · rw [hcontents] at hm
    exact h.absent (by simpa using hm)
  · exact h.opened d (by simpa using hperm.mem_iff.mpr hd)

/-- Nothing else is the message of a delivery that is being settled. -/
theorem PutBack.alone (h : PutBack limit poison m n q (d :: ds)) :
    d.message ∉ q.contents + (ds.map (·.message) : Multiset μ) := by
  have hnodup := h.nodup
  rw [List.map_cons, ← Multiset.cons_coe, Multiset.add_cons, Multiset.nodup_cons] at hnodup
  exact hnodup.1

theorem PutBack.swap (h : PutBack limit poison m n q (d :: ds))
    (hcontents : q'.contents = q.contents + {d.message}) :
    (q'.contents + (ds.map (·.message) : Multiset μ)).Nodup ∧
      (m ∉ q'.contents + (ds.map (·.message) : Multiset μ) → n = 0) := by
  have hsame : q'.contents + (ds.map (·.message) : Multiset μ)
      = q.contents + ((d :: ds).map (·.message) : Multiset μ) := by
    rw [hcontents, List.map_cons, ← Multiset.cons_coe, ← Multiset.singleton_add]
    abel
  rw [hsame]
  exact ⟨h.nodup, h.absent⟩

theorem PutBack.acknowledge (h : PutBack limit poison m n q (d :: ds)) :
    PutBack limit poison m n { q with acked := q.acked ++ [d.message] } ds := by
  obtain ⟨hnodup, habsent⟩ := h.swap (contents_settle limit q d .ack)
  refine ⟨hnodup, habsent, h.ready, fun d' hd' => h.opened d' ?_, fun hm => ?_, h.dead⟩
  · rw [List.mem_append] at hd' ⊢
    exact hd'.imp_right (List.mem_cons_of_mem _)
  · rcases List.mem_append.mp hm with hm | hm
    · exact h.acked hm
    · exact (h.opened d (by simp) (List.mem_singleton.mp hm).symm).2

theorem PutBack.refuse (h : PutBack limit poison m n q (d :: ds)) (hpoison : poison d.message) :
    PutBack limit poison m n (q.deadLetter d.message) ds := by
  obtain ⟨hnodup, habsent⟩ := h.swap (contents_deadLetter q d.message)
  refine ⟨hnodup, habsent, h.ready, fun d' hd' => h.opened d' ?_, h.acked, fun hm => ?_⟩
  · rw [List.mem_append] at hd' ⊢
    exact hd'.imp_right (List.mem_cons_of_mem _)
  · rcases List.mem_append.mp hm with hm | hm
    · exact h.dead hm
    · obtain rfl := List.mem_singleton.mp hm
      exact Or.inl ⟨(h.opened d (by simp) rfl).2, hpoison⟩

/-- A message that is put back has been put back once more, if this counts. -/
theorem PutBack.requeue [DecidableEq μ] (h : PutBack limit poison m n q (d :: ds))
    (counted : Bool) :
    PutBack limit poison m (n + if counted = true ∧ d.message = m then 1 else 0)
      (Queue.requeue limit counted q d) ds := by
  have hcontents := contents_requeue limit counted q d
  obtain ⟨hnodup, habsent⟩ := h.swap hcontents
  have hopen : ∀ d' ∈ (Queue.requeue limit counted q d).unacked ++ ds,
      d' ∈ q.unacked ++ ds := by
    intro d' hd'
    rwa [unacked_requeue] at hd'
  by_cases hm : d.message = m
  · subst hm
    obtain ⟨hcount, hle⟩ := h.opened d (by simp) rfl
    have halone := h.alone
    simp only [contents, Multiset.mem_add, Multiset.mem_coe, List.mem_map, not_or,
      not_exists, not_and] at halone
    obtain ⟨⟨⟨⟨hready, hunacked⟩, hacked⟩, hdead⟩, hds⟩ := halone
    have hnum : n + (if counted = true ∧ d.message = d.message then 1 else 0)
        = if counted then d.count + 1 else d.count := by
      rw [hcount]
      cases counted with
      | false => simp
      | true => simp
    have hbound : (if counted then d.count + 1 else d.count) ≤ limit + 1 := by
      cases counted with
      | false => simp only [Bool.false_eq_true, if_false]; omega
      | true => simp only [if_true]; omega
    rw [hnum]
    refine ⟨hnodup, fun hno => absurd ?_ hno, fun count he => ?_, fun d' hd' hm => ?_,
      fun hm => ?_, fun hm => ?_⟩
    · rw [hcontents]
      simp
    · rcases ready_putBack he with he | ⟨he, hlimit⟩
      · exact absurd rfl (hready _ he)
      · exact ⟨(Prod.mk.inj he).2, hlimit⟩
    · rcases List.mem_append.mp (hopen d' hd') with hd' | hd'
      · exact absurd hm (hunacked d' hd')
      · exact absurd hm (hds d' hd')
    · rw [acked_requeue] at hm
      exact absurd hm hacked
    · rcases deadLettered_putBack hm with hm | ⟨_, hlimit⟩
      · exact absurd hm hdead
      · right
        omega
  · have hnum : n + (if counted = true ∧ d.message = m then 1 else 0) = n := by simp [hm]
    rw [hnum]
    refine ⟨hnodup, habsent, fun count he => ?_, fun d' hd' => h.opened d' ?_, fun hm' => ?_,
      fun hm' => ?_⟩
    · rcases ready_putBack he with he | ⟨he, _⟩
      · exact h.ready count he
      · exact absurd (Prod.mk.inj he).1.symm hm
    · rw [List.mem_append, List.mem_cons]
      exact (List.mem_append.mp (hopen d' hd')).imp_right Or.inr
    · rw [acked_requeue] at hm'
      exact h.acked hm'
    · rcases deadLettered_putBack hm' with hm' | ⟨hm', _⟩
      · exact h.dead hm'
      · exact absurd hm'.symm hm

variable [DecidableEq μ]

theorem PutBack.requeue_all (h : PutBack limit poison m n q ds) (counted : Bool) :
    PutBack limit poison m (n + if counted then returns ds m else 0)
      (ds.foldl (Queue.requeue limit counted) q) [] := by
  induction ds generalizing q n with
  | nil => simpa [returns] using h
  | cons d ds ih =>
      rw [List.foldl_cons]
      have hrest := ih (h.requeue counted)
      have hnum : (n + if counted = true ∧ d.message = m then 1 else 0)
          + (if counted then returns ds m else 0)
          = n + if counted then returns (d :: ds) m else 0 := by
        cases counted with
        | false => simp
        | true =>
            by_cases hm : d.message = m
            · -- The message is there once.
              have halone := h.alone
              have hnone : returns ds m = 0 := by
                rw [returns, if_neg]
                simp only [List.any_eq_true, decide_eq_true_eq, not_exists, not_and]
                intro d' hd' hm'
                refine halone (Multiset.mem_add.mpr (Or.inr ?_))
                rw [Multiset.mem_coe, List.mem_map]
                exact ⟨d', hd', hm'.trans hm.symm⟩
              rw [if_pos rfl, hnone]
              simp [hm, returns]
            · simp [hm, returns]
      rw [hnum] at hrest
      exact hrest

/-- An answer arrives; only what may be refused is refused for good. -/
theorem PutBack.answer (h : PutBack limit poison m n q []) (number : Nat) (a : Answer)
    (hpoison : a = .reject false → ∀ d ∈ q.unacked, d.number = number → poison d.message) :
    PutBack limit poison m
      (n + if a = .reject true then
        returns (q.unacked.find? (·.number = number)).toList m else 0)
      (q.answer limit number a) [] := by
  rcases q.answer_cases limit number a with ⟨hnone, hsame⟩ | ⟨d, rest, hd, hn, _, hperm, hans⟩
  · rw [hsame, hnone]
    simpa [returns] using h
  · have htake : PutBack limit poison m n { q with unacked := rest } [d] :=
      h.take (hperm.trans (List.perm_append_singleton d rest).symm)
    rw [hans, hd]
    cases a with
    | ack => simpa [settle] using htake.acknowledge
    | reject requeue =>
        cases requeue with
        | false =>
            have hd' : d ∈ q.unacked := hperm.mem_iff.mpr (List.mem_cons_self ..)
            simpa [settle] using htake.refuse (hpoison rfl d hd' hn)
        | true => simpa [settle] using htake.requeue_all true

/-- A connection is lost. -/
theorem PutBack.close [DecidableEq ι] (h : PutBack limit poison m n q []) (counted : Bool)
    (c : ι) :
    PutBack limit poison m
      (n + if counted then returns (q.unacked.filter (·.consumer = c)) m else 0)
      (q.close limit counted c) [] := by
  refine (h.take ?_).requeue_all counted
  have hperm := List.filter_append_perm (fun d : Delivery μ ι => d.consumer ≠ c) q.unacked
  simpa using hperm.symm

end PutBack

/-! ## What is left to deliver -/

/-- How many deliveries there can still be. -/
def remaining (limit : Nat) (q : Queue μ ι) : Nat :=
  (q.ready.map fun entry => limit + 1 - entry.2).sum
    + (q.unacked.map fun d => limit - d.count).sum

/-- Each delivery is one less to come. -/
theorem remaining_deliver {c : ι} {i : Nat} (hle : ∀ entry ∈ q.ready, entry.2 ≤ limit)
    (hd : q.deliver c i = some (d, q')) : q'.remaining limit + 1 = q.remaining limit := by
  obtain ⟨entry, hentry, heq⟩ := Option.map_eq_some_iff.mp hd
  obtain ⟨rfl, rfl⟩ := Prod.mk.inj heq
  obtain ⟨hi, rfl⟩ := List.getElem?_eq_some_iff.mp hentry
  have hone := hle _ (List.getElem_mem hi)
  have hsum := ((List.getElem_cons_eraseIdx_perm hi).map
    fun entry => limit + 1 - entry.2).sum_nat
  simp only [List.map_cons, List.sum_cons] at hsum
  simp only [remaining, List.map_append, List.map_cons, List.map_nil, List.sum_append,
    List.sum_cons, List.sum_nil]
  omega

/-- An answer gives no message more deliveries than it had left. -/
theorem remaining_answer (limit : Nat) (q : Queue μ ι) (number : Nat) (a : Answer) :
    (q.answer limit number a).remaining limit ≤ q.remaining limit := by
  rcases q.answer_cases limit number a with ⟨_, hsame⟩ | ⟨d, rest, _, _, _, hperm, hans⟩
  · rw [hsame]
  · have hsum := (hperm.map fun d => limit - d.count).sum_nat
    simp only [List.map_cons, List.sum_cons] at hsum
    rw [hans]
    cases a with
    | ack =>
        simp only [remaining, settle]
        omega
    | reject requeue =>
        cases requeue with
        | false =>
            simp only [remaining, settle, deadLetter]
            omega
        | true =>
            simp only [settle, Queue.requeue, putBack, if_true]
            split
            · simp only [remaining, deadLetter]
              omega
            · simp only [remaining, List.map_append, List.map_cons, List.map_nil,
                List.sum_append, List.sum_cons, List.sum_nil]
              omega

end Queue

end InvestApi.Amqp
