import InvestApi.Amqp.Attempts
import InvestApi.Orders.Receipts

/-!
# Six attempts

A consumer refuses for good only what it cannot read; everything else that goes
wrong puts the event back, and the queue counts. So an event that can be read is
dead-lettered when it has been put back for the sixth time, not before, and it is
not put back a seventh time.
-/

namespace InvestApi.Ref

open InvestApi.Amqp InvestApi.Lts

variable {ι : Type} {zod : Zod} {rows₀ : List ReceiptRow}

/-- No retry will ever make it valid. -/
def Poison (zod : Zod) (m : EventMessage) : Prop := zod.parseOrderPlaced m.content = none

/-- How often the queue counts message `m` as put back in a turn. -/
def putsBack [DecidableEq ι] (m : EventMessage) (s : ReceiptsWorld ι) : ReceiptsTurn ι → Nat
  | .arrive i =>
      match s.frames[i]? with
      | some f =>
          if f.answer = .reject true then
            Queue.returns (s.queue.unacked.find? (·.number = f.delivery)).toList m
          else 0
      | none => 0
  | .close c counted =>
      if counted then Queue.returns (s.queue.unacked.filter (·.consumer = c)) m else 0
  | _ => 0

/-- What is refused for good, where it is still on its way, is poison. -/
def Refusing (zod : Zod) (s : ReceiptsWorld ι) : Prop :=
  ∀ f ∈ s.frames, f.answer = .reject false →
    ∀ d ∈ s.queue.unacked, d.number = f.delivery → Poison zod d.message

section Step

variable {s s' : ReceiptsWorld ι} [DecidableEq ι] {crashAfterEffect : ι → Bool}

omit [DecidableEq ι] in
theorem frames_resolve (s : ReceiptsWorld ι) (n : Nat) (pc : HandlePc) :
    (s.resolve n pc).frames = s.frames := by
  rcases resolve_cases s n pc with ⟨t, _, heq⟩ | heq
  · rw [heq]
    rfl
  · rw [heq]

omit [DecidableEq ι] in
theorem frames_insert (s : ReceiptsWorld ι) (n : Nat) (event : OrderPlaced) :
    (s.insert n event).frames = s.frames := by
  unfold ReceiptsWorld.insert
  dsimp only
  split
  · exact frames_resolve { s with inserts := Function.update s.inserts n none } n _
  · exact frames_resolve { s with inserts := Function.update s.inserts n none } n _

omit [DecidableEq ι] in
/-- An answer a handler sends. -/
theorem Refusing.respond (h : Refusing zod s) (hh : Handling zod s) {n : Nat} {t : Handler ι}
    (ht : s.handlers n = some t) {answer : Answer}
    (hpoison : answer = .reject false → Poison zod t.message) :
    Refusing zod (s.respond n t answer) := by
  intro f hf ha d hd hn
  rcases List.mem_append.mp hf with hf | hf
  · exact h f hf ha d hd hn
  · obtain rfl := List.mem_singleton.mp hf
    rw [hh.matched n t ht d hd hn]
    exact hpoison ha

theorem Refusing.step (h : Refusing zod s) (hh : Handling zod s) {t : ReceiptsTurn ι}
    (hstep : ReceiptsStep zod crashAfterEffect s t s') : Refusing zod s' := by
  cases hstep with
  | publish => exact h
  | placeOrder => exact h
  | start hc => exact h
  | @deliver c i d queue hc hfew hd =>
      obtain ⟨hnumber, _, hunacked, _, _⟩ := Queue.deliver_fields hd
      intro f hf ha d' hd' hn
      replace hd' : d' ∈ queue.unacked := hd'
      rw [hunacked, List.mem_append, List.mem_singleton] at hd'
      rcases hd' with hold | rfl
      · exact h f hf ha d' hold hn
      · have hlt := hh.frames f hf
        omega
  | @read n t ht hpc =>
      unfold ReceiptsWorld.read
      split
      · next hnone => exact h.respond hh ht fun _ => hnone
      · exact h
  | @insert n event he =>
      intro f hf ha d hd hn
      rw [frames_insert] at hf
      rw [queue_insert] at hd
      exact h f hf ha d hd hn
  | @lose n event he =>
      intro f hf ha d hd hn
      have hf' : f ∈ s.frames :=
        frames_resolve { s with inserts := Function.update s.inserts n none } n .failed ▸ hf
      have hsame := (sameStores_resolve
        { s with inserts := Function.update s.inserts n none } n .failed).1
      unfold ReceiptsWorld.lose at hd
      rw [hsame] at hd
      exact h f hf' ha d hd hn
  | giveUp ht hpc => exact h
  | acknowledge ht hpc =>
      unfold ReceiptsWorld.acknowledge
      split
      · exact h
      · exact h.respond hh ht (by simp)
  | putBack ht hpc => exact h.respond hh ht (by simp)
  | arrive hf hfirst =>
      intro f' hf' ha d hd hn
      exact h f' (List.mem_of_mem_eraseIdx hf') ha d (Queue.unacked_answer hd) hn
  | crash => exact h
  | @close c counted =>
      intro f hf ha d hd hn
      replace hd : d ∈ (s.queue.close DELIVERY_LIMIT counted c).unacked := hd
      rw [(Queue.close_fields DELIVERY_LIMIT counted s.queue c).2.1] at hd
      exact h f (List.mem_of_mem_filter hf) ha d (List.mem_of_mem_filter hd) hn

omit [DecidableEq ι] in
/-- A message that is published is a new one. -/
theorem Placed.notMem_contents (h : Placed s) (content : List Nat) :
    (⟨s.routed.length, content⟩ : EventMessage) ∉ s.queue.contents := by
  rw [h.contents, Multiset.mem_coe]
  intro hm
  have hnumber := List.mem_map_of_mem (f := EventMessage.number) hm
  rw [h.numbers, List.mem_range] at hnumber
  exact Nat.lt_irrefl _ hnumber

/-- What a turn does to the count of one message. -/
theorem putBack_step {m : EventMessage} {n : Nat}
    (h : Queue.PutBack DELIVERY_LIMIT (Poison zod) m n s.queue []) (hplaced : Placed s)
    (href : Refusing zod s) {t : ReceiptsTurn ι}
    (hstep : ReceiptsStep zod crashAfterEffect s t s') :
    Queue.PutBack DELIVERY_LIMIT (Poison zod) m (n + putsBack m s t) s'.queue [] := by
  have keep : ∀ {s'' : ReceiptsWorld ι}, s''.queue = s.queue →
      Queue.PutBack DELIVERY_LIMIT (Poison zod) m n s''.queue [] := by
    intro s'' hqueue
    rw [hqueue]
    exact h
  cases hstep with
  | @publish content => exact h.publish (hplaced.notMem_contents content)
  | placeOrder => exact h
  | start hc => exact h
  | deliver hc hfew hd => exact h.deliver hd
  | read ht hpc => exact keep (sameStores_read _ _).1
  | insert he => exact keep (queue_insert _ _ _)
  | @lose n event he =>
      exact keep (sameStores_resolve
        { s with inserts := Function.update s.inserts n none } n .failed).1
  | giveUp ht hpc => exact h
  | acknowledge ht hpc => exact keep (sameStores_acknowledge _ _ _).1
  | putBack ht hpc => exact h
  | @arrive i f hf hfirst =>
      have hone := h.answer f.delivery f.answer
        fun ha d hd hn => href f (List.mem_of_getElem? hf) ha d hd hn
      simpa only [putsBack, hf] using hone
  | crash => exact h
  | @close c counted => exact h.close counted c

end Step

/-! ## Runs -/

variable [DecidableEq ι] {crashAfterEffect : ι → Bool} {orders : List Uuid}
  {s : ReceiptsWorld ι} {m : EventMessage} {n : Nat}

/-- The invariant of the count: it needs nothing of the events or of the table. -/
structure CountedBack (zod : Zod) (m : EventMessage) (n : Nat) (s : ReceiptsWorld ι) : Prop where
  placed : Placed s
  handling : Handling zod s
  refusing : Refusing zod s
  putBack : Queue.PutBack DELIVERY_LIMIT (Poison zod) m n s.queue []

theorem counted_of_tally
    (h : Tally (ReceiptsStep zod crashAfterEffect) (fun _ _ => True) (putsBack m)
      (.boot ⟨orders, rows₀⟩) n s) : CountedBack zod m n s := by
  refine h.invariant (I := CountedBack zod m) ?_ ?_
  · refine ⟨.boot, .boot, fun f hf => absurd hf List.not_mem_nil, ?_⟩
    exact ⟨by simp [ReceiptsWorld.boot, Queue.empty, Queue.contents], fun _ => rfl,
      fun _ he => absurd he List.not_mem_nil,
      fun _ hd => absurd hd (by simp [ReceiptsWorld.boot, Queue.empty]),
      fun hm => absurd hm List.not_mem_nil, fun hm => absurd hm List.not_mem_nil⟩
  · intro n s t s' hI _ hstep
    exact ⟨hI.placed.step hstep, hI.handling.step hI.placed hstep,
      hI.refusing.step hI.handling hstep,
      putBack_step hI.putBack hI.placed hI.refusing hstep⟩

theorem counted_of_reach {ok : ReceiptsWorld ι → ReceiptsTurn ι → Prop}
    (hr : Lts.Reach (ReceiptsStep zod crashAfterEffect) ok (.boot ⟨orders, rows₀⟩) s)
    (m : EventMessage) : ∃ n, CountedBack zod m n s := by
  obtain ⟨n, htally⟩ := (hr.weaken fun _ _ _ => trivial).exists_tally (putsBack m)
  exact ⟨n, counted_of_tally htally⟩

/-- An event that keeps failing goes to the dead letters when it has been put back for
the sixth time; one that can be read gets there no other way. -/
theorem deadLettered_on_sixth
    (h : Tally (ReceiptsStep zod crashAfterEffect) (fun _ _ => True) (putsBack m)
      (.boot ⟨orders, rows₀⟩) n s) :
    n ≤ DELIVERY_LIMIT + 1 ∧
      (n = DELIVERY_LIMIT + 1 → m ∈ s.queue.deadLettered) ∧
      (m ∈ s.queue.deadLettered → Poison zod m ∨ n = DELIVERY_LIMIT + 1) := by
  have hput := (counted_of_tally h).putBack
  exact ⟨hput.le, hput.deadLettered, fun hm => (hput.dead hm).imp_left And.right⟩

/-! A run: an event whose INSERTs are all lost. -/

/-- The turns of one consumer that does not get at the table. -/
def attemptTurn (s : ReceiptsWorld Unit) :
    ReceiptsTurn Unit → Option (ReceiptsWorld Unit)
  | .publish content => some (s.publish content)
  | .start c => if s.consuming c = false then some (s.start c) else none
  | .deliver c i =>
      if s.consuming c = true ∧
          (s.queue.unacked.filter fun d => d.consumer = c).length < PREFETCH then
        (s.queue.deliver c i).map fun r => s.deliver r.1 r.2
      else none
  | .read n => ((s.handlers n).filter (·.pc = .delivered)).map fun h => s.read sampleZod n h
  | .lose n => (s.inserts n).map fun _ => s.lose n
  | .putBack n =>
      ((s.handlers n).filter (·.pc = .failed)).map fun h => s.respond n h (.reject true)
  | .arrive 0 => s.frames[0]?.map fun f =>
      { s with
        queue := s.queue.answer DELIVERY_LIMIT f.delivery f.answer
        frames := s.frames.eraseIdx 0 }
  | _ => none

theorem attemptTurn_sound (s : ReceiptsWorld Unit) (t : ReceiptsTurn Unit)
    (s' : ReceiptsWorld Unit) (h : attemptTurn s t = some s') :
    True ∧ ReceiptsStep sampleZod (fun _ => false) s t s' := by
  cases t with
  | publish content =>
      obtain rfl := Option.some.inj h
      exact ⟨trivial, .publish⟩
  | start c =>
      simp only [attemptTurn, Option.ite_none_right_eq_some, Option.some.injEq] at h
      obtain ⟨hc, rfl⟩ := h
      exact ⟨trivial, .start hc⟩
  | deliver c i =>
      simp only [attemptTurn, Option.ite_none_right_eq_some, Option.map_eq_some_iff] at h
      obtain ⟨⟨hc, hfew⟩, ⟨d, queue⟩, hd, rfl⟩ := h
      exact ⟨trivial, .deliver hc hfew hd⟩
  | read n =>
      simp only [attemptTurn, Option.map_eq_some_iff, Option.filter_eq_some_iff,
        decide_eq_true_eq] at h
      obtain ⟨t, ⟨ht, hpc⟩, rfl⟩ := h
      exact ⟨trivial, .read ht hpc⟩
  | lose n =>
      obtain ⟨event, he, rfl⟩ := Option.map_eq_some_iff.mp h
      exact ⟨trivial, .lose he⟩
  | putBack n =>
      simp only [attemptTurn, Option.map_eq_some_iff, Option.filter_eq_some_iff,
        decide_eq_true_eq] at h
      obtain ⟨t, ⟨ht, hpc⟩, rfl⟩ := h
      exact ⟨trivial, .putBack ht hpc⟩
  | arrive i =>
      cases i with
      | zero =>
          obtain ⟨f, hf, rfl⟩ := Option.map_eq_some_iff.mp h
          exact ⟨trivial, .arrive hf (by simp)⟩
      | succ i => cases h
  | placeOrder o => cases h
  | insert n => cases h
  | giveUp n => cases h
  | acknowledge n => cases h
  | crash c => cases h
  | close c counted => cases h

/-- The newest turn first. -/
def sixAttempts : List (ReceiptsTurn Unit) :=
  ((List.range 6).reverse.flatMap fun n =>
    [.arrive 0, .putBack n, .lose n, .read n, .deliver () 0]) ++
    [.publish placedEvent.content, .start ()]

theorem deadLettered_on_sixth_attempt :
    ∃ s n, Tally (ReceiptsStep sampleZod fun _ : Unit => false) (fun _ _ => True)
        (putsBack ⟨0, placedEvent.content⟩) (.boot ⟨[], []⟩) n s ∧
      n = DELIVERY_LIMIT + 1 ∧ n ≤ DELIVERY_LIMIT + 1 ∧
      (n = DELIVERY_LIMIT + 1 → ⟨0, placedEvent.content⟩ ∈ s.queue.deadLettered) ∧
      (⟨0, placedEvent.content⟩ ∈ s.queue.deadLettered →
        Poison sampleZod ⟨0, placedEvent.content⟩ ∨ n = DELIVERY_LIMIT + 1) := by
  have hrun : (tally attemptTurn (putsBack ⟨0, placedEvent.content⟩) (.boot ⟨[], []⟩)
      sixAttempts).map (·.1) = some (DELIVERY_LIMIT + 1) := by
    decide +kernel
  obtain ⟨⟨n, s⟩, hs, hn⟩ := Option.map_eq_some_iff.mp hrun
  have htally : Tally (ReceiptsStep sampleZod fun _ : Unit => false) (fun _ _ => True)
      (putsBack ⟨0, placedEvent.content⟩) (.boot ⟨[], []⟩) n s :=
    tally_sound attemptTurn_sound hs
  exact ⟨s, n, htally, hn, deadLettered_on_sixth htally⟩

end InvestApi.Ref
