import InvestApi.Orders.Settled

/-!
# Every event that can be read has its receipt

When the table can be reached as well, and the events are of stored orders, nothing is
put back any more. The dead letters that are new are then those that nobody can read,
and every other event is acknowledged with its receipt.
-/

namespace InvestApi.Ref

open InvestApi.Amqp InvestApi.Lts

variable {ι : Type} [DecidableEq ι] {zod : Zod} {rows₀ : List ReceiptRow} {orders : List Uuid}
  {crashAfterEffect : ι → Bool} {s₁ s s' : ReceiptsWorld ι}

/-- A turn at work that goes well: an INSERT is neither lost nor given up. -/
def GoesWell (t : ReceiptsTurn ι) : Prop :=
  AtWork t ∧ (∀ n, t ≠ .lose n) ∧ ∀ n, t ≠ .giveUp n

/-- Nothing has failed that is still under way, and the events are of stored orders. -/
structure Healthy (zod : Zod) (s : ReceiptsWorld ι) : Prop where
  handlers : ∀ n h, s.handlers n = some h → h.pc ≠ .failed
  frames : ∀ f ∈ s.frames, f.answer ≠ .reject true
  storable : ∀ m ∈ s.routed, ∀ event, zod.parseOrderPlaced m.content = some event →
    ∃ o e, pgUuidIn event.data.orderId = some o ∧ pgUuidIn event.eventId = some e ∧
      o ∈ s.db.orders

/-- A handler that waits for its INSERT has one on its way. -/
def Waits (s : ReceiptsWorld ι) : Prop :=
  ∀ n h, s.handlers n = some h → h.pc = .issuing → s.inserts n ≠ none

omit [DecidableEq ι] in
theorem Waits.setPc (h : Waits s) (n : Nat) (k : Handler ι) {pc : HandlePc}
    (hpc : pc ≠ .issuing) : Waits (s.setPc n k pc) := by
  intro j t ht hissuing
  by_cases e : j = n
  · subst e
    simp only [ReceiptsWorld.setPc, Function.update_self, Option.some.injEq] at ht
    subst ht
    exact absurd hissuing hpc
  · exact h j t (by simpa [ReceiptsWorld.setPc, e] using ht) hissuing

omit [DecidableEq ι] in
theorem Waits.respond (h : Waits s) (n : Nat) (k : Handler ι) (answer : Answer) :
    Waits (s.respond n k answer) := by
  intro j t ht hissuing
  by_cases e : j = n
  · simp [ReceiptsWorld.respond, e] at ht
  · exact h j t (by simpa [ReceiptsWorld.respond, e] using ht) hissuing

omit [DecidableEq ι] in
/-- Whoever waited for an INSERT that is gone learns of it. -/
theorem Waits.resolve (h : Waits s) (n : Nat) (pc : HandlePc) (hpc : pc ≠ .issuing) :
    Waits (({ s with inserts := Function.update s.inserts n none } : ReceiptsWorld ι).resolve
      n pc) := by
  have others : ∀ {s' : ReceiptsWorld ι}, (∀ j t, j ≠ n → s'.handlers j = some t →
      s.handlers j = some t ∧ s'.inserts j = s.inserts j) →
      (∀ t, s'.handlers n = some t → t.pc ≠ .issuing) → Waits s' := by
    intro s' hsame hn j t ht hissuing
    by_cases e : j = n
    · subst e
      exact absurd hissuing (hn t ht)
    · obtain ⟨hold, hinserts⟩ := hsame j t e ht
      rw [hinserts]
      exact h j t hold hissuing
  unfold ReceiptsWorld.resolve
  dsimp only
  split
  · next k hk =>
      split
      · refine others (fun j t e ht => ?_) fun t ht => ?_
        · simp only [ReceiptsWorld.setPc, Function.update_of_ne e] at ht ⊢
          exact ⟨ht, trivial⟩
        · simp only [ReceiptsWorld.setPc, Function.update_self, Option.some.injEq] at ht
          rw [← ht]
          exact hpc
      · next hissuing =>
          refine others (fun j t e ht => ⟨ht, Function.update_of_ne e _ _⟩) fun t ht => ?_
          obtain rfl := Option.some.inj (hk.symm.trans ht)
          exact hissuing
  · next hk =>
      refine others (fun j t e ht => ⟨ht, Function.update_of_ne e _ _⟩) fun t ht => ?_
      rw [hk] at ht
      cases ht

theorem waits_of_reach (hr : Lts.Reach (ReceiptsStep zod crashAfterEffect) (EventsApart zod)
    (.boot ⟨orders, rows₀⟩) s) : Waits s := by
  refine hr.invariant (fun n h hh => by simp [ReceiptsWorld.boot] at hh)
    fun s t s' h _ hstep => ?_
  cases hstep with
  | publish => exact h
  | placeOrder => exact h
  | start hc => exact h
  | @deliver c i d queue hc hfew hd =>
      intro j t ht hissuing
      by_cases e : j = d.number
      · subst e
        simp only [ReceiptsWorld.deliver, Function.update_self, Option.some.injEq] at ht
        rw [← ht] at hissuing
        cases hissuing
      · exact h j t (by simpa [ReceiptsWorld.deliver, e] using ht) hissuing
  | @read n k hk hpc =>
      unfold ReceiptsWorld.read
      split
      · exact h.respond n k _
      · intro j t ht hissuing
        by_cases e : j = n
        · simp [e]
        · simp only [ReceiptsWorld.setPc, Function.update_of_ne e] at ht ⊢
          exact h j t ht hissuing
  | @insert n event he =>
      unfold ReceiptsWorld.insert
      dsimp only
      split
      · exact h.resolve n (.issued _) (by simp)
      · exact h.resolve n .failed (by simp)
  | @lose n event he => exact h.resolve n .failed (by simp)
  | giveUp hk hpc => exact h.setPc _ _ (by simp)
  | acknowledge hk hpc =>
      unfold ReceiptsWorld.acknowledge
      split
      · intro j t ht hissuing
        exact h j t (Option.filter_eq_some_iff.mp ht).1 hissuing
      · exact h.respond _ _ _
  | putBack hk hpc => exact h.respond _ _ _
  | arrive hf hfirst => exact h
  | crash =>
      intro j t ht hissuing
      exact h j t (Option.filter_eq_some_iff.mp ht).1 hissuing
  | close => exact h

/-- The INSERT of such an event does not fail. -/
theorem issueReceipt_ok {db : ReceiptsDb} {event : OrderPlaced} {o e : Uuid}
    (ho : pgUuidIn event.data.orderId = some o) (he : pgUuidIn event.eventId = some e)
    (hmem : o ∈ db.orders) :
    ∃ applied db', issueReceipt db event = .ok (applied, db') ∧ db'.orders = db.orders := by
  unfold issueReceipt
  rw [ho, he]
  dsimp only
  split
  · exact ⟨_, _, rfl, rfl⟩
  · exact ⟨_, _, rfl, rfl⟩

omit [DecidableEq ι] in
theorem Healthy.setPc (h : Healthy zod s) (n : Nat) (k : Handler ι) (pc : HandlePc)
    (hpc : pc ≠ .failed) : Healthy zod (s.setPc n k pc) := by
  refine ⟨fun j t ht => ?_, h.frames, h.storable⟩
  by_cases e : j = n
  · subst e
    simp only [ReceiptsWorld.setPc, Function.update_self, Option.some.injEq] at ht
    rw [← ht]
    exact hpc
  · exact h.handlers j t (by simpa [ReceiptsWorld.setPc, e] using ht)

omit [DecidableEq ι] in
theorem Healthy.respond (h : Healthy zod s) (n : Nat) (k : Handler ι) {answer : Answer}
    (ha : answer ≠ .reject true) : Healthy zod (s.respond n k answer) := by
  refine ⟨fun j t ht => ?_, fun f hf => ?_, h.storable⟩
  · by_cases e : j = n
    · simp [ReceiptsWorld.respond, e] at ht
    · exact h.handlers j t (by simpa [ReceiptsWorld.respond, e] using ht)
  · rcases List.mem_append.mp hf with hf | hf
    · exact h.frames f hf
    · rw [List.mem_singleton.mp hf]
      exact ha

omit [DecidableEq ι] in
theorem Healthy.insert (h : Healthy zod s) (hh : Handling zod s) {n : Nat}
    {event : OrderPlaced} (he : s.inserts n = some event) : Healthy zod (s.insert n event) := by
  obtain ⟨m, hm, hparse, _⟩ := hh.inserts n event he
  obtain ⟨o, e, ho, hev, hmem⟩ := h.storable m hm event hparse
  obtain ⟨applied, db', hissue, horders⟩ := issueReceipt_ok ho hev hmem
  unfold ReceiptsWorld.insert
  dsimp only
  split
  · next applied' db'' hins =>
      obtain ⟨rfl, rfl⟩ : applied = applied' ∧ db' = db'' := by simpa [hissue] using hins
      rcases resolve_cases { s with inserts := Function.update s.inserts n none } n
        (.issued applied) with ⟨k, _, heq⟩ | heq
      · have hset := h.setPc n k (.issued applied) (by simp)
        rw [heq]
        exact ⟨hset.handlers, hset.frames, fun m hm => horders.symm ▸ h.storable m hm⟩
      · rw [heq]
        exact ⟨h.handlers, h.frames, fun m hm => horders.symm ▸ h.storable m hm⟩
  · next hfail =>
      rw [hissue] at hfail
      cases hfail

/-- A turn that goes well. -/
theorem Healthy.step (h : Healthy zod s) (hh : Handling zod s) {t : ReceiptsTurn ι}
    (ht : GoesWell t) (hstep : ReceiptsStep zod (fun _ => false) s t s') : Healthy zod s' := by
  cases hstep with
  | publish => exact ht.1.elim
  | placeOrder => exact ht.1.elim
  | start hc => exact ht.1.elim
  | @deliver c i d queue hc hfew hd =>
      refine ⟨fun j t ht => ?_, h.frames, h.storable⟩
      by_cases e : j = d.number
      · subst e
        simp only [ReceiptsWorld.deliver, Function.update_self, Option.some.injEq] at ht
        rw [← ht]
        simp
      · exact h.handlers j t (by simpa [ReceiptsWorld.deliver, e] using ht)
  | @read n k hk hpc =>
      unfold ReceiptsWorld.read
      split
      · exact h.respond n k (by simp)
      · have hset := h.setPc n k .issuing (by simp)
        exact ⟨hset.handlers, hset.frames, hset.storable⟩
  | insert he => exact h.insert hh he
  | @lose n event he => exact absurd rfl (ht.2.1 n)
  | @giveUp n k hk hpc => exact absurd rfl (ht.2.2 n)
  | acknowledge hk hpc => exact h.respond _ _ (by simp)
  | putBack hk hpc => exact absurd hpc (h.handlers _ _ hk)
  | arrive hf hfirst =>
      exact ⟨h.handlers, fun g hg => h.frames g (List.mem_of_mem_eraseIdx hg), h.storable⟩
  | crash => exact ht.1.elim
  | close => exact ht.1.elim

/-- A turn that goes well makes dead letters of poison only. -/
theorem deadLettered_step (h : Healthy zod s) (href : Refusing zod s) {t : ReceiptsTurn ι}
    (ht : GoesWell t) (hstep : ReceiptsStep zod (fun _ => false) s t s') {m : EventMessage}
    (hm : m ∈ s'.queue.deadLettered) : m ∈ s.queue.deadLettered ∨ Poison zod m := by
  have keep : s'.queue = s.queue → m ∈ s.queue.deadLettered ∨ Poison zod m :=
    fun hqueue => Or.inl (hqueue ▸ hm)
  cases hstep with
  | publish => exact ht.1.elim
  | placeOrder => exact ht.1.elim
  | start hc => exact ht.1.elim
  | deliver hc hfew hd =>
      obtain ⟨_, _, heq⟩ := Option.map_eq_some_iff.mp hd
      obtain ⟨rfl, rfl⟩ := Prod.mk.inj heq
      exact Or.inl hm
  | read hk hpc => exact keep (sameStores_read _ _).1
  | insert he => exact keep (queue_insert _ _ _)
  | @lose n event he => exact absurd rfl (ht.2.1 n)
  | @giveUp n k hk hpc => exact absurd rfl (ht.2.2 n)
  | acknowledge hk hpc => exact keep (sameStores_acknowledge _ _ _).1
  | putBack hk hpc => exact Or.inl hm
  | @arrive i f hf hfirst =>
      have hmem := List.mem_of_getElem? hf
      rcases s.queue.answer_cases DELIVERY_LIMIT f.delivery f.answer with
        ⟨_, hsame⟩ | ⟨d, rest, _, hn, _, hperm, hans⟩
      · exact keep hsame
      · replace hm : m ∈ (s.queue.answer DELIVERY_LIMIT f.delivery f.answer).deadLettered := hm
        rw [hans] at hm
        cases ha : f.answer with
        | ack =>
            rw [ha] at hm
            exact Or.inl hm
        | reject requeue =>
            cases requeue with
            | true => exact absurd ha (h.frames f hmem)
            | false =>
                rw [ha] at hm
                rcases List.mem_append.mp hm with hm | hm
                · exact Or.inl hm
                · obtain rfl := List.mem_singleton.mp hm
                  exact Or.inr (href f hmem ha d (hperm.mem_iff.mpr (List.mem_cons_self ..)) hn)
  | crash => exact ht.1.elim
  | close => exact ht.1.elim

/-- The invariant of the turns from `s₁` on that go well. -/
structure Thriving (zod : Zod) (orders : List Uuid) (rows₀ : List ReceiptRow)
    (s₁ s : ReceiptsWorld ι) : Prop extends Settling zod orders rows₀ s₁ s where
  healthy : Healthy zod s
  dead : ∀ m ∈ s.queue.deadLettered, m ∈ s₁.queue.deadLettered ∨ Poison zod m

theorem thriving_descends :
    Descends (ReceiptsStep zod fun _ => false) (fun _ t => GoesWell t)
      (Thriving zod orders rows₀ s₁) ReceiptsWorld.work := by
  have hbase : Descends (ReceiptsStep zod fun _ => false) (fun _ t => AtWork t)
      (Settling zod orders rows₀ s₁) ReceiptsWorld.work := settling_descends
  refine ⟨fun s t s' h ht hstep => ?_, fun s t s' h ht hstep =>
    hbase.lowers s t s' h.toSettling ht.1 hstep⟩
  obtain ⟨_, hcounted⟩ := counted_of_reach h.reach ⟨0, []⟩
  refine ⟨hbase.keeps s t s' h.toSettling ht.1 hstep, h.healthy.step hcounted.handling ht hstep,
    fun m hm => ?_⟩
  rcases deadLettered_step h.healthy hcounted.refusing ht hstep hm with hold | hpoison
  · exact h.dead m hold
  · exact Or.inr hpoison

/-- Where nothing can go well any more, nothing can go wrong. -/
theorem Thriving.stuck (h : Thriving zod orders rows₀ s₁ s)
    (hstuck : Stuck (ReceiptsStep zod fun _ => false) (fun _ t => GoesWell t) s) :
    Stuck (ReceiptsStep zod fun _ => false) (fun _ t => AtWork t) s := by
  have hinserts : ∀ n, s.inserts n = none := by
    intro n
    refine Option.eq_none_iff_forall_ne_some.mpr fun event he => ?_
    exact hstuck _ ⟨.insert n, ⟨trivial, by simp, by simp⟩, .insert he⟩
  intro s' hnext
  obtain ⟨t, ht, hstep⟩ := hnext
  refine hstuck s' ⟨t, ⟨ht, fun n hn => ?_, fun n hn => ?_⟩, hstep⟩
  · subst hn
    cases hstep with
    | lose he =>
        rw [hinserts n] at he
        cases he
  · subst hn
    cases hstep with
    | giveUp hk hpc => exact waits_of_reach h.reach n _ hk hpc (hinserts n)

/-- With the table at hand, and the events those of stored orders, the dead letters that
are new cannot be read; every other event has its receipt. -/
theorem events_receipted (hkeys : KeysApart rows₀)
    (hr : Lts.Reach (ReceiptsStep zod fun _ => false) (EventsApart zod)
      (.boot ⟨orders, rows₀⟩) s₁) (hattended : EachHandled s₁) {c : ι}
    (hc : s₁.consuming c = true) (hhealthy : Healthy zod s₁) :
    Completes (ReceiptsStep zod fun _ => false) (fun _ t => GoesWell t) s₁ fun s =>
      AllSettled zod s₁ s ∧ ∀ m ∈ s.routed, ¬Poison zod m → m ∉ s₁.queue.deadLettered →
        m ∈ s.queue.acked ∧ Receipted zod s.db m := by
  refine thriving_descends.completes
    ⟨⟨hr, hattended, rfl, rfl⟩, hhealthy, fun m hm => Or.inl hm⟩ fun s _ h hstuck => ?_
  have hsettled := settled_of_stuck hkeys h.toSettling hc (h.stuck hstuck)
  refine ⟨hsettled, fun m hm hpoison hdead => ?_⟩
  rcases hsettled.settled m hm with hacked | hlost
  · exact hacked
  · rcases h.dead m hlost with hold | hpoison'
    · exact absurd hold hdead
    · exact absurd hpoison' hpoison

/-! The event that is waiting. -/

theorem events_receipted_waiting :
    ¬Poison sampleZod ⟨0, placedEvent.content⟩ ∧
      Completes (ReceiptsStep sampleZod fun _ => false) (fun _ t => GoesWell t) waiting fun s =>
        AllSettled sampleZod waiting s ∧ ∀ m ∈ s.routed, ¬Poison sampleZod m →
          m ∉ waiting.queue.deadLettered →
            m ∈ s.queue.acked ∧ Receipted sampleZod s.db m := by
  have hparse : sampleZod.parseOrderPlaced placedEvent.content = some placedEvent := by
    decide +kernel
  have hhealthy : Healthy sampleZod waiting := by
    refine ⟨fun n h hh => absurd hh (by simp [waiting, ReceiptsWorld.start,
      ReceiptsWorld.publish, ReceiptsWorld.boot]), fun f hf => absurd hf List.not_mem_nil,
      fun m hm event he => ?_⟩
    obtain rfl := List.mem_singleton.mp hm
    obtain rfl := Option.some.inj (hparse.symm.trans he)
    obtain ⟨e, he⟩ : ∃ e, pgUuidIn placedEvent.eventId = some e :=
      Option.isSome_iff_exists.mp (by decide +kernel)
    exact ⟨placedOrder, e, by decide +kernel, he, List.mem_singleton_self _⟩
  exact ⟨by simp [Poison, hparse], events_receipted .nil reach_waiting
    (fun _ hd => absurd hd List.not_mem_nil) (c := ()) rfl hhealthy⟩

end InvestApi.Ref
