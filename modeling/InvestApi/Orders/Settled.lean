import InvestApi.Lts.Progress
import InvestApi.Orders.DeadLetters

/-!
# Every event is settled

Once the publisher rests and no process dies any more, the consumers come to an end
however their work is interleaved and whatever goes wrong with their INSERTs: every
delivery is one less of those the limit allows, and a delivery takes a few turns. What
is then left of an event is a receipt and its acknowledgement, or a dead letter.

A death may break `EachHandled`, until the broker notices it.
-/

namespace InvestApi.Ref

open InvestApi.Amqp InvestApi.Lts

variable {ι : Type} {zod : Zod} {rows₀ : List ReceiptRow}

/-- A turn of the consumers at work: nothing is published, no process comes or goes. -/
def AtWork : ReceiptsTurn ι → Prop
  | .publish _ => False
  | .placeOrder _ => False
  | .start _ => False
  | .crash _ => False
  | .close _ _ => False
  | _ => True

/-- Each open delivery is being handled, or its answer is on its way. -/
def EachHandled (s : ReceiptsWorld ι) : Prop :=
  ∀ d ∈ s.queue.unacked, s.handlers d.number ≠ none ∨ ∃ f ∈ s.frames, f.delivery = d.number

/-! ## The turns that are left -/

/-- The turns a handler may still take, its answer's arrival included. -/
def HandlePc.work : HandlePc → Nat
  | .delivered => 5
  | .issuing => 3
  | .issued _ => 2
  | .failed => 2

namespace ReceiptsWorld

/-- The turns of delivery `n`, with its INSERT. -/
def handling (s : ReceiptsWorld ι) (n : Nat) : Nat :=
  ((s.handlers n).map fun h => h.pc.work).getD 0 + (s.inserts n).toList.length

def work (s : ReceiptsWorld ι) : Nat :=
  6 * s.queue.remaining DELIVERY_LIMIT + s.frames.length
    + ∑ n ∈ Finset.range s.queue.deliveries, s.handling n

end ReceiptsWorld

section Work

variable {s s' : ReceiptsWorld ι} {n : Nat}

theorem handling_of_handler {h : Handler ι} (hh : s.handlers n = some h) :
    s.handling n = h.pc.work + (s.inserts n).toList.length := by
  rw [ReceiptsWorld.handling, hh]
  rfl

/-- One delivery goes on. -/
theorem work_lt (hqueue : s'.queue = s.queue) (hn : n < s.queue.deliveries)
    (hothers : ∀ j, j ≠ n → s'.handling j = s.handling j)
    (hlt : s'.frames.length + s'.handling n < s.frames.length + s.handling n) :
    s'.work < s.work := by
  have hmem : n ∈ Finset.range s.queue.deliveries := Finset.mem_range.mpr hn
  have hrest : ∑ j ∈ (Finset.range s.queue.deliveries).erase n, s'.handling j
      = ∑ j ∈ (Finset.range s.queue.deliveries).erase n, s.handling j :=
    Finset.sum_congr rfl fun j hj => hothers j (Finset.ne_of_mem_erase hj)
  have hsum := Finset.add_sum_erase _ s.handling hmem
  have hsum' := Finset.add_sum_erase _ s'.handling hmem
  rw [ReceiptsWorld.work, ReceiptsWorld.work, hqueue]
  omega

theorem handling_setPc {h : Handler ι} (pc : HandlePc) :
    (s.setPc n h pc).handling n = pc.work + (s.inserts n).toList.length := by
  simp [ReceiptsWorld.handling, ReceiptsWorld.setPc]

theorem handling_setPc_ne {h : Handler ι} {pc : HandlePc} {j : Nat} (hj : j ≠ n) :
    (s.setPc n h pc).handling j = s.handling j := by
  simp [ReceiptsWorld.handling, ReceiptsWorld.setPc, hj]

theorem handling_respond {h : Handler ι} {answer : Answer} :
    (s.respond n h answer).handling n = (s.inserts n).toList.length := by
  simp [ReceiptsWorld.handling, ReceiptsWorld.respond]

theorem handling_respond_ne {h : Handler ι} {answer : Answer} {j : Nat} (hj : j ≠ n) :
    (s.respond n h answer).handling j = s.handling j := by
  simp [ReceiptsWorld.handling, ReceiptsWorld.respond, hj]

/-- A handler sends its answer. -/
theorem work_respond {h : Handler ι} {answer : Answer} (hn : n < s.queue.deliveries)
    (hh : s.handlers n = some h) : (s.respond n h answer).work < s.work := by
  refine work_lt rfl hn (fun j hj => handling_respond_ne hj) ?_
  rw [handling_respond, handling_of_handler hh]
  have hframes : (s.respond n h answer).frames.length = s.frames.length + 1 := by
    simp [ReceiptsWorld.respond]
  have hwork : 2 ≤ h.pc.work := by
    cases h.pc <;> simp [HandlePc.work]
  omega

/-- What a handler learns of its INSERT takes it further, if it still waits. -/
theorem handling_resolve (s : ReceiptsWorld ι) (n : Nat) {pc : HandlePc} (hpc : pc.work ≤ 3) :
    (s.resolve n pc).handling n ≤ s.handling n := by
  unfold ReceiptsWorld.resolve
  split
  · next h hh =>
      split
      · next hissuing =>
          rw [handling_setPc, handling_of_handler hh, hissuing]
          exact Nat.add_le_add_right hpc _
      · exact Nat.le_refl _
  · exact Nat.le_refl _

theorem handling_resolve_ne {pc : HandlePc} {j : Nat} (hj : j ≠ n) :
    (s.resolve n pc).handling j = s.handling j := by
  rcases resolve_cases s n pc with ⟨h, _, heq⟩ | heq
  · rw [heq]
    exact handling_setPc_ne hj
  · rw [heq]

/-- An INSERT is on its way no more. -/
theorem work_resolve {event : OrderPlaced} {pc : HandlePc} (hpc : pc.work ≤ 3)
    (hn : n < s.queue.deliveries) (he : s.inserts n = some event) :
    (({ s with inserts := Function.update s.inserts n none } : ReceiptsWorld ι).resolve n
      pc).work < s.work := by
  have hdrop : ({ s with inserts := Function.update s.inserts n none } :
      ReceiptsWorld ι).handling n + 1 = s.handling n := by
    simp [ReceiptsWorld.handling, he]
  have hle := handling_resolve ({ s with inserts := Function.update s.inserts n none } :
    ReceiptsWorld ι) n hpc
  refine work_lt (sameStores_resolve _ n pc).1 hn (fun j hj => ?_) ?_
  · rw [handling_resolve_ne hj]
    simp [ReceiptsWorld.handling, hj]
  · rw [frames_resolve]
    dsimp only
    omega

theorem work_insert {event : OrderPlaced} (hn : n < s.queue.deliveries)
    (he : s.inserts n = some event) : (s.insert n event).work < s.work := by
  have hpc : ∀ pc : HandlePc, pc ≠ .delivered → pc.work ≤ 3 := by
    intro pc hne
    cases pc with
    | delivered => exact absurd rfl hne
    | _ => simp [HandlePc.work]
  unfold ReceiptsWorld.insert
  dsimp only
  split
  · next applied db' _ => exact work_resolve (hpc (.issued applied) (by simp)) hn he
  · exact work_resolve (hpc .failed (by simp)) hn he

theorem work_read {h : Handler ι} (hn : n < s.queue.deliveries) (hh : s.handlers n = some h)
    (hpc : h.pc = .delivered) : (s.read zod n h).work < s.work := by
  unfold ReceiptsWorld.read
  split
  · exact work_respond hn hh
  · refine work_lt rfl hn (fun j hj => ?_) ?_
    · simp [ReceiptsWorld.handling, ReceiptsWorld.setPc, hj]
    · rw [handling_of_handler hh, hpc]
      simp only [ReceiptsWorld.handling, ReceiptsWorld.setPc, Function.update_self,
        Option.map_some, Option.getD_some, Option.toList_some, List.length_singleton,
        HandlePc.work]
      omega

theorem work_deliver (hh : Handling zod s) (hcounts : ∀ e ∈ s.queue.ready, e.2 ≤ DELIVERY_LIMIT)
    {c : ι} {i : Nat} {d : Delivery EventMessage ι} {queue : Queue EventMessage ι}
    (hd : s.queue.deliver c i = some (d, queue)) : (s.deliver d queue).work < s.work := by
  obtain ⟨hnumber, _, _, hdeliveries, _⟩ := Queue.deliver_fields hd
  have hremaining := Queue.remaining_deliver hcounts hd
  obtain ⟨_, hinsert⟩ := hh.fresh d.number (by omega)
  have hsum : ∑ j ∈ Finset.range s.queue.deliveries, (s.deliver d queue).handling j
      = ∑ j ∈ Finset.range s.queue.deliveries, s.handling j := by
    refine Finset.sum_congr rfl fun j hj => ?_
    have hne : j ≠ d.number := by
      have hlt := Finset.mem_range.mp hj
      omega
    simp [ReceiptsWorld.handling, ReceiptsWorld.deliver, hne]
  have hnew : (s.deliver d queue).handling s.queue.deliveries = 5 := by
    rw [← hnumber]
    simp [ReceiptsWorld.handling, ReceiptsWorld.deliver, HandlePc.work, hinsert]
  have hqueue : (s.deliver d queue).queue = queue := rfl
  have hframes : (s.deliver d queue).frames = s.frames := rfl
  rw [ReceiptsWorld.work, ReceiptsWorld.work, hqueue, hframes, hdeliveries,
    Finset.sum_range_succ, hsum, hnew]
  omega

theorem work_arrive {i : Nat} {f : AnswerFrame ι} (hf : s.frames[i]? = some f) :
    ({ s with
      queue := s.queue.answer DELIVERY_LIMIT f.delivery f.answer
      frames := s.frames.eraseIdx i } : ReceiptsWorld ι).work < s.work := by
  have hremaining := Queue.remaining_answer DELIVERY_LIMIT s.queue f.delivery f.answer
  have hi : i < s.frames.length := (List.getElem?_eq_some_iff.mp hf).1
  simp only [ReceiptsWorld.work, Queue.deliveries_answer, List.length_eraseIdx_of_lt hi]
  have hsum : ∀ queue frames, ∑ n ∈ Finset.range s.queue.deliveries,
      ({ s with queue := queue, frames := frames } : ReceiptsWorld ι).handling n
      = ∑ n ∈ Finset.range s.queue.deliveries, s.handling n := fun _ _ => rfl
  rw [hsum]
  omega

end Work

/-! ## Who attends to what -/

section EachHandled

variable {s s' : ReceiptsWorld ι} {n : Nat}

/-- A handler goes on, or sends its answer. -/
theorem EachHandled.carry (h : EachHandled s) (hqueue : s'.queue = s.queue)
    (hhandlers : ∀ j, s.handlers j ≠ none →
      s'.handlers j ≠ none ∨ ∃ f ∈ s'.frames, f.delivery = j)
    (hframes : s.frames ⊆ s'.frames) : EachHandled s' := by
  intro d hd
  rw [hqueue] at hd
  rcases h d hd with hhandler | ⟨f, hf, hn⟩
  · exact hhandlers _ hhandler
  · exact Or.inr ⟨f, hframes hf, hn⟩

theorem EachHandled.setPc (h : EachHandled s) {t : Handler ι} (pc : HandlePc) :
    EachHandled (s.setPc n t pc) := by
  refine h.carry rfl (fun j hj => Or.inl ?_) fun _ hf => hf
  by_cases e : j = n
  · simp [ReceiptsWorld.setPc, e]
  · simpa [ReceiptsWorld.setPc, e] using hj

theorem EachHandled.respond (h : EachHandled s) {t : Handler ι} {answer : Answer} :
    EachHandled (s.respond n t answer) := by
  refine h.carry rfl (fun j hj => ?_) (List.subset_append_left _ _)
  by_cases e : j = n
  · exact Or.inr ⟨⟨t.consumer, n, answer⟩, by simp [ReceiptsWorld.respond], e.symm⟩
  · exact Or.inl (by simpa [ReceiptsWorld.respond, e] using hj)

theorem EachHandled.resolve (h : EachHandled s) (pc : HandlePc) :
    EachHandled (s.resolve n pc) := by
  rcases resolve_cases s n pc with ⟨t, _, heq⟩ | heq
  · rw [heq]
    exact h.setPc pc
  · rw [heq]
    exact h

theorem EachHandled.inserts (h : EachHandled s) (inserts : Nat → Option OrderPlaced) :
    EachHandled { s with inserts := inserts } :=
  h

theorem EachHandled.insert (h : EachHandled s) {event : OrderPlaced} :
    EachHandled (s.insert n event) := by
  have hdrop := h.inserts (Function.update s.inserts n none)
  unfold ReceiptsWorld.insert
  dsimp only
  split
  · exact hdrop.resolve (.issued _)
  · exact hdrop.resolve .failed

theorem EachHandled.deliver (h : EachHandled s) (hnumbered : s.queue.Numbered) {c : ι} {i : Nat}
    {d : Delivery EventMessage ι} {queue : Queue EventMessage ι}
    (hd : s.queue.deliver c i = some (d, queue)) : EachHandled (s.deliver d queue) := by
  obtain ⟨hnumber, _, hunacked, _, _⟩ := Queue.deliver_fields hd
  intro d' hd'
  replace hd' : d' ∈ queue.unacked := hd'
  rw [hunacked, List.mem_append, List.mem_singleton] at hd'
  rcases hd' with hold | rfl
  · have hne : d'.number ≠ d.number := by
      have hlt := hnumbered.below d' hold
      omega
    refine (h d' hold).imp_left fun hj => ?_
    simpa [ReceiptsWorld.deliver, hne] using hj
  · exact Or.inl (by simp [ReceiptsWorld.deliver])

/-- The delivery an answer is for is open no more; the others have theirs. -/
theorem EachHandled.arrive (h : EachHandled s) (hnumbered : s.queue.Numbered) {i : Nat}
    {f : AnswerFrame ι} (hf : s.frames[i]? = some f) :
    EachHandled { s with
      queue := s.queue.answer DELIVERY_LIMIT f.delivery f.answer
      frames := s.frames.eraseIdx i } := by
  intro d hd
  have hold : d ∈ s.queue.unacked := Queue.unacked_answer hd
  have hne : d.number ≠ f.delivery := by
    rintro he
    rcases s.queue.answer_cases DELIVERY_LIMIT f.delivery f.answer with
      ⟨hnone, _⟩ | ⟨d', rest, _, hn, _, hperm, hans⟩
    · exact List.find?_eq_none.mp hnone d hold (by simpa using he)
    · replace hd : d ∈ (s.queue.answer DELIVERY_LIMIT f.delivery f.answer).unacked := hd
      rw [hans, Queue.unacked_settle] at hd
      have hnodup := (hperm.map (·.number)).nodup_iff.mp hnumbered.nodup
      rw [List.map_cons, List.nodup_cons, hn, ← he] at hnodup
      exact hnodup.1 (List.mem_map_of_mem hd)
  refine (h d hold).imp_right ?_
  rintro ⟨g, hg, hn⟩
  refine ⟨g, ?_, hn⟩
  obtain ⟨j, hj, rfl⟩ := List.mem_iff_getElem.mp hg
  have hij : j ≠ i := by
    rintro rfl
    rw [List.getElem?_eq_getElem hj] at hf
    exact hne (hn.symm.trans (by rw [Option.some.inj hf]))
  exact List.mem_eraseIdx_iff_getElem.mpr ⟨j, hj, hij, rfl⟩

end EachHandled

/-! ## Runs -/

section Run

variable [DecidableEq ι] {crashAfterEffect : ι → Bool} {orders : List Uuid}
  {s₁ s s' : ReceiptsWorld ι}

theorem numbered_of_reach (hr : Lts.Reach (ReceiptsStep zod crashAfterEffect) (EventsApart zod)
    (.boot ⟨orders, rows₀⟩) s) : s.queue.Numbered := by
  refine hr.invariant (I := fun s => s.queue.Numbered) ⟨by simp [ReceiptsWorld.boot, Queue.empty],
    fun _ hd => absurd hd List.not_mem_nil⟩ fun s t s' h _ hstep => ?_
  have keep : ∀ {s'' : ReceiptsWorld ι}, s''.queue = s.queue → s''.queue.Numbered :=
    fun hqueue => hqueue ▸ h
  cases hstep with
  | publish => exact ⟨h.nodup, h.below⟩
  | placeOrder => exact h
  | start hc => exact h
  | deliver hc hfew hd => exact h.deliver hd
  | read ht hpc => exact keep (sameStores_read _ _).1
  | insert he => exact keep (queue_insert _ _ _)
  | @lose n event he =>
      exact keep (sameStores_resolve
        { s with inserts := Function.update s.inserts n none } n .failed).1
  | giveUp ht hpc => exact h
  | acknowledge ht hpc => exact keep (sameStores_acknowledge _ _ _).1
  | putBack ht hpc => exact h
  | arrive hf hfirst =>
      exact h.sublist (Queue.sublist_answer _ _ _ _) (Queue.deliveries_answer _ _ _ _)
  | crash => exact h
  | @close c counted =>
      obtain ⟨_, hunacked, hdeliveries⟩ := Queue.close_fields DELIVERY_LIMIT counted s.queue c
      exact h.sublist (hunacked ▸ List.filter_sublist) hdeliveries

/-- What is ready has been put back within the limit. -/
theorem ready_le_of_reach
    (hr : Lts.Reach (ReceiptsStep zod crashAfterEffect) (EventsApart zod)
      (.boot ⟨orders, rows₀⟩) s) : ∀ entry ∈ s.queue.ready, entry.2 ≤ DELIVERY_LIMIT := by
  intro entry hentry
  obtain ⟨n, hcounted⟩ := counted_of_reach hr entry.1
  obtain ⟨hcount, hle⟩ := hcounted.putBack.ready entry.2 hentry
  omega

omit [DecidableEq ι] in
theorem apart_of_atWork {t : ReceiptsTurn ι} (h : AtWork t) : EventsApart zod s t := by
  cases t with
  | publish content => exact h.elim
  | _ => trivial

/-- What a quiet turn leaves as it is. -/
theorem same_of_atWork {t : ReceiptsTurn ι} (ht : AtWork t)
    (hstep : ReceiptsStep zod (fun _ => false) s t s') :
    s'.routed = s.routed ∧ s'.consuming = s.consuming := by
  have hresolve : ∀ (s : ReceiptsWorld ι) n pc, (s.resolve n pc).routed = s.routed ∧
      (s.resolve n pc).consuming = s.consuming := by
    intro s n pc
    rcases resolve_cases s n pc with ⟨_, _, heq⟩ | heq
    · rw [heq]
      exact ⟨rfl, rfl⟩
    · rw [heq]
      exact ⟨rfl, rfl⟩
  cases hstep with
  | publish => exact ht.elim
  | placeOrder => exact ht.elim
  | start hc => exact ht.elim
  | deliver hc hfew hd => exact ⟨rfl, rfl⟩
  | read hh hpc =>
      unfold ReceiptsWorld.read
      split
      · exact ⟨rfl, rfl⟩
      · exact ⟨rfl, rfl⟩
  | @insert n event he =>
      unfold ReceiptsWorld.insert
      dsimp only
      split
      · exact hresolve { s with inserts := Function.update s.inserts n none } n _
      · exact hresolve { s with inserts := Function.update s.inserts n none } n _
  | @lose n event he =>
      exact hresolve { s with inserts := Function.update s.inserts n none } n _
  | giveUp hh hpc => exact ⟨rfl, rfl⟩
  | acknowledge hh hpc => exact ⟨rfl, rfl⟩
  | putBack hh hpc => exact ⟨rfl, rfl⟩
  | arrive hf hfirst => exact ⟨rfl, rfl⟩
  | crash => exact ht.elim
  | close => exact ht.elim

/-- A quiet turn keeps every open delivery attended to, and is one less to come. -/
theorem EachHandled.step (h : EachHandled s) (hh : Handling zod s) (hnumbered : s.queue.Numbered)
    (hcounts : ∀ entry ∈ s.queue.ready, entry.2 ≤ DELIVERY_LIMIT) {t : ReceiptsTurn ι}
    (ht : AtWork t) (hstep : ReceiptsStep zod (fun _ => false) s t s') :
    EachHandled s' ∧ s'.work < s.work := by
  have below : ∀ {n event}, s.inserts n = some event → n < s.queue.deliveries := by
    intro n event he
    by_contra hge
    rw [(hh.fresh n (Nat.le_of_not_lt hge)).2] at he
    cases he
  cases hstep with
  | publish => exact ht.elim
  | placeOrder => exact ht.elim
  | start hc => exact ht.elim
  | deliver hc hfew hd => exact ⟨h.deliver hnumbered hd, work_deliver hh hcounts hd⟩
  | @read n k hk hpc =>
      refine ⟨?_, work_read (hh.number_lt hk) hk hpc⟩
      unfold ReceiptsWorld.read
      split
      · exact h.respond
      · exact (h.setPc .issuing).inserts _
  | insert he => exact ⟨h.insert, work_insert (below he) he⟩
  | @lose n event he =>
      exact ⟨(h.inserts (Function.update s.inserts n none)).resolve .failed,
        work_resolve (by simp [HandlePc.work]) (below he) he⟩
  | @giveUp n k hk hpc =>
      refine ⟨h.setPc .failed, work_lt rfl (hh.number_lt hk) (fun j hj => handling_setPc_ne hj) ?_⟩
      rw [handling_setPc, handling_of_handler hk, hpc]
      simp only [ReceiptsWorld.setPc, HandlePc.work]
      omega
  | acknowledge hk hpc => exact ⟨h.respond, work_respond (hh.number_lt hk) hk⟩
  | putBack hk hpc => exact ⟨h.respond, work_respond (hh.number_lt hk) hk⟩
  | arrive hf hfirst => exact ⟨h.arrive hnumbered hf, work_arrive hf⟩
  | crash => exact ht.elim
  | close => exact ht.elim

/-- The invariant of the quiet turns from `s₁` on. -/
structure Settling (zod : Zod) (orders : List Uuid) (rows₀ : List ReceiptRow)
    (s₁ s : ReceiptsWorld ι) : Prop where
  reach : Lts.Reach (ReceiptsStep zod fun _ => false) (EventsApart zod)
    (.boot ⟨orders, rows₀⟩) s
  attended : EachHandled s
  routed : s.routed = s₁.routed
  consuming : s.consuming = s₁.consuming

theorem settling_descends :
    Descends (ReceiptsStep zod fun _ => false) (fun _ t => AtWork t)
      (Settling zod orders rows₀ s₁) ReceiptsWorld.work := by
  have key : ∀ s t s', Settling zod orders rows₀ s₁ s → AtWork t →
      ReceiptsStep zod (fun _ => false) s t s' → EachHandled s' ∧ s'.work < s.work := by
    intro s t s' h ht hstep
    obtain ⟨_, hcounted⟩ := counted_of_reach h.reach ⟨0, []⟩
    exact h.attended.step hcounted.handling (numbered_of_reach h.reach)
      (ready_le_of_reach h.reach) ht hstep
  refine ⟨fun s t s' h ht hstep => ?_, fun s t s' h ht hstep => (key s t s' h ht hstep).2⟩
  obtain ⟨hrouted, hconsuming⟩ := same_of_atWork ht hstep
  exact ⟨h.reach.then t (apart_of_atWork ht) hstep, (key s t s' h ht hstep).1,
    hrouted.trans h.routed, hconsuming.trans h.consuming⟩

/-- What the quiet turns come to: nothing is under way, and every message has been
acknowledged, with its receipt, or is a dead letter. -/
structure AllSettled (zod : Zod) (s₁ s : ReceiptsWorld ι) : Prop where
  routed : s.routed = s₁.routed
  ready : s.queue.ready = []
  unacked : s.queue.unacked = []
  frames : s.frames = []
  handlers : ∀ n, s.handlers n = none ∧ s.inserts n = none
  settled : ∀ m ∈ s.routed,
    m ∈ s.queue.acked ∧ Receipted zod s.db m ∨ m ∈ s.queue.deadLettered

theorem settled_of_stuck (hkeys : KeysApart rows₀) (h : Settling zod orders rows₀ s₁ s) {c : ι}
    (hc : s₁.consuming c = true)
    (hstuck : Stuck (ReceiptsStep zod fun _ => false) (fun _ t => AtWork t) s) :
    AllSettled zod s₁ s := by
  have possible : ∀ t s', AtWork t → ¬ReceiptsStep zod (fun _ => false) s t s' :=
    fun t s' ht hstep => hstuck s' ⟨t, ht, hstep⟩
  have hconsistent : Consistent zod rows₀ s :=
    h.reach.invariant (.boot hkeys) fun _ _ _ hs hok hstep => hs.step hok hstep
  have hhandlers : ∀ n, s.handlers n = none := by
    intro n
    refine Option.eq_none_iff_forall_ne_some.mpr fun k hk => ?_
    cases hpc : k.pc with
    | delivered => exact possible (.read n) _ trivial (.read hk hpc)
    | issuing => exact possible (.giveUp n) _ trivial (.giveUp hk hpc)
    | issued applied => exact possible (.acknowledge n) _ trivial (.acknowledge hk hpc)
    | failed => exact possible (.putBack n) _ trivial (.putBack hk hpc)
  have hinserts : ∀ n, s.inserts n = none := by
    intro n
    refine Option.eq_none_iff_forall_ne_some.mpr fun event he => ?_
    exact possible (.lose n) _ trivial (.lose he)
  have hframes : s.frames = [] := by
    cases hf : s.frames with
    | nil => rfl
    | cons f frames =>
        have hfirst : s.frames[0]? = some f := by rw [hf]; rfl
        exact (possible (.arrive 0) _ trivial (.arrive hfirst (by simp))).elim
  have hunacked : s.queue.unacked = [] := by
    refine List.eq_nil_iff_forall_not_mem.mpr fun d hd => ?_
    rcases h.attended d hd with hhandler | ⟨f, hf, _⟩
    · exact hhandler (hhandlers _)
    · rw [hframes] at hf
      cases hf
  have hready : s.queue.ready = [] := by
    cases hr : s.queue.ready with
    | nil => rfl
    | cons entry ready =>
        obtain ⟨⟨d, queue⟩, hd⟩ : ∃ r, s.queue.deliver c 0 = some r := by
          rw [Queue.deliver, hr]
          exact ⟨_, rfl⟩
        have hfew : (s.queue.unacked.filter fun d => d.consumer = c).length < PREFETCH := by
          rw [hunacked]
          exact Nat.succ_pos 9
        have hconsuming : s.consuming c = true := h.consuming ▸ hc
        exact (possible (.deliver c 0) _ trivial (.deliver hconsuming hfew hd)).elim
  refine ⟨h.routed, hready, hunacked, hframes, fun n => ⟨hhandlers n, hinserts n⟩,
    fun m hm => ?_⟩
  have hplace := hconsistent.placed.exact.2.mem_iff.mpr hm
  simp only [hready, hunacked, List.map_nil, List.nil_append, List.mem_append] at hplace
  rcases hplace with hacked | hdead
  · exact Or.inl ⟨hacked, hconsistent.effects.acked m hacked⟩
  · exact Or.inr hdead

/-- Once nothing is published and no process dies any more, the consumers settle every
event, whatever fails: the turns come to an end, and then each event has its receipt and
its acknowledgement or is a dead letter. -/
theorem events_settle (hkeys : KeysApart rows₀)
    (hr : Lts.Reach (ReceiptsStep zod fun _ => false) (EventsApart zod)
      (.boot ⟨orders, rows₀⟩) s₁) (hattended : EachHandled s₁) {c : ι}
    (hc : s₁.consuming c = true) :
    Completes (ReceiptsStep zod fun _ => false) (fun _ t => AtWork t) s₁ (AllSettled zod s₁) :=
  settling_descends.completes ⟨hr, hattended, rfl, rfl⟩
    fun _ _ h hstuck => settled_of_stuck hkeys h hc hstuck

end Run

/-! The consumer has started, and an event of a stored order is waiting. -/

def waiting : ReceiptsWorld Unit :=
  ((ReceiptsWorld.boot ⟨[placedOrder], []⟩).publish placedEvent.content).start ()

theorem reach_waiting : Lts.Reach (ReceiptsStep sampleZod fun _ : Unit => false)
    (EventsApart sampleZod) (.boot ⟨[placedOrder], []⟩) waiting := by
  have hpublished : Lts.Reach (ReceiptsStep sampleZod fun _ : Unit => false)
      (EventsApart sampleZod) (.boot ⟨[placedOrder], []⟩)
      ((ReceiptsWorld.boot ⟨[placedOrder], []⟩).publish placedEvent.content) :=
    Lts.Reach.then .refl (.publish placedEvent.content)
      (fun _ _ => ⟨by simp [ReceiptsWorld.boot], by simp [ReceiptsWorld.boot]⟩) .publish
  exact hpublished.then (.start ()) trivial (.start rfl)

theorem events_settle_waiting :
    waiting.queue.ready ≠ [] ∧ Completes (ReceiptsStep sampleZod fun _ => false)
      (fun _ t => AtWork t) waiting (AllSettled sampleZod waiting) :=
  ⟨by decide, events_settle .nil reach_waiting (fun _ hd => absurd hd List.not_mem_nil)
    (c := ()) rfl⟩

end InvestApi.Ref
