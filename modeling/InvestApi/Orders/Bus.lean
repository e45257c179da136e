import InvestApi.Ref.OrderEvents

/-!
# What the event service remembers

The ids are the places of the events in the order of publication, and the
buffer is the end of that list. So whether an event can still be replayed is
a question about its id and the sequence alone.
-/

namespace InvestApi.Ref

/-- `published` is everything the service has published so far. -/
structure OrderEventsService.Recorded (bus : OrderEventsService)
    (published : List OrderStatusEvent) : Prop where
  ids : published.map (·.id) = List.range' 1 bus.seq
  buffer : bus.buffer = published.drop (bus.seq - BUFFER_SIZE)

namespace OrderEventsService.Recorded

variable {bus : OrderEventsService} {published : List OrderStatusEvent}

theorem boot : OrderEventsService.boot.Recorded [] := ⟨rfl, rfl⟩

theorem length_eq (h : bus.Recorded published) : published.length = bus.seq := by
  have hlen := congrArg List.length h.ids
  simpa using hlen

theorem publish (h : bus.Recorded published) (orderId : String)
    (status : TransactionStatus) (now : Instant) :
    (bus.publish orderId status now).1.Recorded
      (published ++ [(bus.publish orderId status now).2]) := by
  have hlen := h.length_eq
  refine ⟨?_, ?_⟩
  · show List.map (·.id) (published ++ [_]) = List.range' 1 (bus.seq + 1)
    rw [List.map_append, h.ids, List.range'_1_concat, Nat.add_comm 1]
    rfl
  · simp only [OrderEventsService.publish, h.buffer, List.length_append,
      List.length_drop, List.length_singleton, hlen]
    by_cases hfull : bus.seq < BUFFER_SIZE
    · rw [if_neg (by omega), show bus.seq - BUFFER_SIZE = 0 by omega,
        show bus.seq + 1 - BUFFER_SIZE = 0 by omega]
      rfl
    · rw [if_pos (by omega), ← List.drop_append_of_le_length (by omega), List.drop_drop,
        show bus.seq - BUFFER_SIZE + 1 = bus.seq + 1 - BUFFER_SIZE by omega]

theorem increasing (h : bus.Recorded published) :
    published.Pairwise (·.id < ·.id) := by
  have hlt : (List.range' 1 bus.seq).Pairwise (· < ·) := List.pairwise_lt_range' 1
  rw [← h.ids, List.pairwise_map] at hlt
  exact hlt

theorem id_le (h : bus.Recorded published) {e : OrderStatusEvent}
    (he : e ∈ published) : e.id ≤ bus.seq := by
  have hid := List.mem_map_of_mem (f := (·.id)) he
  rw [h.ids, List.mem_range'_1] at hid
  omega

theorem published_of_buffer (h : bus.Recorded published) {e : OrderStatusEvent}
    (he : e ∈ bus.buffer) : e ∈ published := by
  rw [h.buffer] at he
  exact List.mem_of_mem_drop he

/-- The newest events are there still. -/
theorem buffered (h : bus.Recorded published) {e : OrderStatusEvent}
    (he : e ∈ published) (hnew : bus.seq < e.id + BUFFER_SIZE) :
    e ∈ bus.buffer := by
  obtain ⟨n, hn, rfl⟩ := List.mem_iff_getElem.mp he
  have hid : (published[n]).id = 1 + n := by
    have hget := congrArg (fun l => l[n]?) h.ids
    have hlt : n < bus.seq := by rw [← h.length_eq]; exact hn
    simpa [hn, hlt] using hget
  rw [hid] at hnew
  have hlen := h.length_eq
  obtain ⟨old, hold⟩ : ∃ old, old = bus.seq - BUFFER_SIZE := ⟨_, rfl⟩
  have hle : old ≤ n := by omega
  rw [h.buffer, ← hold, List.mem_drop_iff_getElem]
  exact ⟨n - old, by omega, by simp only [Nat.add_sub_cancel' hle]⟩

theorem mem_since (h : bus.Recorded published) {e : OrderStatusEvent}
    {orderId : String} {lastId : Nat} (he : e ∈ bus.since orderId lastId) :
    e ∈ published ∧ e.order_id = orderId ∧ lastId < e.id := by
  rw [since, List.mem_filter, Bool.and_eq_true, beq_iff_eq, decide_eq_true_eq] at he
  exact ⟨h.published_of_buffer he.1, he.2⟩

/-- A replay leaves out nothing that is not evicted yet. -/
theorem since_complete (h : bus.Recorded published) {e : OrderStatusEvent}
    {lastId : Nat} (he : e ∈ published) (hlast : lastId < e.id)
    (hnew : bus.seq < e.id + BUFFER_SIZE) : e ∈ bus.since e.order_id lastId := by
  rw [since, List.mem_filter, Bool.and_eq_true, beq_iff_eq, decide_eq_true_eq]
  exact ⟨h.buffered he hnew, rfl, hlast⟩

theorem since_increasing (h : bus.Recorded published) (orderId : String) (lastId : Nat) :
    (bus.since orderId lastId).Pairwise (·.id < ·.id) := by
  have hbuffer := h.increasing.sublist (List.drop_sublist (bus.seq - BUFFER_SIZE) _)
  rw [← h.buffer] at hbuffer
  exact hbuffer.filter _

end OrderEventsService.Recorded

end InvestApi.Ref
