import InvestApi.Orders.Bus
import InvestApi.Ref.OrderStream

/-!
# A stream resumes where it broke off

What carries the proof is one sentence about a connected client: every event
of its order since it joined is among what it has received and what is on the
wire. A publish adds to the wire what it adds to the order, a frame only moves
from one to the other. A disconnect loses the wire, and with it that sentence;
what is left is that nothing below the last received id is missing. A
reconnect then has to find everything above that id in the buffer, and it does
when at most a buffer's length of events has come since.
-/

namespace InvestApi.Ref

open InvestApi.Lts

/-- At a reconnect the buffer reaches back to the last received event, or to
the first connect if there is none. -/
def WithinBuffer (s : StreamWorld) : StreamTurn → Prop
  | .connect => ∀ first, s.joined = some first →
      s.bus.seq ≤ s.received.getLast?.elim first (·.data.id) + BUFFER_SIZE
  | _ => True

/-- What the client has received and what is on its way. -/
def StreamWorld.frames (s : StreamWorld) : List SseFrame :=
  s.received ++ s.wire.getD []

/-- The invariant. -/
structure Followed (orderId : String) (s : StreamWorld) : Prop where
  recorded : s.bus.Recorded s.published
  genuine : ∀ f ∈ s.frames, ∃ e ∈ s.published,
    e.order_id = orderId ∧ f = OrdersController.frame e
  increasing : s.frames.Pairwise (·.data.id < ·.data.id)
  waiting : s.joined = none → s.wire = none
  noGap : ∀ first, s.joined = some first → ∀ e ∈ s.published,
    e.order_id = orderId → first < e.id → ∀ f ∈ s.received,
      e.id ≤ f.data.id → OrdersController.frame e ∈ s.received
  underWay : ∀ first, s.joined = some first → s.wire ≠ none → ∀ e ∈ s.published,
    e.order_id = orderId → first < e.id → OrdersController.frame e ∈ s.frames

theorem decimalNumber_toString (n : Nat) : decimalNumber (toString n) = some n := by
  have hlist : (toString n).toList = Nat.toDigits 10 n := Nat.toList_repr
  rw [decimalNumber, hlist, if_pos, Nat.ofDigitChars_toDigits (by decide) (by decide)]
  refine ⟨Nat.toDigits_ne_nil, List.all_eq_true.mpr fun c hc => ?_⟩
  exact Nat.isDigit_of_mem_toDigits (by decide) (by decide) hc

section Steps

variable {orderId : String} {s : StreamWorld}

theorem Followed.boot : Followed orderId .boot where
  recorded := .boot
  genuine _ h := by simp [StreamWorld.frames, StreamWorld.boot] at h
  increasing := .nil
  waiting _ := rfl
  noGap _ h := by simp [StreamWorld.boot] at h
  underWay _ h := by simp [StreamWorld.boot] at h

/-- With every event under way, none below a received one is missing. -/
theorem noGap_of_underWay {received frames : List SseFrame} {e : OrderStatusEvent}
    (hinc : (received ++ frames).Pairwise (·.data.id < ·.data.id))
    (he : OrdersController.frame e ∈ received ++ frames) {f : SseFrame}
    (hf : f ∈ received) (hle : e.id ≤ f.data.id) :
    OrdersController.frame e ∈ received := by
  rcases List.mem_append.mp he with he | he
  · exact he
  · have hlt := (List.pairwise_append.mp hinc).2.2 f hf _ he
    have hid : (OrdersController.frame e).data.id = e.id := rfl
    omega

/-- The ids of the received frames go up to the one the client sends. -/
theorem Followed.received_le (h : Followed orderId s) {last f : SseFrame}
    (hlast : s.received.getLast? = some last) (hf : f ∈ s.received) :
    f.data.id ≤ last.data.id := by
  obtain ⟨init, hinit⟩ := List.getLast?_eq_some_iff.mp hlast
  have hinc := (List.pairwise_append.mp h.increasing).1
  rw [hinit] at hf hinc
  rcases List.mem_append.mp hf with hf | hf
  · have hlt := (List.pairwise_append.mp hinc).2.2 f hf last (by simp)
    omega
  · rw [List.mem_singleton.mp hf]

/-- `Number(lastEventId) || 0` is the id of the last received event. -/
theorem Followed.lastId_eq (h : Followed orderId s) :
    (s.lastEventId.bind decimalNumber).getD 0
      = s.received.getLast?.elim 0 (·.data.id) := by
  rw [StreamWorld.lastEventId]
  cases hlast : s.received.getLast? with
  | none => rfl
  | some last =>
      have hmem : last ∈ s.frames :=
        List.mem_append_left _ (List.mem_of_getLast? hlast)
      obtain ⟨e, _, _, rfl⟩ := h.genuine last hmem
      show (decimalNumber (toString e.id)).getD 0 = e.id
      rw [decimalNumber_toString]
      rfl

/-- A frame carries an id that has been given out. -/
theorem Followed.id_le (h : Followed orderId s) {f : SseFrame} (hf : f ∈ s.frames) :
    f.data.id ≤ s.bus.seq := by
  obtain ⟨e, he, _, rfl⟩ := h.genuine f hf
  exact h.recorded.id_le he

theorem frames_publish (s : StreamWorld) (o : String) (status : TransactionStatus)
    (now : Instant) :
    (s.publish orderId o status now).frames = s.frames ++
      if s.wire = none then []
      else OrdersController.forward orderId (s.bus.publish o status now).2 := by
  cases hwire : s.wire with
  | none => simp [StreamWorld.frames, StreamWorld.publish, hwire]
  | some frames => simp [StreamWorld.frames, StreamWorld.publish, hwire]

theorem mem_forward {event : OrderStatusEvent} {f : SseFrame} :
    f ∈ OrdersController.forward orderId event ↔
      event.order_id = orderId ∧ f = OrdersController.frame event := by
  by_cases ho : event.order_id = orderId
  · simp [OrdersController.forward, ho]
  · simp [OrdersController.forward, ho]

theorem Followed.publish (h : Followed orderId s) (o : String)
    (status : TransactionStatus) (now : Instant) :
    Followed orderId (s.publish orderId o status now) := by
  obtain ⟨event, hevent⟩ : ∃ event, event = (s.bus.publish o status now).2 := ⟨_, rfl⟩
  have hid : event.id = s.bus.seq + 1 := by rw [hevent]; rfl
  have hpub : (s.publish orderId o status now).published = s.published ++ [event] := by
    rw [hevent]; rfl
  have hframes := @frames_publish orderId s o status now
  rw [← hevent] at hframes
  have hnew : ∀ f ∈ (if s.wire = none then []
      else OrdersController.forward orderId event), s.wire ≠ none ∧
        event.order_id = orderId ∧ f = OrdersController.frame event := by
    intro f hf
    split at hf
    · simp at hf
    · next hwire => exact ⟨hwire, mem_forward.mp hf⟩
  refine ⟨h.recorded.publish o status now, fun f hf => ?_, ?_, fun hj => ?_,
    fun first hj e he ho hlt f hf hle => ?_, fun first hj hwire e he ho hlt => ?_⟩
  · rw [hframes, List.mem_append] at hf
    rw [hpub]
    rcases hf with hf | hf
    · obtain ⟨e, he, hrest⟩ := h.genuine f hf
      exact ⟨e, List.mem_append_left _ he, hrest⟩
    · obtain ⟨_, ho, hf⟩ := hnew f hf
      exact ⟨event, by simp, ho, hf⟩
  · rw [hframes, List.pairwise_append]
    refine ⟨h.increasing, ?_, fun f hf f' hf' => ?_⟩
    · split
      · exact .nil
      · unfold OrdersController.forward
        split
        · exact List.pairwise_singleton _ _
        · exact .nil
    · have hle := h.id_le hf
      obtain ⟨_, _, rfl⟩ := hnew f' hf'
      show f.data.id < event.id
      omega
  · show s.wire.map _ = none
    rw [h.waiting hj]
    rfl
  · rw [hpub, List.mem_append, List.mem_singleton] at he
    rcases he with he | rfl
    · exact h.noGap first hj e he ho hlt f hf hle
    · have hold := h.id_le (List.mem_append_left _ hf)
      omega
  · have hopen : s.wire ≠ none := by
      intro hnone
      exact hwire (by show s.wire.map _ = none; rw [hnone]; rfl)
    rw [hframes, if_neg hopen, List.mem_append]
    rw [hpub, List.mem_append, List.mem_singleton] at he
    rcases he with he | rfl
    · exact Or.inl (h.underWay first hj hopen e he ho hlt)
    · exact Or.inr (mem_forward.mpr ⟨ho, rfl⟩)

theorem Followed.connect (h : Followed orderId s) (hbuf : WithinBuffer s .connect) :
    Followed orderId (s.connect orderId) := by
  obtain ⟨lastId, hlastId⟩ : ∃ lastId, lastId = s.received.getLast?.elim 0 (·.data.id) :=
    ⟨_, rfl⟩
  have hframes : (s.connect orderId).frames = s.received ++
      (s.bus.since orderId lastId).map OrdersController.frame := by
    show s.received ++ OrdersController.replay s.bus orderId s.lastEventId = _
    rw [OrdersController.replay, h.lastId_eq, hlastId]
  have hreceived : ∀ f ∈ s.received, f.data.id ≤ lastId := by
    intro f hf
    cases hlast : s.received.getLast? with
    | none => simp [List.getLast?_eq_none_iff.mp hlast] at hf
    | some last =>
        rw [hlastId, hlast]
        exact h.received_le hlast hf
  have hinc : (s.connect orderId).frames.Pairwise (·.data.id < ·.data.id) := by
    rw [hframes, List.pairwise_append]
    refine ⟨(List.pairwise_append.mp h.increasing).1, ?_, fun f hf f' hf' => ?_⟩
    · rw [List.pairwise_map]
      exact h.recorded.since_increasing orderId lastId
    · obtain ⟨e, he, rfl⟩ := List.mem_map.mp hf'
      obtain ⟨_, _, hlt⟩ := h.recorded.mem_since he
      have hle := hreceived f hf
      show f.data.id < e.id
      omega
  -- What the client lacks is above its last id, and still in the buffer.
  have hunder : ∀ first, (s.connect orderId).joined = some first →
      ∀ e ∈ s.published, e.order_id = orderId → first < e.id →
        OrdersController.frame e ∈ (s.connect orderId).frames := by
    intro first hj e he ho hlt
    rw [hframes, List.mem_append]
    have hseq := h.recorded.id_le he
    have hfirst : s.joined.getD s.bus.seq = first := Option.some.inj hj
    cases hjoined : s.joined with
    | none =>
        rw [hjoined, Option.getD_none] at hfirst
        omega
    | some first' =>
        rw [hjoined, Option.getD_some] at hfirst
        subst hfirst
        have hreach := hbuf first' hjoined
        have hreplayed : lastId < e.id → s.bus.seq < e.id + BUFFER_SIZE →
            OrdersController.frame e ∈
              (s.bus.since orderId lastId).map OrdersController.frame := by
          intro hlast hnew
          subst ho
          exact List.mem_map_of_mem (h.recorded.since_complete he hlast hnew)
        cases hlast : s.received.getLast? with
        | none =>
            rw [hlast, Option.elim_none] at hreach hlastId
            exact Or.inr (hreplayed (by omega) (by omega))
        | some last =>
            rw [hlast, Option.elim_some] at hreach hlastId
            rcases Nat.lt_or_ge lastId e.id with hgt | hle
            · exact Or.inr (hreplayed hgt (by omega))
            · exact Or.inl (h.noGap first' hjoined e he ho hlt last
                (List.mem_of_getLast? hlast) (by omega))
  refine ⟨h.recorded, fun f hf => ?_, hinc, fun hj => ?_,
    fun first hj e he ho hlt f hf hle => ?_, fun first hj _ => hunder first hj⟩
  · rw [hframes, List.mem_append] at hf
    rcases hf with hf | hf
    · exact h.genuine f (List.mem_append_left _ hf)
    · obtain ⟨e, he, rfl⟩ := List.mem_map.mp hf
      obtain ⟨hpub, ho, _⟩ := h.recorded.mem_since he
      exact ⟨e, hpub, ho, rfl⟩
  · simp [StreamWorld.connect] at hj
  · exact noGap_of_underWay hinc (hunder first hj e he ho hlt) hf hle

theorem Followed.receive (h : Followed orderId s) {f : SseFrame}
    {rest : List SseFrame} (hwire : s.wire = some (f :: rest)) :
    Followed orderId
      { s with wire := some rest, received := s.received ++ [f] } := by
  have hframes : StreamWorld.frames
      { s with wire := some rest, received := s.received ++ [f] } = s.frames := by
    simp [StreamWorld.frames, hwire]
  have hopen : s.wire ≠ none := by simp [hwire]
  refine ⟨h.recorded, by rw [hframes]; exact h.genuine, by rw [hframes]; exact h.increasing,
    fun hj => absurd (h.waiting hj) hopen, fun first hj e he ho hlt f' hf' hle => ?_,
    fun first hj _ => by rw [hframes]; exact h.underWay first hj hopen⟩
  have hinc := h.increasing
  have hunder := h.underWay first hj hopen e he ho hlt
  rw [← hframes] at hinc hunder
  exact noGap_of_underWay hinc hunder hf' hle

theorem Followed.disconnect (h : Followed orderId s) :
    Followed orderId { s with wire := none } where
  recorded := h.recorded
  genuine f hf := h.genuine f (by
    rw [StreamWorld.frames, Option.getD_none, List.append_nil] at hf
    exact List.mem_append_left _ hf)
  increasing := by
    rw [StreamWorld.frames, Option.getD_none, List.append_nil]
    exact (List.pairwise_append.mp h.increasing).1
  waiting _ := rfl
  noGap := h.noGap
  underWay _ _ hopen := absurd rfl hopen

theorem Followed.step (h : Followed orderId s) {t : StreamTurn} {s' : StreamWorld}
    (hok : WithinBuffer s t) (hstep : StreamStep orderId s t s') :
    Followed orderId s' := by
  cases hstep with
  | publish => exact h.publish _ _ _
  | connect hwire => exact h.connect hok
  | receive hwire => exact h.receive hwire
  | disconnect hwire => exact h.disconnect

end Steps

def StreamWorld.fire (orderId : String) (s : StreamWorld) :
    StreamTurn → Option StreamWorld
  | .publish o status now => some (s.publish orderId o status now)
  | .connect =>
      if s.wire = none ∧ s.joined.all (fun first => decide (s.bus.seq ≤
          s.received.getLast?.elim first (·.data.id) + BUFFER_SIZE)) = true
      then some (s.connect orderId)
      else none
  | .receive =>
      match s.wire with
      | some (f :: rest) =>
          some { s with wire := some rest, received := s.received ++ [f] }
      | _ => none
  | .disconnect =>
      match s.wire with
      | some _ => some { s with wire := none }
      | none => none

theorem StreamWorld.fire_sound {orderId : String} (s : StreamWorld) (t : StreamTurn)
    (s' : StreamWorld) (h : s.fire orderId t = some s') :
    Next (StreamStep orderId) WithinBuffer s s' := by
  cases t with
  | publish o status now =>
      obtain rfl := Option.some.inj h
      exact ⟨.publish o status now, trivial, .publish⟩
  | connect =>
      simp only [fire] at h
      split at h
      · next hc =>
          obtain rfl := Option.some.inj h
          refine ⟨.connect, fun first hj => ?_, .connect hc.1⟩
          have hall := hc.2
          rw [hj, Option.all_some] at hall
          exact of_decide_eq_true hall
      · simp at h
  | receive =>
      simp only [fire] at h
      split at h
      · next f rest hwire =>
          obtain rfl := Option.some.inj h
          exact ⟨.receive, trivial, .receive hwire⟩
      · simp at h
  | disconnect =>
      simp only [fire] at h
      split at h
      · next frames hwire =>
          obtain rfl := Option.some.inj h
          exact ⟨.disconnect, trivial, .disconnect hwire⟩
      · simp at h

end InvestApi.Ref
