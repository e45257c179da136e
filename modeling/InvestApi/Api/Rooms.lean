import InvestApi.Api.Authorized

/-!
# What a socket hears

A socket hears an event when it is in the order's room as the event is
published, and it is in a room because a join has been let in. Both facts stay,
and so does what the join has found out: who the token speaks for, and whose the
order is. So whoever hears of an order owns it (`hears_own_orders`). The other
way round, a socket that is in the room misses nothing until it disconnects
(`hears_everything`).

A room goes by the text of the id. The events of an order under another spelling
of its id are in another room.
-/

namespace InvestApi.Ref

open InvestApi.Pg InvestApi.Lts InvestApi.Isolation

variable {κ ρ ι σ : Type}

theorem orderRoom_injective : Function.Injective orderRoom := by
  intro a b h
  simpa [orderRoom, String.append_right_inj] using h

/-- What a socket has heard once `events` are published. -/
theorem foldl_hear (events : List (ι × OrderStatusEvent)) (socket : OrderSocket) :
    events.foldl (fun socket p => socket.hear p.2) socket =
      { socket with
        heard := socket.heard ++ if socket.connected then
          (events.map (·.2)).filter fun e => orderRoom e.order_id ∈ socket.rooms else [] } := by
  induction events generalizing socket with
  | nil => simp
  | cons p events ih =>
      rw [List.foldl_cons, ih]
      by_cases hconn : socket.connected = true
      · by_cases hroom : orderRoom p.2.order_id ∈ socket.rooms
        · simp [OrderSocket.hear, hconn, hroom]
        · simp [OrderSocket.hear, hconn, hroom]
      · simp [OrderSocket.hear, hconn]

/-- Who is let in owns the order. -/
theorem atomically_joined {validators : Validators} {d : LedgerDb} {message : JoinMessage σ}
    {caller : Option AuthUser} {room : String}
    (h : .joined room = OrdersGateway.atomically validators d message caller) :
    ∃ user orderId, caller = some user ∧ message.orderId = some orderId ∧
      room = orderRoom orderId ∧ ownerOf d orderId = some user.id := by
  cases caller with
  | none => simp [OrdersGateway.atomically] at h
  | some user =>
      simp only [OrdersGateway.atomically] at h
      cases ho : message.orderId.filter validators.isUUID4 with
      | none => simp [ho] at h
      | some orderId =>
          have horder : message.orderId = some orderId := (Option.filter_eq_some_iff.mp ho).1
          simp only [ho, OrdersGateway.atOrder] at h
          cases hv : ownerOf d orderId with
          | none => simp [hv] at h
          | some owner =>
              by_cases hmine : owner = user.id
              · simp only [hv, hmine, if_true, JoinAck.joined.injEq] at h
                exact ⟨user, orderId, rfl, horder, h, by rw [hv, hmine]⟩
              · simp [hv, hmine] at h

theorem verdict_some {message : JoinMessage σ} {phase : AccessPhase} {user : AuthUser}
    (h : OrdersGateway.verdict message phase = some (some user)) :
    ∃ since checkedAt query, phase = .answered since checkedAt query (.ok user) := by
  unfold OrdersGateway.verdict at h
  split at h
  · cases phase with
    | waiting => cases h
    | verified since checkedAt => cases h
    | asking since checkedAt now => cases h
    | expired since checkedAt => cases h
    | answered since checkedAt query reply =>
        cases reply with
        | error err => cases h
        | ok user' =>
            cases h
            exact ⟨since, checkedAt, query, rfl⟩
  · cases h

/-! ## What is published -/

/-- From `s` to `s'` the events `since` are emitted, by calls that return. -/
structure Publishes (s s' : EventWorld ι) (since : List (ι × OrderStatusEvent)) : Prop where
  emitted : s'.emitted = s.emitted ++ since
  returned : ∃ more, s'.returned = s.returned ++ more ∧ (since.map (·.1)).Sublist more

theorem Publishes.refl (s : EventWorld ι) : Publishes s s [] :=
  ⟨(List.append_nil _).symm, [], (List.append_nil _).symm, by simp⟩

theorem Publishes.trans {s s' s'' : EventWorld ι} {since since' : List (ι × OrderStatusEvent)}
    (h : Publishes s s' since) (h' : Publishes s' s'' since') :
    Publishes s s'' (since ++ since') := by
  obtain ⟨more, hmore, hsub⟩ := h.returned
  obtain ⟨more', hmore', hsub'⟩ := h'.returned
  refine ⟨by rw [h'.emitted, h.emitted, List.append_assoc], more ++ more', ?_, ?_⟩
  · rw [hmore', hmore, List.append_assoc]
  · rw [List.map_append]
    exact hsub.append hsub'

section Events

variable [DecidableEq ι] {env : Env} {calls : ι → LedgerCall} {s s' : EventWorld ι}
  {t : EventTurn ι} {d : LedgerDb}

theorem EventStep.publishes (h : EventStep env calls s t s') :
    ∃ since, Publishes s s' since := by
  cases h with
  | ledger h => exact ⟨[], (List.append_nil _).symm, [], (List.append_nil _).symm, by simp⟩
  | @resume i f now hf hr =>
      rcases resume_cases calls s i f now with ⟨_, _, _, _, _, h⟩ | ⟨_, h⟩
      · rw [h]
        exact ⟨_, rfl, [i], rfl, by simp⟩
      · rw [h]
        exact ⟨[], (List.append_nil _).symm, [i], rfl, by simp⟩

theorem EventStep.returned_nodup (h : EventStep env calls s t s') (hn : s.returned.Nodup) :
    s'.returned.Nodup := by
  cases h with
  | ledger h => exact hn
  | @resume i f now hf hr =>
      rw [EventWorld.resume_returned, List.nodup_append]
      refine ⟨hn, List.nodup_singleton i, fun a ha b hb hab => ?_⟩
      rw [List.mem_singleton.mp hb] at hab
      exact hr (hab ▸ ha)

theorem returned_nodup (h : Reachable (EventStep env calls) (.boot d) s) :
    s.returned.Nodup := by
  refine h.invariant (I := fun s => s.returned.Nodup) ?_ fun s t s' ih _ hstep =>
    hstep.returned_nodup ih
  exact List.nodup_nil

/-- An event is of the call that emitted it. -/
def Emitted (calls : ι → LedgerCall) (s : EventWorld ι) : Prop :=
  ∀ i e, (i, e) ∈ s.emitted → (i, .committed (.changed true)) ∈ s.ledger.log ∧
    i ∈ s.returned ∧ ∃ caller, calls i = .changeStatus e.order_id e.status caller

theorem Emitted.step (h : Emitted calls s) (hstep : EventStep env calls s t s') :
    Emitted calls s' := by
  cases hstep with
  | ledger hs =>
      intro i e he
      obtain ⟨hlog, hret, hcall⟩ := h i e he
      obtain ⟨more, hmore⟩ := ReachUnder.log_prefix (.single hs)
      refine ⟨?_, hret, hcall⟩
      rw [hmore]
      exact List.mem_append_left _ hlog
  | @resume k f now hf hr =>
      intro i e he
      rw [EventWorld.resume_ledger, EventWorld.resume_returned]
      rcases resume_cases calls s k f now with
        ⟨orderId, status, user, hk, hchanged, hs⟩ | ⟨_, hs⟩
      · rw [hs] at he
        rcases List.mem_append.mp he with hold | hnew
        · obtain ⟨hlog, hret, hcall⟩ := h i e hold
          exact ⟨hlog, List.mem_append_left _ hret, hcall⟩
        · obtain ⟨rfl, rfl⟩ := Prod.mk.inj (List.mem_singleton.mp hnew)
          exact ⟨hchanged ▸ hf, by simp, user, hk⟩
      · rw [hs] at he
        obtain ⟨hlog, hret, hcall⟩ := h i e he
        exact ⟨hlog, List.mem_append_left _ hret, hcall⟩

theorem emitted_of_reach (h : Reachable (EventStep env calls) (.boot d) s) : Emitted calls s := by
  refine h.invariant (fun i e he => ?_) fun s t s' ih _ hstep => ih.step hstep
  simp [EventWorld.boot] at he

/-- A call that has changed an order and returned has emitted its event. -/
theorem emits_of_returned (hlink : Linked d) (h : Reachable (EventStep env calls) (.boot d) s)
    {i : ι} {orderId : String} {status : TransactionStatus} {caller : AuthUser}
    (hi : calls i = .changeStatus orderId status caller)
    (hlog : (i, .committed (.changed true)) ∈ s.ledger.log) (hret : i ∈ s.returned) :
    ∃ e, (i, e) ∈ s.emitted ∧ e.order_id = orderId ∧ e.status = status := by
  have hacc : Accounted env calls d s := .of_reach h
  obtain ⟨d₀, ws, hwrote, _⟩ := wroteOwn_of_committed hlink hacc.reach hlog
  obtain ⟨u, hu⟩ : ∃ u, pgUuidIn orderId = some u := by
    have hchanged := hwrote.wrote
    rw [hi] at hchanged
    cases hchanged with
    | relabelled hu ht hs hside => exact ⟨_, hu⟩
    | crossed hu ht hside hacc => exact ⟨_, hu⟩
  have hchange : (i, status) ∈ changes calls u s.ledger.log := by
    refine mem_changes.mpr ⟨_, hlog, ?_⟩
    simp [hi, LedgerCall.change, hu]
  have hevent := (hacc.events u (i, status)).mpr ⟨hchange, hret⟩
  rw [eventsOf, List.mem_filterMap] at hevent
  obtain ⟨⟨k, e⟩, hmem, heq⟩ := hevent
  split at heq
  · obtain ⟨rfl, rfl⟩ := Prod.mk.inj (Option.some.inj heq)
    obtain ⟨_, _, caller', hcall⟩ := emitted_of_reach h k e hmem
    rw [hi] at hcall
    exact ⟨e, hmem, (LedgerCall.changeStatus.inj hcall).1.symm, rfl⟩
  · cases heq

end Events

/-! ## One socket -/

section Sockets

variable [DecidableEq κ] [DecidableEq ρ] [DecidableEq ι] [DecidableEq σ]
  {A : Api κ ρ ι σ} {s s' s₁ s₂ : ApiWorld κ ρ ι σ} {t : ApiTurn ρ ι σ}
  {clock : Instant} {d : LedgerDb} {w : σ}

/-- What becomes of a socket: it hears what is published, it joins the room of an
order it has asked for, or it goes. -/
theorem ApiStep.socket (h : ApiStep A s t s') (w : σ) :
    (∃ since, Publishes s.events s'.events since ∧
      s'.sockets w = since.foldl (fun socket p => socket.hear p.2) (s.sockets w)) ∨
    s'.events = s.events ∧
      ((∃ r message orderId, A.joins r = some message ∧ message.client = w ∧
          s'.joins r = .acked (.joined (orderRoom orderId)) ∧
          s'.sockets w = (s.sockets w).join (orderRoom orderId)) ∨
        s'.sockets w = (s.sockets w).disconnect) := by
  have quiet : s'.events = s.events → s'.sockets w = s.sockets w →
      ∃ since, Publishes s.events s'.events since ∧
        s'.sockets w = since.foldl (fun socket p => socket.hear p.2) (s.sockets w) :=
    fun he hw => ⟨[], he ▸ .refl _, hw⟩
  cases h with
  | session h => exact Or.inl (quiet rfl rfl)
  | event h hstart =>
      obtain ⟨since, hsince⟩ := h.publishes
      refine Or.inl ⟨since, hsince, ?_⟩
      simp only [ApiWorld.publish, hsince.emitted, List.drop_left]
  | enter hr hm hguard hverdict => exact Or.inl (quiet rfl rfl)
  | query hr => exact Or.inl (quiet rfl rfl)
  | fault hr => exact Or.inl (quiet rfl rfl)
  | refuse hr => exact Or.inl (quiet rfl rfl)
  | @join r message orderId user tx hr hm =>
      by_cases e : w = message.client
      · subst e
        refine Or.inr ⟨rfl, Or.inl ⟨r, message, orderId, hm, rfl, ?_, ?_⟩⟩
        · simp [ApiWorld.setJoin, ApiWorld.setSocket]
        · simp [ApiWorld.setSocket]
      · exact Or.inl (quiet rfl (by simp [ApiWorld.setJoin, ApiWorld.setSocket, e]))
  | @disconnect w' =>
      by_cases e : w = w'
      · subst e
        exact Or.inr ⟨rfl, Or.inr (by simp [ApiWorld.setSocket])⟩
      · exact Or.inl (quiet rfl (by simp [ApiWorld.setSocket, e]))

theorem acked_stays (h : ApiStep A s t s') {r : ρ} {ack : JoinAck}
    (hr : s.joins r = .acked ack) : s'.joins r = .acked ack := by
  rcases h.joins r with hsame | ⟨_, _, hmove⟩
  · rw [hsame]
    exact hr
  · rw [hr] at hmove
    cases hmove

/-- A socket is in rooms it was let into, and has heard what was published in
them. -/
structure SocketSound (A : Api κ ρ ι σ) (s : ApiWorld κ ρ ι σ) (w : σ) : Prop where
  rooms : ∀ room ∈ (s.sockets w).rooms, ∃ r message, A.joins r = some message ∧
    message.client = w ∧ s.joins r = .acked (.joined room)
  heard : ∀ e ∈ (s.sockets w).heard, orderRoom e.order_id ∈ (s.sockets w).rooms ∧
    ∃ i, (i, e) ∈ s.events.emitted

theorem SocketSound.step (h : SocketSound A s w) (hstep : ApiStep A s t s') :
    SocketSound A s' w := by
  have hrooms : ∀ room ∈ (s.sockets w).rooms, ∃ r message, A.joins r = some message ∧
      message.client = w ∧ s'.joins r = .acked (.joined room) := by
    intro room hroom
    obtain ⟨r, message, hm, hw, hr⟩ := h.rooms room hroom
    exact ⟨r, message, hm, hw, acked_stays hstep hr⟩
  rcases hstep.socket w with ⟨since, hsince, hw⟩ | ⟨hsame, hjoin | hgone⟩
  · rw [foldl_hear] at hw
    refine ⟨by rw [hw]; exact hrooms, fun e he => ?_⟩
    rw [hw] at he ⊢
    rw [hsince.emitted]
    rcases List.mem_append.mp he with hold | hnew
    · obtain ⟨hroom, i, hi⟩ := h.heard e hold
      exact ⟨hroom, i, List.mem_append_left _ hi⟩
    · split at hnew
      · simp only [List.mem_filter, List.mem_map, decide_eq_true_eq] at hnew
        obtain ⟨⟨p, hp, rfl⟩, hroom⟩ := hnew
        exact ⟨hroom, p.1, List.mem_append_right _ hp⟩
      · simp at hnew
  · obtain ⟨r, message, orderId, hm, hclient, hr, hw⟩ := hjoin
    refine ⟨fun room hroom => ?_, fun e he => ?_⟩
    · rw [hw] at hroom
      rcases List.mem_cons.mp hroom with rfl | hold
      · exact ⟨r, message, hm, hclient, hr⟩
      · exact hrooms room hold
    · rw [hw] at he ⊢
      rw [hsame]
      obtain ⟨hroom, hi⟩ := h.heard e he
      exact ⟨List.mem_cons_of_mem _ hroom, hi⟩
  · rw [OrderSocket.disconnect] at hgone
    refine ⟨by rw [hgone]; exact hrooms, fun e he => ?_⟩
    rw [hgone] at he ⊢
    rw [hsame]
    exact h.heard e he

theorem socketSound_of_reach (h : Reachable (ApiStep A) (.boot clock d) s) (w : σ) :
    SocketSound A s w := by
  refine h.invariant (I := fun s => SocketSound A s w) ?_ fun s t s' ih _ hstep => ih.step hstep
  refine ⟨fun room hroom => ?_, fun e he => ?_⟩
  · simp [ApiWorld.boot, OrderSocket.fresh] at hroom
  · simp [ApiWorld.boot, OrderSocket.fresh] at he

/-- Who owns the order whose room the socket `w` is in, and that a token of theirs was
accepted for it. -/
theorem owner_of_room (hvalid : A.validators.ReadsUuid) (hlink : Linked d)
    (h : Reachable (ApiStep A) (.boot clock d) s) {orderId : String}
    (hroom : orderRoom orderId ∈ (s.sockets w).rooms) :
    ∃ r message user, A.joins r = some message ∧ message.client = w ∧
      message.orderId = some orderId ∧ Accepted A.sessions s.sessions r user ∧
      ownerOf s.db orderId = some user.id := by
  obtain ⟨r, message, hm, hw, hr⟩ := (socketSound_of_reach h w).rooms _ hroom
  obtain ⟨past, htrace⟩ := Reach.exists_trace h
  obtain ⟨_, hkeeps, hsound⟩ := joinSound_of_trace hvalid hlink .refl hm rfl htrace
  rw [hr] at hsound
  cases hsound with
  | @acked caller _ hverdict hack =>
      have hjoined : ∃ user orderId', caller = some user ∧ message.orderId = some orderId' ∧
          orderRoom orderId = orderRoom orderId' ∧ ownerOf s.db orderId' = some user.id := by
        rcases hack with hack | hack
        · obtain ⟨user, orderId', hu, ho, hroom', hown⟩ := atomically_joined hack
          exact ⟨user, orderId', hu, ho, hroom', ownerOf_keeps hkeeps hown⟩
        · exact atomically_joined hack
      obtain ⟨user, orderId', rfl, ho, hroom', hown⟩ := hjoined
      obtain rfl := orderRoom_injective hroom'
      obtain ⟨since, checkedAt, query, hphase⟩ := verdict_some hverdict
      exact ⟨r, message, user, hm, hw, ho, accepted_of_answered (sessions_reach h) hphase, hown⟩

/-- Whoever hears of an order owns it: the socket has joined the order's room with an
accepted token of a user, it is that user's order, and the change is that user's
own. -/
theorem hears_own_orders (hvalid : A.validators.ReadsUuid) (hlink : Linked d)
    (h : Reachable (ApiStep A) (.boot clock d) s) {e : OrderStatusEvent}
    (he : e ∈ (s.sockets w).heard) :
    ∃ r message user, A.joins r = some message ∧ message.client = w ∧
      message.orderId = some e.order_id ∧ Accepted A.sessions s.sessions r user ∧
      ownerOf s.db e.order_id = some user.id ∧
      ∃ i caller, A.calls i = .changeStatus e.order_id e.status caller ∧
        AskedBy A s user.id i := by
  obtain ⟨hroom, i, hi⟩ := (socketSound_of_reach h w).heard e he
  obtain ⟨r, message, user, hm, hw, horder, haccepted, hown⟩ :=
    owner_of_room hvalid hlink h hroom
  obtain ⟨hlog, _, caller, hcall⟩ := emitted_of_reach (events_reach h) i e hi
  have hasked : AskedBy A s caller.id i := by
    refine askedBy_of_ended h (List.mem_map_of_mem (f := Prod.fst) hlog) ?_ ?_
    · simp [hcall, LedgerCall.route]
    · rw [hcall]
      rfl
  -- What the call checked of the order is what the join found out about it.
  obtain ⟨d₀, ws, hwrote, hkeeps⟩ := wroteOwn_of_committed hlink (ledger_reach h) hlog
  have hentitled : Entitled s.db (A.calls i) := hwrote.entitled.keeps hkeeps
  rw [hcall] at hentitled
  obtain ⟨t, ht, hmine⟩ := ownerOf_eq_some.mp hown
  have hsame : caller.id = user.id := ownsOrder_unique (hentitled t ht) hmine
  exact ⟨r, message, user, hm, hw, horder, haccepted, hown, i, caller, hcall, hsame ▸ hasked⟩

/-! ## From the join on -/

/-- What a socket has heard of the order `orderId`. -/
def OrderSocket.heardOf (socket : OrderSocket) (orderId : String) : List OrderStatusEvent :=
  socket.heard.filter fun e => e.order_id = orderId

/-- The part of `events` that is about the order `orderId`. -/
def aboutOrder (orderId : String) (events : List (ι × OrderStatusEvent)) :
    List (ι × OrderStatusEvent) :=
  events.filter fun p => p.2.order_id = orderId

omit [DecidableEq ι] in
theorem heardOf_foldl {orderId : String} {socket : OrderSocket}
    (hroom : orderRoom orderId ∈ socket.rooms) (hconn : socket.connected = true)
    (events : List (ι × OrderStatusEvent)) :
    (events.foldl (fun socket p => socket.hear p.2) socket).heardOf orderId
      = socket.heardOf orderId ++ (aboutOrder orderId events).map (·.2) := by
  have hfilter : (((events.map (·.2)).filter fun e => orderRoom e.order_id ∈ socket.rooms).filter
      fun e => e.order_id = orderId) = (aboutOrder orderId events).map (·.2) := by
    rw [List.filter_filter, aboutOrder, List.filter_map]
    congr 1
    refine List.filter_congr fun p _ => ?_
    by_cases ho : p.2.order_id = orderId
    · simp [ho, hroom]
    · simp [ho]
  rw [foldl_hear, OrderSocket.heardOf, OrderSocket.heardOf, if_pos hconn, List.filter_append,
    hfilter]

/-- A socket in a room hears the order's events until it goes. -/
theorem heard_of_run (hrun : Reachable (ApiStep A) s₁ s₂) {orderId : String}
    (hroom : orderRoom orderId ∈ (s₁.sockets w).rooms)
    (hconn : (s₂.sockets w).connected = true) :
    orderRoom orderId ∈ (s₂.sockets w).rooms ∧ ∃ since, Publishes s₁.events s₂.events since ∧
      (s₂.sockets w).heardOf orderId
        = (s₁.sockets w).heardOf orderId ++ (aboutOrder orderId since).map (·.2) := by
  induction hrun with
  | refl => exact ⟨hroom, [], .refl _, (List.append_nil _).symm⟩
  | @tail mid last hmid hnext ih =>
      obtain ⟨t, _, hstep⟩ := hnext
      rcases hstep.socket w with ⟨new, hnew, hw⟩ | ⟨hsame, hjoin | hgone⟩
      · have hmidconn : (mid.sockets w).connected = true := by
          rw [hw, foldl_hear] at hconn
          exact hconn
        obtain ⟨hin, since, hsince, hheard⟩ := ih hmidconn
        refine ⟨by rw [hw, foldl_hear]; exact hin, since ++ new, hsince.trans hnew, ?_⟩
        rw [hw, heardOf_foldl hin hmidconn, hheard, List.append_assoc, aboutOrder, aboutOrder,
          aboutOrder, List.filter_append, List.map_append]
      · obtain ⟨r, message, orderId', _, _, _, hw⟩ := hjoin
        rw [hw] at hconn ⊢
        obtain ⟨hin, since, hsince, hheard⟩ := ih hconn
        exact ⟨List.mem_cons_of_mem _ hin, since, hsame ▸ hsince, hheard⟩
      · rw [hgone] at hconn
        cases hconn

/-- A socket that has joined hears one event each, in the order of their numbers, of
exactly the changes whose calls have returned since, until it disconnects. -/
theorem hears_everything (hlink : Linked d) (h₁ : Reachable (ApiStep A) (.boot clock d) s₁)
    (hrun : Reachable (ApiStep A) s₁ s₂) {orderId : String}
    (hroom : orderRoom orderId ∈ (s₁.sockets w).rooms)
    (hconn : (s₂.sockets w).connected = true) :
    ∃ news : List (ι × OrderStatusEvent),
      (s₂.sockets w).heardOf orderId = (s₁.sockets w).heardOf orderId ++ news.map (·.2) ∧
      (news.map (·.2.id)).Pairwise (· < ·) ∧ (news.map (·.1)).Nodup ∧
      ∀ i status, (∃ e, (i, e) ∈ news ∧ e.status = status) ↔
        (∃ caller, A.calls i = .changeStatus orderId status caller) ∧
          (i, .committed (.changed true)) ∈ s₂.events.ledger.log ∧
          i ∈ s₂.events.returned ∧ i ∉ s₁.events.returned := by
  obtain ⟨_, since, hsince, hheard⟩ := heard_of_run hrun hroom hconn
  have h₂ : Reachable (ApiStep A) (.boot clock d) s₂ := reachable_trans h₁ hrun
  have hsub : (aboutOrder orderId since).Sublist s₂.events.emitted := by
    rw [hsince.emitted]
    exact List.filter_sublist.trans (List.sublist_append_right _ _)
  obtain ⟨more, hmore, hcalls⟩ := hsince.returned
  have hnodup : (s₁.events.returned ++ more).Nodup := hmore ▸ returned_nodup (events_reach h₂)
  have hcalls' : ((aboutOrder orderId since).map (·.1)).Sublist more :=
    (List.filter_sublist.map _).trans hcalls
  refine ⟨aboutOrder orderId since, hheard, ?_, ?_, fun i status => ⟨?_, ?_⟩⟩
  · have hinc := (Accounted.of_reach (events_reach h₂)).recorded.increasing
    rw [List.pairwise_map] at hinc ⊢
    exact hinc.sublist hsub
  · exact (List.nodup_append.mp hnodup).2.1.sublist hcalls'
  · rintro ⟨e, he, rfl⟩
    have hmine : e.order_id = orderId := by simpa using (List.mem_filter.mp he).2
    obtain ⟨hlog, hret, hcaller⟩ :=
      emitted_of_reach (events_reach h₂) i e (hsub.subset he)
    refine ⟨hmine ▸ hcaller, hlog, hret, fun hbefore => ?_⟩
    have hnow : i ∈ more := hcalls'.subset (List.mem_map_of_mem (f := Prod.fst) he)
    exact List.disjoint_of_nodup_append hnodup hbefore hnow
  · rintro ⟨⟨caller, hcall⟩, hlog, hret, hnot⟩
    obtain ⟨e, he, hmine, hstatus⟩ := emits_of_returned hlink (events_reach h₂) hcall hlog hret
    refine ⟨e, List.mem_filter.mpr ⟨?_, by simpa using hmine⟩, hstatus⟩
    rw [hsince.emitted] at he
    rcases List.mem_append.mp he with hold | hnew
    · exact absurd (emitted_of_reach (events_reach h₁) i e hold).2.1 hnot
    · exact hnew

end Sockets

/-! The owner joins the order's room, and marks the order failed. -/

def failed : List (ApiMove (Fin 2) (Fin 1)) := failing ++ [.event (.resume 0)]

theorem hears_own_orders_failed :
    ∃ s e, Reachable (ApiStep sampleApi) (.boot 0 orderDb) s ∧ e ∈ (s.sockets 0).heard ∧
      ∃ r message user, sampleApi.joins r = some message ∧ message.client = 0 ∧
        message.orderId = some e.order_id ∧ Accepted sampleApi.sessions s.sessions r user ∧
        ownerOf s.db e.order_id = some user.id ∧
        ∃ i caller, sampleApi.calls i = .changeStatus e.order_id e.status caller ∧
          AskedBy sampleApi s user.id i := by
  have hrun : (follow (ApiWorld.fire sampleApi) (joining ++ failed) (.boot 0 orderDb)).any
      (fun s => (s.sockets 0).heard = [⟨1, sampleOrder.text, .failed, toISOString 0⟩]) = true := by
    decide +kernel
  obtain ⟨s, hr, hp⟩ := exists_follow sampleApi_next _ _ _ hrun
  have he : ⟨1, sampleOrder.text, .failed, toISOString 0⟩ ∈ (s.sockets 0).heard := by
    rw [of_decide_eq_true hp]
    exact List.mem_singleton_self _
  exact ⟨s, _, hr, he, hears_own_orders sampleValidators_reads linked_orderDb hr he⟩

theorem hears_everything_failed :
    ∃ s₁ s₂, Reachable (ApiStep sampleApi) (.boot 0 orderDb) s₁ ∧
      Reachable (ApiStep sampleApi) s₁ s₂ ∧
      ∃ news : List (Fin 1 × OrderStatusEvent),
        (s₂.sockets 0).heardOf sampleOrder.text
          = (s₁.sockets 0).heardOf sampleOrder.text ++ news.map (·.2) ∧
        (news.map (·.2.id)).Pairwise (· < ·) ∧ (news.map (·.1)).Nodup ∧
        ∀ i status, (∃ e, (i, e) ∈ news ∧ e.status = status) ↔
          (∃ caller, sampleApi.calls i = .changeStatus sampleOrder.text status caller) ∧
            (i, .committed (.changed true)) ∈ s₂.events.ledger.log ∧
            i ∈ s₂.events.returned ∧ i ∉ s₁.events.returned := by
  have hrun : (follow (ApiWorld.fire sampleApi) joining (.boot 0 orderDb)).any
      (fun s₁ => decide (orderRoom sampleOrder.text ∈ (s₁.sockets 0).rooms) &&
        (follow (ApiWorld.fire sampleApi) failed s₁).any fun s₂ =>
          decide ((s₂.sockets 0).connected = true ∧ s₂.events.returned = [0])) = true := by
    decide +kernel
  obtain ⟨s₁, hr₁, hp₁⟩ := exists_follow sampleApi_next _ _ _ hrun
  obtain ⟨hroom, hrest⟩ := Bool.and_eq_true_iff.mp hp₁
  obtain ⟨s₂, hr₂, hp₂⟩ := exists_follow sampleApi_next _ _ _ hrest
  obtain ⟨hconn, _⟩ := of_decide_eq_true hp₂
  exact ⟨s₁, s₂, hr₁, hr₂,
    hears_everything linked_orderDb hr₁ hr₂ (of_decide_eq_true hroom) hconn⟩

end InvestApi.Ref
