import InvestApi.Ledger.Books
import InvestApi.Lts.Run
import InvestApi.Orders.Bus

/-!
# Order events and the order of commits

An event is numbered after the COMMIT it reports, so the events of an order
mirror its committed changes exactly as long as the calls go on in the order
in which they committed. What holds whatever the calls do is weaker: a change
has an event if and only if its call has returned. From there one step keeps
the events a prefix of the changes if and only if the call that goes on is
the first of those still to go on.
-/

namespace InvestApi.Ref

open InvestApi.Pg InvestApi.Lts

variable {ι : Type}

/-- The status a call that ended as `f` has given the order `u`. -/
def LedgerCall.change (c : LedgerCall) (f : Finish ApiError LedgerReply)
    (u : Uuid) : Option TransactionStatus :=
  match c, f with
  | .changeStatus orderId status _, .committed (.changed true) =>
      if pgUuidIn orderId = some u then some status else none
  | _, _ => none

/-- The committed changes of an order's status, in commit order, each with
its call. -/
def changes (calls : ι → LedgerCall) (u : Uuid)
    (log : List (ι × Finish ApiError LedgerReply)) :
    List (ι × TransactionStatus) :=
  log.filterMap fun entry =>
    ((calls entry.1).change entry.2 u).map fun status => (entry.1, status)

/-- The events of an order, as they were emitted. -/
def eventsOf (u : Uuid) (emitted : List (ι × OrderStatusEvent)) :
    List (ι × TransactionStatus) :=
  emitted.filterMap fun p =>
    if pgUuidIn p.2.order_id = some u then some (p.1, p.2.status) else none

/-- Every call that has ended has returned. -/
def EventWorld.Settled (s : EventWorld ι) : Prop :=
  ∀ i ∈ s.ledger.log.map (·.1), i ∈ s.returned

/-- The events mirror the commits. -/
structure Mirrors (calls : ι → LedgerCall) (s : EventWorld ι) : Prop where
  increasing : s.emitted.Pairwise fun p q => p.2.id < q.2.id
  inOrder : ∀ u, eventsOf u s.emitted <+: changes calls u s.ledger.log
  complete : s.Settled →
    ∀ u, eventsOf u s.emitted = changes calls u s.ledger.log
  /-- With no call between its COMMIT and its return, the last event has the
  order's status. -/
  latest : s.Settled → ∀ u c, (eventsOf u s.emitted).getLast? = some c →
    ∃ t, s.ledger.db.get (.transaction u) = some t ∧ t.status = c.2

/-- A call that goes on has nobody's earlier change of its order to wait for. -/
def InTurn (calls : ι → LedgerCall) (s : EventWorld ι) : EventTurn ι → Prop
  | .ledger => True
  | .resume i _ => ∀ u status pre post,
      changes calls u s.ledger.log = pre ++ (i, status) :: post →
        ∀ c ∈ pre, c.1 ∈ s.returned

/-! ## What a commit leaves of an order -/

theorem notMem_of_transactionOf {ws : List (Write LedgerRow)}
    (hsome : ∀ w ∈ ws, w.2.isSome = true)
    (hnone : ∀ w ∈ ws, transactionOf w = none) (u : Uuid) :
    LedgerKey.transaction u ∉ ws.map (·.1) := by
  intro hmem
  obtain ⟨⟨k, v⟩, hw, hk⟩ := List.mem_map.mp hmem
  dsimp only at hk
  subst hk
  have hv := hsome _ hw
  have hn : v = none := hnone _ hw
  rw [hn] at hv
  simp at hv

section Wrote

variable {env : Env} {d : LedgerDb} {c : LedgerCall} {r : LedgerReply}
  {ws : List (Write LedgerRow)}

theorem Wrote.status (h : Wrote env d c r ws) {u : Uuid} {t : TransactionRow}
    (ht : d.get (.transaction u) = some t) :
    ∃ t', (d.writeAll ws).get (.transaction u) = some t' ∧
      t'.status = (c.change (.committed r) u).getD t.status := by
  have stays : LedgerKey.transaction u ∉ ws.map (·.1) →
      ∃ t', (d.writeAll ws).get (.transaction u) = some t' ∧ t'.status = t.status :=
    fun hn => ⟨t, by rw [Db.get_writeAll_of_notMem hn, ht], rfl⟩
  cases h with
  | created hacc hnew => exact stays (by simp)
  | @booked input user ids now batch rows ws hrows hnew hn hacc hws =>
      refine stays ?_
      rw [List.map_append, List.mem_append, not_or]
      refine ⟨fun hmem => ?_, notMem_of_transactionOf hws.isSome hws.transactionOf u⟩
      obtain ⟨w, hw, hk⟩ := List.mem_map.mp hmem
      obtain ⟨r, hr, rfl⟩ := List.mem_map.mp hw
      obtain rfl := LedgerKey.transaction.inj hk
      rw [hnew r hr] at ht
      simp at ht
  | @kept orderId status user v t' hu ht' hs =>
      refine ⟨t, ?_, rfl⟩
      by_cases hv : u = v
      · subst hv
        rw [ht'] at ht
        simpa using ht
      · simpa [hv] using ht
  | @relabelled orderId status user v t' hu ht' hs hside =>
      by_cases hv : v = u
      · subst hv
        simp [LedgerCall.change, hu]
      · have hv' : u ≠ v := fun he => hv he.symm
        simp [LedgerCall.change, hu, hv, hv', ht]
  | @crossed orderId status user v t' row hu ht' hside hrow =>
      by_cases hv : v = u
      · subst hv
        simp [LedgerCall.change, hu]
      · have hv' : u ≠ v := fun he => hv he.symm
        simp [LedgerCall.change, hu, hv, hv', ht]
  | @bought request draw v row cost order h =>
      refine stays ?_
      have hne : u ≠ draw.orderId := by
        rintro rfl
        rw [h.order_new] at ht
        simp at ht
      simpa [boughtWrites] using hne

/-- A change is of an order that is there. -/
theorem Wrote.changed (h : Wrote env d c r ws) {u : Uuid}
    {status : TransactionStatus}
    (hc : c.change (.committed r) u = some status) :
    ∃ t, d.get (.transaction u) = some t := by
  cases h with
  | created hacc hnew => simp [LedgerCall.change] at hc
  | booked hrows hnew hn hacc hws => simp [LedgerCall.change] at hc
  | kept hu ht hs => simp [LedgerCall.change] at hc
  | @relabelled orderId status' user v t hu ht hs hside =>
      have hv : v = u ∧ status' = status := by simpa [LedgerCall.change, hu] using hc
      exact ⟨t, hv.1 ▸ ht⟩
  | @crossed orderId status' user v t row hu ht hside hrow =>
      have hv : v = u ∧ status' = status := by simpa [LedgerCall.change, hu] using hc
      exact ⟨t, hv.1 ▸ ht⟩
  | bought h => simp [LedgerCall.change] at hc

end Wrote

/-! ## The changes of a log -/

section Changes

variable {calls : ι → LedgerCall} {u : Uuid}
  {log : List (ι × Finish ApiError LedgerReply)}

theorem changes_append (more : List (ι × Finish ApiError LedgerReply)) :
    changes calls u (log ++ more) = changes calls u log ++ changes calls u more := by
  rw [changes, List.filterMap_append, changes, changes]

theorem mem_changes {c : ι × TransactionStatus} :
    c ∈ changes calls u log ↔
      ∃ f, (c.1, f) ∈ log ∧ (calls c.1).change f u = some c.2 := by
  rw [changes, List.mem_filterMap]
  constructor
  · rintro ⟨⟨i, f⟩, hmem, hf⟩
    obtain ⟨status, hs, rfl⟩ := Option.map_eq_some_iff.mp hf
    exact ⟨f, hmem, hs⟩
  · rintro ⟨f, hmem, hf⟩
    exact ⟨(c.1, f), hmem, by simp [hf]⟩

theorem mem_log_of_mem_changes {c : ι × TransactionStatus}
    (h : c ∈ changes calls u log) : c.1 ∈ log.map (·.1) := by
  obtain ⟨f, hmem, _⟩ := mem_changes.mp h
  exact List.mem_map_of_mem hmem

/-- A call changes an order once. -/
theorem nodup_changes (hn : (log.map (·.1)).Nodup) :
    ((changes calls u log).map (·.1)).Nodup := by
  induction log with
  | nil => simp [changes]
  | cons entry log ih =>
      rw [List.map_cons, List.nodup_cons] at hn
      have hrest := ih hn.2
      rw [changes, List.filterMap_cons]
      cases (calls entry.1).change entry.2 u with
      | none => exact hrest
      | some status =>
          refine List.nodup_cons.mpr ⟨fun hmem => hn.1 ?_, hrest⟩
          obtain ⟨c, hc, he⟩ := List.mem_map.mp hmem
          have hlog := mem_log_of_mem_changes hc
          rwa [he] at hlog

/-- What a log with distinct calls says of a call is its change. -/
theorem change_of_mem (hn : (log.map (·.1)).Nodup) {i : ι}
    {f : Finish ApiError LedgerReply} (hf : (i, f) ∈ log)
    {status : TransactionStatus} :
    (i, status) ∈ changes calls u log ↔ (calls i).change f u = some status := by
  constructor
  · intro hc
    obtain ⟨f', hf', hs⟩ := mem_changes.mp hc
    have he := List.inj_on_of_nodup_map hn hf hf' rfl
    rwa [(Prod.mk.inj he).2]
  · intro hs
    exact mem_changes.mpr ⟨f, hf, hs⟩

/-- A call stands in one place. -/
theorem split_unique {l pre pre' post post' : List (ι × TransactionStatus)}
    {c c' : ι × TransactionStatus} (hn : (l.map (·.1)).Nodup)
    (h : l = pre ++ c :: post) (h' : l = pre' ++ c' :: post')
    (hc : c.1 = c'.1) : pre = pre' := by
  have hmem : c ∈ l := by rw [h]; simp
  have hmem' : c' ∈ l := by rw [h']; simp
  obtain rfl := List.inj_on_of_nodup_map hn hmem hmem' hc
  have hnl := List.Nodup.of_map _ hn
  rw [h, List.nodup_middle, List.nodup_cons, List.mem_append, not_or] at hnl
  have heq := h.symm.trans h'
  exact ((List.append_cons_inj_of_notMem hnl.1.1 hnl.1.2).mp heq).1

end Changes

/-! ## What holds in every run -/

section Resume

variable {calls : ι → LedgerCall} {s : EventWorld ι} {i : ι}
  {f : Finish ApiError LedgerReply} {now : Instant}

/-- A call that goes on has changed its order and publishes, or it has not
and only returns. -/
theorem resume_cases (calls : ι → LedgerCall) (s : EventWorld ι) (i : ι)
    (f : Finish ApiError LedgerReply) (now : Instant) :
    (∃ orderId status user, calls i = .changeStatus orderId status user ∧
        f = .committed (.changed true) ∧ s.resume calls i f now =
          { s with
            bus := (s.bus.publish orderId status now).1
            emitted := s.emitted ++ [(i, (s.bus.publish orderId status now).2)]
            returned := s.returned ++ [i] }) ∨
      (∀ u, (calls i).change f u = none) ∧
        s.resume calls i f now = { s with returned := s.returned ++ [i] } := by
  cases hi : calls i with
  | createAccount input user id now =>
      exact Or.inr ⟨fun _ => rfl, by simp [EventWorld.resume, hi]⟩
  | createTransactions input user ids now =>
      exact Or.inr ⟨fun _ => rfl, by simp [EventWorld.resume, hi]⟩
  | checkout request draw =>
      exact Or.inr ⟨fun _ => rfl, by simp [EventWorld.resume, hi]⟩
  | changeStatus orderId status user =>
      cases f with
      | raised e => exact Or.inr ⟨fun _ => rfl, by simp [EventWorld.resume, hi]⟩
      | aborted => exact Or.inr ⟨fun _ => rfl, by simp [EventWorld.resume, hi]⟩
      | committed r =>
          cases r with
          | account a => exact Or.inr ⟨fun _ => rfl, by simp [EventWorld.resume, hi]⟩
          | transactions b =>
              exact Or.inr ⟨fun _ => rfl, by simp [EventWorld.resume, hi]⟩
          | checkout c => exact Or.inr ⟨fun _ => rfl, by simp [EventWorld.resume, hi]⟩
          | changed b =>
              cases b with
              | true =>
                  exact Or.inl ⟨orderId, status, user, rfl, rfl,
                    by simp [EventWorld.resume, hi, OrdersService.publishChanged]⟩
              | false =>
                  exact Or.inr ⟨fun _ => rfl,
                    by simp [EventWorld.resume, hi, OrdersService.publishChanged]⟩

@[simp] theorem EventWorld.resume_ledger :
    (s.resume calls i f now).ledger = s.ledger := by
  rcases resume_cases calls s i f now with ⟨_, _, _, _, _, h⟩ | ⟨_, h⟩
  · rw [h]
  · rw [h]

@[simp] theorem EventWorld.resume_returned :
    (s.resume calls i f now).returned = s.returned ++ [i] := by
  rcases resume_cases calls s i f now with ⟨_, _, _, _, _, h⟩ | ⟨_, h⟩
  · rw [h]
  · rw [h]

/-- The call emits an event of `u` if and only if it changed `u`. -/
theorem eventsOf_resume (u : Uuid) :
    eventsOf u (s.resume calls i f now).emitted = eventsOf u s.emitted
      ++ (((calls i).change f u).map fun status => (i, status)).toList := by
  rcases resume_cases calls s i f now with ⟨orderId, status, user, hi, rfl, h⟩ | ⟨hno, h⟩
  · rw [h, hi]
    by_cases hu : pgUuidIn orderId = some u
    · simp [eventsOf, LedgerCall.change, OrderEventsService.publish, hu]
    · simp [eventsOf, LedgerCall.change, OrderEventsService.publish, hu]
  · rw [h, hno]
    simp

theorem recorded_resume (h : s.bus.Recorded (s.emitted.map (·.2))) :
    (s.resume calls i f now).bus.Recorded
      ((s.resume calls i f now).emitted.map (·.2)) := by
  rcases resume_cases calls s i f now with ⟨orderId, status, user, _, _, hs⟩ | ⟨_, hs⟩
  · rw [hs, List.map_append]
    exact h.publish orderId status now
  · rw [hs]
    exact h

end Resume

/-- What a run keeps whatever the order of its turns. -/
structure Accounted [DecidableEq ι] (env : Env) (calls : ι → LedgerCall)
    (d : LedgerDb) (s : EventWorld ι) : Prop where
  reach : Pg.Reach (ledgerSystem env calls) (State.init d) s.ledger
  ended : ∀ i ∈ s.returned, i ∈ s.ledger.log.map (·.1)
  recorded : s.bus.Recorded (s.emitted.map (·.2))
  /-- A change has its event once its call has returned, and nothing else has
  one. -/
  events : ∀ u c, c ∈ eventsOf u s.emitted ↔
    c ∈ changes calls u s.ledger.log ∧ c.1 ∈ s.returned

section Run

variable [DecidableEq ι] {env : Env} {calls : ι → LedgerCall} {d : LedgerDb}
  {s s' : EventWorld ι} {e : EventTurn ι}

theorem Accounted.boot : Accounted env calls d (.boot d) where
  reach := .refl
  ended _ h := by simp [EventWorld.boot] at h
  recorded := .boot
  events _ _ := by simp [EventWorld.boot, eventsOf]

theorem Accounted.step (h : Accounted env calls d s)
    (hstep : EventStep env calls s e s') : Accounted env calls d s' := by
  cases hstep with
  | @ledger led hs =>
      have hreach : Pg.Reach (ledgerSystem env calls) (State.init d) led :=
        h.reach.tail hs
      obtain ⟨more, hmore⟩ := ReachUnder.log_prefix (.single hs)
      have hn := hreach.log_nodup.1
      refine ⟨hreach, fun i hi => ?_, h.recorded, fun u c => ?_⟩
      · have hlog := h.ended i hi
        show i ∈ led.log.map (·.1)
        rw [hmore, List.map_append]
        exact List.mem_append_left _ hlog
      · show c ∈ eventsOf u s.emitted ↔ c ∈ changes calls u led.log ∧ c.1 ∈ s.returned
        rw [h.events u c, hmore, changes_append, List.mem_append, or_and_right]
        refine (or_iff_left ?_).symm
        rintro ⟨hc, hret⟩
        -- A call that has returned had ended before.
        rw [hmore, List.map_append] at hn
        exact List.disjoint_of_nodup_append hn (h.ended _ hret)
          (mem_log_of_mem_changes hc)
  | @resume i f now hf hr =>
      have hn := h.reach.log_nodup.1
      refine ⟨by simpa using h.reach, ?_, recorded_resume h.recorded, fun u c => ?_⟩
      · intro j hj
        rw [EventWorld.resume_returned, List.mem_append, List.mem_singleton] at hj
        rw [EventWorld.resume_ledger]
        rcases hj with hj | rfl
        · exact h.ended j hj
        · exact List.mem_map_of_mem hf
      · rw [eventsOf_resume, EventWorld.resume_ledger, EventWorld.resume_returned,
          List.mem_append, List.mem_append, h.events u c, and_or_left]
        refine or_congr_right ?_
        have hchange := @change_of_mem _ calls u _ hn _ _ hf c.2
        rw [Option.mem_toList, Option.map_eq_some_iff, List.mem_singleton]
        constructor
        · rintro ⟨status, hs, rfl⟩
          exact ⟨hchange.mpr hs, rfl⟩
        · rintro ⟨hc, rfl⟩
          exact ⟨c.2, hchange.mp hc, rfl⟩

theorem Accounted.of_reach
    (h : Relation.ReflTransGen (Next (EventStep env calls) fun _ _ => True)
      (.boot d) s) : Accounted env calls d s :=
  Lts.Reach.invariant h .boot fun _ _ _ hs _ hstep => hs.step hstep

/-! ## The order of the events -/

/-- The heart of it: while the events of each order are a prefix of its
changes, a step keeps them so if and only if it is in turn. -/
theorem prefix_iff_inTurn (h : Accounted env calls d s)
    (hp : ∀ u, eventsOf u s.emitted <+: changes calls u s.ledger.log)
    (hstep : EventStep env calls s e s') :
    (∀ u, eventsOf u s'.emitted <+: changes calls u s'.ledger.log) ↔
      InTurn calls s e := by
  cases hstep with
  | @ledger led hs =>
      obtain ⟨more, hmore⟩ := ReachUnder.log_prefix (.single hs)
      refine iff_of_true (fun u => ?_) trivial
      show eventsOf u s.emitted <+: changes calls u led.log
      rw [hmore, changes_append]
      exact (hp u).trans (List.prefix_append _ _)
  | @resume i f now hf hr =>
      have hn := h.reach.log_nodup.1
      constructor
      · intro hp' u status pre post hsplit c hc
        have hmine : (i, status) ∈ changes calls u s.ledger.log := by
          rw [hsplit]
          simp
        have hchange := (change_of_mem hn hf).mp hmine
        obtain ⟨rest, hrest⟩ := hp' u
        rw [eventsOf_resume, hchange, EventWorld.resume_ledger] at hrest
        have hpre : eventsOf u s.emitted = pre := by
          refine @split_unique _ _ _ _ rest _ _ _ (nodup_changes hn) ?_ hsplit rfl
          rw [← hrest]
          simp
        rw [← hpre] at hc
        exact ((h.events u c).mp hc).2
      · intro hturn u
        rw [eventsOf_resume, EventWorld.resume_ledger]
        cases hchange : (calls i).change f u with
        | none => simpa using hp u
        | some status =>
            obtain ⟨pending, hpending⟩ := hp u
            have hmine := (change_of_mem hn hf).mpr hchange
            have hmem : (i, status) ∈ pending := by
              rw [← hpending, List.mem_append] at hmine
              rcases hmine with hev | hmem
              · exact absurd ((h.events u _).mp hev).2 hr
              · exact hmem
            obtain ⟨pre, post, rfl⟩ := List.append_of_mem hmem
            -- Who stands before it has returned, so its event is there already.
            have hpre : pre = [] := by
              refine List.eq_nil_iff_forall_not_mem.mpr fun c hc => ?_
              have hret := hturn u status (eventsOf u s.emitted ++ pre) post
                (by rw [← hpending, List.append_assoc]) c (by simp [hc])
              have hin : c ∈ changes calls u s.ledger.log := by
                rw [← hpending]
                simp [hc]
              have hev := (h.events u c).mpr ⟨hin, hret⟩
              have hnc := List.Nodup.of_map _ (@nodup_changes _ calls u _ hn)
              rw [← hpending] at hnc
              exact List.disjoint_of_nodup_append hnc hev (by simp [hc])
            subst hpre
            exact ⟨post, by rw [← hpending]; simp⟩

/-- The last committed change of an order is its status. -/
theorem status_of_last_change (hlink : Linked d)
    (hr : Pg.Reach (ledgerSystem env calls) (State.init d) s.ledger) (u : Uuid) :
    ∀ c, (changes calls u s.ledger.log).getLast? = some c →
      ∃ t, s.ledger.db.get (.transaction u) = some t ∧ t.status = c.2 := by
  have hrun := ledger_refines (C := fun _ _ => True) hlink hr
  generalize s.ledger.toWorld = w at hrun ⊢
  induction hrun with
  | refl => simp [changes]
  | tail _ hstep ih =>
      cases hstep with
      | @commit i r ws hlink' _ hw =>
          intro c hc
          rw [changes_append] at hc
          cases hchange : (calls i).change (.committed r) u with
          | none =>
              have hsame : changes calls u [(i, Finish.committed r)] = [] := by
                simp [changes, hchange]
              rw [hsame, List.append_nil] at hc
              obtain ⟨t, ht, hs⟩ := ih c hc
              obtain ⟨t', ht', hs'⟩ := hw.status ht
              rw [hchange] at hs'
              exact ⟨t', ht', hs'.trans hs⟩
          | some status =>
              have hmine : changes calls u [(i, Finish.committed r)] = [(i, status)] := by
                simp [changes, hchange]
              rw [hmine, List.getLast?_concat, Option.some.injEq] at hc
              obtain ⟨t, ht⟩ := hw.changed hchange
              obtain ⟨t', ht', hs'⟩ := hw.status ht
              rw [hchange] at hs'
              exact ⟨t', ht', by rw [← hc]; exact hs'⟩
      | rollback _ =>
          intro c hc
          refine ih c ?_
          rw [World.note_log, changes_append] at hc
          simpa [changes, LedgerCall.change] using hc
      | abort _ =>
          intro c hc
          refine ih c ?_
          rw [World.note_log, changes_append] at hc
          simpa [changes, LedgerCall.change] using hc

theorem Accounted.mirrors (h : Accounted env calls d s) (hlink : Linked d)
    (hp : ∀ u, eventsOf u s.emitted <+: changes calls u s.ledger.log) :
    Mirrors calls s := by
  have hcomplete : s.Settled →
      ∀ u, eventsOf u s.emitted = changes calls u s.ledger.log := by
    intro hsettled u
    obtain ⟨rest, hrest⟩ := hp u
    have hnil : rest = [] := by
      refine List.eq_nil_iff_forall_not_mem.mpr fun c hc => ?_
      have hin : c ∈ changes calls u s.ledger.log := by
        rw [← hrest]
        exact List.mem_append_right _ hc
      have hev := (h.events u c).mpr ⟨hin, hsettled _ (mem_log_of_mem_changes hin)⟩
      have hn := List.Nodup.of_map _
        (@nodup_changes _ calls u _ h.reach.log_nodup.1)
      rw [← hrest] at hn
      exact List.disjoint_of_nodup_append hn hev hc
    rw [← hrest, hnil, List.append_nil]
  have hinc := h.recorded.increasing
  rw [List.pairwise_map] at hinc
  refine ⟨hinc, hp, hcomplete, fun hsettled u c hc => ?_⟩
  rw [hcomplete hsettled u] at hc
  exact status_of_last_change hlink h.reach u c hc

/-- Order events mirror commit order, exactly: in the runs in which the calls
that changed an order go on in the order of their commits. -/
theorem events_mirror_commits (hlink : Linked d) {p : List (EventWorld ι)}
    (hp : List.IsChain (Next (EventStep env calls) fun _ _ => True)
      (.boot d :: p)) :
    (∀ s ∈ p, Mirrors calls s) ↔
      List.IsChain (Next (EventStep env calls) (InTurn calls)) (.boot d :: p) := by
  have hnone : Accounted env calls d (.boot d) := .boot
  have hboot : Mirrors calls (.boot d) :=
    hnone.mirrors hlink fun u => by simp [EventWorld.boot, eventsOf]
  refine isChain_iff_forall (fun a b hr ha hstep => ?_) .refl hboot hp
  have hacc := Accounted.of_reach hr
  constructor
  · intro hb
    obtain ⟨e, _, he⟩ := hstep
    exact ⟨e, (prefix_iff_inTurn hacc ha.inOrder he).mp hb.inOrder, he⟩
  · rintro ⟨e, hturn, he⟩
    exact (hacc.step he).mirrors hlink
      ((prefix_iff_inTurn hacc ha.inOrder he).mpr hturn)

/-- Whatever the order, every change has an event once its call has returned,
and no event lacks its change. -/
theorem events_account_for_changes
    (hr : Reachable (EventStep env calls) (.boot d) s) (u : Uuid)
    (c : ι × TransactionStatus) :
    c ∈ eventsOf u s.emitted ↔
      c ∈ changes calls u s.ledger.log ∧ c.1 ∈ s.returned :=
  (Accounted.of_reach hr).events u c

end Run

/-! Two calls change one order, and the one whose COMMIT came first goes on
last. -/

def sampleOrder : Uuid := 0x0000001800004000800000000000000a

/-- An order of account 7, posted. -/
def orderDb : LedgerDb :=
  sampleDb.set (.transaction sampleOrder)
    (some ⟨7, none, none, "UAH", .income, .posted, 50, Numeric.one, none, none, 0,
      none, 0⟩)

def eventCalls : Fin 4 → LedgerCall
  | 0 => .changeStatus "00000018-0000-4000-8000-00000000000a" .failed sampleUser
  | _ => .changeStatus "00000018-0000-4000-8000-00000000000a" .pending sampleUser

inductive EventMove (ι : Type) where
  | ledger (turn : Turn ι)
  | resume (i : ι)

def EventMove.turn : EventMove ι → EventTurn ι
  | .ledger _ => .ledger
  | .resume i => .resume i 0

/-- A move as a function. -/
def EventWorld.fire [DecidableEq ι] [Fintype ι] (env : Env) (calls : ι → LedgerCall)
    (s : EventWorld ι) : EventMove ι → Option (EventWorld ι)
  | .ledger turn =>
      (Pg.fire (ledgerSystem env calls) s.ledger turn).map fun led =>
        { s with ledger := led }
  | .resume i =>
      match s.ledger.log.find? (·.1 = i) with
      | none => none
      | some entry =>
          if i ∈ s.returned then none else some (s.resume calls i entry.2 0)

theorem EventWorld.fire_sound [DecidableEq ι] [Fintype ι] {env : Env}
    {calls : ι → LedgerCall} {s s' : EventWorld ι} {m : EventMove ι}
    (h : s.fire env calls m = some s') : EventStep env calls s m.turn s' := by
  cases m with
  | ledger turn =>
      obtain ⟨led, hled, rfl⟩ := Option.map_eq_some_iff.mp h
      exact .ledger (Pg.fire_sound (fun _ => trivial) hled)
  | resume i =>
      simp only [fire] at h
      split at h
      · simp at h
      · next entry hentry =>
          split at h
          · simp at h
          · next hr =>
              obtain rfl := Option.some.inj h
              have hi : entry.1 = i := by simpa using List.find?_some hentry
              subst hi
              exact .resume (List.mem_of_find?_eq_some hentry) hr

/-- A move that is in turn: everybody else who has ended has returned. -/
def EventMove.ready [DecidableEq ι] (s : EventWorld ι) : EventMove ι → Bool
  | .ledger _ => true
  | .resume i => (s.ledger.log.map (·.1)).Nodup &&
      s.ledger.log.all fun entry => entry.1 = i || entry.1 ∈ s.returned

theorem EventMove.inTurn [DecidableEq ι] {calls : ι → LedgerCall} {s : EventWorld ι}
    {m : EventMove ι} (h : m.ready s = true) : InTurn calls s m.turn := by
  cases m with
  | ledger turn => trivial
  | resume i =>
      simp only [ready, Bool.and_eq_true, decide_eq_true_eq, List.all_eq_true,
        Bool.or_eq_true] at h
      intro u status pre post hsplit c hc
      have hin : c ∈ changes calls u s.ledger.log := by
        rw [hsplit]
        exact List.mem_append_left _ hc
      obtain ⟨f, hf, _⟩ := mem_changes.mp hin
      rcases h.2 _ hf with hi | hret
      · have hn := @nodup_changes _ calls u _ h.1
        rw [hsplit, List.map_append, List.map_cons, List.nodup_middle,
          List.nodup_cons] at hn
        exact absurd (List.mem_append_left _ (List.mem_map.mpr ⟨c, hc, hi⟩)) hn.1
      · exact hret

/-- Call 0 commits while call 1 waits to start its body. -/
def firstCommit : List (Turn (Fin 4)) :=
  [.start 0] ++ turns 0 9 ++ [.start 1, .finish 0]

def secondCommit : List (Turn (Fin 4)) := turns 1 6 ++ [.finish 1]

/-- The second call has committed when the first one goes on: with nobody in
flight any more, the last event has the status before. -/
theorem events_out_of_order :
    ∃ s, Reachable (EventStep sampleEnv eventCalls) (.boot orderDb) s ∧
      (∀ i, s.ledger.live i = none) ∧ s.Settled ∧
      eventsOf sampleOrder s.emitted = [(1, .pending), (0, .failed)] ∧
      changes eventCalls sampleOrder s.ledger.log = [(0, .failed), (1, .pending)] ∧
      (s.ledger.db.get (.transaction sampleOrder)).map (·.status) = some .pending := by
  have hrun : (follow (EventWorld.fire sampleEnv eventCalls)
      ((firstCommit ++ secondCommit).map .ledger ++ [.resume 1, .resume 0])
      (.boot orderDb)).any (fun s => decide ((∀ i, (s.ledger.live i).isNone = true) ∧
        (∀ i ∈ s.ledger.log.map (·.1), i ∈ s.returned) ∧
        eventsOf sampleOrder s.emitted = [(1, .pending), (0, .failed)] ∧
        changes eventCalls sampleOrder s.ledger.log = [(0, .failed), (1, .pending)] ∧
        (s.ledger.db.get (.transaction sampleOrder)).map (·.status)
          = some .pending)) = true := by
    decide +kernel
  obtain ⟨s, hr, hp⟩ := exists_follow
    (r := Next (EventStep sampleEnv eventCalls) fun _ _ => True)
    (fun _ m _ h => ⟨m.turn, trivial, EventWorld.fire_sound h⟩) _ _ _ hrun
  obtain ⟨hlive, hsettled, hrest⟩ := of_decide_eq_true hp
  exact ⟨s, hr, fun i => Option.isNone_iff_eq_none.mp (hlive i), hsettled, hrest⟩

theorem linked_orderDb : Linked orderDb := by
  intro t row hrow
  refine ⟨⟨1, "UAH", "cash", .cash, 300, false, 0⟩, ?_⟩
  by_cases ht : t = sampleOrder
  · subst ht
    simp only [orderDb, Db.get_set_self, Option.some.injEq] at hrow
    subst hrow
    simp [orderDb, sampleDb]
  · simp [orderDb, sampleDb, ht] at hrow

/-- In turn, the same calls tell the order's timeline. -/
theorem events_mirror_commits_sample :
    ∃ p : List (EventWorld (Fin 4)),
      List.IsChain (Next (EventStep sampleEnv eventCalls) (InTurn eventCalls))
        (.boot orderDb :: p) ∧
      (∀ s ∈ p, Mirrors eventCalls s) ∧
      p.any (fun s => decide (s.returned = [0, 1] ∧
        eventsOf sampleOrder s.emitted = [(0, .failed), (1, .pending)])) = true := by
  have hfire : ∀ (s : EventWorld (Fin 4)) (m : EventMove (Fin 4)) s',
      (if m.ready s then s.fire sampleEnv eventCalls m else none) = some s' →
        Next (EventStep sampleEnv eventCalls) (InTurn eventCalls) s s' := by
    intro s m s' h
    split at h
    · next hready => exact ⟨m.turn, EventMove.inTurn hready, EventWorld.fire_sound h⟩
    · simp at h
  have hchain := follow_isChain hfire
    (firstCommit.map .ledger ++ [.resume 0] ++ secondCommit.map .ledger ++ [.resume 1])
    (.boot orderDb)
  refine ⟨_, hchain, (events_mirror_commits linked_orderDb ?_).mpr hchain, by decide +kernel⟩
  exact hchain.imp fun s s' h => ⟨h.choose, trivial, h.choose_spec.2⟩

end InvestApi.Ref
