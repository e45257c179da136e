import InvestApi.Ref.Receipts

/-!
# At least once in, exactly once out

Three invariants, one for each place the protocol keeps something. The table:
its keys are keys, its rows come from events that were routed, and a row found
under an event's id is the row of the event's order, so a conflict on either
key leaves the order with its receipt. The processes: what a handler, an INSERT
and an answer are about is the message of their delivery. The effects: whoever
knows the INSERT has answered, and every `ack` on its way, has a receipt to
show, so an acknowledged message has one.

All but one kind of step only carry over what was there (`Carries`); a delivery
brings a new number.
-/

namespace InvestApi.Ref

open InvestApi.Amqp InvestApi.Lts

variable {ι : Type} {zod : Zod} {rows₀ : List ReceiptRow}

/-- The order of the message's event has a committed receipt. -/
def Receipted (zod : Zod) (db : ReceiptsDb) (m : EventMessage) : Prop :=
  ∃ event, zod.parseOrderPlaced m.content = some event ∧
    ∃ row ∈ db.receipts, pgUuidIn event.data.orderId = some row.order_id

/-- One event id, one order. -/
def SameOrder (event event' : OrderPlaced) : Prop :=
  ∀ e, pgUuidIn event.eventId = some e → pgUuidIn event'.eventId = some e →
    pgUuidIn event.data.orderId = pgUuidIn event'.data.orderId

/-- A row under the event's id is a row of its order. -/
def Names (event : OrderPlaced) (row : ReceiptRow) : Prop :=
  pgUuidIn event.eventId = some row.event_id →
    pgUuidIn event.data.orderId = some row.order_id

/-- Events of different orders carry different ids: what is asked of a
publication. -/
def EventsApart (zod : Zod) (s : ReceiptsWorld ι) : ReceiptsTurn ι → Prop
  | .publish content => ∀ event, zod.parseOrderPlaced content = some event →
      (∀ m ∈ s.routed, ∀ event', zod.parseOrderPlaced m.content = some event' →
        SameOrder event event') ∧
      ∀ row ∈ s.db.receipts, Names event row
  | _ => True

def KeysApart (rows : List ReceiptRow) : Prop :=
  rows.Pairwise fun r r' => r.order_id ≠ r'.order_id ∧ r.event_id ≠ r'.event_id

/-- What a run owes: `rows₀` were there at its start. -/
structure ExactlyOnce (zod : Zod) (rows₀ : List ReceiptRow) (s : ReceiptsWorld ι) :
    Prop where
  keys : KeysApart s.db.receipts
  acked : ∀ m ∈ s.queue.acked, Receipted zod s.db m
  /-- A new row is the row of an event that some routed message says. -/
  caused : ∀ row ∈ s.db.receipts, row ∈ rows₀ ∨ ∃ m ∈ s.routed, ∃ event,
    zod.parseOrderPlaced m.content = some event ∧
    pgUuidIn event.data.orderId = some row.order_id ∧
    pgUuidIn event.eventId = some row.event_id
  /-- Each routed message is in one place. -/
  placed : s.routed.Nodup ∧ (s.queue.ready.map (·.1) ++ s.queue.unacked.map (·.message)
    ++ s.queue.acked ++ s.queue.deadLettered).Perm s.routed

/-! ## The table -/

structure Table (zod : Zod) (rows₀ : List ReceiptRow) (routed : List EventMessage)
    (rows : List ReceiptRow) : Prop where
  keys : KeysApart rows
  caused : ∀ row ∈ rows, row ∈ rows₀ ∨ ∃ m ∈ routed, ∃ event,
    zod.parseOrderPlaced m.content = some event ∧
    pgUuidIn event.data.orderId = some row.order_id ∧
    pgUuidIn event.eventId = some row.event_id
  same : ∀ m ∈ routed, ∀ event, zod.parseOrderPlaced m.content = some event →
    ∀ m' ∈ routed, ∀ event', zod.parseOrderPlaced m'.content = some event' →
      SameOrder event event'
  names : ∀ m ∈ routed, ∀ event, zod.parseOrderPlaced m.content = some event →
    ∀ row ∈ rows, Names event row

section Table

variable {routed : List EventMessage} {db db' : ReceiptsDb} {event : OrderPlaced}

theorem SameOrder.symm {event' : OrderPlaced} (h : SameOrder event event') :
    SameOrder event' event := fun e he' he => (h e he he').symm

/-- What the INSERT answers when it does. -/
theorem issueReceipt_cases {applied : Bool}
    (h : issueReceipt db event = .ok (applied, db')) :
    ∃ o e, pgUuidIn event.data.orderId = some o ∧ pgUuidIn event.eventId = some e ∧
      ((db' = db ∧ ∃ row ∈ db.receipts, row.order_id = o ∨ row.event_id = e) ∨
        db' = { db with receipts := db.receipts ++ [⟨o, e⟩] } ∧
          ∀ row ∈ db.receipts, row.order_id ≠ o ∧ row.event_id ≠ e) := by
  unfold issueReceipt at h
  split at h
  · next o e ho he =>
      refine ⟨o, e, ho, he, ?_⟩
      split at h
      · next hany =>
          obtain ⟨row, hrow, hkey⟩ := List.any_eq_true.mp hany
          obtain ⟨_, rfl⟩ := Prod.mk.inj (Except.ok.inj h)
          exact Or.inl ⟨rfl, row, hrow, by simpa using hkey⟩
      · next hany =>
          split at h
          · obtain ⟨_, rfl⟩ := Prod.mk.inj (Except.ok.inj h)
            refine Or.inr ⟨rfl, fun row hrow => ?_⟩
            have hkey := fun hk => hany (List.any_eq_true.mpr ⟨row, hrow, hk⟩)
            simpa using hkey
          · simp at h
  · simp at h

theorem issueReceipt_subset {applied : Bool}
    (h : issueReceipt db event = .ok (applied, db')) : db.receipts ⊆ db'.receipts := by
  obtain ⟨o, e, _, _, ⟨rfl, _⟩ | ⟨rfl, _⟩⟩ := issueReceipt_cases h
  · exact fun _ hrow => hrow
  · exact fun _ hrow => List.mem_append_left _ hrow

theorem Table.insert (h : Table zod rows₀ routed db.receipts) {m : EventMessage}
    (hm : m ∈ routed) (hparse : zod.parseOrderPlaced m.content = some event)
    {applied : Bool} (hins : issueReceipt db event = .ok (applied, db')) :
    Table zod rows₀ routed db'.receipts := by
  obtain ⟨o, e, ho, he, ⟨rfl, _⟩ | ⟨rfl, hnew⟩⟩ := issueReceipt_cases hins
  · exact h
  · refine ⟨?_, fun row hrow => ?_, h.same, fun m' hm' event' hparse' row hrow => ?_⟩
    · refine List.pairwise_append.mpr ⟨h.keys, List.pairwise_singleton _ _, ?_⟩
      intro row hrow row' hrow'
      rw [List.mem_singleton.mp hrow']
      exact hnew row hrow
    · rcases List.mem_append.mp hrow with hrow | hrow
      · exact h.caused row hrow
      · rw [List.mem_singleton.mp hrow]
        exact Or.inr ⟨m, hm, event, hparse, ho, he⟩
    · rcases List.mem_append.mp hrow with hrow | hrow
      · exact h.names m' hm' event' hparse' row hrow
      · rw [List.mem_singleton.mp hrow]
        intro he'
        rw [h.same m' hm' event' hparse' m hm event hparse e he' he]
        exact ho

/-- Done or nothing to do, the order has its receipt afterwards: a conflict on
the event's id is a conflict with the order's own row. -/
theorem Table.receipted (h : Table zod rows₀ routed db.receipts) {m : EventMessage}
    (hm : m ∈ routed) (hparse : zod.parseOrderPlaced m.content = some event)
    {applied : Bool} (hins : issueReceipt db event = .ok (applied, db')) :
    Receipted zod db' m := by
  obtain ⟨o, e, ho, he, ⟨rfl, row, hrow, hkey⟩ | ⟨rfl, _⟩⟩ := issueReceipt_cases hins
  · refine ⟨event, hparse, row, hrow, ?_⟩
    rcases hkey with rfl | rfl
    · exact ho
    · exact h.names m hm event hparse row hrow he
  · exact ⟨event, hparse, ⟨o, e⟩, by simp, ho⟩

theorem Table.publish (h : Table zod rows₀ routed db.receipts) {m : EventMessage}
    (hapart : ∀ event, zod.parseOrderPlaced m.content = some event →
      (∀ m' ∈ routed, ∀ event', zod.parseOrderPlaced m'.content = some event' →
        SameOrder event event') ∧ ∀ row ∈ db.receipts, Names event row) :
    Table zod rows₀ (routed ++ [m]) db.receipts := by
  refine ⟨h.keys, fun row hrow => ?_, fun m₁ hm₁ e₁ hp₁ m₂ hm₂ e₂ hp₂ => ?_,
    fun m₁ hm₁ e₁ hp₁ row hrow => ?_⟩
  · rcases h.caused row hrow with hold | ⟨m', hm', hrest⟩
    · exact Or.inl hold
    · exact Or.inr ⟨m', List.mem_append_left _ hm', hrest⟩
  · rw [List.mem_append, List.mem_singleton] at hm₁ hm₂
    rcases hm₁ with hm₁ | rfl
    · rcases hm₂ with hm₂ | rfl
      · exact h.same m₁ hm₁ e₁ hp₁ m₂ hm₂ e₂ hp₂
      · exact ((hapart e₂ hp₂).1 m₁ hm₁ e₁ hp₁).symm
    · rcases hm₂ with hm₂ | rfl
      · exact (hapart e₁ hp₁).1 m₂ hm₂ e₂ hp₂
      · rw [hp₁] at hp₂
        obtain rfl := Option.some.inj hp₂
        exact fun _ _ _ => rfl
  · rw [List.mem_append, List.mem_singleton] at hm₁
    rcases hm₁ with hm₁ | rfl
    · exact h.names m₁ hm₁ e₁ hp₁ row hrow
    · exact (hapart e₁ hp₁).2 row hrow

end Table

/-! ## The processes -/

structure Handling (zod : Zod) (s : ReceiptsWorld ι) : Prop where
  fresh : ∀ n, s.queue.deliveries ≤ n → s.handlers n = none ∧ s.inserts n = none
  frames : ∀ f ∈ s.frames, f.delivery < s.queue.deliveries
  unacked : ∀ d ∈ s.queue.unacked, d.number < s.queue.deliveries
  known : ∀ n h, s.handlers n = some h → h.message ∈ s.routed
  matched : ∀ n h, s.handlers n = some h →
    ∀ d ∈ s.queue.unacked, d.number = n → d.message = h.message
  inserts : ∀ n event, s.inserts n = some event → ∃ m ∈ s.routed,
    zod.parseOrderPlaced m.content = some event ∧
    ∀ h, s.handlers n = some h → h.message = m

/-- Who knows that the INSERT has answered has a receipt to show. -/
structure Effects (zod : Zod) (s : ReceiptsWorld ι) : Prop where
  issued : ∀ n h applied, s.handlers n = some h → h.pc = .issued applied →
    Receipted zod s.db h.message
  acks : ∀ f ∈ s.frames, f.answer = .ack →
    ∀ d ∈ s.queue.unacked, d.number = f.delivery → Receipted zod s.db d.message
  acked : ∀ m ∈ s.queue.acked, Receipted zod s.db m

/-- A step after which every handler, INSERT, answer and open delivery is one
from before it, or follows from one; the table does not matter. -/
structure Follows (zod : Zod) (s s' : ReceiptsWorld ι) : Prop where
  routed : s.routed ⊆ s'.routed
  deliveries : s'.queue.deliveries = s.queue.deliveries
  unacked : s'.queue.unacked ⊆ s.queue.unacked
  handlers : ∀ n h', s'.handlers n = some h' → ∃ h, s.handlers n = some h ∧
    h'.message = h.message
  inserts : ∀ n event, s'.inserts n = some event → s.inserts n = some event ∨
    ∃ h, s.handlers n = some h ∧ zod.parseOrderPlaced h.message.content = some event
  frames : ∀ f ∈ s'.frames, f ∈ s.frames ∨ ∃ h, s.handlers f.delivery = some h

/-- Such a step after which every effect on the table is one from before it, or
follows from one. -/
structure Carries (zod : Zod) (s s' : ReceiptsWorld ι) : Prop where
  routed : s.routed ⊆ s'.routed
  receipts : s.db.receipts ⊆ s'.db.receipts
  deliveries : s'.queue.deliveries = s.queue.deliveries
  unacked : s'.queue.unacked ⊆ s.queue.unacked
  handlers : ∀ n h', s'.handlers n = some h' → ∃ h, s.handlers n = some h ∧
    h'.message = h.message ∧ ∀ applied, h'.pc = .issued applied →
      (∃ a, h.pc = .issued a) ∨ Receipted zod s'.db h.message
  inserts : ∀ n event, s'.inserts n = some event → s.inserts n = some event ∨
    ∃ h, s.handlers n = some h ∧ zod.parseOrderPlaced h.message.content = some event
  frames : ∀ f ∈ s'.frames, f ∈ s.frames ∨ ∃ h, s.handlers f.delivery = some h ∧
    (f.answer = .ack → ∃ a, h.pc = .issued a)
  acked : ∀ m ∈ s'.queue.acked, m ∈ s.queue.acked ∨
    ∃ f ∈ s.frames, f.answer = .ack ∧
      ∃ d ∈ s.queue.unacked, d.number = f.delivery ∧ d.message = m

theorem Receipted.mono {db db' : ReceiptsDb} {m : EventMessage}
    (h : Receipted zod db m) (hsub : db.receipts ⊆ db'.receipts) :
    Receipted zod db' m := by
  obtain ⟨event, hparse, row, hrow, ho⟩ := h
  exact ⟨event, hparse, row, hsub hrow, ho⟩

section Carries

variable {s s' : ReceiptsWorld ι}

theorem Handling.number_lt (h : Handling zod s) {n : Nat} {t : Handler ι}
    (ht : s.handlers n = some t) : n < s.queue.deliveries := by
  rcases Nat.lt_or_ge n s.queue.deliveries with hlt | hge
  · exact hlt
  · rw [(h.fresh n hge).1] at ht
    simp at ht

theorem Carries.follows (h : Carries zod s s') : Follows zod s s' where
  routed := h.routed
  deliveries := h.deliveries
  unacked := h.unacked
  handlers n h' hh' := by
    obtain ⟨t, ht, hmessage, _⟩ := h.handlers n h' hh'
    exact ⟨t, ht, hmessage⟩
  inserts := h.inserts
  frames f hf := (h.frames f hf).imp_right fun ⟨t, ht, _⟩ => ⟨t, ht⟩

theorem Handling.follows (h : Handling zod s) (hc : Follows zod s s') :
    Handling zod s' := by
  refine ⟨fun n hn => ?_, fun f hf => ?_, fun d hd => ?_, fun n t ht => ?_,
    fun n t ht d hd hn => ?_, fun n event he => ?_⟩
  · rw [hc.deliveries] at hn
    obtain ⟨hhandler, hinsert⟩ := h.fresh n hn
    constructor
    · refine Option.eq_none_iff_forall_ne_some.mpr fun t ht => ?_
      obtain ⟨t₀, ht₀, _⟩ := hc.handlers n t ht
      rw [hhandler] at ht₀
      simp at ht₀
    · refine Option.eq_none_iff_forall_ne_some.mpr fun event he => ?_
      rcases hc.inserts n event he with hold | ⟨t₀, ht₀, _⟩
      · rw [hinsert] at hold
        simp at hold
      · rw [hhandler] at ht₀
        simp at ht₀
  · rw [hc.deliveries]
    rcases hc.frames f hf with hold | ⟨t, ht⟩
    · exact h.frames f hold
    · exact h.number_lt ht
  · rw [hc.deliveries]
    exact h.unacked d (hc.unacked hd)
  · obtain ⟨t₀, ht₀, hm⟩ := hc.handlers n t ht
    rw [hm]
    exact hc.routed (h.known n t₀ ht₀)
  · obtain ⟨t₀, ht₀, hm⟩ := hc.handlers n t ht
    rw [hm]
    exact h.matched n t₀ ht₀ d (hc.unacked hd) hn
  · rcases hc.inserts n event he with hold | ⟨t₀, ht₀, hparse⟩
    · obtain ⟨m, hm, hparse, hmine⟩ := h.inserts n event hold
      refine ⟨m, hc.routed hm, hparse, fun t ht => ?_⟩
      obtain ⟨t₀, ht₀, heq⟩ := hc.handlers n t ht
      rw [heq]
      exact hmine t₀ ht₀
    · refine ⟨t₀.message, hc.routed (h.known n t₀ ht₀), hparse, fun t ht => ?_⟩
      obtain ⟨t₁, ht₁, heq⟩ := hc.handlers n t ht
      rw [ht₀] at ht₁
      obtain rfl := Option.some.inj ht₁
      exact heq

theorem Effects.carries (h : Effects zod s) (hh : Handling zod s)
    (hc : Carries zod s s') : Effects zod s' := by
  refine ⟨fun n t applied ht hpc => ?_, fun f hf hack d hd hn => ?_, fun m hm => ?_⟩
  · obtain ⟨t₀, ht₀, hmsg, hissued⟩ := hc.handlers n t ht
    rw [hmsg]
    rcases hissued applied hpc with ⟨a, ha⟩ | hnew
    · exact (h.issued n t₀ a ht₀ ha).mono hc.receipts
    · exact hnew
  · refine Receipted.mono ?_ hc.receipts
    rcases hc.frames f hf with hold | ⟨t, ht, hissued⟩
    · exact h.acks f hold hack d (hc.unacked hd) hn
    · obtain ⟨a, ha⟩ := hissued hack
      rw [hh.matched f.delivery t ht d (hc.unacked hd) hn]
      exact h.issued f.delivery t a ht ha
  · refine Receipted.mono ?_ hc.receipts
    rcases hc.acked m hm with hold | ⟨f, hf, hack, d, hd, hn, rfl⟩
    · exact h.acked m hold
    · exact h.acks f hf hack d hd hn

theorem Carries.refl (s : ReceiptsWorld ι) : Carries zod s s where
  routed := fun _ hm => hm
  receipts := fun _ hrow => hrow
  deliveries := rfl
  unacked := fun _ hd => hd
  handlers := fun _ h hh => ⟨h, hh, rfl, fun a ha => Or.inl ⟨a, ha⟩⟩
  inserts := fun _ _ he => Or.inl he
  frames := fun _ hf => Or.inl hf
  acked := fun _ hm => Or.inl hm

/-- The handler of `n` moves on. -/
theorem Carries.setPc {s₀ s : ReceiptsWorld ι} (hc : Carries zod s₀ s) {n : Nat}
    {t : Handler ι} (ht : s₀.handlers n = some t) {pc : HandlePc}
    (hpc : ∀ applied, pc = .issued applied → Receipted zod s.db t.message) :
    Carries zod s₀ (s.setPc n t pc) := by
  refine { hc with handlers := fun k t' ht' => ?_ }
  by_cases hk : k = n
  · subst hk
    have heq : t' = { t with pc := pc } := by
      simpa [ReceiptsWorld.setPc] using ht'.symm
    subst heq
    exact ⟨t, ht, rfl, fun a ha => Or.inr (hpc a ha)⟩
  · exact hc.handlers k t' (by simpa [ReceiptsWorld.setPc, hk] using ht')

theorem resolve_cases (s : ReceiptsWorld ι) (n : Nat) (pc : HandlePc) :
    (∃ t, s.handlers n = some t ∧ s.resolve n pc = s.setPc n t pc) ∨
      s.resolve n pc = s := by
  unfold ReceiptsWorld.resolve
  split
  · next t ht =>
      split
      · exact Or.inl ⟨t, ht, rfl⟩
      · exact Or.inr rfl
  · exact Or.inr rfl

theorem carries_respond {n : Nat} {t : Handler ι} (ht : s.handlers n = some t)
    {answer : Answer} (ha : answer = .ack → ∃ a, t.pc = .issued a) :
    Carries zod s (s.respond n t answer) where
  routed := fun _ hm => hm
  receipts := fun _ hrow => hrow
  deliveries := rfl
  unacked := fun _ hd => hd
  handlers k t' ht' := by
    by_cases hk : k = n
    · simp [ReceiptsWorld.respond, hk] at ht'
    · exact ⟨t', by simpa [ReceiptsWorld.respond, hk] using ht', rfl,
        fun a ha => Or.inl ⟨a, ha⟩⟩
  inserts := fun _ _ he => Or.inl he
  frames f hf := by
    rcases List.mem_append.mp hf with hf | hf
    · exact Or.inl hf
    · rw [List.mem_singleton.mp hf]
      exact Or.inr ⟨t, ht, ha⟩
  acked := fun _ hm => Or.inl hm

theorem carries_crash [DecidableEq ι] (c : ι) : Carries zod s (s.crash c) :=
  { Carries.refl s with
    handlers := fun n t ht => by
      have ht' : s.handlers n = some t := (Option.filter_eq_some_iff.mp ht).1
      exact ⟨t, ht', rfl, fun a ha => Or.inl ⟨a, ha⟩⟩ }

theorem carries_read {n : Nat} {t : Handler ι} (ht : s.handlers n = some t) :
    Carries zod s (s.read zod n t) := by
  unfold ReceiptsWorld.read
  split
  · exact carries_respond ht (by simp)
  · next event hparse =>
      have hset : Carries zod s (s.setPc n t .issuing) := (Carries.refl s).setPc ht (by simp)
      refine { hset with inserts := fun k event' he => ?_ }
      by_cases hk : k = n
      · subst hk
        have heq : event = event' := by simpa using he
        exact Or.inr ⟨t, ht, heq ▸ hparse⟩
      · exact Or.inl (by simpa [ReceiptsWorld.setPc, hk] using he)

/-- An INSERT that is on its way no more, whatever its outcome. -/
theorem carries_inserts (n : Nat) :
    Carries zod s { s with inserts := Function.update s.inserts n none } :=
  { Carries.refl s with
    inserts := fun k event he => by
      by_cases hk : k = n
      · simp [hk] at he
      · exact Or.inl (by simpa [hk] using he) }

theorem carries_failed (n : Nat) :
    Carries zod s
      ({ s with inserts := Function.update s.inserts n none }.resolve n .failed) := by
  have hdrop := @carries_inserts _ zod s n
  rcases resolve_cases { s with inserts := Function.update s.inserts n none } n .failed
    with ⟨t, ht, heq⟩ | heq
  · rw [heq]
    exact hdrop.setPc ht (by simp)
  · rw [heq]
    exact hdrop

theorem carries_arrive {i : Nat} {f : AnswerFrame ι} (hf : s.frames[i]? = some f) :
    Carries zod s
      { s with
        queue := s.queue.answer DELIVERY_LIMIT f.delivery f.answer
        frames := s.frames.eraseIdx i } where
  routed := fun _ hm => hm
  receipts := fun _ hrow => hrow
  deliveries := Queue.deliveries_answer _ _ _ _
  unacked := fun _ hd => Queue.unacked_answer hd
  handlers := fun _ t ht => ⟨t, ht, rfl, fun a ha => Or.inl ⟨a, ha⟩⟩
  inserts := fun _ _ he => Or.inl he
  frames := fun _ hg => Or.inl (List.mem_of_mem_eraseIdx hg)
  acked m hm := by
    rcases Queue.mem_acked_answer hm with hold | ⟨hack, d, hd, hn, rfl⟩
    · exact Or.inl hold
    · exact Or.inr ⟨f, List.mem_of_getElem? hf, hack, d, hd, hn, rfl⟩

theorem carries_close [DecidableEq ι] (c : ι) (counted : Bool) :
    Carries zod s (s.close c counted) := by
  obtain ⟨hacked, hunacked, hdeliveries⟩ :=
    Queue.close_fields DELIVERY_LIMIT counted s.queue c
  refine { Carries.refl s with
    deliveries := hdeliveries
    unacked := fun d hd => ?_
    frames := fun f hf => Or.inl (List.mem_of_mem_filter hf)
    acked := fun m hm => ?_ }
  · have hd' : d ∈ (s.queue.close DELIVERY_LIMIT counted c).unacked := hd
    rw [hunacked] at hd'
    exact List.mem_of_mem_filter hd'
  · have hm' : m ∈ (s.queue.close DELIVERY_LIMIT counted c).acked := hm
    rw [hacked] at hm'
    exact Or.inl hm'

/-- Whatever an INSERT answers. -/
theorem follows_insert {n : Nat} {event : OrderPlaced} :
    Follows zod s (s.insert n event) := by
  have hdrop : Follows zod s { s with inserts := Function.update s.inserts n none } :=
    (carries_inserts n).follows
  have hresolve : ∀ pc,
      Follows zod s ({ s with inserts := Function.update s.inserts n none }.resolve n pc) := by
    intro pc
    rcases resolve_cases { s with inserts := Function.update s.inserts n none } n pc
      with ⟨t, ht, heq⟩ | heq
    · rw [heq]
      refine { hdrop with handlers := fun k t' ht' => ?_ }
      by_cases hk : k = n
      · subst hk
        simp only [ReceiptsWorld.setPc, Function.update_self, Option.some.injEq] at ht'
        exact ⟨t, ht, by rw [← ht']⟩
      · exact ⟨t', by simpa [ReceiptsWorld.setPc, hk] using ht', rfl⟩
    · rw [heq]
      exact hdrop
  unfold ReceiptsWorld.insert
  dsimp only
  split
  · next applied db' _ => exact { hresolve (.issued applied) with }
  · exact hresolve .failed

theorem carries_insert {n : Nat} {event : OrderPlaced}
    (he : s.inserts n = some event) (hh : Handling zod s)
    (htable : Table zod rows₀ s.routed s.db.receipts) :
    Carries zod s (s.insert n event) := by
  obtain ⟨m, hm, hparse, hmine⟩ := hh.inserts n event he
  unfold ReceiptsWorld.insert
  dsimp only
  split
  · next applied db' hins =>
      have hwrite : Carries zod s
          { s with inserts := Function.update s.inserts n none, db := db' } :=
        { carries_inserts n with
          receipts := issueReceipt_subset hins
          handlers := fun _ t ht => ⟨t, ht, rfl, fun a ha => Or.inl ⟨a, ha⟩⟩ }
      rcases resolve_cases { s with inserts := Function.update s.inserts n none } n
        (.issued applied) with ⟨t, ht, heq⟩ | heq
      · rw [heq]
        refine hwrite.setPc ht fun a _ => ?_
        rw [hmine t ht]
        exact htable.receipted hm hparse hins
      · rw [heq]
        exact hwrite
  · exact carries_failed n

end Carries

/-! ## One step -/

/-- Each routed message is in one place, and no two are one. -/
structure Placed (s : ReceiptsWorld ι) : Prop where
  contents : s.queue.contents = (s.routed : Multiset EventMessage)
  numbers : s.routed.map (·.number) = List.range s.routed.length

/-- The invariant. -/
structure Consistent (zod : Zod) (rows₀ : List ReceiptRow) (s : ReceiptsWorld ι) :
    Prop where
  table : Table zod rows₀ s.routed s.db.receipts
  handling : Handling zod s
  effects : Effects zod s
  placed : Placed s

section Step

variable {s s' : ReceiptsWorld ι}

section Boot

variable {orders : List Uuid}

theorem Handling.boot : Handling zod (.boot ⟨orders, rows₀⟩ : ReceiptsWorld ι) :=
  ⟨fun _ _ => ⟨rfl, rfl⟩, fun _ hf => absurd hf List.not_mem_nil,
    fun _ hd => absurd hd List.not_mem_nil, fun _ _ ht => by simp [ReceiptsWorld.boot] at ht,
    fun _ _ ht => by simp [ReceiptsWorld.boot] at ht,
    fun _ _ he => by simp [ReceiptsWorld.boot] at he⟩

theorem Placed.boot : Placed (.boot ⟨orders, rows₀⟩ : ReceiptsWorld ι) := ⟨rfl, rfl⟩

theorem Consistent.boot (hkeys : KeysApart rows₀) :
    Consistent zod rows₀ (.boot ⟨orders, rows₀⟩ : ReceiptsWorld ι) where
  table :=
    ⟨hkeys, fun _ hrow => Or.inl hrow, fun _ hm => absurd hm List.not_mem_nil,
      fun _ hm => absurd hm List.not_mem_nil⟩
  handling := .boot
  effects :=
    ⟨fun _ _ _ ht => by simp [ReceiptsWorld.boot] at ht,
      fun _ hf => absurd hf List.not_mem_nil, fun _ hm => absurd hm List.not_mem_nil⟩
  placed := .boot

end Boot

theorem Placed.publish (h : Placed s) (content : List Nat) :
    Placed (s.publish content) := by
  refine ⟨?_, ?_⟩
  · show (s.queue.publish _).contents = ((s.routed ++ [_] : List EventMessage) : Multiset _)
    rw [Queue.contents_publish, h.contents, ← Multiset.coe_add]
    rfl
  · show List.map (·.number) (s.routed ++ [_]) = List.range (s.routed ++ [_]).length
    rw [List.map_append, h.numbers, List.length_append, List.length_singleton,
      List.range_succ]
    rfl

/-! A delivery brings something new, its number. -/

section Deliver

variable {c : ι} {i : Nat} {d : Delivery EventMessage ι} {queue : Queue EventMessage ι}

theorem handlers_deliver_ne (s : ReceiptsWorld ι) (queue : Queue EventMessage ι) {n : Nat}
    (hn : n ≠ d.number) : (s.deliver d queue).handlers n = s.handlers n := by
  simp [ReceiptsWorld.deliver, hn]

theorem handlers_deliver_self (s : ReceiptsWorld ι) (queue : Queue EventMessage ι) :
    (s.deliver d queue).handlers d.number
      = some ⟨d.consumer, d.message, .delivered⟩ := by
  simp [ReceiptsWorld.deliver]

theorem mem_unacked_deliver (hd : s.queue.deliver c i = some (d, queue))
    {d' : Delivery EventMessage ι} (hd' : d' ∈ queue.unacked) :
    d' ∈ s.queue.unacked ∨ d' = d := by
  obtain ⟨_, _, hunacked, _, _⟩ := Queue.deliver_fields hd
  rw [hunacked, List.mem_append, List.mem_singleton] at hd'
  exact hd'

theorem Handling.deliver (h : Handling zod s) (hplaced : Placed s)
    (hd : s.queue.deliver c i = some (d, queue)) : Handling zod (s.deliver d queue) := by
  obtain ⟨hnumber, hmsg, _, hdeliveries, _⟩ := Queue.deliver_fields hd
  refine ⟨fun n hn => ?_, fun f hf => ?_, fun d' hd' => ?_, fun n t ht => ?_,
    fun n t ht d' hd' hn => ?_, fun n event he => ?_⟩
  · replace hn : queue.deliveries ≤ n := hn
    rw [hdeliveries] at hn
    rw [handlers_deliver_ne s queue (by omega)]
    exact h.fresh n (by omega)
  · have hlt := h.frames f hf
    show f.delivery < queue.deliveries
    omega
  · show d'.number < queue.deliveries
    rcases mem_unacked_deliver hd hd' with hold | rfl
    · have hlt := h.unacked d' hold
      omega
    · omega
  · by_cases hn : n = d.number
    · subst hn
      rw [handlers_deliver_self] at ht
      obtain rfl := Option.some.inj ht
      have hin := hplaced.contents ▸ hmsg
      exact Multiset.mem_coe.mp hin
    · rw [handlers_deliver_ne s queue hn] at ht
      exact h.known n t ht
  · rcases mem_unacked_deliver hd hd' with hold | rfl
    · have hlt := h.unacked d' hold
      rw [handlers_deliver_ne s queue (by omega)] at ht
      exact h.matched n t ht d' hold hn
    · subst hn
      rw [handlers_deliver_self] at ht
      obtain rfl := Option.some.inj ht
      rfl
  · replace he : s.inserts n = some event := he
    obtain ⟨m, hm, hparse, hmine⟩ := h.inserts n event he
    refine ⟨m, hm, hparse, fun t ht => ?_⟩
    have hn : n ≠ d.number := by
      rintro rfl
      rw [(h.fresh d.number (by omega)).2] at he
      simp at he
    rw [handlers_deliver_ne s queue hn] at ht
    exact hmine t ht

theorem Effects.deliver (h : Effects zod s) (hh : Handling zod s)
    (hd : s.queue.deliver c i = some (d, queue)) : Effects zod (s.deliver d queue) := by
  obtain ⟨hnumber, _, _, _, hacked⟩ := Queue.deliver_fields hd
  refine ⟨fun n t applied ht hpc => ?_, fun f hf hack d' hd' hn => ?_, fun m hm => ?_⟩
  · have hn : n ≠ d.number := by
      rintro rfl
      rw [handlers_deliver_self] at ht
      obtain rfl := Option.some.inj ht
      simp at hpc
    rw [handlers_deliver_ne s queue hn] at ht
    exact h.issued n t applied ht hpc
  · rcases mem_unacked_deliver hd hd' with hold | rfl
    · exact h.acks f hf hack d' hold hn
    · have hlt := hh.frames f hf
      omega
  · replace hm : m ∈ queue.acked := hm
    rw [hacked] at hm
    exact h.acked m hm

end Deliver

/-- What a step of a process leaves to the broker and the table. -/
def SameStores (s s' : ReceiptsWorld ι) : Prop :=
  s'.queue = s.queue ∧ s'.routed = s.routed ∧ s'.db = s.db

theorem sameStores_read (n : Nat) (t : Handler ι) : SameStores s (s.read zod n t) := by
  unfold ReceiptsWorld.read
  split
  · exact ⟨rfl, rfl, rfl⟩
  · exact ⟨rfl, rfl, rfl⟩

theorem sameStores_resolve (s : ReceiptsWorld ι) (n : Nat) (pc : HandlePc) :
    SameStores s (s.resolve n pc) := by
  rcases resolve_cases s n pc with ⟨t, _, heq⟩ | heq
  · rw [heq]
    exact ⟨rfl, rfl, rfl⟩
  · rw [heq]
    exact ⟨rfl, rfl, rfl⟩

theorem sameStores_acknowledge [DecidableEq ι] (crashAfterEffect : ι → Bool) (n : Nat)
    (t : Handler ι) : SameStores s (s.acknowledge crashAfterEffect n t) := by
  unfold ReceiptsWorld.acknowledge
  split
  · exact ⟨rfl, rfl, rfl⟩
  · exact ⟨rfl, rfl, rfl⟩

theorem queue_insert (s : ReceiptsWorld ι) (n : Nat) (event : OrderPlaced) :
    (s.insert n event).queue = s.queue := by
  unfold ReceiptsWorld.insert
  dsimp only
  split
  · exact (sameStores_resolve { s with inserts := Function.update s.inserts n none } n _).1
  · exact (sameStores_resolve { s with inserts := Function.update s.inserts n none } n _).1

theorem routed_insert (s : ReceiptsWorld ι) (n : Nat) (event : OrderPlaced) :
    (s.insert n event).routed = s.routed := by
  unfold ReceiptsWorld.insert
  dsimp only
  split
  · exact (sameStores_resolve { s with inserts := Function.update s.inserts n none } n _).2.1
  · exact (sameStores_resolve { s with inserts := Function.update s.inserts n none } n _).2.1

theorem Placed.same (h : Placed s) (hqueue : s'.queue = s.queue)
    (hrouted : s'.routed = s.routed) : Placed s' := by
  refine ⟨?_, ?_⟩
  · rw [hqueue, hrouted]
    exact h.contents
  · rw [hrouted]
    exact h.numbers

section Turn

variable [DecidableEq ι] {crashAfterEffect : ι → Bool} {t : ReceiptsTurn ι}

/-- What a turn can be: a delivery, an INSERT that runs, or a turn that carries over
what there is. -/
theorem turn_cases (hstep : ReceiptsStep zod crashAfterEffect s t s') :
    Carries zod s s' ∨
      (∃ c i d queue, s.queue.deliver c i = some (d, queue) ∧ s' = s.deliver d queue) ∨
      ∃ n event, s.inserts n = some event ∧ s' = s.insert n event := by
  cases hstep with
  | publish => exact .inl { Carries.refl s with routed := List.subset_append_left _ _ }
  | placeOrder => exact .inl { Carries.refl s with }
  | start hc => exact .inl { Carries.refl s with }
  | deliver hc hfew hd => exact .inr (.inl ⟨_, _, _, _, hd, rfl⟩)
  | read ht hpc => exact .inl (carries_read ht)
  | insert he => exact .inr (.inr ⟨_, _, he, rfl⟩)
  | @lose n => exact .inl (carries_failed n)
  | giveUp ht hpc => exact .inl ((Carries.refl s).setPc ht (by simp))
  | @acknowledge n t applied ht hpc =>
      refine .inl ?_
      unfold ReceiptsWorld.acknowledge
      split
      · exact carries_crash _
      · exact carries_respond ht fun _ => ⟨applied, hpc⟩
  | putBack ht hpc => exact .inl (carries_respond ht (by simp))
  | arrive hf hfirst => exact .inl (carries_arrive hf)
  | crash => exact .inl (carries_crash _)
  | close => exact .inl (carries_close _ _)

theorem Handling.step (h : Handling zod s) (hplaced : Placed s)
    (hstep : ReceiptsStep zod crashAfterEffect s t s') : Handling zod s' := by
  rcases turn_cases hstep with hc | ⟨c, i, d, queue, hd, rfl⟩ | ⟨n, event, _, rfl⟩
  · exact h.follows hc.follows
  · exact h.deliver hplaced hd
  · exact h.follows follows_insert

theorem Effects.step (h : Effects zod s) (hh : Handling zod s)
    (htable : Table zod rows₀ s.routed s.db.receipts)
    (hstep : ReceiptsStep zod crashAfterEffect s t s') : Effects zod s' := by
  rcases turn_cases hstep with hc | ⟨c, i, d, queue, hd, rfl⟩ | ⟨n, event, he, rfl⟩
  · exact h.carries hh hc
  · exact h.deliver hh hd
  · exact h.carries hh (carries_insert he hh htable)

theorem Placed.step (h : Placed s) (hstep : ReceiptsStep zod crashAfterEffect s t s') :
    Placed s' := by
  cases hstep with
  | publish => exact h.publish _
  | placeOrder => exact ⟨h.contents, h.numbers⟩
  | start hc => exact ⟨h.contents, h.numbers⟩
  | deliver hc hfew hd => exact ⟨(Queue.contents_deliver hd).trans h.contents, h.numbers⟩
  | read ht hpc => exact h.same (sameStores_read _ _).1 (sameStores_read _ _).2.1
  | insert he => exact h.same (queue_insert _ _ _) (routed_insert _ _ _)
  | @lose n event he =>
      have hsame : SameStores s (s.lose n) := sameStores_resolve
        { s with inserts := Function.update s.inserts n none } n .failed
      exact h.same hsame.1 hsame.2.1
  | giveUp ht hpc => exact ⟨h.contents, h.numbers⟩
  | acknowledge ht hpc =>
      exact h.same (sameStores_acknowledge _ _ _).1 (sameStores_acknowledge _ _ _).2.1
  | putBack ht hpc => exact ⟨h.contents, h.numbers⟩
  | arrive hf hfirst => exact ⟨(Queue.contents_answer _ _ _ _).trans h.contents, h.numbers⟩
  | crash => exact ⟨h.contents, h.numbers⟩
  | close => exact ⟨(Queue.contents_close _ _ _ _).trans h.contents, h.numbers⟩

theorem Table.step (h : Table zod rows₀ s.routed s.db.receipts) (hh : Handling zod s)
    (hok : EventsApart zod s t) (hstep : ReceiptsStep zod crashAfterEffect s t s') :
    Table zod rows₀ s'.routed s'.db.receipts := by
  have keep : ∀ {s'' : ReceiptsWorld ι}, SameStores s s'' →
      Table zod rows₀ s''.routed s''.db.receipts := by
    rintro s'' ⟨_, hrouted, hdb⟩
    rw [hrouted, hdb]
    exact h
  cases hstep with
  | publish => exact h.publish hok
  | placeOrder => exact h
  | start hc => exact h
  | deliver hc hfew hd => exact h
  | read ht hpc => exact keep (sameStores_read _ _)
  | @insert n event he =>
      obtain ⟨m, hm, hparse, _⟩ := hh.inserts n event he
      rw [routed_insert]
      unfold ReceiptsWorld.insert
      dsimp only
      split
      · next applied db' hins => exact h.insert hm hparse hins
      · rw [(sameStores_resolve
          { s with inserts := Function.update s.inserts n none } n .failed).2.2]
        exact h
  | @lose n event he =>
      exact keep (sameStores_resolve
        { s with inserts := Function.update s.inserts n none } n .failed)
  | giveUp ht hpc => exact h
  | acknowledge ht hpc => exact keep (sameStores_acknowledge _ _ _)
  | putBack ht hpc => exact h
  | arrive hf hfirst => exact h
  | crash => exact h
  | close => exact h

theorem Consistent.step (h : Consistent zod rows₀ s) (hok : EventsApart zod s t)
    (hstep : ReceiptsStep zod crashAfterEffect s t s') : Consistent zod rows₀ s' where
  table := h.table.step h.handling hok hstep
  handling := h.handling.step h.placed hstep
  effects := h.effects.step h.handling h.table hstep
  placed := h.placed.step hstep

end Turn

end Step

theorem Placed.exact {s : ReceiptsWorld ι} (h : Placed s) :
    s.routed.Nodup ∧ (s.queue.ready.map (·.1) ++ s.queue.unacked.map (·.message)
      ++ s.queue.acked ++ s.queue.deadLettered).Perm s.routed := by
  refine ⟨List.Nodup.of_map (·.number) (h.numbers ▸ List.nodup_range), ?_⟩
  rw [← Multiset.coe_eq_coe, ← h.contents]
  rfl

/-- Receipts, in every run: at least once in, exactly once out. -/
theorem receipts_exactlyOnce [DecidableEq ι] {crashAfterEffect : ι → Bool}
    {orders : List Uuid} (hkeys : KeysApart rows₀) {s : ReceiptsWorld ι}
    (hr : Lts.Reach (ReceiptsStep zod crashAfterEffect) (EventsApart zod)
      (.boot ⟨orders, rows₀⟩) s) : ExactlyOnce zod rows₀ s := by
  have h : Consistent zod rows₀ s :=
    hr.invariant (.boot hkeys) fun _ _ _ hs hok hstep => hs.step hok hstep
  exact ⟨h.table.keys, h.effects.acked, h.table.caused, h.placed.exact⟩

/-! A run: the first consumer dies between the committed INSERT and its ack,
and the second one finds the row. -/

/-- zod's formats, as far as lower-case uuids of version 4 and `toISOString` go. -/
def sampleZod : Zod where
  uuid s :=
    let cs := s.toList
    decide (cs.length = 36) && cs[14]? == some '4'
      && [some '8', some '9', some 'a', some 'b'].contains cs[19]?
  datetime s :=
    let cs := s.toList
    decide (cs.length = 24) && cs[10]? == some 'T' && cs[23]? == some 'Z'

def placedOrder : Uuid := 0x0000001800004000800000000000000a

def placedEvent : OrderPlaced where
  eventId := "00000000-0000-4000-8000-0000000000e1"
  type := ORDER_PLACED
  occurredAt := "2026-08-25T12:00:00.000Z"
  data :=
    { orderId := "00000018-0000-4000-8000-00000000000a"
      accountId := "00000002-0000-4000-8000-000000000002"
      instrumentId := "00000003-0000-4000-8000-000000000001"
      quantity := 1
      costCents := 10000
      currency := "USD" }

/-- A turn as a function, where it is possible. -/
def ReceiptsWorld.fire [DecidableEq ι] (zod : Zod) (crashAfterEffect : ι → Bool)
    (s : ReceiptsWorld ι) : ReceiptsTurn ι → Option (ReceiptsWorld ι)
  | .start c => if s.consuming c = false then some (s.start c) else none
  | .deliver c i =>
      if s.consuming c = true ∧
          (s.queue.unacked.filter fun d => d.consumer = c).length < PREFETCH then
        (s.queue.deliver c i).map fun r => s.deliver r.1 r.2
      else none
  | .read n =>
      match s.handlers n with
      | some h => if h.pc = .delivered then some (s.read zod n h) else none
      | none => none
  | .insert n => (s.inserts n).map fun event => s.insert n event
  | .acknowledge n =>
      match s.handlers n with
      | some ⟨c, m, .issued applied⟩ =>
          some (s.acknowledge crashAfterEffect n ⟨c, m, .issued applied⟩)
      | _ => none
  | .arrive 0 =>
      match s.frames with
      | f :: frames =>
          some { s with
            queue := s.queue.answer DELIVERY_LIMIT f.delivery f.answer
            frames := frames }
      | [] => none
  | .close c counted => some (s.close c counted)
  | _ => none

theorem ReceiptsWorld.fire_sound [DecidableEq ι] {crashAfterEffect : ι → Bool}
    (s : ReceiptsWorld ι) (t : ReceiptsTurn ι) (s' : ReceiptsWorld ι)
    (h : s.fire zod crashAfterEffect t = some s') :
    Next (ReceiptsStep zod crashAfterEffect) (EventsApart zod) s s' := by
  cases t with
  | start c =>
      simp only [fire] at h
      split at h
      · next hc =>
          obtain rfl := Option.some.inj h
          exact ⟨.start c, trivial, .start hc⟩
      · simp at h
  | deliver c i =>
      simp only [fire] at h
      split at h
      · next hc =>
          obtain ⟨⟨d, queue⟩, hd, rfl⟩ := Option.map_eq_some_iff.mp h
          exact ⟨.deliver c i, trivial, .deliver hc.1 hc.2 hd⟩
      · simp at h
  | read n =>
      simp only [fire] at h
      split at h
      · next t ht =>
          split at h
          · next hpc =>
              obtain rfl := Option.some.inj h
              exact ⟨.read n, trivial, .read ht hpc⟩
          · simp at h
      · simp at h
  | insert n =>
      obtain ⟨event, he, rfl⟩ := Option.map_eq_some_iff.mp h
      exact ⟨.insert n, trivial, .insert he⟩
  | acknowledge n =>
      simp only [fire] at h
      split at h
      · next c m applied ht =>
          obtain rfl := Option.some.inj h
          exact ⟨.acknowledge n, trivial, .acknowledge ht rfl⟩
      · simp at h
  | arrive i =>
      cases i with
      | zero =>
          simp only [fire] at h
          split at h
          · next f frames hf =>
              obtain rfl := Option.some.inj h
              have hstep : ReceiptsStep zod crashAfterEffect s (.arrive 0)
                  { s with
                    queue := s.queue.answer DELIVERY_LIMIT f.delivery f.answer
                    frames := s.frames.eraseIdx 0 } :=
                .arrive (by rw [hf]; rfl) (by simp)
              rw [hf] at hstep
              exact ⟨.arrive 0, trivial, hstep⟩
          · simp at h
      | succ i => simp [fire] at h
  | close c counted =>
      obtain rfl := Option.some.inj h
      exact ⟨.close c counted, trivial, .close⟩
  | publish content => simp [fire] at h
  | placeOrder o => simp [fire] at h
  | lose n => simp [fire] at h
  | giveUp n => simp [fire] at h
  | putBack n => simp [fire] at h
  | crash c => simp [fire] at h

def receiptsSchedule : List (ReceiptsTurn (Fin 2)) :=
  [.start 0, .deliver 0 0, .read 0, .insert 0, .acknowledge 0, .close 0 true, .start 1,
    .deliver 1 0, .read 1, .insert 1, .acknowledge 1, .arrive 0]

theorem receipts_exactlyOnce_redelivered :
    ∃ s, Lts.Reach (ReceiptsStep sampleZod fun c : Fin 2 => decide (c = 0))
        (EventsApart sampleZod) (.boot ⟨[placedOrder], []⟩) s ∧
      ExactlyOnce sampleZod [] s ∧
      decide (s.queue.acked = [⟨0, placedEvent.content⟩] ∧ s.queue.deliveries = 2 ∧
        s.db.receipts.map (·.order_id) = [placedOrder]) = true := by
  have hrun : (follow (ReceiptsWorld.fire sampleZod fun c : Fin 2 => decide (c = 0))
      receiptsSchedule (ReceiptsWorld.publish (.boot ⟨[placedOrder], []⟩)
        placedEvent.content)).any (fun s =>
      decide (s.queue.acked = [⟨0, placedEvent.content⟩] ∧ s.queue.deliveries = 2 ∧
        s.db.receipts.map (·.order_id) = [placedOrder])) = true := by
    decide +kernel
  obtain ⟨s, hr, hp⟩ := exists_follow ReceiptsWorld.fire_sound _ _ _ hrun
  have hfirst : Next (ReceiptsStep sampleZod fun c : Fin 2 => decide (c = 0))
      (EventsApart sampleZod) (.boot ⟨[placedOrder], []⟩)
      (ReceiptsWorld.publish (.boot ⟨[placedOrder], []⟩) placedEvent.content) :=
    ⟨.publish placedEvent.content, fun _ _ => ⟨by simp [ReceiptsWorld.boot],
      by simp [ReceiptsWorld.boot]⟩, .publish⟩
  have hreach := Relation.ReflTransGen.head hfirst hr
  exact ⟨s, hreach, receipts_exactlyOnce .nil hreach, hp⟩

end InvestApi.Ref
