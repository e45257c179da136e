import Mathlib.Data.List.Nodup
import InvestApi.Ref.Publisher

/-!
# Whose return a publish reports

The set of returned ids is one for the channel, and two publishes of one event have
one id. What the set holds is read off the history: an entry is there when a return
of the id has come in since a call of that id last went on. A call that was confirmed
is told right exactly when that agrees with its own message's return.

So a call is told right in every run in which a publish of an event begins only after
the earlier ones have come to their ends, and none of them was returned and then
failed.
-/

namespace InvestApi.Ref

open InvestApi.Lts

variable {ι : Type} [DecidableEq ι] {eventId : ι → Uuid}

/-! ## What the history says -/

/-- A return of `id` has come in since a call of that id went on. -/
def outstanding (eventId : ι → Uuid) (id : Uuid) : List (PublishEvent ι) → Bool
  | [] => false
  | .bounce c :: past => decide (eventId c = id) || outstanding eventId id past
  | .resume c :: past => decide (eventId c ≠ id) && outstanding eventId id past
  | _ :: past => outstanding eventId id past

/-- What the set says to the call when it goes on. -/
def told (eventId : ι → Uuid) (c : ι) : List (PublishEvent ι) → Option Bool
  | [] => none
  | .resume d :: past =>
      if d = c then some (outstanding eventId (eventId c) past) else told eventId c past
  | _ :: past => told eventId c past

/-- The call's end is about its own message. -/
def OwnVerdict (s : ConfirmChannel ι) (c : ι) : Prop :=
  s.pc c = .resolved ↔ s.acked c = true ∧ s.bounced c = false

/-- The call has come to its end. -/
def AtEnd (s : ConfirmChannel ι) (c : ι) : Prop :=
  s.pc c = .resolved ∨ s.pc c = .rejected

/-- What a call has been told, as its place says. -/
def answerOf (s : ConfirmChannel ι) (c : ι) : Option Bool :=
  match s.pc c with
  | .resolved => some false
  | .rejected => if s.acked c then some true else none
  | _ => none

structure Recorded (eventId : ι → Uuid) (past : List (PublishEvent ι))
    (s : ConfirmChannel ι) : Prop where
  returned : ∀ id, s.returned id = outstanding eventId id past
  bounced : ∀ c, s.bounced c = true ↔ .bounce c ∈ past
  told : ∀ c, told eventId c past = answerOf s c
  waiting : ∀ c, c ∈ s.unconfirmed ↔ s.pc c = .unconfirmed
  queued : ∀ c, c ∈ s.jobs ↔ s.pc c = .confirmed
  apart : s.unconfirmed.Nodup ∧ s.jobs.Nodup
  acked : ∀ c, s.pc c = .confirmed ∨ s.pc c = .resolved → s.acked c = true
  unacked : ∀ c, s.pc c = .idle ∨ s.pc c = .unconfirmed → s.acked c = false

variable {past : List (PublishEvent ι)} {s s' : ConfirmChannel ι}

omit [DecidableEq ι] in
theorem answerOf_congr {c : ι} (hpc : s'.pc c = s.pc c) (hacked : s'.acked c = s.acked c) :
    answerOf s' c = answerOf s c := by
  rw [answerOf, answerOf, hpc, hacked]

omit [DecidableEq ι] in
/-- A call that has not gone on has been told nothing. -/
theorem answerOf_none {c : ι} (hpc : s.pc c ≠ .resolved) (hacked : s.pc c = .rejected →
    s.acked c = false) : answerOf s c = none := by
  rw [answerOf]
  split
  · next h => exact absurd h hpc
  · next h => simp [hacked h]
  · rfl

theorem Recorded.init : Recorded eventId [] (.init : ConfirmChannel ι) where
  returned _ := rfl
  bounced c := by simp [ConfirmChannel.init]
  told _ := rfl
  waiting c := by simp [ConfirmChannel.init]
  queued c := by simp [ConfirmChannel.init]
  apart := ⟨.nil, .nil⟩
  acked c := by simp [ConfirmChannel.init]
  unacked _ _ := rfl

/-- Calls that wait for nothing but their confirm are moved to `pc`. -/
theorem Recorded.settle (h : Recorded eventId past s) {cs : List ι} {e : PublishEvent ι}
    (hcs : ∀ c ∈ cs, c ∈ s.unconfirmed) (hset : ∀ id, outstanding eventId id (e :: past)
      = outstanding eventId id past) (hbounce : ∀ c, e ≠ .bounce c)
    (htold : ∀ c, InvestApi.Ref.told eventId c (e :: past) = InvestApi.Ref.told eventId c past) :
    Recorded eventId (e :: past) (s.settle cs .rejected) := by
  have hunacked : ∀ c ∈ cs, s.acked c = false := fun c hc =>
    h.unacked c (Or.inr ((h.waiting c).mp (hcs c hc)))
  have hpc : ∀ c, (s.settle cs .rejected).pc c = if c ∈ cs then .rejected else s.pc c :=
    fun _ => rfl
  refine ⟨fun id => (h.returned id).trans (hset id).symm, fun c => ?_, fun c => ?_, fun c => ?_,
    fun c => ?_, ⟨h.apart.1.filter _, h.apart.2⟩, fun c hc => ?_, fun c hc => ?_⟩
  · rw [List.mem_cons, ← h.bounced c]
    constructor
    · exact Or.inr
    · rintro (he | hb)
      · exact absurd he.symm (hbounce c)
      · exact hb
  · rw [htold, h.told]
    by_cases hmem : c ∈ cs
    · have hwait := (h.waiting c).mp (hcs c hmem)
      have hold : answerOf s c = none :=
        answerOf_none (by rw [hwait]; simp) fun hrej => absurd (hwait.symm.trans hrej) (by simp)
      have hnew : answerOf (s.settle cs .rejected) c = none :=
        answerOf_none (by rw [hpc, if_pos hmem]; simp) fun _ => hunacked c hmem
      rw [hold, hnew]
    · have hsame : answerOf (s.settle cs .rejected) c = answerOf s c :=
        answerOf_congr (by rw [hpc, if_neg hmem]) rfl
      rw [hsame]
  · rw [hpc]
    show c ∈ s.unconfirmed.filter _ ↔ _
    by_cases hmem : c ∈ cs
    · simp [hmem]
    · simp [hmem, h.waiting c]
  · rw [hpc]
    show c ∈ s.jobs ↔ _
    by_cases hmem : c ∈ cs
    · have hwait := (h.waiting c).mp (hcs c hmem)
      rw [if_pos hmem, h.queued c, hwait]
      simp
    · rw [if_neg hmem, h.queued c]
  · rw [hpc] at hc
    by_cases hmem : c ∈ cs
    · simp [hmem] at hc
    · rw [if_neg hmem] at hc
      exact h.acked c hc
  · rw [hpc] at hc
    by_cases hmem : c ∈ cs
    · simp [hmem] at hc
    · rw [if_neg hmem] at hc
      exact h.unacked c hc

theorem settled_subset {c d : ι} {multiple : Bool} (hc : c ∈ s.unconfirmed)
    (hd : d ∈ s.settled c multiple) : d ∈ s.unconfirmed := by
  rw [ConfirmChannel.settled] at hd
  split at hd
  · rcases List.mem_append.mp hd with hbefore | hlast
    · exact (List.takeWhile_prefix _).subset hbefore
    · obtain rfl := List.mem_singleton.mp hlast
      exact hc
  · obtain rfl := List.mem_singleton.mp hd
    exact hc

theorem settled_nodup {c : ι} {multiple : Bool} (h : s.unconfirmed.Nodup) :
    (s.settled c multiple).Nodup := by
  rw [ConfirmChannel.settled]
  split
  · refine List.nodup_append.mpr ⟨h.sublist (List.takeWhile_sublist _),
      List.nodup_singleton c, fun a ha b hb => ?_⟩
    obtain rfl := List.mem_singleton.mp hb
    simpa using List.mem_takeWhile_imp ha
  · exact List.nodup_singleton c

theorem Recorded.publish (h : Recorded eventId past s) {c : ι} (hc : s.pc c = .idle) :
    Recorded eventId (.publish c :: past) (s.publish c) := by
  have hnew : s.acked c = false := h.unacked c (Or.inl hc)
  have hnot : c ∉ s.unconfirmed := fun hmem => by
    have hwait := (h.waiting c).mp hmem
    rw [hc] at hwait
    cases hwait
  obtain ⟨pc, hpc, hplace⟩ : ∃ pc, (s.publish c).pc = Function.update s.pc c pc ∧
      (pc = .unconfirmed ∧ (s.publish c).unconfirmed = s.unconfirmed ++ [c] ∨
        pc = .rejected ∧ (s.publish c).unconfirmed = s.unconfirmed) := by
    by_cases hopen : s.isOpen = true
    · exact ⟨.unconfirmed, by simp [ConfirmChannel.publish, hopen],
        Or.inl ⟨rfl, by simp [ConfirmChannel.publish, hopen]⟩⟩
    · exact ⟨.rejected, by simp [ConfirmChannel.publish, hopen],
        Or.inr ⟨rfl, by simp [ConfirmChannel.publish, hopen]⟩⟩
  have hrest : (s.publish c).returned = s.returned ∧ (s.publish c).bounced = s.bounced ∧
      (s.publish c).acked = s.acked ∧ (s.publish c).jobs = s.jobs := by
    rw [ConfirmChannel.publish]
    split <;> exact ⟨rfl, rfl, rfl, rfl⟩
  obtain ⟨hreturned, hbounced, hacked, hjobs⟩ := hrest
  have hother : ∀ d, d ≠ c → (s.publish c).pc d = s.pc d := fun d hd => by
    rw [hpc, Function.update_of_ne hd]
  have hself : (s.publish c).pc c = pc := by rw [hpc, Function.update_self]
  have hat : pc = .unconfirmed ∨ pc = .rejected := by
    rcases hplace with ⟨hp, -⟩ | ⟨hp, -⟩
    · exact Or.inl hp
    · exact Or.inr hp
  refine ⟨fun id => ?_, fun d => ?_, fun d => ?_, fun d => ?_, fun d => ?_, ⟨?_, ?_⟩,
    fun d hd => ?_, fun d hd => ?_⟩
  · rw [hreturned]
    exact h.returned id
  · rw [hbounced, h.bounced d]
    simp
  · show InvestApi.Ref.told eventId d past = _
    rw [h.told]
    by_cases hd : d = c
    · subst hd
      have hold : answerOf s d = none :=
        answerOf_none (by rw [hc]; simp) fun hrej => absurd (hc.symm.trans hrej) (by simp)
      have hnone : answerOf (s.publish d) d = none := by
        refine answerOf_none ?_ fun _ => by rw [hacked, hnew]
        rw [hself]
        rcases hat with hp | hp <;> simp [hp]
      rw [hold, hnone]
    · exact (answerOf_congr (hother d hd) (by rw [hacked])).symm
  · by_cases hd : d = c
    · subst hd
      rw [hself]
      rcases hplace with ⟨hp, hun⟩ | ⟨hp, hun⟩
      · simp [hp, hun]
      · simp [hp, hun, hnot]
    · rw [hother d hd, ← h.waiting d]
      rcases hplace with ⟨-, hun⟩ | ⟨-, hun⟩
      · simp [hun, hd]
      · rw [hun]
  · rw [hjobs, h.queued d]
    by_cases hd : d = c
    · subst hd
      rw [hself, hc]
      rcases hat with hp | hp <;> simp [hp]
    · rw [hother d hd]
  · rcases hplace with ⟨-, hun⟩ | ⟨-, hun⟩
    · rw [hun]
      exact List.nodup_append.mpr ⟨h.apart.1, List.nodup_singleton c, fun a ha b hb => by
        obtain rfl := List.mem_singleton.mp hb
        exact fun heq => hnot (heq ▸ ha)⟩
    · rw [hun]
      exact h.apart.1
  · rw [hjobs]
    exact h.apart.2
  · rw [hacked]
    by_cases hdc : d = c
    · subst hdc
      rw [hself] at hd
      rcases hat with hp | hp <;> simp [hp] at hd
    · rw [hother d hdc] at hd
      exact h.acked d hd
  · rw [hacked]
    by_cases hdc : d = c
    · subst hdc
      exact hnew
    · rw [hother d hdc] at hd
      exact h.unacked d hd

theorem Recorded.bounce (h : Recorded eventId past s) (c : ι) :
    Recorded eventId (.bounce c :: past) (s.bounce eventId c) where
  returned id := by
    show Function.update s.returned (eventId c) true id = _
    rw [outstanding, ← h.returned id]
    by_cases hid : id = eventId c
    · rw [hid, Function.update_self]
      simp
    · rw [Function.update_of_ne hid, decide_eq_false (Ne.symm hid), Bool.false_or]
  bounced d := by
    show Function.update s.bounced c true d = true ↔ _
    by_cases hd : d = c
    · subst hd
      simp
    · rw [Function.update_of_ne hd, h.bounced d]
      simp [hd]
  told d := (h.told d).trans (answerOf_congr rfl rfl).symm
  waiting := h.waiting
  queued := h.queued
  apart := h.apart
  acked := h.acked
  unacked := h.unacked

theorem Recorded.ack (h : Recorded eventId past s) {c : ι} {multiple : Bool}
    (hc : c ∈ s.unconfirmed) :
    Recorded eventId (.ack c multiple :: past) (s.ack (s.settled c multiple)) := by
  have hwait : ∀ d ∈ s.settled c multiple, s.pc d = .unconfirmed := fun d hd =>
    (h.waiting d).mp (settled_subset hc hd)
  have hpc : ∀ d, (s.ack (s.settled c multiple)).pc d
      = if d ∈ s.settled c multiple then .confirmed else s.pc d := fun _ => rfl
  have hacked : ∀ d, (s.ack (s.settled c multiple)).acked d
      = (decide (d ∈ s.settled c multiple) || s.acked d) := fun _ => rfl
  refine ⟨h.returned, fun d => ?_, fun d => ?_, fun d => ?_, fun d => ?_,
    ⟨h.apart.1.filter _, ?_⟩, fun d hd => ?_, fun d hd => ?_⟩
  · show s.bounced d = true ↔ _
    rw [h.bounced d]
    simp
  · show InvestApi.Ref.told eventId d past = _
    rw [h.told]
    by_cases hd : d ∈ s.settled c multiple
    · have hold : answerOf s d = none :=
        answerOf_none (by rw [hwait d hd]; simp) fun hrej =>
          absurd ((hwait d hd).symm.trans hrej) (by simp)
      have hnone : answerOf (s.ack (s.settled c multiple)) d = none :=
        answerOf_none (by rw [hpc, if_pos hd]; simp) fun hrej => by
          rw [hpc, if_pos hd] at hrej
          cases hrej
      rw [hold, hnone]
    · have hsame : answerOf (s.ack (s.settled c multiple)) d = answerOf s d :=
        answerOf_congr (by rw [hpc, if_neg hd]) (by rw [hacked, decide_eq_false hd, Bool.false_or])
      rw [hsame]
  · rw [hpc]
    show d ∈ s.unconfirmed.filter _ ↔ _
    by_cases hd : d ∈ s.settled c multiple
    · simp [hd]
    · simp [hd, h.waiting d]
  · rw [hpc]
    show d ∈ s.jobs ++ s.settled c multiple ↔ _
    by_cases hd : d ∈ s.settled c multiple
    · simp [hd]
    · simp [hd, h.queued d]
  · refine List.nodup_append.mpr ⟨h.apart.2, settled_nodup h.apart.1, fun a ha b hb hab => ?_⟩
    have hqueued := (h.queued a).mp ha
    rw [hab, hwait b hb] at hqueued
    cases hqueued
  · rw [hacked]
    by_cases hmem : d ∈ s.settled c multiple
    · simp [hmem]
    · rw [hpc, if_neg hmem] at hd
      rw [h.acked d hd, Bool.or_true]
  · by_cases hmem : d ∈ s.settled c multiple
    · rw [hpc, if_pos hmem] at hd
      simp at hd
    · rw [hpc, if_neg hmem] at hd
      rw [hacked, decide_eq_false hmem, Bool.false_or]
      exact h.unacked d hd

theorem Recorded.resume (h : Recorded eventId past s) {c : ι} (hc : s.jobs.head? = some c) :
    Recorded eventId (.resume c :: past) (s.resume eventId c) := by
  obtain ⟨rest, hjobs⟩ : ∃ rest, s.jobs = c :: rest := List.head?_eq_some_iff.mp hc
  have hqueued : s.pc c = .confirmed := (h.queued c).mp (by rw [hjobs]; exact .head _)
  have hnodup : c ∉ rest ∧ rest.Nodup := by
    have hboth := h.apart.2
    rw [hjobs] at hboth
    exact List.nodup_cons.mp hboth
  have hacked : s.acked c = true := h.acked c (Or.inl hqueued)
  have hother : ∀ d, d ≠ c → (s.resume eventId c).pc d = s.pc d := fun d hd =>
    Function.update_of_ne hd _ _
  have hself : (s.resume eventId c).pc c
      = if s.returned (eventId c) then .rejected else .resolved := Function.update_self ..
  have htail : (s.resume eventId c).jobs = rest := by
    show s.jobs.tail = rest
    rw [hjobs, List.tail_cons]
  refine ⟨fun id => ?_, fun d => ?_, fun d => ?_, fun d => ?_, fun d => ?_,
    ⟨h.apart.1, ?_⟩, fun d hd => ?_, fun d hd => ?_⟩
  · show Function.update s.returned (eventId c) false id = _
    rw [outstanding, ← h.returned id]
    by_cases hid : id = eventId c
    · rw [hid, Function.update_self]
      simp
    · rw [Function.update_of_ne hid, decide_eq_true (Ne.symm hid), Bool.true_and]
  · show s.bounced d = true ↔ _
    rw [h.bounced d]
    simp
  · rw [InvestApi.Ref.told]
    by_cases hd : d = c
    · subst hd
      rw [if_pos rfl, ← h.returned, answerOf, hself]
      cases hret : s.returned (eventId d) with
      | false => rfl
      | true =>
          show some true = if s.acked d then some true else none
          rw [hacked, if_pos rfl]
    · rw [if_neg (Ne.symm hd), h.told]
      exact (answerOf_congr (hother d hd) rfl).symm
  · show d ∈ s.unconfirmed ↔ _
    rw [h.waiting d]
    by_cases hd : d = c
    · subst hd
      rw [hself, hqueued]
      split <;> simp
    · rw [hother d hd]
  · rw [htail]
    by_cases hd : d = c
    · subst hd
      rw [hself]
      refine iff_of_false hnodup.1 ?_
      split <;> simp
    · rw [hother d hd, ← h.queued d, hjobs, List.mem_cons]
      simp [hd]
  · rw [htail]
    exact hnodup.2
  · show s.acked d = true
    by_cases hdc : d = c
    · rw [hdc]
      exact hacked
    · rw [hother d hdc] at hd
      exact h.acked d hd
  · show s.acked d = false
    by_cases hdc : d = c
    · subst hdc
      rw [hself] at hd
      split at hd <;> simp at hd
    · rw [hother d hdc] at hd
      exact h.unacked d hd

/-- A state and its history after a step. -/
theorem Recorded.step (h : Recorded eventId past s) {e : PublishEvent ι}
    (hstep : ConfirmChannel.Step eventId s e s') : Recorded eventId (e :: past) s' := by
  cases hstep with
  | publish hc => exact h.publish hc
  | bounce hc hnew => exact h.bounce _
  | ack hc => exact h.ack hc
  | nack hc =>
      exact h.settle (fun _ hd => settled_subset hc hd) (fun _ => rfl) (by simp) fun _ => rfl
  | resume hc => exact h.resume hc
  | close =>
      have hset := h.settle (e := .close) (fun _ hd => hd) (fun _ => rfl) (by simp) fun _ => rfl
      exact ⟨hset.returned, hset.bounced, hset.told, hset.waiting, hset.queued, hset.apart,
        hset.acked, hset.unacked⟩

theorem Recorded.of_trace {ok : ConfirmChannel ι → PublishEvent ι → Prop}
    (h : Trace (ConfirmChannel.Step eventId) ok .init past s) : Recorded eventId past s :=
  h.invariant .init fun _ _ _ _ hrec _ hstep => hrec.step hstep

/-- A call at its end is told right exactly when the set told it of its own return. -/
theorem Recorded.ownVerdict_iff (h : Recorded eventId past s) {c : ι} (hend : AtEnd s c) :
    OwnVerdict s c ↔ ∀ entry, InvestApi.Ref.told eventId c past = some entry →
      (entry = true ↔ .bounce c ∈ past) := by
  rw [h.told c, ← h.bounced c, OwnVerdict, answerOf]
  rcases hend with hpc | hpc
  · have hacked : s.acked c = true := h.acked c (Or.inr hpc)
    simp [hpc, hacked]
  · cases hacked : s.acked c with
    | true => simp [hpc]
    | false => simp [hpc]

/-! ## One publish of an event at a time -/

/-- A call that waits, or that left its entry in the set when it failed. -/
def Live (s : ConfirmChannel ι) (c : ι) : Prop :=
  s.pc c = .unconfirmed ∨ s.pc c = .confirmed ∨
    s.pc c = .rejected ∧ s.bounced c = true ∧ s.acked c = false

/-- What begins to publish an event finds no call of that event live. -/
def Alone (eventId : ι → Uuid) (s : ConfirmChannel ι) (e : PublishEvent ι) : Prop :=
  ∀ c, e = .publish c → s.isOpen = true → ∀ d, eventId d = eventId c → ¬ Live s d

/-- An event has one live call, and its entry is that call's. -/
structure Single (eventId : ι → Uuid) (s : ConfirmChannel ι) : Prop where
  one : ∀ c d, Live s c → Live s d → eventId c = eventId d → c = d
  entry : ∀ id, s.returned id = true ↔ ∃ c, Live s c ∧ s.bounced c = true ∧ eventId c = id
  own : ∀ c, AtEnd s c → OwnVerdict s c
  fresh : ∀ c, s.pc c = .idle → s.bounced c = false

omit [DecidableEq ι] in
theorem live_congr {c : ι} (hpc : s'.pc c = s.pc c) (hbounced : s'.bounced c = s.bounced c)
    (hacked : s'.acked c = s.acked c) : Live s' c ↔ Live s c := by
  rw [Live, Live, hpc, hbounced, hacked]

omit [DecidableEq ι] in
theorem own_congr {c : ι} (hpc : s'.pc c = s.pc c) (hbounced : s'.bounced c = s.bounced c)
    (hacked : s'.acked c = s.acked c) (h : AtEnd s c → OwnVerdict s c) :
    AtEnd s' c → OwnVerdict s' c := by
  rw [AtEnd, OwnVerdict, hpc, hbounced, hacked]
  exact h

omit [DecidableEq ι] in
theorem Single.init : Single eventId (.init : ConfirmChannel ι) where
  one c _ hc := by simp [Live, ConfirmChannel.init] at hc
  entry id := by simp [Live, ConfirmChannel.init]
  own c hc := by simp [AtEnd, ConfirmChannel.init] at hc
  fresh _ _ := rfl

omit [DecidableEq ι] in
/-- A step that leaves the entries alone, and makes no call live. -/
theorem Single.keep (h : Single eventId s) (hlive : ∀ c, Live s' c → Live s c)
    (hstay : ∀ c, s.bounced c = true → Live s c → Live s' c) (hbounced : s'.bounced = s.bounced)
    (hreturned : s'.returned = s.returned) (hown : ∀ c, AtEnd s' c → OwnVerdict s' c)
    (hfresh : ∀ c, s'.pc c = .idle → s.pc c = .idle) : Single eventId s' where
  one c d hc hd := h.one c d (hlive c hc) (hlive d hd)
  entry id := by
    rw [hreturned, hbounced, h.entry id]
    constructor
    · rintro ⟨c, hc, hb, hid⟩
      exact ⟨c, hstay c hb hc, hb, hid⟩
    · rintro ⟨c, hc, hb, hid⟩
      exact ⟨c, hlive c hc, hb, hid⟩
  own := hown
  fresh c hc := by
    rw [hbounced]
    exact h.fresh c (hfresh c hc)

omit [DecidableEq ι] in
/-- In front of its continuation, a call's entry is its own. -/
theorem Single.entry_own (h : Single eventId s) {c : ι} (hc : Live s c) :
    s.returned (eventId c) = s.bounced c := by
  rw [Bool.eq_iff_iff, h.entry]
  constructor
  · rintro ⟨d, hd, hb, hid⟩
    rw [← h.one d c hd hc hid]
    exact hb
  · intro hb
    exact ⟨c, hc, hb, rfl⟩

theorem Single.publish (h : Single eventId s) (hrec : Recorded eventId past s) {c : ι}
    (hc : s.pc c = .idle) (halone : Alone eventId s (.publish c)) :
    Single eventId (s.publish c) := by
  have hunbounced : s.bounced c = false := h.fresh c hc
  have hunacked : s.acked c = false := hrec.unacked c (Or.inl hc)
  by_cases hopen : s.isOpen = true
  · have hpub : s.publish c = { s with
        pc := Function.update s.pc c .unconfirmed
        unconfirmed := s.unconfirmed ++ [c] } := by rw [ConfirmChannel.publish, if_pos hopen]
    have hother : ∀ d, d ≠ c → (s.publish c).pc d = s.pc d := fun d hd => by
      rw [hpub]
      exact Function.update_of_ne hd _ _
    have hself : (s.publish c).pc c = .unconfirmed := by
      rw [hpub]
      exact Function.update_self ..
    have hbounced : (s.publish c).bounced = s.bounced := by rw [hpub]
    have hacked : (s.publish c).acked = s.acked := by rw [hpub]
    have hlive : ∀ d, d ≠ c → (Live (s.publish c) d ↔ Live s d) := fun d hd =>
      live_congr (hother d hd) (by rw [hbounced]) (by rw [hacked])
    have hapart : ∀ d, Live (s.publish c) d → eventId d = eventId c → d = c := by
      intro d hd hid
      by_contra hne
      exact halone c rfl hopen d hid ((hlive d hne).mp hd)
    refine ⟨fun a b ha hb hid => ?_, fun id => ?_, fun d => ?_, fun d hd => ?_⟩
    · by_cases hac : a = c
      · rw [hac]
        exact (hapart b hb (by rw [← hid, hac])).symm
      · by_cases hbc : b = c
        · rw [hbc]
          exact hapart a ha (by rw [hid, hbc])
        · exact h.one a b ((hlive a hac).mp ha) ((hlive b hbc).mp hb) hid
    · have hret : (s.publish c).returned = s.returned := by rw [hpub]
      rw [hret, hbounced, h.entry id]
      constructor
      · rintro ⟨d, hd, hb, hid⟩
        have hne : d ≠ c := fun heq => by rw [heq, hunbounced] at hb; cases hb
        exact ⟨d, (hlive d hne).mpr hd, hb, hid⟩
      · rintro ⟨d, hd, hb, hid⟩
        have hne : d ≠ c := fun heq => by rw [heq, hunbounced] at hb; cases hb
        exact ⟨d, (hlive d hne).mp hd, hb, hid⟩
    · by_cases hdc : d = c
      · intro hend
        rw [AtEnd, hdc, hself] at hend
        simp at hend
      · exact own_congr (hother d hdc) (by rw [hbounced]) (by rw [hacked]) (h.own d)
    · rw [hbounced]
      by_cases hdc : d = c
      · rw [hdc]
        exact hunbounced
      · rw [hother d hdc] at hd
        exact h.fresh d hd
  · have hpub : s.publish c = { s with pc := Function.update s.pc c .rejected } := by
      rw [ConfirmChannel.publish, if_neg hopen]
    have hother : ∀ d, d ≠ c → (s.publish c).pc d = s.pc d := fun d hd => by
      rw [hpub]
      exact Function.update_of_ne hd _ _
    have hself : (s.publish c).pc c = .rejected := by
      rw [hpub]
      exact Function.update_self ..
    have hbounced : (s.publish c).bounced = s.bounced := by rw [hpub]
    have hacked : (s.publish c).acked = s.acked := by rw [hpub]
    have hlive : ∀ d, d ≠ c → (Live (s.publish c) d ↔ Live s d) := fun d hd =>
      live_congr (hother d hd) (by rw [hbounced]) (by rw [hacked])
    refine h.keep (fun d hd => ?_) (fun d hb hd => ?_) hbounced (by rw [hpub])
      (fun d => ?_) fun d hd => ?_
    · by_cases hdc : d = c
      · rw [Live, hdc, hself, hbounced, hunbounced] at hd
        simp at hd
      · exact (hlive d hdc).mp hd
    · have hne : d ≠ c := fun heq => by rw [heq, hunbounced] at hb; cases hb
      exact (hlive d hne).mpr hd
    · by_cases hdc : d = c
      · intro _
        rw [OwnVerdict, hdc, hself, hacked, hunacked]
        simp
      · exact own_congr (hother d hdc) (by rw [hbounced]) (by rw [hacked]) (h.own d)
    · by_cases hdc : d = c
      · rw [hdc, hself] at hd
        cases hd
      · rw [hother d hdc] at hd
        exact hd

theorem Single.bounce (h : Single eventId s) {c : ι} (hc : s.pc c = .unconfirmed) :
    Single eventId (s.bounce eventId c) := by
  have hself : (s.bounce eventId c).bounced c = true := Function.update_self ..
  have hother : ∀ d, d ≠ c → (s.bounce eventId c).bounced d = s.bounced d := fun d hd =>
    Function.update_of_ne hd _ _
  have hlive : ∀ d, Live (s.bounce eventId c) d ↔ Live s d := fun d => by
    by_cases hd : d = c
    · subst hd
      exact iff_of_true (Or.inl hc) (Or.inl hc)
    · exact live_congr rfl (hother d hd) rfl
  refine ⟨fun a b ha hb hid => h.one a b ((hlive a).mp ha) ((hlive b).mp hb) hid,
    fun id => ?_, fun d => ?_, fun d hd => ?_⟩
  · show Function.update s.returned (eventId c) true id = true ↔ _
    by_cases hid : id = eventId c
    · rw [hid, Function.update_self]
      exact iff_of_true rfl ⟨c, (hlive c).mpr (Or.inl hc), hself, rfl⟩
    · rw [Function.update_of_ne hid, h.entry id]
      constructor
      · rintro ⟨d, hd, hb, rfl⟩
        have hne : d ≠ c := fun heq => hid (congrArg eventId heq)
        exact ⟨d, (hlive d).mpr hd, (hother d hne).trans hb, rfl⟩
      · rintro ⟨d, hd, hb, rfl⟩
        have hne : d ≠ c := fun heq => hid (congrArg eventId heq)
        exact ⟨d, (hlive d).mp hd, (hother d hne).symm.trans hb, rfl⟩
  · by_cases hdc : d = c
    · intro hend
      have hpc : (s.bounce eventId c).pc d = .unconfirmed := hdc ▸ hc
      rw [AtEnd, hpc] at hend
      simp at hend
    · exact own_congr (s := s) rfl (hother d hdc) rfl (h.own d)
  · by_cases hdc : d = c
    · have hpc : s.pc d = .idle := hd
      rw [hdc, hc] at hpc
      cases hpc
    · rw [hother d hdc]
      exact h.fresh d hd

theorem Single.ack (h : Single eventId s) {cs : List ι}
    (hcs : ∀ c ∈ cs, s.pc c = .unconfirmed) : Single eventId (s.ack cs) := by
  have hpc : ∀ d, (s.ack cs).pc d = if d ∈ cs then .confirmed else s.pc d := fun _ => rfl
  have hacked : ∀ d, (s.ack cs).acked d = (decide (d ∈ cs) || s.acked d) := fun _ => rfl
  have hother : ∀ d, d ∉ cs → (s.ack cs).pc d = s.pc d ∧ (s.ack cs).acked d = s.acked d :=
    fun d hd => ⟨by rw [hpc, if_neg hd], by rw [hacked, decide_eq_false hd, Bool.false_or]⟩
  have hlive : ∀ d, Live (s.ack cs) d ↔ Live s d := fun d => by
    by_cases hd : d ∈ cs
    · exact iff_of_true (Or.inr (Or.inl (by rw [hpc, if_pos hd]))) (Or.inl (hcs d hd))
    · exact live_congr (hother d hd).1 rfl (hother d hd).2
  refine h.keep (fun d => (hlive d).mp) (fun d _ => (hlive d).mpr) rfl rfl (fun d => ?_)
    fun d hd => ?_
  · by_cases hmem : d ∈ cs
    · intro hend
      rw [AtEnd, hpc, if_pos hmem] at hend
      simp at hend
    · exact own_congr (hother d hmem).1 rfl (hother d hmem).2 (h.own d)
  · by_cases hmem : d ∈ cs
    · rw [hpc, if_pos hmem] at hd
      cases hd
    · rw [← (hother d hmem).1]
      exact hd

/-- A call that fails is live on where its message was returned. -/
theorem Single.settle (h : Single eventId s) {cs : List ι}
    (hcs : ∀ c ∈ cs, s.pc c = .unconfirmed ∧ s.acked c = false) :
    Single eventId (s.settle cs .rejected) := by
  have hpc : ∀ d, (s.settle cs .rejected).pc d = if d ∈ cs then .rejected else s.pc d :=
    fun _ => rfl
  have hother : ∀ d, d ∉ cs → (s.settle cs .rejected).pc d = s.pc d := fun d hd => by
    rw [hpc, if_neg hd]
  refine h.keep (fun d hd => ?_) (fun d hb hd => ?_) rfl rfl (fun d => ?_) fun d hd => ?_
  · by_cases hmem : d ∈ cs
    · exact Or.inl (hcs d hmem).1
    · exact (live_congr (hother d hmem) rfl rfl).mp hd
  · by_cases hmem : d ∈ cs
    · exact Or.inr (Or.inr ⟨by rw [hpc, if_pos hmem], hb, (hcs d hmem).2⟩)
    · exact (live_congr (hother d hmem) rfl rfl).mpr hd
  · by_cases hmem : d ∈ cs
    · intro _
      have hunacked : (s.settle cs .rejected).acked d = false := (hcs d hmem).2
      rw [OwnVerdict, hpc, if_pos hmem, hunacked]
      simp
    · exact own_congr (hother d hmem) rfl rfl (h.own d)
  · by_cases hmem : d ∈ cs
    · rw [hpc, if_pos hmem] at hd
      cases hd
    · rw [← hother d hmem]
      exact hd

theorem Single.resume (h : Single eventId s) {c : ι} (hc : s.pc c = .confirmed)
    (hacked : s.acked c = true) : Single eventId (s.resume eventId c) := by
  have hentry : s.returned (eventId c) = s.bounced c := h.entry_own (Or.inr (Or.inl hc))
  have hself : (s.resume eventId c).pc c
      = if s.returned (eventId c) then .rejected else .resolved := Function.update_self ..
  have hother : ∀ d, d ≠ c → (s.resume eventId c).pc d = s.pc d := fun d hd =>
    Function.update_of_ne hd _ _
  have hdead : ¬ Live (s.resume eventId c) c := by
    have hack : (s.resume eventId c).acked c = true := hacked
    rw [Live, hself, hack]
    split <;> simp
  have hlive : ∀ d, d ≠ c → (Live (s.resume eventId c) d ↔ Live s d) := fun d hd =>
    live_congr (hother d hd) rfl rfl
  have hstill : ∀ d, Live (s.resume eventId c) d → d ≠ c ∧ Live s d := fun d hd => by
    have hne : d ≠ c := fun heq => hdead (heq ▸ hd)
    exact ⟨hne, (hlive d hne).mp hd⟩
  refine ⟨fun a b ha hb hid => h.one a b (hstill a ha).2 (hstill b hb).2 hid, fun id => ?_,
    fun d hend => ?_, fun d hd => ?_⟩
  · show Function.update s.returned (eventId c) false id = true ↔
      ∃ d, Live (s.resume eventId c) d ∧ s.bounced d = true ∧ eventId d = id
    by_cases hid : id = eventId c
    · rw [hid, Function.update_self]
      refine iff_of_false (by simp) ?_
      rintro ⟨d, hd, -, hsame⟩
      exact (hstill d hd).1 (h.one d c (hstill d hd).2 (Or.inr (Or.inl hc)) hsame)
    · rw [Function.update_of_ne hid, h.entry id]
      constructor
      · rintro ⟨d, hd, hb, rfl⟩
        have hne : d ≠ c := fun heq => hid (congrArg eventId heq)
        exact ⟨d, (hlive d hne).mpr hd, hb, rfl⟩
      · rintro ⟨d, hd, hb, rfl⟩
        exact ⟨d, (hstill d hd).2, hb, rfl⟩
  · by_cases hdc : d = c
    · subst hdc
      show (s.resume eventId d).pc d = .resolved ↔ s.acked d = true ∧ s.bounced d = false
      rw [hself, hentry]
      cases s.bounced d <;> simp [hacked]
    · exact own_congr (hother d hdc) rfl rfl (h.own d) hend
  · by_cases hdc : d = c
    · rw [hdc, hself] at hd
      split at hd <;> cases hd
    · rw [hother d hdc] at hd
      exact h.fresh d hd

theorem Single.step (h : Single eventId s) (hrec : Recorded eventId past s)
    {e : PublishEvent ι} (halone : Alone eventId s e)
    (hstep : ConfirmChannel.Step eventId s e s') : Single eventId s' := by
  have hwait : ∀ c ∈ s.unconfirmed, s.pc c = .unconfirmed ∧ s.acked c = false := fun c hc =>
    have hpc := (hrec.waiting c).mp hc
    ⟨hpc, hrec.unacked c (Or.inr hpc)⟩
  cases hstep with
  | publish hc => exact h.publish hrec hc halone
  | bounce hc hnew => exact h.bounce (hwait _ hc).1
  | ack hc => exact h.ack fun d hd => (hwait d (settled_subset hc hd)).1
  | nack hc => exact h.settle fun d hd => hwait d (settled_subset hc hd)
  | resume hc =>
      have hpc := (hrec.queued _).mp (List.mem_of_mem_head? hc)
      exact h.resume hpc (hrec.acked _ (Or.inl hpc))
  | close =>
      have hset := h.settle hwait
      exact ⟨hset.one, hset.entry, hset.own, hset.fresh⟩

theorem Single.of_trace (h : Trace (ConfirmChannel.Step eventId) (Alone eventId) .init past s) :
    Single eventId s := by
  have hboth : Recorded eventId past s ∧ Single eventId s :=
    h.invariant (I := fun past s => Recorded eventId past s ∧ Single eventId s)
      ⟨.init, .init⟩ fun _ _ _ _ hinv hok hstep =>
        ⟨hinv.1.step hstep, hinv.2.step hinv.1 hok hstep⟩
  exact hboth.2

/-! ## The result -/

/-- A call resolves exactly if its message was confirmed and not returned, when what
the set tells its continuation is its own return; and it is told so in every run in
which publishes of one event do not overlap. -/
theorem publish_reports_own_iff (ι : Type) [DecidableEq ι] (eventId : ι → Uuid) :
    (∀ (past : List (PublishEvent ι)) (s : ConfirmChannel ι) (c : ι),
      Trace (ConfirmChannel.Step eventId) (fun _ _ => True) .init past s → AtEnd s c →
        (OwnVerdict s c ↔ ∀ entry, told eventId c past = some entry →
          (entry = true ↔ .bounce c ∈ past))) ∧
    ∀ (past : List (PublishEvent ι)) (s : ConfirmChannel ι) (c : ι),
      Trace (ConfirmChannel.Step eventId) (Alone eventId) .init past s → AtEnd s c →
        OwnVerdict s c :=
  ⟨fun _ _ _ hrun hend => (Recorded.of_trace hrun).ownVerdict_iff hend,
    fun _ _ _ hrun hend => (Single.of_trace hrun).own _ hend⟩

/-- Both calls publish one event. -/
def oneEvent : Fin 2 → Uuid := fun _ => 7

/-- A publish that failed after its return leaves its entry to the next. -/
example : (replay (fun s => ConfirmChannel.next oneEvent s) .init
    [.resume 1, .ack 1 false, .publish 1, .nack 0 false, .bounce 0, .publish 0]).map
      (fun s => (s.pc 1, s.acked 1, s.bounced 1)) = some (.rejected, true, false) := by
  decide +kernel

instance (s : ConfirmChannel ι) (c : ι) : Decidable (AtEnd s c) :=
  inferInstanceAs (Decidable (_ ∨ _))

instance (s : ConfirmChannel ι) (c : ι) : Decidable (Live s c) :=
  inferInstanceAs (Decidable (_ ∨ _ ∨ _))

instance (eventId : Fin 2 → Uuid) (s : ConfirmChannel (Fin 2)) (e : PublishEvent (Fin 2)) :
    Decidable (Alone eventId s e) :=
  inferInstanceAs (Decidable (∀ _, _))

/-- The event where no other call of its event is live. -/
def fireAlone (eventId : Fin 2 → Uuid) (s : ConfirmChannel (Fin 2))
    (e : PublishEvent (Fin 2)) : Option (ConfirmChannel (Fin 2)) :=
  if Alone eventId s e then s.next eventId e else none

theorem fireAlone_sound (eventId : Fin 2 → Uuid) (s : ConfirmChannel (Fin 2))
    (e : PublishEvent (Fin 2)) (s' : ConfirmChannel (Fin 2))
    (h : fireAlone eventId s e = some s') :
    Alone eventId s e ∧ ConfirmChannel.Step eventId s e s' := by
  rw [fireAlone] at h
  split at h
  · next halone => exact ⟨halone, ConfirmChannel.step_of_next h⟩
  · cases h

theorem next_sound (eventId : ι → Uuid) (s : ConfirmChannel ι) (e : PublishEvent ι)
    (s' : ConfirmChannel ι) (h : s.next eventId e = some s') :
    True ∧ ConfirmChannel.Step eventId s e s' :=
  ⟨trivial, ConfirmChannel.step_of_next h⟩

/-- Two publishes of one event overlap and none is returned; and one is returned, and
published again after that. -/
theorem publish_reports_own_iff_again :
    (∃ past s, Trace (ConfirmChannel.Step oneEvent) (fun _ _ => True) .init past s ∧
      s.pc 0 = .resolved ∧ s.pc 1 = .resolved ∧ OwnVerdict s 1) ∧
    ∃ past s, Trace (ConfirmChannel.Step oneEvent) (Alone oneEvent) .init past s ∧
      s.pc 0 = .rejected ∧ OwnVerdict s 0 ∧ s.pc 1 = .resolved ∧ OwnVerdict s 1 := by
  constructor
  · obtain ⟨s, hrun, hends⟩ := exists_trace (next_sound oneEvent) .init
      [.resume 1, .resume 0, .ack 1 true, .publish 1, .publish 0]
      (fun s => decide (s.pc 0 = .resolved ∧ s.pc 1 = .resolved)) (by decide +kernel)
    obtain ⟨hzero, hone⟩ := of_decide_eq_true hends
    have hown : OwnVerdict s 1 :=
      ((publish_reports_own_iff (Fin 2) oneEvent).1 _ s 1 hrun (Or.inl hone)).mpr <| by
        intro entry hentry
        obtain rfl : false = entry := Option.some.inj hentry
        decide
    exact ⟨_, s, hrun, hzero, hone, hown⟩
  · obtain ⟨s, hrun, hends⟩ := exists_trace (fireAlone_sound oneEvent) .init
      [.resume 1, .ack 1 false, .publish 1, .resume 0, .ack 0 false, .bounce 0, .publish 0]
      (fun s => decide (s.pc 0 = .rejected ∧ s.pc 1 = .resolved)) (by decide +kernel)
    obtain ⟨hzero, hone⟩ := of_decide_eq_true hends
    have hown : ∀ c, AtEnd s c → OwnVerdict s c := fun c =>
      (publish_reports_own_iff (Fin 2) oneEvent).2 _ s c hrun
    exact ⟨_, s, hrun, hzero, hown 0 (Or.inr hzero), hone, hown 1 (Or.inl hone)⟩

/-- Two publishes of one event are returned and confirmed together: the first to go on
takes the one entry, and the other resolves. -/
theorem republish_resolves_returned :
    ¬∀ past s c, Trace (ConfirmChannel.Step oneEvent) (fun _ _ => True) .init past s →
      AtEnd s c → OwnVerdict s c := by
  intro hclaim
  obtain ⟨s, hrun, hends⟩ := exists_trace (next_sound oneEvent) .init
    [.resume 1, .resume 0, .ack 1 true, .bounce 1, .bounce 0, .publish 1, .publish 0]
    (fun s => decide (s.pc 1 = .resolved ∧ s.bounced 1 = true)) (by decide +kernel)
  obtain ⟨hpc, hbounced⟩ := of_decide_eq_true hends
  have hunbounced : s.bounced 1 = false := ((hclaim _ s 1 hrun (Or.inl hpc)).mp hpc).2
  rw [hbounced] at hunbounced
  cases hunbounced

end InvestApi.Ref
