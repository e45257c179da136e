import Mathlib.Algebra.Order.Group.Multiset
import Mathlib.Tactic.Abel

/-!
# A broker queue with acknowledgements

A routed message is ready, or delivered to a consumer and not settled yet, or
acknowledged, or dead-lettered. A delivery has a number of its own; what a
consumer answers to it names that number, and an answer to a delivery that is
no longer open changes nothing. Putting a message back counts towards its
delivery limit, and past the limit it is dead-lettered instead.

Nothing here says in which order ready messages are delivered.
-/

namespace InvestApi.Amqp

variable {μ ι : Type}

structure Delivery (μ ι : Type) where
  number : Nat
  consumer : ι
  message : μ
  /-- How often the message has been put back. -/
  count : Nat
  deriving DecidableEq, Repr

structure Queue (μ ι : Type) where
  ready : List (μ × Nat)
  unacked : List (Delivery μ ι)
  acked : List μ
  deadLettered : List μ
  /-- The number of the next delivery. -/
  deliveries : Nat
  deriving DecidableEq, Repr

/-- What a consumer answers to a delivery. -/
inductive Answer where
  | ack
  | reject (requeue : Bool)
  deriving DecidableEq, Repr

namespace Queue

def empty : Queue μ ι := ⟨[], [], [], [], 0⟩

def publish (q : Queue μ ι) (m : μ) : Queue μ ι :=
  { q with ready := q.ready ++ [(m, 0)] }

/-- The `i`-th ready message goes to consumer `c`. -/
def deliver (q : Queue μ ι) (c : ι) (i : Nat) : Option (Delivery μ ι × Queue μ ι) :=
  q.ready[i]?.map fun entry =>
    let d : Delivery μ ι := ⟨q.deliveries, c, entry.1, entry.2⟩
    (d, { q with
      ready := q.ready.eraseIdx i
      unacked := q.unacked ++ [d]
      deliveries := q.deliveries + 1 })

def deadLetter (q : Queue μ ι) (m : μ) : Queue μ ι :=
  { q with deadLettered := q.deadLettered ++ [m] }

/-- Back to the queue for the `count`-th time, or past the limit. -/
def putBack (limit : Nat) (q : Queue μ ι) (m : μ) (count : Nat) : Queue μ ι :=
  if count > limit then q.deadLetter m
  else { q with ready := q.ready ++ [(m, count)] }

def requeue (limit : Nat) (counted : Bool) (q : Queue μ ι) (d : Delivery μ ι) :
    Queue μ ι :=
  q.putBack limit d.message (if counted then d.count + 1 else d.count)

def settle (limit : Nat) (q : Queue μ ι) (d : Delivery μ ι) : Answer → Queue μ ι
  | .ack => { q with acked := q.acked ++ [d.message] }
  | .reject false => q.deadLetter d.message
  | .reject true => q.requeue limit true d

/-- The answer to delivery `number` arrives. -/
def answer (limit : Nat) (q : Queue μ ι) (number : Nat) (a : Answer) : Queue μ ι :=
  match q.unacked.find? (·.number = number) with
  | none => q
  | some d =>
      settle limit { q with unacked := q.unacked.eraseP (·.number = number) } d a

/-- The connection of `c` is gone: what it has not settled goes back. -/
def close [DecidableEq ι] (limit : Nat) (counted : Bool) (q : Queue μ ι) (c : ι) :
    Queue μ ι :=
  (q.unacked.filter (·.consumer = c)).foldl (requeue limit counted)
    { q with unacked := q.unacked.filter (·.consumer ≠ c) }

/-- Everything the queue answers for. -/
def contents (q : Queue μ ι) : Multiset μ :=
  (q.ready.map (·.1) : Multiset μ) + (q.unacked.map (·.message) : Multiset μ)
    + (q.acked : Multiset μ) + (q.deadLettered : Multiset μ)

/-! ## No message is lost, none is there twice -/

theorem contents_publish (q : Queue μ ι) (m : μ) :
    (q.publish m).contents = q.contents + {m} := by
  simp only [contents, publish, List.map_append, List.map_cons, List.map_nil,
    ← Multiset.coe_add, Multiset.coe_singleton]
  abel

theorem contents_deadLetter (q : Queue μ ι) (m : μ) :
    (q.deadLetter m).contents = q.contents + {m} := by
  simp only [contents, deadLetter, ← Multiset.coe_add, Multiset.coe_singleton]
  abel

theorem contents_requeue (limit : Nat) (counted : Bool) (q : Queue μ ι)
    (d : Delivery μ ι) :
    (q.requeue limit counted d).contents = q.contents + {d.message} := by
  unfold requeue putBack
  generalize (if counted then d.count + 1 else d.count) = count
  split
  · exact contents_deadLetter q _
  · simp only [contents, List.map_append, List.map_cons, List.map_nil,
      ← Multiset.coe_add, Multiset.coe_singleton]
    abel

theorem contents_settle (limit : Nat) (q : Queue μ ι) (d : Delivery μ ι) (a : Answer) :
    (q.settle limit d a).contents = q.contents + {d.message} := by
  cases a with
  | ack =>
      simp only [settle, contents, ← Multiset.coe_add, Multiset.coe_singleton]
      abel
  | reject requeue =>
      cases requeue with
      | false => exact contents_deadLetter q _
      | true => exact contents_requeue limit true q d

theorem contents_deliver {q q' : Queue μ ι} {c : ι} {i : Nat} {d : Delivery μ ι}
    (h : q.deliver c i = some (d, q')) : q'.contents = q.contents := by
  obtain ⟨entry, hentry, heq⟩ := Option.map_eq_some_iff.mp h
  obtain ⟨rfl, rfl⟩ := Prod.mk.inj heq
  obtain ⟨hi, rfl⟩ := List.getElem?_eq_some_iff.mp hentry
  have hperm : (q.ready : Multiset (μ × Nat)) = q.ready[i] ::ₘ (q.ready.eraseIdx i) := by
    rw [Multiset.cons_coe, Multiset.coe_eq_coe]
    exact (List.getElem_cons_eraseIdx_perm hi).symm
  have hready : (q.ready.map (·.1) : Multiset μ)
      = q.ready[i].1 ::ₘ (q.ready.eraseIdx i).map (·.1) := by
    rw [← Multiset.map_coe, hperm, Multiset.map_cons, Multiset.map_coe]
  simp only [contents, hready, List.map_append, List.map_cons, List.map_nil,
    ← Multiset.coe_add, Multiset.coe_singleton, ← Multiset.singleton_add]
  abel

theorem contents_answer (limit : Nat) (q : Queue μ ι) (number : Nat) (a : Answer) :
    (q.answer limit number a).contents = q.contents := by
  unfold answer
  split
  · rfl
  · next d hd =>
      have hmem := List.mem_of_find?_eq_some hd
      obtain ⟨d', pre, post, hno, hd', hpre, herase⟩ :=
        List.exists_of_eraseP hmem (List.find?_some hd)
      have hfind : d' = d := by
        rw [hpre, List.find?_append, List.find?_eq_none.mpr hno, Option.none_or] at hd
        simpa [of_decide_eq_true hd'] using hd
      subst hfind
      rw [contents_settle, herase]
      simp only [contents, hpre, List.map_append, List.map_cons, ← Multiset.coe_add,
        ← Multiset.cons_coe, ← Multiset.singleton_add]
      abel

theorem contents_close [DecidableEq ι] (limit : Nat) (counted : Bool) (q : Queue μ ι)
    (c : ι) : (q.close limit counted c).contents = q.contents := by
  have key : ∀ (ds : List (Delivery μ ι)) (q : Queue μ ι),
      (ds.foldl (requeue limit counted) q).contents
        = q.contents + (ds.map (·.message) : Multiset μ) := by
    intro ds
    induction ds with
    | nil => simp
    | cons d ds ih =>
        intro q
        rw [List.foldl_cons, ih, contents_requeue, List.map_cons, ← Multiset.cons_coe,
          ← Multiset.singleton_add]
        abel
  have hsplit : (q.unacked : Multiset (Delivery μ ι)) =
      (q.unacked.filter (·.consumer = c) : Multiset (Delivery μ ι))
        + (q.unacked.filter (·.consumer ≠ c) : Multiset (Delivery μ ι)) := by
    rw [Multiset.coe_add, Multiset.coe_eq_coe]
    have hperm := List.filter_append_perm (fun d : Delivery μ ι => d.consumer = c) q.unacked
    simpa using hperm.symm
  have hmsgs : (q.unacked.map (·.message) : Multiset μ) =
      ((q.unacked.filter (·.consumer = c)).map (·.message) : Multiset μ)
        + ((q.unacked.filter (·.consumer ≠ c)).map (·.message) : Multiset μ) := by
    rw [← Multiset.map_coe, hsplit, Multiset.map_add, Multiset.map_coe, Multiset.map_coe]
  rw [close, key]
  simp only [contents, hmsgs]
  abel

/-! ## What becomes acknowledged, and what is open -/

theorem mem_contents_of_ready {q : Queue μ ι} {entry : μ × Nat} (h : entry ∈ q.ready) :
    entry.1 ∈ q.contents := by
  simp only [contents, Multiset.mem_add, Multiset.mem_coe]
  exact Or.inl (Or.inl (Or.inl (List.mem_map_of_mem h)))

/-- A delivery has the next number and a message of the queue. -/
theorem deliver_fields {q q' : Queue μ ι} {c : ι} {i : Nat} {d : Delivery μ ι}
    (h : q.deliver c i = some (d, q')) :
    d.number = q.deliveries ∧ d.message ∈ q.contents ∧
      q'.unacked = q.unacked ++ [d] ∧ q'.deliveries = q.deliveries + 1 ∧
      q'.acked = q.acked := by
  obtain ⟨entry, hentry, heq⟩ := Option.map_eq_some_iff.mp h
  obtain ⟨rfl, rfl⟩ := Prod.mk.inj heq
  exact ⟨rfl, mem_contents_of_ready (List.mem_of_getElem? hentry), rfl, rfl, rfl⟩

@[simp] theorem acked_requeue (limit : Nat) (counted : Bool) (q : Queue μ ι)
    (d : Delivery μ ι) : (q.requeue limit counted d).acked = q.acked := by
  rw [requeue, putBack, apply_ite acked, deadLetter, ite_self]

@[simp] theorem unacked_requeue (limit : Nat) (counted : Bool) (q : Queue μ ι)
    (d : Delivery μ ι) : (q.requeue limit counted d).unacked = q.unacked := by
  rw [requeue, putBack, apply_ite unacked, deadLetter, ite_self]

@[simp] theorem deliveries_requeue (limit : Nat) (counted : Bool) (q : Queue μ ι)
    (d : Delivery μ ι) : (q.requeue limit counted d).deliveries = q.deliveries := by
  rw [requeue, putBack, apply_ite deliveries, deadLetter, ite_self]

/-- Only an `ack` of an open delivery acknowledges a message, that delivery's. -/
theorem mem_acked_answer {limit : Nat} {q : Queue μ ι} {number : Nat} {a : Answer}
    {m : μ} (h : m ∈ (q.answer limit number a).acked) :
    m ∈ q.acked ∨ a = .ack ∧ ∃ d ∈ q.unacked, d.number = number ∧ d.message = m := by
  unfold answer at h
  split at h
  · exact Or.inl h
  · next d hd =>
      cases a with
      | ack =>
          rcases List.mem_append.mp h with h | h
          · exact Or.inl h
          · have hnumber : d.number = number := by simpa using List.find?_some hd
            exact Or.inr ⟨rfl, d, List.mem_of_find?_eq_some hd, hnumber,
              (List.mem_singleton.mp h).symm⟩
      | reject requeue =>
          cases requeue with
          | false => exact Or.inl h
          | true => exact Or.inl (by simpa [settle] using h)

theorem unacked_answer {limit : Nat} {q : Queue μ ι} {number : Nat} {a : Answer}
    {d : Delivery μ ι} (h : d ∈ (q.answer limit number a).unacked) : d ∈ q.unacked := by
  unfold answer at h
  split at h
  · exact h
  · next d' hd =>
      have hsub : d ∈ q.unacked.eraseP (·.number = number) := by
        cases a with
        | ack => exact h
        | reject requeue =>
            cases requeue with
            | false => exact h
            | true => simpa [settle] using h
      exact List.mem_of_mem_eraseP hsub

theorem deliveries_answer (limit : Nat) (q : Queue μ ι) (number : Nat) (a : Answer) :
    (q.answer limit number a).deliveries = q.deliveries := by
  unfold answer
  split
  · rfl
  · cases a with
    | ack => rfl
    | reject requeue =>
        cases requeue with
        | false => rfl
        | true => simp [settle]

section Close

variable [DecidableEq ι] (limit : Nat) (counted : Bool) (q : Queue μ ι) (c : ι)

/-- A close acknowledges nothing and gives out nothing. -/
theorem close_fields : (q.close limit counted c).acked = q.acked ∧
    (q.close limit counted c).unacked = q.unacked.filter (·.consumer ≠ c) ∧
    (q.close limit counted c).deliveries = q.deliveries := by
  have key : ∀ (ds : List (Delivery μ ι)) (q : Queue μ ι),
      (ds.foldl (requeue limit counted) q).acked = q.acked ∧
      (ds.foldl (requeue limit counted) q).unacked = q.unacked ∧
      (ds.foldl (requeue limit counted) q).deliveries = q.deliveries := by
    intro ds
    induction ds with
    | nil => intro q; exact ⟨rfl, rfl, rfl⟩
    | cons d ds ih =>
        intro q
        rw [List.foldl_cons]
        simpa using ih (q.requeue limit counted d)
  exact key _ _

end Close

end Queue

end InvestApi.Amqp
