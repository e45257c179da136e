import Mathlib.Algebra.BigOperators.Group.List.Basic
import Mathlib.Algebra.Group.Basic
import Mathlib.Data.List.Perm.Basic
import Mathlib.Data.List.Nodup
import Mathlib.Logic.Function.Basic
import Mathlib.Tactic.Abel

/-!
# A database as finitely many keyed rows

One key type covers every table: a key names a table and a row of it, and
`V k` is the type of the row that key can hold. The list of keys is kept
next to the lookup function, so that a query can enumerate the rows and a
sum over them is an ordinary list sum.

A write puts one row or removes it. A transaction's uncommitted work is a
list of writes, and the two facts everything else rests on are here: a list
of writes changes only the keys it names, and what it adds to a sum over the
rows depends only on the rows at those keys.
-/

namespace InvestApi.Pg

variable {K : Type} {V : K → Type}

/-- The rows of all tables, with the keys that hold one. -/
structure Db (V : K → Type) where
  keys : List K
  get : (k : K) → Option (V k)
  nodup : keys.Nodup
  mem_keys : ∀ k, k ∈ keys ↔ (get k).isSome = true

/-- One row write: the new row, or `none` for a deletion. -/
abbrev Write (V : K → Type) := Σ k, Option (V k)

/-- A row together with its key, as a query hands it to the caller. -/
abbrev KeyedRow (V : K → Type) := Σ k, V k

namespace Db

def empty : Db V where
  keys := []
  get := fun _ => none
  nodup := List.nodup_nil
  mem_keys := by simp

@[simp] theorem get_empty (k : K) : (empty : Db V).get k = none := rfl

section Sum

variable {M : Type} [AddCommGroup M]

/-- What the row at a key adds to a sum, nothing where there is no row. -/
def term (f : (k : K) → V k → M) (k : K) (v : Option (V k)) : M :=
  v.elim 0 (f k)

@[simp] theorem term_none (f : (k : K) → V k → M) (k : K) :
    term f k none = 0 := rfl

@[simp] theorem term_some (f : (k : K) → V k → M) (k : K) (v : V k) :
    term f k (some v) = f k v := rfl

/-- The sum of `f` over all rows. -/
def sum (f : (k : K) → V k → M) (d : Db V) : M :=
  (d.keys.map fun k => term f k (d.get k)).sum

@[simp] theorem sum_empty (f : (k : K) → V k → M) :
    (empty : Db V).sum f = 0 := rfl

theorem sum_eq_zero {d : Db V} {f : (k : K) → V k → M}
    (h : ∀ k v, d.get k = some v → f k v = 0) : d.sum f = 0 := by
  refine List.sum_eq_zero fun x hx => ?_
  obtain ⟨k, _, rfl⟩ := List.mem_map.mp hx
  cases hv : d.get k with
  | none => rfl
  | some v => exact h k v hv

end Sum

variable [DecidableEq K]

def setKeys (keys : List K) (k : K) (present : Bool) : List K :=
  if present then (if k ∈ keys then keys else keys ++ [k]) else keys.erase k

theorem mem_setKeys {keys : List K} (hn : keys.Nodup) {k : K} {present : Bool}
    (k' : K) :
    k' ∈ setKeys keys k present ↔
      (k' = k ∧ present = true) ∨ (k' ≠ k ∧ k' ∈ keys) := by
  unfold setKeys
  cases present with
  | true =>
      simp only [if_true]
      split
      · next hk =>
          by_cases h : k' = k
          · subst h; simp [hk]
          · simp [h]
      · next hk =>
          by_cases h : k' = k
          · subst h; simp
          · simp [h]
  | false => simp [hn.mem_erase_iff]

theorem nodup_setKeys {keys : List K} (hn : keys.Nodup) (k : K)
    (present : Bool) : (setKeys keys k present).Nodup := by
  unfold setKeys
  split
  · split
    · exact hn
    · next hk =>
        rw [List.nodup_append]
        refine ⟨hn, by simp, ?_⟩
        intro a ha b hb hab
        rw [List.mem_singleton] at hb
        subst hb hab
        exact hk ha
  · exact hn.erase k

/-- The database after one write. -/
def set (d : Db V) (k : K) (v : Option (V k)) : Db V where
  keys := setKeys d.keys k v.isSome
  get := Function.update d.get k v
  nodup := nodup_setKeys d.nodup k v.isSome
  mem_keys := by
    intro k'
    rw [mem_setKeys d.nodup]
    by_cases h : k' = k
    · subst h; simp
    · simp [h, d.mem_keys]

@[simp] theorem get_set_self (d : Db V) (k : K) (v : Option (V k)) :
    (d.set k v).get k = v := by
  simp [set]

@[simp] theorem get_set_ne (d : Db V) {k k' : K} (v : Option (V k)) (h : k' ≠ k) :
    (d.set k v).get k' = d.get k' := by
  simp [set, h]

/-- The database after a list of writes, the first one first. -/
def writeAll (d : Db V) (ws : List (Write V)) : Db V :=
  ws.foldl (fun d w => d.set w.1 w.2) d

@[simp] theorem writeAll_nil (d : Db V) : d.writeAll [] = d := rfl

@[simp] theorem writeAll_cons (d : Db V) (w : Write V) (ws : List (Write V)) :
    d.writeAll (w :: ws) = (d.set w.1 w.2).writeAll ws := rfl

theorem writeAll_append (d : Db V) (ws ws' : List (Write V)) :
    d.writeAll (ws ++ ws') = (d.writeAll ws).writeAll ws' := by
  simp [writeAll, List.foldl_append]

/-- A list of writes leaves the keys it does not name alone. -/
theorem get_writeAll_of_notMem {ws : List (Write V)} {k : K}
    (h : k ∉ ws.map (·.1)) (d : Db V) : (d.writeAll ws).get k = d.get k := by
  induction ws generalizing d with
  | nil => rfl
  | cons w ws ih =>
      simp only [List.map_cons, List.mem_cons, not_or] at h
      rw [writeAll_cons, ih h.2, get_set_ne _ _ h.1]

/-- Writes at different keys are all there at the end. -/
theorem get_writeAll_of_mem {ws : List (Write V)} (hn : (ws.map (·.1)).Nodup) {k : K}
    {v : Option (V k)} (h : (⟨k, v⟩ : Write V) ∈ ws) (d : Db V) :
    (d.writeAll ws).get k = v := by
  induction ws generalizing d with
  | nil => simp at h
  | cons w ws ih =>
      rw [List.map_cons, List.nodup_cons] at hn
      rw [writeAll_cons]
      rcases List.mem_cons.mp h with rfl | h
      · rw [get_writeAll_of_notMem hn.1, get_set_self]
      · exact ih hn.2 h _

/-- What a reader of the written database finds at a key depends on the
database underneath at that key only. -/
theorem get_writeAll_congr {d d' : Db V} {k : K} (h : d.get k = d'.get k)
    (ws : List (Write V)) : (d.writeAll ws).get k = (d'.writeAll ws).get k := by
  induction ws generalizing d d' with
  | nil => exact h
  | cons w ws ih =>
      rw [writeAll_cons, writeAll_cons]
      refine ih ?_
      by_cases hk : k = w.1
      · subst hk; simp
      · rw [get_set_ne _ _ hk, get_set_ne _ _ hk, h]

/-- A row of the written database was there or has been written. -/
theorem get_writeAll_cases {ws : List (Write V)} {k : K} {v : V k} {d : Db V}
    (h : (d.writeAll ws).get k = some v) :
    d.get k = some v ∨ (⟨k, some v⟩ : Write V) ∈ ws := by
  induction ws generalizing d with
  | nil => exact Or.inl h
  | cons w ws ih =>
      rw [writeAll_cons] at h
      rcases ih h with h | h
      · by_cases hk : k = w.1
        · subst hk
          rw [get_set_self] at h
          refine Or.inr (List.mem_cons.mpr (Or.inl ?_))
          rw [← h]
        · rw [get_set_ne _ _ hk] at h
          exact Or.inl h
      · exact Or.inr (List.mem_cons_of_mem _ h)

/-- Writes that delete nothing leave every row's key with a row. -/
theorem isSome_writeAll {ws : List (Write V)} (hws : ∀ w ∈ ws, w.2.isSome = true)
    {k : K} {d : Db V} (h : (d.get k).isSome = true) :
    ((d.writeAll ws).get k).isSome = true := by
  induction ws generalizing d with
  | nil => exact h
  | cons w ws ih =>
      refine ih (fun w' hw' => hws w' (List.mem_cons_of_mem _ hw')) ?_
      by_cases hk : k = w.1
      · subst hk
        rw [get_set_self]
        exact hws w List.mem_cons_self
      · rw [get_set_ne _ _ hk]
        exact h

/-! ## Sums over the rows -/

section Sum

variable {M : Type} [AddCommGroup M]

private theorem sum_map_erase {keys : List K} {k : K} (hk : k ∈ keys)
    (g : K → M) : (keys.map g).sum = g k + ((keys.erase k).map g).sum := by
  have hp := ((List.perm_cons_erase hk).map g).sum_eq
  rw [hp, List.map_cons, List.sum_cons]

/-- Away from the written key the terms of the sum do not move. -/
private theorem map_term_set {d : Db V} {k : K} (v : Option (V k))
    (f : (k : K) → V k → M) {keys : List K} (h : k ∉ keys) :
    (keys.map fun k' => term f k' ((d.set k v).get k')) =
      keys.map fun k' => term f k' (d.get k') := by
  refine List.map_congr_left fun k' hk' => ?_
  have hne : k' ≠ k := fun he => h (he ▸ hk')
  rw [get_set_ne _ _ hne]

/-- One write moves a sum by the difference between the new row and the old. -/
theorem sum_set (d : Db V) (f : (k : K) → V k → M) (k : K)
    (v : Option (V k)) :
    (d.set k v).sum f = d.sum f + (term f k v - term f k (d.get k)) := by
  have hnot : k ∉ d.keys.erase k := by simp [d.nodup.mem_erase_iff]
  have hrest := map_term_set (d := d) v f hnot
  by_cases hk : k ∈ d.keys
  · have hold := sum_map_erase hk fun k' => term f k' (d.get k')
    cases v with
    | none =>
        have hkeys : (d.set k none).keys = d.keys.erase k := by
          simp [set, setKeys]
        rw [sum, hkeys, hrest, sum, hold, term_none]
        abel
    | some v =>
        have hkeys : (d.set k (some v)).keys = d.keys := by
          simp [set, setKeys, hk]
        have hnew := sum_map_erase hk
          fun k' => term f k' ((d.set k (some v)).get k')
        rw [sum, hkeys, hnew, hrest, sum, hold, get_set_self]
        abel
  · have hgone : d.get k = none := by
      have := mt (d.mem_keys k).2 hk
      simpa using this
    have hsame := map_term_set (d := d) v f hk
    cases v with
    | none =>
        have hkeys : (d.set k none).keys = d.keys := by
          simp [set, setKeys, List.erase_of_not_mem hk]
        rw [sum, hkeys, hsame, hgone, sum, term_none, sub_self, add_zero]
    | some v =>
        have hkeys : (d.set k (some v)).keys = d.keys ++ [k] := by
          simp [set, setKeys, hk]
        rw [sum, hkeys, List.map_append, List.sum_append, hsame, hgone, sum]
        simp

end Sum

end Db

end InvestApi.Pg
