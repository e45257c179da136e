import Mathlib.Data.List.Sort
import Mathlib.Order.Basic

/-!
# Keyset pages

`WHERE key < after ORDER BY key DESC LIMIT n`, for rows of any type under a key
of any linear order, and what following the pages from the last key of one to
the next finds while the rows change between them.

`Covers` is the invariant of the walk. Going down from the top, the keys seen so
far are those of the pages, everything seen is at or above the last key of the
last page, and whatever has been there all the time and is at or above it has
been seen. It asks nothing of the rows that come and go.
-/

namespace InvestApi.Pg.Keyset

variable {K R : Type} [LinearOrder K]

/-- `key < after`, true of every key on the first page. -/
def below (after : Option K) (k : K) : Bool := after.all fun c => decide (k < c)

/-- What the query finds, in its order. -/
def found (key : R → K) (after : Option K) (rows : List R) : List R :=
  (rows.filter fun r => below after (key r)).insertionSort fun a b => key b ≤ key a

def page (key : R → K) (limit : Nat) (after : Option K) (rows : List R) : List R :=
  (found key after rows).take limit

@[simp] theorem below_none (k : K) : below none k = true := rfl

@[simp] theorem below_some (c k : K) : below (some c) k = decide (k < c) := rfl

section Page

variable {key : R → K} {limit : Nat} {after : Option K} {rows : List R}

theorem mem_found {r : R} :
    r ∈ found key after rows ↔ r ∈ rows ∧ below after (key r) = true := by
  rw [found, List.mem_insertionSort, List.mem_filter]

theorem mem_of_mem_page {r : R} (h : r ∈ page key limit after rows) :
    r ∈ rows ∧ below after (key r) = true :=
  mem_found.mp (List.mem_of_mem_take h)

theorem length_page_le : (page key limit after rows).length ≤ limit := by
  rw [page, List.length_take]
  omega

theorem found_decreasing (hn : (rows.map key).Nodup) :
    ((found key after rows).map key).Pairwise (· > ·) := by
  have htotal : Std.Total fun a b : R => key b ≤ key a :=
    ⟨fun a b => le_total (key b) (key a)⟩
  have htrans : IsTrans R fun a b : R => key b ≤ key a :=
    ⟨fun a b c hab hbc => hbc.trans hab⟩
  have hsorted : (found key after rows).Pairwise fun a b => key b ≤ key a :=
    List.pairwise_insertionSort _ _
  have hperm : (found key after rows).Perm (rows.filter fun r => below after (key r)) :=
    List.perm_insertionSort _ _
  have hdistinct : ((found key after rows).map key).Nodup := by
    rw [(hperm.map key).nodup_iff]
    exact hn.sublist (List.filter_sublist.map key)
  rw [List.pairwise_map]
  rw [List.Nodup, List.pairwise_map] at hdistinct
  exact (hsorted.and hdistinct).imp fun h => lt_of_le_of_ne h.1 (Ne.symm h.2)

theorem page_decreasing (hn : (rows.map key).Nodup) :
    ((page key limit after rows).map key).Pairwise (· > ·) := by
  rw [page, List.map_take]
  exact (found_decreasing hn).sublist (List.take_sublist _ _)

/-- The page does not depend on the order the rows are stored in. -/
theorem page_perm {rows' : List R} (hp : rows.Perm rows') (hn : (rows.map key).Nodup) :
    page key limit after rows = page key limit after rows' := by
  have hn' : (rows'.map key).Nodup := (hp.map key).nodup_iff.mp hn
  have hfound : (found key after rows).Perm (found key after rows') := by
    refine (List.perm_insertionSort _ _).trans (List.Perm.trans ?_
      (List.perm_insertionSort _ _).symm)
    exact hp.filter _
  have hd : (found key after rows).Pairwise fun a b => key a > key b :=
    List.pairwise_map.mp (found_decreasing hn)
  have hd' : (found key after rows').Pairwise fun a b => key a > key b :=
    List.pairwise_map.mp (found_decreasing hn')
  rw [page, page, hfound.eq_of_pairwise (fun a b _ _ hab hba => absurd hab (lt_asymm hba)) hd hd']

/-- A row the query leaves out is below every row it returns. -/
theorem mem_page_of_le (hn : (rows.map key).Nodup) {l r : R}
    (hl : l ∈ page key limit after rows) (hr : r ∈ rows)
    (hbelow : below after (key r) = true) (hle : key l ≤ key r) :
    r ∈ page key limit after rows := by
  have hdec : ((found key after rows).map key).Pairwise (· > ·) := found_decreasing hn
  have hmem := mem_found.mpr ⟨hr, hbelow⟩
  rw [← List.take_append_drop limit (found key after rows)] at hmem hdec
  rcases List.mem_append.mp hmem with hmem | hmem
  · exact hmem
  · rw [List.map_append, List.pairwise_append] at hdec
    have hlt := hdec.2.2 (key l) (List.mem_map_of_mem hl) (key r) (List.mem_map_of_mem hmem)
    exact absurd hle (not_le_of_gt hlt)

/-- A page that is not full has every row there is below the cursor. -/
theorem mem_page_of_short (hshort : (page key limit after rows).length < limit) {r : R}
    (hr : r ∈ rows) (hbelow : below after (key r) = true) :
    r ∈ page key limit after rows := by
  rw [page, List.length_take] at hshort
  rw [page, List.take_of_length_le (by omega)]
  exact mem_found.mpr ⟨hr, hbelow⟩

end Page

/-! ## Following the pages -/

/-- What has been seen when the next page starts below `after`; `always` holds
of the keys that have been there all the time. -/
structure Covers (always : K → Prop) (after : Option K) (seen : List K) : Prop where
  decreasing : seen.Pairwise (· > ·)
  above : ∀ k ∈ seen, below after k = false
  reached : ∀ k, always k → below after k = false → k ∈ seen

/-- What has been seen when there is no next page. -/
structure Covered (always : K → Prop) (seen : List K) : Prop where
  decreasing : seen.Pairwise (· > ·)
  reached : ∀ k, always k → k ∈ seen

theorem Covers.start (always : K → Prop) : Covers always none [] where
  decreasing := List.Pairwise.nil
  above k hk := by simp at hk
  reached k _ hk := by simp at hk

section Walk

variable {always : K → Prop} {after : Option K} {seen : List K} {key : R → K}
  {limit : Nat} {rows : List R}

/-- The keys of the next page go below those seen. -/
theorem Covers.append (h : Covers always after seen) (hn : (rows.map key).Nodup) :
    (seen ++ (page key limit after rows).map key).Pairwise (· > ·) := by
  rw [List.pairwise_append]
  refine ⟨h.decreasing, page_decreasing hn, fun k hk k' hk' => ?_⟩
  obtain ⟨r, hr, rfl⟩ := List.mem_map.mp hk'
  have habove := h.above k hk
  have hbelow := (mem_of_mem_page hr).2
  cases after with
  | none => simp at habove
  | some c =>
      simp only [below_some, decide_eq_false_iff_not, not_lt] at habove
      simp only [below_some, decide_eq_true_eq] at hbelow
      exact lt_of_lt_of_le hbelow habove

theorem Covers.next (h : Covers always after seen) (hn : (rows.map key).Nodup)
    (hrows : ∀ k, always k → ∃ r ∈ rows, key r = k) {l : R}
    (hl : (page key limit after rows).getLast? = some l) :
    Covers always (some (key l)) (seen ++ (page key limit after rows).map key) where
  decreasing := h.append hn
  above k hk := by
    have hlast := List.mem_of_getLast? hl
    simp only [below_some, decide_eq_false_iff_not, not_lt]
    rcases List.mem_append.mp hk with hk | hk
    · have hall : (seen ++ (page key limit after rows).map key).Pairwise (· > ·) :=
        h.append hn
      rw [List.pairwise_append] at hall
      exact le_of_lt (hall.2.2 k hk (key l) (List.mem_map_of_mem hlast))
    · obtain ⟨r, hr, rfl⟩ := List.mem_map.mp hk
      obtain ⟨front, hfront⟩ := List.getLast?_eq_some_iff.mp hl
      have hdec : ((page key limit after rows).map key).Pairwise (· > ·) :=
        page_decreasing hn
      rw [hfront] at hr hdec
      rw [List.map_append, List.pairwise_append] at hdec
      rcases List.mem_append.mp hr with hr | hr
      · exact le_of_lt (hdec.2.2 (key r) (List.mem_map_of_mem hr) (key l) (by simp))
      · rw [List.mem_singleton] at hr
        rw [hr]
  reached k hk habove := by
    simp only [below_some, decide_eq_false_iff_not, not_lt] at habove
    rw [List.mem_append]
    cases hbelow : below after k with
    | false => exact Or.inl (h.reached k hk hbelow)
    | true =>
        obtain ⟨r, hr, rfl⟩ := hrows k hk
        exact Or.inr (List.mem_map_of_mem
          (mem_page_of_le hn (List.mem_of_getLast? hl) hr hbelow habove))

theorem Covers.finish (h : Covers always after seen) (hn : (rows.map key).Nodup)
    (hrows : ∀ k, always k → ∃ r ∈ rows, key r = k)
    (hshort : (page key limit after rows).length < limit) :
    Covered always (seen ++ (page key limit after rows).map key) where
  decreasing := h.append hn
  reached k hk := by
    rw [List.mem_append]
    cases hbelow : below after k with
    | false => exact Or.inl (h.reached k hk hbelow)
    | true =>
        obtain ⟨r, hr, rfl⟩ := hrows k hk
        exact Or.inr (List.mem_map_of_mem (mem_page_of_short hshort hr hbelow))

end Walk

end InvestApi.Pg.Keyset
