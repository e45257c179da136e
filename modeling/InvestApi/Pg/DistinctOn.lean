import Mathlib.Data.List.Nodup
import Mathlib.Data.List.Sort
import Mathlib.Order.Basic

/-!
# DISTINCT ON

`SELECT DISTINCT ON (group) … ORDER BY key` keeps, of each group, the row that
comes first. The sort has to start with the group, which is what `hmono` says
below: rows of one group then stand together, and it is enough to look at the
group of the row kept last.
-/

namespace InvestApi.Pg

variable {R G K : Type}

/-- The rows whose group is not that of the last row kept. -/
def firsts [DecidableEq G] (group : R → G) : Option G → List R → List R
  | _, [] => []
  | last, r :: rows =>
      if last = some (group r) then firsts group last rows
      else r :: firsts group (some (group r)) rows

variable [LinearOrder G] [LinearOrder K]

def distinctOn (group : R → G) (key : R → K) (rows : List R) : List R :=
  firsts group none (rows.insertionSort fun a b => key a ≤ key b)

section Firsts

variable {group : R → G}

theorem firsts_sublist : ∀ (last : Option G) (rows : List R),
    (firsts group last rows).Sublist rows
  | _, [] => .slnil
  | last, r :: rows => by
      rw [firsts]
      split
      · exact (firsts_sublist last rows).cons r
      · exact (firsts_sublist _ rows).cons_cons r

/-- Over rows whose groups never go down, the groups kept go up, and up from
the last one. -/
theorem firsts_increasing {rows : List R} :
    ∀ {last : Option G}, (∀ g ∈ last, ∀ r ∈ rows, g ≤ group r) →
      rows.Pairwise (fun a b => group a ≤ group b) →
      (∀ g ∈ last, ∀ r ∈ firsts group last rows, g < group r) ∧
        (firsts group last rows).Pairwise fun a b => group a < group b := by
  induction rows with
  | nil => exact fun _ _ => ⟨by simp [firsts], .nil⟩
  | cons r rows ih =>
      intro last hlast hsorted
      rw [List.pairwise_cons] at hsorted
      rw [firsts]
      split
      · exact ih (fun g hg x hx => hlast g hg x (List.mem_cons_of_mem _ hx)) hsorted.2
      · next hnew =>
          have hrest : ∀ g ∈ some (group r), ∀ x ∈ rows, g ≤ group x := by
            intro g hg x hx
            obtain rfl := Option.mem_some_iff.mp hg
            exact hsorted.1 x hx
          obtain ⟨hup, hpair⟩ := ih hrest hsorted.2
          refine ⟨fun g hg x hx => ?_, List.pairwise_cons.mpr ⟨?_, hpair⟩⟩
          · have hle := hlast g hg r List.mem_cons_self
            have hlt : g < group r := by
              refine lt_of_le_of_ne hle fun he => hnew ?_
              rw [Option.mem_def.mp hg, he]
            rcases List.mem_cons.mp hx with rfl | hx
            · exact hlt
            · exact hlt.trans (hup _ rfl x hx)
          · exact fun x hx => hup _ rfl x hx

/-- Every row is of a group kept before it, or of the last one. -/
theorem exists_mem_firsts {le : R → R → Prop} (hrefl : ∀ a, le a a) {rows : List R} :
    ∀ {last : Option G}, rows.Pairwise le → ∀ {x}, x ∈ rows →
      last = some (group x) ∨ ∃ a ∈ firsts group last rows, group a = group x ∧ le a x := by
  induction rows with
  | nil => simp
  | cons r rows ih =>
      intro last hsorted x hx
      rw [List.pairwise_cons] at hsorted
      rw [firsts]
      split
      · next hlast =>
          rcases List.mem_cons.mp hx with rfl | hx
          · exact Or.inl hlast
          · exact ih hsorted.2 hx
      · right
        rcases List.mem_cons.mp hx with rfl | hx
        · exact ⟨x, List.mem_cons_self, rfl, hrefl x⟩
        · rcases @ih (some (group r)) hsorted.2 _ hx with hg | ⟨a, ha, hg, hle⟩
          · exact ⟨r, List.mem_cons_self, Option.some.inj hg, hsorted.1 x hx⟩
          · exact ⟨a, List.mem_cons_of_mem _ ha, hg, hle⟩

end Firsts

section DistinctOn

variable {group : R → G} {key : R → K} {rows : List R}

theorem sorted_insertionSort (key : R → K) (rows : List R) :
    (rows.insertionSort fun a b => key a ≤ key b).Pairwise fun a b => key a ≤ key b := by
  have htotal : Std.Total fun a b : R => key a ≤ key b :=
    ⟨fun a b => le_total (key a) (key b)⟩
  have htrans : IsTrans R fun a b : R => key a ≤ key b :=
    ⟨fun a b c hab hbc => hab.trans hbc⟩
  exact List.pairwise_insertionSort _ _

theorem mem_of_mem_distinctOn {r : R} (h : r ∈ distinctOn group key rows) : r ∈ rows :=
  (List.mem_insertionSort _).mp ((firsts_sublist _ _).subset h)

theorem distinctOn_increasing (hmono : ∀ a b, key a ≤ key b → group a ≤ group b) :
    (distinctOn group key rows).Pairwise fun a b => group a < group b :=
  (firsts_increasing (by simp)
    ((sorted_insertionSort key rows).imp fun h => hmono _ _ h)).2

theorem exists_mem_distinctOn {r : R} (h : r ∈ rows) :
    ∃ a ∈ distinctOn group key rows, group a = group r ∧ key a ≤ key r := by
  have hr : r ∈ rows.insertionSort fun a b => key a ≤ key b := (List.mem_insertionSort _).mpr h
  have hkept : none = some (group r) ∨
      ∃ a ∈ distinctOn group key rows, group a = group r ∧ key a ≤ key r :=
    exists_mem_firsts (fun a => le_refl (key a)) (sorted_insertionSort key rows) hr
  rcases hkept with hnone | ha
  · simp at hnone
  · exact ha

end DistinctOn

end InvestApi.Pg
