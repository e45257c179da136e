import InvestApi.Ledger.Writes
import InvestApi.Pg.Footprint

/-!
# What one user sees of two databases

`Agree u d d'`: the rows of user `u` are the same in both, and `d'` has no other
rows than `d`. It is the unwinding relation of the two runs, with `d` from the
run of everybody's requests and `d'` from the run of `u`'s alone.

`OwnKey` and `OwnRow` are the footprint of a request of one user: the rows it may
put, and under which keys. A request of somebody else with such a footprint
leaves `u`'s rows alone, and one of `u` that writes the same to both databases
keeps them in agreement.
-/

namespace InvestApi.Isolation

open InvestApi.Pg InvestApi.Ref

def Owns (d : LedgerDb) (u : Uuid) (account : Uuid) : Prop :=
  ∃ row, d.get (.account account) = some row ∧ row.userId = u

structure Agree (u : Uuid) (d d' : LedgerDb) : Prop where
  linked : Linked d
  linked' : Linked d'
  account : ∀ id row, row.userId = u →
    (d.get (.account id) = some row ↔ d'.get (.account id) = some row)
  transaction : ∀ id t,
    (d.get (.transaction id) = some t ∧ Owns d u t.accountId
      ↔ d'.get (.transaction id) = some t ∧ Owns d' u t.accountId)
  fewer : ∀ k, d.get k = none → d'.get k = none

theorem Agree.refl {u : Uuid} {d : LedgerDb} (h : Linked d) : Agree u d d where
  linked := h
  linked' := h
  account _ _ _ := Iff.rfl
  transaction _ _ := Iff.rfl
  fewer _ h := h

/-- The keys a request of user `v` may write: rows of `v`, and the keys drawn for
it, which hold nothing yet. -/
def OwnKey (d : LedgerDb) (v : Uuid) (draws : List LedgerKey) : LedgerKey → Prop
  | .account id => Owns d v id ∨ .account id ∈ draws
  | .transaction id =>
      (∃ t, d.get (.transaction id) = some t ∧ Owns d v t.accountId)
        ∨ .transaction id ∈ draws
  | .job _ => False

/-- The rows it may put. -/
def OwnRow (d : LedgerDb) (v : Uuid) : (k : LedgerKey) → LedgerRow k → Prop
  | .account _, row => row.userId = v
  | .transaction _, row => Owns d v row.accountId
  | .job _, _ => False

section

variable {u v : Uuid} {d d' : LedgerDb} {draws : List LedgerKey}
  {ws : List (Write LedgerRow)}

theorem Agree.owns (h : Agree u d d') {a : Uuid} : Owns d u a ↔ Owns d' u a := by
  constructor
  · rintro ⟨row, hrow, hu⟩
    exact ⟨row, (h.account a row hu).mp hrow, hu⟩
  · rintro ⟨row, hrow, hu⟩
    exact ⟨row, (h.account a row hu).mpr hrow, hu⟩

theorem allIn_own (hfresh : ∀ k ∈ draws, d.get k = none) :
    AllIn (OwnKey d v draws) (OwnRow d v) d := by
  intro k row hk hrow
  match k with
  | .account id =>
      rcases hk with ⟨row', hrow', hv⟩ | hk
      · rw [hrow'] at hrow
        injection hrow with hrow
        rw [← hrow]
        exact hv
      · rw [hfresh _ hk] at hrow
        exact absurd hrow (by simp)
  | .transaction id =>
      rcases hk with ⟨t, ht, hown⟩ | hk
      · rw [ht] at hrow
        injection hrow with hrow
        rw [← hrow]
        exact hown
      · rw [hfresh _ hk] at hrow
        exact absurd hrow (by simp)

/-- The two databases agree wherever a request of `u` may write. -/
theorem Agree.eqOn (h : Agree u d d') (hfresh : ∀ k ∈ draws, d.get k = none) :
    EqOn (OwnKey d u draws) d d' := by
  intro k hk
  match k with
  | .account id =>
      rcases hk with ⟨row, hrow, hu⟩ | hk
      · rw [hrow, (h.account id row hu).mp hrow]
      · rw [hfresh _ hk, h.fewer _ (hfresh _ hk)]
  | .transaction id =>
      rcases hk with ⟨t, ht⟩ | hk
      · rw [ht.1, ((h.transaction id t).mp ht).1]
      · rw [hfresh _ hk, h.fewer _ (hfresh _ hk)]

theorem Confined.linked (hc : Confined (OwnKey d v draws) (OwnRow d v) ws)
    (h : Linked d) : Linked (d.writeAll ws) := by
  have hkeep : ∀ a, HasAccount d a → HasAccount (d.writeAll ws) a := by
    rintro a ⟨row, hrow⟩
    refine Option.isSome_iff_exists.mp (Db.isSome_writeAll ?_ (by rw [hrow]; rfl))
    intro w hw
    obtain ⟨_, row, hrow, _⟩ := hc w hw
    rw [hrow]
    rfl
  intro id t ht
  rcases Db.get_writeAll_cases ht with ht | ht
  · exact hkeep _ (h id t ht)
  · obtain ⟨_, t', ht', hrow⟩ := hc _ ht
    injection ht' with ht'
    subst ht'
    obtain ⟨row, hrow, _⟩ := hrow
    exact hkeep _ ⟨row, hrow⟩

/-! ## What somebody else's request leaves alone -/

section Other

variable (hne : v ≠ u) (hfresh : ∀ k ∈ draws, d.get k = none)
  (hc : Confined (OwnKey d v draws) (OwnRow d v) ws)

include hne hfresh hc

theorem account_of_other {id : Uuid} {row : AccountRow} (hu : row.userId = u) :
    (d.writeAll ws).get (.account id) = some row ↔ d.get (.account id) = some row := by
  constructor
  · intro h
    rcases Db.get_writeAll_cases h with h | h
    · exact h
    · obtain ⟨_, row', hrow', hv⟩ := hc _ h
      injection hrow' with hrow'
      subst hrow'
      exact absurd (hv.symm.trans hu) hne
  · intro h
    rw [Db.get_writeAll_of_notMem ?_ d, h]
    intro hk
    obtain ⟨w, hw, hk⟩ := List.mem_map.mp hk
    obtain ⟨hown, _⟩ := hc w hw
    rw [hk] at hown
    rcases hown with ⟨row', hrow', hv⟩ | hdraw
    · rw [h] at hrow'
      injection hrow' with hrow'
      rw [← hrow', hu] at hv
      exact hne hv.symm
    · rw [hfresh _ hdraw] at h
      exact absurd h (by simp)

theorem owns_of_other {a : Uuid} : Owns (d.writeAll ws) u a ↔ Owns d u a := by
  constructor
  · rintro ⟨row, hrow, hu⟩
    exact ⟨row, (account_of_other hne hfresh hc hu).mp hrow, hu⟩
  · rintro ⟨row, hrow, hu⟩
    exact ⟨row, (account_of_other hne hfresh hc hu).mpr hrow, hu⟩

theorem transaction_of_other {id : Uuid} {t : TransactionRow} (hown : Owns d u t.accountId) :
    (d.writeAll ws).get (.transaction id) = some t
      ↔ d.get (.transaction id) = some t := by
  have hclash : ¬Owns d v t.accountId := by
    rintro ⟨row, hrow, hv⟩
    obtain ⟨row', hrow', hu⟩ := hown
    rw [hrow] at hrow'
    injection hrow' with hrow'
    rw [← hrow', hv] at hu
    exact hne hu
  constructor
  · intro h
    rcases Db.get_writeAll_cases h with h | h
    · exact h
    · obtain ⟨_, t', ht', hv⟩ := hc _ h
      injection ht' with ht'
      subst ht'
      exact absurd hv hclash
  · intro h
    rw [Db.get_writeAll_of_notMem ?_ d, h]
    intro hk
    obtain ⟨w, hw, hk⟩ := List.mem_map.mp hk
    obtain ⟨hkey, _⟩ := hc w hw
    rw [hk] at hkey
    rcases hkey with ⟨t', ht', hv⟩ | hdraw
    · rw [h] at ht'
      injection ht' with ht'
      subst ht'
      exact hclash hv
    · rw [hfresh _ hdraw] at h
      exact absurd h (by simp)

theorem Agree.other (h : Agree u d d') : Agree u (d.writeAll ws) d' where
  linked := Confined.linked hc h.linked
  linked' := h.linked'
  account id row hu := (account_of_other hne hfresh hc hu).trans (h.account id row hu)
  transaction id t := by
    rw [owns_of_other hne hfresh hc]
    refine Iff.trans (and_congr_left fun hown => ?_) (h.transaction id t)
    exact transaction_of_other hne hfresh hc hown
  fewer k hk := by
    refine h.fewer k ?_
    by_contra hne'
    have hsome : (d.get k).isSome = true := Option.isSome_iff_ne_none.mpr hne'
    have hkept := Db.isSome_writeAll (fun w hw => by
      obtain ⟨_, row, hrow, _⟩ := hc w hw
      rw [hrow]
      rfl) hsome
    rw [hk] at hkept
    exact absurd hkept (by simp)

end Other

/-! ## What a request of the user does to both -/

section Own

variable (h : Agree u d d') (hfresh : ∀ k ∈ draws, d.get k = none)
  (hc : Confined (OwnKey d u draws) (OwnRow d u) ws)

include h hfresh hc

/-- A key is written the same in both, or in neither. -/
theorem get_own (k : LedgerKey) :
    (d.writeAll ws).get k = (d'.writeAll ws).get k
      ∨ (d.writeAll ws).get k = d.get k ∧ (d'.writeAll ws).get k = d'.get k := by
  by_cases hk : k ∈ ws.map (·.1)
  · obtain ⟨w, hw, hkey⟩ := List.mem_map.mp hk
    refine Or.inl (Db.get_writeAll_congr (h.eqOn hfresh k ?_) ws)
    rw [← hkey]
    exact (hc w hw).1
  · exact Or.inr ⟨Db.get_writeAll_of_notMem hk d, Db.get_writeAll_of_notMem hk d'⟩

omit h in
/-- An account that is `u`'s stays so. -/
theorem Owns.writeAll {a : Uuid} (hown : Owns d u a) : Owns (d.writeAll ws) u a := by
  obtain ⟨row, hrow, _⟩ := id hown
  have hkept : ((d.writeAll ws).get (.account a)).isSome = true := by
    refine Db.isSome_writeAll ?_ (by rw [hrow]; rfl)
    intro w hw
    obtain ⟨_, row, hrow, _⟩ := hc w hw
    rw [hrow]
    rfl
  obtain ⟨row', hrow'⟩ := Option.isSome_iff_exists.mp hkept
  exact ⟨row', hrow', hc.allIn (allIn_own hfresh) (.account a) row' (Or.inl hown) hrow'⟩

omit h in
/-- An account that has become `u`'s was a drawn one. -/
theorem Owns.of_writeAll {a : Uuid} (hown : Owns (d.writeAll ws) u a)
    (hacc : HasAccount d a) : Owns d u a := by
  obtain ⟨row, hrow, hu⟩ := hown
  rcases Db.get_writeAll_cases hrow with hrow | hrow
  · exact ⟨row, hrow, hu⟩
  · rcases (hc _ hrow).1 with hown | hdraw
    · exact hown
    · obtain ⟨row', hrow'⟩ := hacc
      rw [hfresh _ hdraw] at hrow'
      exact absurd hrow' (by simp)

omit hfresh in
theorem Confined.transfer : Confined (OwnKey d' u draws) (OwnRow d' u) ws := by
  intro w hw
  obtain ⟨hkey, row, hrow, hI⟩ := hc w hw
  obtain ⟨k, v⟩ := w
  dsimp only at hkey hrow hI
  refine ⟨?_, row, hrow, ?_⟩
  · match k with
    | .account id => exact hkey.imp_left h.owns.mp
    | .transaction id =>
        refine hkey.imp_left ?_
        rintro ⟨t, ht⟩
        exact ⟨t, (h.transaction id t).mp ht⟩
  · match k with
    | .account id => exact hI
    | .transaction id => exact h.owns.mp hI

theorem Agree.own : Agree u (d.writeAll ws) (d'.writeAll ws) := by
  have hfresh' : ∀ k ∈ draws, d'.get k = none := fun k hk => h.fewer k (hfresh k hk)
  have hc' := Confined.transfer h hc
  have haccount : ∀ id row, row.userId = u →
      ((d.writeAll ws).get (.account id) = some row
        ↔ (d'.writeAll ws).get (.account id) = some row) := by
    intro id row hu
    rcases get_own h hfresh hc (.account id) with heq | ⟨hd, hd'⟩
    · rw [heq]
    · rw [hd, hd']
      exact h.account id row hu
  have howns : ∀ a, Owns (d.writeAll ws) u a ↔ Owns (d'.writeAll ws) u a := by
    intro a
    refine exists_congr fun row => ?_
    exact and_congr_left fun hu => haccount a row hu
  refine ⟨Confined.linked hc h.linked, Confined.linked hc' h.linked', haccount, ?_, ?_⟩
  · intro id t
    rcases get_own h hfresh hc (.transaction id) with heq | ⟨hd, hd'⟩
    · rw [heq, howns]
    · rw [hd, hd']
      have hleft : d.get (.transaction id) = some t ∧ Owns (d.writeAll ws) u t.accountId
          ↔ d.get (.transaction id) = some t ∧ Owns d u t.accountId := by
        refine and_congr_right fun ht => ⟨fun ho => ?_, Owns.writeAll hfresh hc⟩
        exact Owns.of_writeAll hfresh hc ho (h.linked id t ht)
      have hright : d'.get (.transaction id) = some t ∧ Owns (d'.writeAll ws) u t.accountId
          ↔ d'.get (.transaction id) = some t ∧ Owns d' u t.accountId := by
        refine and_congr_right fun ht => ⟨fun ho => ?_, Owns.writeAll hfresh' hc'⟩
        exact Owns.of_writeAll hfresh' hc' ho (h.linked' id t ht)
      rw [hleft, hright]
      exact h.transaction id t
  · intro k hk
    rcases get_own h hfresh hc k with heq | ⟨hd, hd'⟩
    · rw [← heq, hk]
    · rw [hd']
      exact h.fewer k (hd ▸ hk)

end Own

end

end InvestApi.Isolation
