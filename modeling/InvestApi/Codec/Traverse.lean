import Mathlib.Data.List.Forall2

/-!
# Lists checked one by one

A `mapM` in `Except` answers every element or throws what one of them throws.
Where it answers, the two lists run in step, and what holds of the pairs holds
of the members on either side.
-/

namespace InvestApi

theorem exists_mapM_ok {α β ε : Type} {f : α → Except ε β} {l : List α}
    (h : ∀ a ∈ l, ∃ b, f a = .ok b) : ∃ bs, l.mapM f = .ok bs := by
  induction l with
  | nil => exact ⟨[], rfl⟩
  | cons a l ih =>
      obtain ⟨b, hb⟩ := h a List.mem_cons_self
      obtain ⟨bs, hbs⟩ := ih fun a' ha' => h a' (List.mem_cons_of_mem _ ha')
      exact ⟨b :: bs, by rw [List.mapM_cons, hb, hbs]; rfl⟩

theorem mapM_ok {α β ε : Type} {f : α → Except ε β} {l : List α} {l' : List β}
    (h : l.mapM f = .ok l') : List.Forall₂ (fun a b => f a = .ok b) l l' := by
  induction l generalizing l' with
  | nil =>
      obtain rfl : [] = l' := Except.ok.inj h
      exact List.Forall₂.nil
  | cons a l ih =>
      rw [List.mapM_cons] at h
      cases ha : f a with
      | error e => rw [ha] at h; exact absurd h (by simp [bind, Except.bind])
      | ok b =>
          cases hl : l.mapM f with
          | error e => rw [ha, hl] at h; exact absurd h (by simp [bind, Except.bind])
          | ok bs =>
              rw [ha, hl] at h
              obtain rfl : b :: bs = l' := Except.ok.inj h
              exact List.Forall₂.cons ha (ih hl)

/-- What a list of checks throws is thrown by one of them. -/
theorem mapM_error {α β ε : Type} {f : α → Except ε β} {l : List α} {e : ε}
    (h : l.mapM f = .error e) : ∃ a ∈ l, f a = .error e := by
  induction l with
  | nil => exact absurd h (by simp [pure, Except.pure])
  | cons a l ih =>
      rw [List.mapM_cons] at h
      cases ha : f a with
      | error e' =>
          rw [ha] at h
          obtain rfl : e' = e := Except.error.inj h
          exact ⟨a, List.mem_cons_self, ha⟩
      | ok b =>
          cases hl : l.mapM f with
          | error e' =>
              rw [ha, hl] at h
              obtain rfl : e' = e := Except.error.inj h
              obtain ⟨a', ha', hf⟩ := ih hl
              exact ⟨a', List.mem_cons_of_mem _ ha', hf⟩
          | ok bs =>
              rw [ha, hl] at h
              exact absurd h (by simp [bind, Except.bind, pure, Except.pure])

theorem mem_of_forall₂ {α β : Type} {R : α → β → Prop} {l : List α} {l' : List β}
    (h : List.Forall₂ R l l') :
    (∀ a ∈ l, ∃ b ∈ l', R a b) ∧ ∀ b ∈ l', ∃ a ∈ l, R a b := by
  induction h with
  | nil => simp
  | @cons a b l l' hab _ ih =>
      obtain ⟨hleft, hright⟩ := ih
      constructor
      · intro x hx
        rcases List.mem_cons.mp hx with rfl | hx
        · exact ⟨b, List.mem_cons_self, hab⟩
        · obtain ⟨y, hy, hxy⟩ := hleft x hx
          exact ⟨y, List.mem_cons_of_mem _ hy, hxy⟩
      · intro y hy
        rcases List.mem_cons.mp hy with rfl | hy
        · exact ⟨a, List.mem_cons_self, hab⟩
        · obtain ⟨x, hx, hxy⟩ := hright y hy
          exact ⟨x, List.mem_cons_of_mem _ hx, hxy⟩

/-- Two lists in step, zipped. -/
theorem mem_zip_of_forall₂ {α β γ : Type} {R : α → β → Prop} (f : α → γ) {l : List α}
    {l' : List β} (h : List.Forall₂ R l l') :
    (∀ p ∈ (l.map f).zip l', ∃ a ∈ l, f a = p.1 ∧ R a p.2) ∧
      ∀ a ∈ l, ∃ b, (f a, b) ∈ (l.map f).zip l' ∧ R a b := by
  induction h with
  | nil => simp
  | @cons a b l l' hab _ ih =>
      rw [List.map_cons, List.zip_cons_cons]
      constructor
      · intro p hp
        rcases List.mem_cons.mp hp with rfl | hp
        · exact ⟨a, List.mem_cons_self, rfl, hab⟩
        · obtain ⟨x, hx, hrest⟩ := ih.1 p hp
          exact ⟨x, List.mem_cons_of_mem _ hx, hrest⟩
      · intro x hx
        rcases List.mem_cons.mp hx with rfl | hx
        · exact ⟨b, List.mem_cons_self, hab⟩
        · obtain ⟨y, hy, hrest⟩ := ih.2 x hx
          exact ⟨y, List.mem_cons_of_mem _ hy, hrest⟩

theorem forall₂_unique {α β : Type} {f : α → Option β} {l : List α} {bs bs' : List β}
    (h : List.Forall₂ (fun a b => f a = some b) l bs)
    (h' : List.Forall₂ (fun a b => f a = some b) l bs') : bs = bs' := by
  induction h generalizing bs' with
  | nil =>
      cases h'
      rfl
  | cons hab _ ih =>
      cases h' with
      | cons hab' h' =>
          obtain rfl := Option.some.inj (hab.symm.trans hab')
          rw [ih h']

end InvestApi
