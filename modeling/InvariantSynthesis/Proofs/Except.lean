import Mathlib.Data.List.Forall2

namespace InvariantSynthesis

variable {ε α β : Type}

namespace Except

variable {x : Except ε α} {f : α → Except ε β} {b : β} {e : ε}

theorem bind_eq_ok : (x >>= f) = .ok b ↔ ∃ a, x = .ok a ∧ f a = .ok b := by
  cases x with
  | error e =>
    show Except.error e = .ok b ↔ _
    simp
  | ok a =>
    show f a = .ok b ↔ _
    simp

theorem exists_of_bind_ok (h : (x >>= f) = .ok b) : ∃ a, x = .ok a ∧ f a = .ok b :=
  bind_eq_ok.mp h

theorem exists_bind_ok {a : α} (hx : x = .ok a) (hf : ∃ b, f a = .ok b) :
    ∃ b, (x >>= f) = .ok b := by
  obtain ⟨b, hb⟩ := hf
  exact ⟨b, bind_eq_ok.mpr ⟨a, hx, hb⟩⟩

theorem bind_eq_error : (x >>= f) = .error e ↔ x = .error e ∨ ∃ a, x = .ok a ∧ f a = .error e := by
  cases x with
  | error e' =>
    show Except.error e' = .error e ↔ _
    simp
  | ok a =>
    show f a = .error e ↔ _
    simp

theorem map_eq_error {g : α → β} : x.map g = .error e ↔ x = .error e := by
  cases x <;> simp [Except.map]

end Except

variable {f : α → Except ε β} {as : List α} {bs : List β}

theorem forall₂_of_mapM_ok (h : as.mapM f = .ok bs) :
    List.Forall₂ (fun a b => f a = .ok b) as bs := by
  induction as generalizing bs with
  | nil =>
    cases h
    exact .nil
  | cons a as ih =>
    rw [List.mapM_cons] at h
    obtain ⟨b, hb, h⟩ := Except.exists_of_bind_ok h
    obtain ⟨bs', hbs, h⟩ := Except.exists_of_bind_ok h
    cases h
    exact .cons hb (ih hbs)

theorem mem_of_mapM_ok (h : as.mapM f = .ok bs) : ∀ b ∈ bs, ∃ a ∈ as, f a = .ok b := by
  have hresults := forall₂_of_mapM_ok h
  clear h
  induction hresults with
  | nil => simp
  | cons hab _ ih =>
    refine List.forall_mem_cons.mpr ⟨⟨_, List.mem_cons_self, hab⟩, fun b hb => ?_⟩
    obtain ⟨a, ha, hf⟩ := ih b hb
    exact ⟨a, List.mem_cons_of_mem _ ha, hf⟩

theorem exists_of_mapM_ok (h : as.mapM f = .ok bs) : ∀ a ∈ as, ∃ b, f a = .ok b := by
  have hresults := forall₂_of_mapM_ok h
  clear h
  induction hresults with
  | nil => simp
  | cons hab _ ih => exact List.forall_mem_cons.mpr ⟨⟨_, hab⟩, ih⟩

theorem eq_map_of_mapM_ok {g : α → β} (hf : ∀ {a b}, f a = .ok b → b = g a)
    (h : as.mapM f = .ok bs) : bs = as.map g := by
  have hresults : List.Forall₂ (fun a b => g a = b) as bs :=
    (forall₂_of_mapM_ok h).imp fun _ _ hb => (hf hb).symm
  exact (List.forall₂_eq_eq_eq ▸ List.forall₂_map_left_iff.mpr hresults : as.map g = bs).symm

theorem ok_of_forM_ok {f : α → Except ε Unit} {as : List α} (h : as.forM f = .ok ()) :
    ∀ a ∈ as, f a = .ok () := by
  induction as with
  | nil =>
    intro a ha
    cases ha
  | cons a as ih =>
    rw [List.forM_eq_forM, List.forM_cons] at h
    obtain ⟨⟨⟩, ha, h⟩ := Except.exists_of_bind_ok h
    intro c hc
    rcases List.mem_cons.mp hc with rfl | hc
    · exact ha
    · exact ih h c hc

end InvariantSynthesis
