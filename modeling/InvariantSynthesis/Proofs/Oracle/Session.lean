import InvariantSynthesis.Oracle.Session

namespace InvariantSynthesis.Session

variable {ε τ α β : Type} {r : ExceptT ε (StateM τ) α} {f : α → ExceptT ε (StateM τ) β} {s t u : τ}

theorem bind_ok {a : α} (h : r s = (.ok a, t)) : (r >>= f) s = f a t := by
  show (ExceptT.bindCont f (r s).1) (r s).2 = f a t
  rw [h]
  rfl

theorem bind_error {e : ε} (h : r s = (.error e, t)) : (r >>= f) s = (.error e, t) := by
  show (ExceptT.bindCont f (r s).1) (r s).2 = (.error e, t)
  rw [h]
  rfl

theorem bind_of_eq {r' : ExceptT ε (StateM τ) α} (h : r s = r' t) : (r >>= f) s = (r' >>= f) t := by
  show (ExceptT.bindCont f (r s).1) (r s).2 = (ExceptT.bindCont f (r' t).1) (r' t).2
  rw [h]

theorem ok_of_bind {b : β} (h : (r >>= f) s = (.ok b, u)) :
    ∃ a t, r s = (.ok a, t) ∧ f a t = (.ok b, u) := by
  cases hr : r s with
  | mk x t =>
    cases x with
    | ok a => exact ⟨a, t, rfl, (bind_ok hr).symm.trans h⟩
    | error e =>
      rw [bind_error hr] at h
      cases h

section related

variable {Q : τ → τ → Prop} (htrans : ∀ s t u, Q s t → Q t u → Q s u)

include htrans

/-- A sequence ends where its second part ends, or where its first part fails. -/
theorem bind_related (hr : ∀ s, Q s (r s).2) (hf : ∀ a s, Q s (f a s).2) (s : τ) :
    Q s ((r >>= f) s).2 := by
  have hfirst := hr s
  cases hrun : r s with
  | mk x t =>
    rw [hrun] at hfirst
    cases x with
    | ok a =>
      rw [bind_ok hrun]
      exact htrans s t _ hfirst (hf a t)
    | error e =>
      rw [bind_error hrun]
      exact hfirst

theorem forM_related (hrefl : ∀ s, Q s s) {f : α → ExceptT ε (StateM τ) Unit}
    (hf : ∀ a s, Q s (f a s).2) (as : List α) (s : τ) : Q s (as.forM f s).2 := by
  induction as generalizing s with
  | nil => exact hrefl s
  | cons a as ih =>
    rw [List.forM_eq_forM, List.forM_cons]
    exact bind_related htrans (hf a) (fun _ => ih) s

end related

theorem requireModel_snd {S σ : Type} [Oracle σ] (t : S × σ) :
    ((requireModel : Session S σ Model) t).2 = t := by
  have hlook : (look fun o : σ => Oracle.model? o : Session S σ (Option Model)) t =
      (.ok (Oracle.model? t.2), t) := rfl
  rw [requireModel, bind_ok hlook]
  cases (Oracle.model? t.2 : Option Model) <;> rfl

end InvariantSynthesis.Session
