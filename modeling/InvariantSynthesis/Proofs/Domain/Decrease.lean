import InvariantSynthesis.Proofs.Domain.Improvement
import InvariantSynthesis.Proofs.Domain.Ranking
import InvariantSynthesis.Proofs.Expr.WellSorted
import Mathlib.Data.List.Zip

namespace InvariantSynthesis

section tuples

variable {γ : Type} {ρ : Valuation} {cs : List γ} {δ : γ → Expr} {f g : γ → Int}

theorem exists_of_lex (h : List.Lex (· < ·) (cs.map g) (cs.map f)) :
    ∃ k c, cs[k]? = some c ∧ g c < f c ∧ ∀ c' ∈ cs.take k, g c' ≤ f c' := by
  induction cs with
  | nil => cases h
  | cons c cs ih =>
    obtain hlt | ⟨heq, h⟩ := List.cons_lex_cons_iff.mp h
    · exact ⟨0, c, rfl, hlt, by simp⟩
    · obtain ⟨k, c', hc', hlt, hbefore⟩ := ih h
      refine ⟨k + 1, c', hc', hlt, ?_⟩
      rw [List.take_succ_cons]
      exact List.forall_mem_cons.mpr ⟨Int.le_of_eq heq, hbefore⟩

/-- The expression that a tuple decreases means that it decreases lexicographically. -/
theorem holds_lexicographicDecrease (hδ : ∀ c ∈ cs, (δ c).number ρ = f c - g c) :
    (lexicographicDecrease (cs.map δ)).holds ρ = true ↔
      List.Lex (· < ·) (cs.map g) (cs.map f) := by
  refine ⟨lex_of_lexicographicDecrease hδ, fun h => ?_⟩
  obtain ⟨k, c, hc, hlt, hbefore⟩ := exists_of_lex h
  simp only [lexicographicDecrease, Expr.holds_disj, List.any_map, List.any_eq_true,
    Function.comp_apply, Expr.holds_conj, List.all_append, List.all_map, List.all_cons, List.all_nil,
    Bool.and_true, Bool.and_eq_true, List.all_eq_true]
  refine ⟨(δ c, k), List.mem_zipIdx_iff_getElem?.mpr (by simp [hc]), fun e he => ?_, ?_⟩
  · rw [← List.map_take] at he
    obtain ⟨c', hc', rfl⟩ := List.mem_map.mp he
    have hle := hbefore c' hc'
    simpa [Expr.atLeast, hδ c' (List.mem_of_mem_take hc')] using hle
  · simpa [Expr.exceeds, hδ c (List.mem_of_getElem? hc)] using hlt

theorem weighted_comm (xs ys : List Int) : weighted xs ys = weighted ys xs := by
  induction xs generalizing ys with
  | nil => cases ys <;> rfl
  | cons x xs ih =>
    cases ys with
    | nil => rfl
    | cons y ys => rw [weighted, weighted, ih, Int.mul_comm]

end tuples

/-- The linear combinations with these coefficients decrease lexicographically where the variables
decrease by these amounts. -/
def Decreases (coefficients : List (List Int)) (turn : List Int) : Prop :=
  List.Lex (· < ·) (coefficients.map fun _ => 0) (coefficients.map fun cs => weighted cs turn)

namespace RankedLoop

variable {l : RankedLoop} {ρ : Valuation} {m : Model}

def decrease (l : RankedLoop) (ρ : Valuation) : List Int :=
  l.vars.map fun x => x.1.number ρ - x.2.number ρ

theorem turnOf_ok {turn : List Int} (h : l.turnOf m = .ok turn) : turn = l.decrease m.valuation := by
  refine eq_map_of_mapM_ok (fun {x k} hx => ?_) h
  obtain ⟨a, ha, hx⟩ := Except.exists_of_bind_ok hx
  obtain ⟨b, hb, hx⟩ := Except.exists_of_bind_ok hx
  split at hx
  · rename_i d hsub
    cases hx
    rw [← (Bounded.check_eq_some.mp hsub).1, Model.number_of_evalInt (Model.requireInt_ok ha),
      Model.number_of_evalInt (Model.requireInt_ok hb)]
  · cases hx

theorem holds_deltas (coefficients : List (List Int)) :
    (lexicographicDecrease (l.deltas coefficients)).holds ρ = true ↔
      Decreases coefficients (l.decrease ρ) := by
  refine holds_lexicographicDecrease fun cs _ => ?_
  rw [Expr.number_sum, Int.sub_zero, decrease]
  simp only [← Expr.number_minus]
  exact total_scale cs l.vars fun x => .minus x.1 x.2

end RankedLoop

namespace RankingDomain

variable {names : List (List String)} {turn : List Int}

theorem holds_requirement (ρ : Valuation) :
    (requirement names turn).holds ρ = true ↔
      Decreases (names.map (·.map fun c => (Expr.intVar c).number ρ)) turn := by
  rw [Decreases, List.map_map, List.map_map]
  refine holds_lexicographicDecrease fun cs _ => ?_
  rw [Expr.number_sum, Function.comp_apply, Function.comp_apply, Int.sub_zero, weighted_comm]
  have hswap := total_scale (ρ := ρ) turn cs Expr.intVar
  rwa [← List.zip_swap, List.map_map] at hswap

theorem wellSorted_lexicographicDecrease {Γ : String → ValueSort} {deltas : List Expr}
    (h : ∀ e ∈ deltas, e.WellSorted Γ .int) : (lexicographicDecrease deltas).WellSorted Γ .bool := by
  apply (Expr.WellSorted.logical _).disj
  intro e he
  obtain ⟨⟨δ, k⟩, hδ, rfl⟩ := List.mem_map.mp he
  apply (Expr.WellSorted.logical _).conj
  intro e he
  rcases List.mem_append.mp he with he | he
  · obtain ⟨δ', hδ', rfl⟩ := List.mem_map.mp he
    exact (h δ' (List.mem_of_mem_take hδ')).atLeast (.int 0)
  · rw [List.mem_singleton.mp he]
    exact (h δ (List.mem_of_getElem? (List.mem_zipIdx_iff_getElem?.mp hδ))).exceeds (.int 0)

theorem wellSorted_requirement (names : List (List String)) (turn : List Int) :
    (requirement names turn).WellSorted (fun _ => .int) .bool := by
  apply wellSorted_lexicographicDecrease
  intro e he
  obtain ⟨cs, -, rfl⟩ := List.mem_map.mp he
  apply (Expr.WellSorted.arithmetical _).sum
  intro e he
  obtain ⟨⟨c, d⟩, -, rfl⟩ := List.mem_map.mp he
  exact (Expr.WellSorted.arithmetical _).scale d (.intVar rfl)

end RankingDomain

end InvariantSynthesis
