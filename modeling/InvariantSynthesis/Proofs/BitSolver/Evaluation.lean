import InvariantSynthesis.Proofs.BitSolver.Exact
import InvariantSynthesis.Proofs.Expr.Eval

namespace InvariantSynthesis.BitSolver

open Diagram

variable {s : BitSolver} {e : Expr}

/-- The model with the values that an assignment gives to the solver's variables. -/
def modelOf (s : BitSolver) (α : Assignment) : Model := s.symbols.map (Term.value s.store α)

theorem reads_modelOf (s : BitSolver) (α : Assignment) : s.Reads α (s.modelOf α).valuation := by
  intro n t ht
  rw [Model.valuation, modelOf, Registry.get?_map, ht, Option.map_some, Option.getD_some]

/-- After any commands, an expression that gets diagrams has operands of the right sorts and all its
variables are known. Whatever numbers of the solver's width an assignment gives to the variables, the
diagrams then give the value of the expression over unbounded integers, and so does evaluation in a
model, unless it gives none. -/
theorem blast_value {width limit : Nat} {s₀ : BitSolver} (hcreate : create width limit = .ok s₀)
    (commands : List Command) {t : Term} {u : BitSolver}
    (hblast : blast e (execute s₀ commands).1 = (.ok t, u)) (α : Assignment) :
    e.sort? = some t.sort ∧ u.Binds e ∧
      (u.valuation α).InRange (-(2 ^ (width - 1)), 2 ^ (width - 1) - 1) ∧
      t.value u.store α = e.value (u.valuation α) ∧
      ∀ {v}, (u.modelOf α).eval e = some v → v = t.value u.store α := by
  obtain ⟨-, -, hkeeps, -, hwidth⟩ := keeps_of_create hcreate commands
  have hruns := blasts e _ hkeeps.valid
  have hgrows := hruns.grows
  have ht := hruns.result t
  rw [hblast] at hgrows ht
  have ht : Translates u e t := ht rfl
  have hwidth : u.width = width := hgrows.width.trans hwidth
  refine ⟨ht.sort, ht.binds, ?_, (ht.value α _ (reads_valuation u α)).symm, fun {v} hv => ?_⟩
  · have hrange := hgrows.valid.inRange_valuation α
    rwa [range_eq, hwidth] at hrange
  · calc v = e.value (u.modelOf α).valuation := (Model.value_of_eval hv).symm
      _ = t.value u.store α := ht.value α _ (reads_modelOf u α)

def doubled : Expr := .add [.intVar "x", .intVar "x"]

/-- Twice the least number of two bits needs three bits. -/
theorem blast_value_doubled :
    ∃ t u, blast doubled (execute (fresh 2 100) [.declare [("x", .int)]]).1 = (.ok t, u) ∧
      t.value u.store (· == 2) = .int (-4) ∧ (u.modelOf (· == 2)).eval doubled = some (.int (-4)) := by
  refine ⟨_, _, rfl, ?_, by decide +kernel⟩
  obtain ⟨-, -, -, hvalue, -⟩ := blast_value (e := doubled)
    (create_eq 100 (Nat.le_refl 2) (by decide)) [.declare [("x", .int)]] rfl (· == 2)
  rw [hvalue]
  decide +kernel

end InvariantSynthesis.BitSolver
