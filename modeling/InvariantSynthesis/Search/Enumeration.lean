import InvariantSynthesis.Domain.Basic

/-!
Improvement by enumeration: one question asks for a state that improves some row, and every row
whose condition holds in the model is improved at once.
-/

namespace InvariantSynthesis

/-- A search for a fixed point: a value that improves while the oracle's work is counted. -/
abbrev Search (α σ β : Type) := Session (α × Statistics) σ β

namespace Search

variable {α σ : Type} [Oracle σ]

def check : Search α σ Answer := do
  Session.update (fun (v, stats) => (v, { stats with calls := stats.calls + 1 }))
  Session.request Oracle.check

def value : Search α σ α := do return (← Session.state).1

/-- Ask for a state in which one of the conditions holds under an assumption. -/
def ask (assumption : Expr) (conds : List (Nat × Expr)) : Search α σ Answer := do
  Session.assert assumption
  Session.assert (.disj (conds.map (·.2)))
  check

end Search

namespace Domain

variable {σ : Type} [Oracle σ]

def improve (d : Domain) (m : Model) (row : Nat) : Search d.Value σ Bool := fun (s, o) =>
  let (r, s) := d.edit o m row s
  (r, (s, o))

/-- Improve the rows whose conditions hold in a model, in order. -/
def improveAll (d : Domain) (m : Model) : List (Nat × Expr) → Search d.Value σ Bool
  | [] => pure false
  | (row, c) :: rest => do
    if m.evalBool c = some true then
      let changed ← d.improve m row
      return (← d.improveAll m rest) || changed
    else d.improveAll m rest

/-- One round of improvement. Where the oracle knows of no improvement, nothing changes. -/
def enumerate (d : Domain) (focus : Option Nat) : Search d.Value σ Bool := do
  let v ← Search.value
  let conds := d.conditions v focus
  if conds.isEmpty then return false
  else
    Session.inScope (do
      match ← Search.ask (d.pre v) conds with
      | .unsat | .unknown _ => return false
      | .sat => d.improveAll (← Session.requireModel) conds)

end Domain

end InvariantSynthesis
