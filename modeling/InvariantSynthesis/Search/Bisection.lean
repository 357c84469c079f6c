import InvariantSynthesis.Search.Enumeration

/-!
Improvement by bisection, for template polyhedra: one row that can be improved is raised at once to
the largest value that it reaches under the current assumption. The value is found by halving the
interval between a first witness and the largest value of the row.
-/

namespace InvariantSynthesis.TemplateDomain

variable {σ : Type} [Oracle σ]

/-- The number, which has to fit into 64 bits. -/
def fitting {S : Type} : Option Int → Session S σ Int
  | some k => pure k
  | none => throw (.fault .overflow)

/-- The middle of an interval, above its lower end. -/
def midpoint? (lower upper : Int) : Option Int := do
  let width ← Bounded.add? (← Bounded.sub? upper lower) 1
  Bounded.add? lower (width / 2)

/-- Whether a row reaches a bound under an assumption, shown by the value in a model. -/
def reaches (r : TemplateRow) (assumption : Expr) (bound : Int) :
    Search (List RowValue) σ (Option Int) := do
  match r.improvement? (.bound (← fitting (Bounded.sub? bound 1))) with
  | none => return none
  | some improvement =>
    Session.inScope (do
      Session.assert assumption
      Session.assert improvement
      match ← Search.check with
      | .sat => return some (← Session.ofExcept (r.postValue (← Session.requireModel)))
      | .unsat | .unknown _ => return none)

/-- Narrow an interval to the largest value that is reached. Each step shortens the interval, whose
length bounds the fuel. -/
def settle (r : TemplateRow) (assumption : Expr) : Nat → Int → Int → Search (List RowValue) σ Int
  | 0, lower, _ => pure lower
  | fuel + 1, lower, upper => do
    if lower < upper then
      let mid ← fitting (midpoint? lower upper)
      match ← reaches r assumption mid with
      | some v => settle r assumption fuel (max v mid) upper
      | none => settle r assumption fuel lower (← fitting (Bounded.sub? mid 1))
    else return lower

/-- A row that can be improved, with a value that it reaches. -/
def witness (d : TemplateDomain) (value : List RowValue) (conds : List (Nat × Expr)) :
    Search (List RowValue) σ (Option (Nat × Int)) :=
  Session.inScope (do
    match ← Search.ask (d.pre value) conds with
    | .unsat | .unknown _ => return none
    | .sat =>
      let m ← Session.requireModel
      match conds.find? (fun (_, c) => m.evalBool c = some true) with
      | none => return none
      | some (i, _) => return some (i, ← Session.ofExcept (do (← d.row i).postValue m)))

/-- One round of improvement, of a single row. -/
def bisect (d : TemplateDomain) (focus : Option Nat) : Search (List RowValue) σ Bool := do
  let value ← Search.value
  let conds := d.conditions value focus
  if conds.isEmpty then return false
  else
    match ← d.witness value conds with
    | none => return false
    | some (i, lower) =>
      let r ← Session.ofExcept (d.row i)
      let upper := d.rowMax r
      let best ← settle r (d.pre value) (upper - lower).toNat lower upper
      let (changed, value) ← Session.ofExcept (d.raise value i best)
      Session.update (fun (_, stats) => (value, stats))
      return changed

end InvariantSynthesis.TemplateDomain
