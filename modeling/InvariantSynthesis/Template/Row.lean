import InvariantSynthesis.Config.Basic
import InvariantSynthesis.Expr.Linear
import InvariantSynthesis.Template.Loop

/-!
Rows of numeric templates. A row is an expression over the variables of one loop for which an upper
bound is wanted, together with the same expression over the values that flow back.
-/

namespace InvariantSynthesis

structure TemplateRow where
  loop : LoopTemplate
  /-- The expression over the variables that flowed back. -/
  expr : Expr
  /-- The expression over the values that flow back. -/
  post : Expr
  form : LinearForm

/-- The pairs of elements at two places, the earlier place first. -/
def pairs {α : Type} : List α → List (α × α)
  | [] => []
  | x :: xs => xs.map (x, ·) ++ pairs xs

namespace TemplateShape

/-- Bounds of a single variable from above and below. -/
def boundsOf (withheld : NameSet) (v : LoopVar) : List Expr :=
  if withheld.contains (SsaName.prettyName v.lb) then []
  else [.intVar v.lb, .opposite (.intVar v.lb)]

/-- Bounds of the differences of two variables, and for octagons also of their sums. -/
def relations (shape : TemplateShape) (v w : LoopVar) : List Expr :=
  let x := Expr.intVar v.lb
  let y := Expr.intVar w.lb
  match shape with
  | .intervals => []
  | .zones => [.minus x y, .minus y x]
  | .octagons => [.minus x y, .minus y x, .plus x y, .minus (.opposite x) y]

def exprs (shape : TemplateShape) (withheld : NameSet) (vars : List LoopVar) : List Expr :=
  vars.flatMap (boundsOf withheld) ++ (pairs vars).flatMap (fun (v, w) => shape.relations v w)

end TemplateShape

namespace LoopSystem

/-- The row of an expression. Expressions that are not linear have none. -/
def row? (s : LoopSystem) (l : LoopTemplate) (e : Expr) : Except Error (Option TemplateRow) := do
  let post := e.substitute l.postMap
  s.checkSort e .int
  s.checkSort post .int
  return e.linearForm?.map (fun form => ⟨l, e, post, form⟩)

def rows (s : LoopSystem) (shape : TemplateShape) (withheld : NameSet) :
    Except Error (List TemplateRow) := do
  let rowLists ← s.loops.mapM (fun l => (shape.exprs withheld l.intVars).mapM (s.row? l))
  return rowLists.flatten.filterMap id

end LoopSystem

end InvariantSynthesis
