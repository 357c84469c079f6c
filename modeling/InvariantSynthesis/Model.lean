import InvariantSynthesis.Bounded
import InvariantSynthesis.Table
import InvariantSynthesis.Expr.Basic

/-!
Models: values of finitely many variables, and the value of an expression in a model. Evaluation
uses 64-bit arithmetic and has no result where a variable has no value, an operand has the wrong
sort, or a number leaves 64 bits.
-/

namespace InvariantSynthesis

abbrev Model := Table Value

namespace Model

mutual

/-- An implication with a false premise and the branch not taken of an if-then-else are not looked
at; every other operand must have a value. -/
def eval (m : Model) : Expr → Option Value
  | .bool b => some (.bool b)
  | .int k => do return .int (← Bounded.check k)
  | .var n _ => m.get? n
  | .not a => do return .bool (!(← (← eval m a).bool?))
  | .and args => do
    let bs ← (← evalAll m args).mapM Value.bool?
    return .bool (bs.all id)
  | .or args => do
    let bs ← (← evalAll m args).mapM Value.bool?
    return .bool (bs.any id)
  | .implies a b => do
    if ← (← eval m a).bool? then return .bool (← (← eval m b).bool?)
    else return .bool true
  | .neg a => do return .int (← Bounded.neg? (← (← eval m a).int?))
  | .add args => do
    let ks ← (← evalAll m args).mapM Value.int?
    return .int (← ks.foldlM Bounded.add? 0)
  | .sub a b => do
    return .int (← Bounded.sub? (← (← eval m a).int?) (← (← eval m b).int?))
  | .mul k a => do return .int (← Bounded.mul? (← (← eval m a).int?) k)
  | .eq a b => do return .bool (decide ((← eval m a) = (← eval m b)))
  | .le a b => do return .bool (decide ((← (← eval m a).int?) ≤ (← (← eval m b).int?)))
  | .lt a b => do return .bool (decide ((← (← eval m a).int?) < (← (← eval m b).int?)))
  | .ite c a b => do
    if ← (← eval m c).bool? then eval m a else eval m b

def evalAll (m : Model) : List Expr → Option (List Value)
  | [] => some []
  | a :: as => do
    let v ← eval m a
    return v :: (← evalAll m as)

end

def evalInt (m : Model) (e : Expr) : Option Int := do (← m.eval e).int?

def evalBool (m : Model) (e : Expr) : Option Bool := do (← m.eval e).bool?

def int? (m : Model) (name : String) : Option Int := do (← m.get? name).int?

def bool? (m : Model) (name : String) : Option Bool := do (← m.get? name).bool?

def restrict (m : Model) (keep : String → Bool) : Model := m.filter (fun n _ => keep n)

end Model

end InvariantSynthesis
