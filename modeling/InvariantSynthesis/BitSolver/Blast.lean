import InvariantSynthesis.BitSolver.Basic
import InvariantSynthesis.Expr.Text

namespace InvariantSynthesis.BitSolver

open Diagram

def expectBool (e : Expr) : Term → Request BitSolver Edge
  | .bool r => pure r
  | .int _ => throw (.illSorted ("expected bool: " ++ e.text))

def expectInt (e : Expr) : Term → Request BitSolver Word
  | .int w => pure w
  | .bool _ => throw (.illSorted ("expected int: " ++ e.text))

mutual

def blast : Expr → Request BitSolver Term
  | .bool b => pure (.bool (.ofBool b))
  | .int k => pure (.int (.constant k))
  | .var n s => symbol n s
  | .not a => do return .bool (← expectBool a (← blast a)).flip
  | .and args => do return .bool (← blastFold Diagram.and .one args)
  | .or args => do return .bool (← blastFold Diagram.or .zero args)
  | .implies a b => do
    let x ← expectBool a (← blast a)
    let y ← expectBool b (← blast b)
    return .bool (← build (imply x y))
  | .neg a => do
    let x ← expectInt a (← blast a)
    return .int (← build x.neg)
  | .add args => do return .int (← blastSum (.constant 0) args)
  | .sub a b => do
    let x ← expectInt a (← blast a)
    let y ← expectInt b (← blast b)
    return .int (← build (x.sub y))
  | .mul k a => do
    let x ← expectInt a (← blast a)
    return .int (← build (x.scale k))
  | .eq a b => do
    match ← blast a, ← blast b with
    | .bool x, .bool y => return .bool (← build (Diagram.eq x y))
    | .int x, .int y => return .bool (← build (x.equal y))
    | _, _ => throw (.illSorted (Expr.eq a b).text)
  | .le a b => do
    let x ← expectInt a (← blast a)
    let y ← expectInt b (← blast b)
    return .bool (← build (x.atMost y))
  | .lt a b => do
    let x ← expectInt a (← blast a)
    let y ← expectInt b (← blast b)
    return .bool (← build (x.less y))
  | .ite c a b => do
    let r ← expectBool c (← blast c)
    match ← blast a, ← blast b with
    | .bool x, .bool y => return .bool (← build (Diagram.ite r x y))
    | .int x, .int y => return .int (← build (Word.ite r x y))
    | _, _ => throw (.illSorted (Expr.ite c a b).text)

/-- Combine the diagrams of boolean operands. -/
def blastFold (combine : Edge → Edge → Build Edge) (acc : Edge) : List Expr → Request BitSolver Edge
  | [] => pure acc
  | a :: as => do
    let x ← expectBool a (← blast a)
    blastFold combine (← build (combine acc x)) as

def blastSum (acc : Word) : List Expr → Request BitSolver Word
  | [] => pure acc
  | a :: as => do
    let x ← expectInt a (← blast a)
    blastSum (← build (acc.add x)) as

end

end InvariantSynthesis.BitSolver
