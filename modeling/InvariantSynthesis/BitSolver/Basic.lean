import InvariantSynthesis.Config.Basic
import InvariantSynthesis.Diagram.Word
import InvariantSynthesis.Oracle.Basic
import InvariantSynthesis.Registry

/-!
The state of the bit-level solver. Integers have a fixed width: each integer variable stands for
that many diagram variables, each boolean variable for one. The assertions of a scope are one
diagram, the conjunction of all that holds there.
-/

namespace InvariantSynthesis

open Diagram

/-- What an expression is turned into: a diagram or a word of diagrams. -/
inductive Term where
  | bool (e : Edge)
  | int (w : Word)
  deriving DecidableEq

def Term.sort : Term → ValueSort
  | .bool _ => .bool
  | .int _ => .int

structure BitSolver where
  store : Store
  width : Nat
  nodeLimit : Nat
  /-- The first diagram variable that is not in use. -/
  nextVar : Nat
  /-- The variables that have bits. -/
  symbols : Registry Term
  /-- The assertions of the innermost scope. -/
  top : Edge
  /-- The assertions of the other scopes, from the inside out. -/
  outer : List Edge
  model : Option Model

namespace BitSolver

def fresh (width nodeLimit : Nat) : BitSolver :=
  ⟨.empty, width, nodeLimit, 1, .empty, .one, [], none⟩

def widthAllowed (width : Nat) : Bool := minWidth ≤ width && width ≤ maxWidth

theorem widthAllowed_iff {width : Nat} : widthAllowed width = true ↔ 2 ≤ width ∧ width ≤ 32 := by
  rw [widthAllowed, Bool.and_eq_true, decide_eq_true_iff, decide_eq_true_iff]
  rfl

theorem pos_of_widthAllowed {width : Nat} (h : widthAllowed width = true) : 0 < width :=
  Nat.lt_of_lt_of_le Nat.two_pos (widthAllowed_iff.mp h).1

def create (width nodeLimit : Nat) : Except Fault BitSolver :=
  if widthAllowed width then .ok (fresh width nodeLimit) else .error .widthOutOfRange

def ofConfig (c : Config) : Except ConfigError BitSolver :=
  if widthAllowed c.width then .ok (fresh c.width c.nodeLimit)
  else .error (.invalidValue "bitwidth" (toString c.width))

def build {α : Type} (b : Build α) : Request BitSolver α :=
  fun ⟨store, width, nodeLimit, nextVar, symbols, top, outer, model⟩ =>
    let (a, store) := b store
    (.ok a, ⟨store, width, nodeLimit, nextVar, symbols, top, outer, model⟩)

def freshBit : Request BitSolver Edge :=
  fun ⟨store, width, nodeLimit, nextVar, symbols, top, outer, model⟩ =>
    let (e, store) := literal nextVar store
    (.ok e, ⟨store, width, nodeLimit, nextVar + 1, symbols, top, outer, model⟩)

def freshBits : Nat → Request BitSolver (List Edge)
  | 0 => pure []
  | n + 1 => do
    let e ← freshBit
    return e :: (← freshBits n)

def bindSymbol (name : String) (t : Term) : Request BitSolver Unit :=
  modify (fun s => { s with symbols := s.symbols.insert name t })

/-- The term of a variable, allocated at its first use. -/
def symbol (name : String) (sort : ValueSort) : Request BitSolver Term := do
  match (← get).symbols.get? name with
  | some t => if t.sort = sort then return t else throw (.sortClash name t.sort sort)
  | none =>
    let t ← match sort with
      | .bool => do pure (Term.bool (← freshBit))
      | .int => do pure (Term.int ⟨← freshBits (← get).width⟩)
    bindSymbol name t
    return t

end BitSolver

end InvariantSynthesis
