import InvariantSynthesis.Error
import InvariantSynthesis.Model

/-!
The interface of an incremental decision procedure, called an oracle. The analysis asserts
expressions in nested scopes, asks whether they can hold together, and reads values from the model
of the last positive answer. An oracle is a state; each request may fail and still change it.
-/

namespace InvariantSynthesis

inductive Answer where
  | sat
  | unsat
  | unknown (reason : String)
  deriving DecidableEq

/-- A request to an oracle. The state after a failed request is kept. -/
abbrev Request (σ α : Type) := ExceptT OracleError (StateM σ) α

class Oracle (σ : Type) where
  /-- Announce variables before their first use. -/
  declare : List TypedName → Request σ Unit
  /-- Add an expression to the innermost scope. -/
  assert : Expr → Request σ Unit
  /-- Open a scope. -/
  push : σ → σ
  /-- Discard the innermost scope with all that was asserted in it. -/
  pop : Request σ Unit
  /-- The number of open scopes. -/
  depth : σ → Nat
  /-- The smallest and the largest value of an integer variable. -/
  range : σ → Int × Int
  check : Request σ Answer
  /-- The model of the last check, if that was satisfiable. -/
  model? : σ → Option Model
  /-- A fresh oracle of the same kind. -/
  spawn : σ → σ

namespace Oracle

variable {σ : Type} [Oracle σ]

/-- Pop scopes until fewer than `level` are open. A failing pop ends this early. -/
def closeTo (level : Nat) : Nat → σ → σ
  | 0, o => o
  | fuel + 1, o =>
    if level ≤ depth o then
      match (pop : Request σ Unit) o with
      | (.ok (), o) => closeTo level fuel o
      | (.error _, o) => o
    else o

/-- Discard the scope that is the `level`-th open one, with the scopes inside it. One pop for each
open scope is enough where every pop that succeeds closes a scope; only of such an oracle is this what
popping without a limit leaves. -/
def release (level : Nat) (o : σ) : σ := closeTo level (depth o + 1) o

end Oracle

/-- Size of the work given to oracles. -/
structure Statistics where
  instances : Nat
  calls : Nat
  deriving DecidableEq

namespace Statistics

def zero : Statistics := ⟨0, 0⟩

def merge (a b : Statistics) : Statistics := ⟨a.instances + b.instances, a.calls + b.calls⟩

def text (s : Statistics) : String :=
  toString s.instances ++ " solver instance(s), " ++ toString s.calls ++ " solver call(s)"

end Statistics

end InvariantSynthesis
