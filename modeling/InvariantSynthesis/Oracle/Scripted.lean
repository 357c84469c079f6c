import InvariantSynthesis.Oracle.Basic

/-!
Oracles that follow a script. A scripted oracle hands requests on to another oracle, except that a
chosen check or pop goes wrong, some variables are missing from its models, or announcements are
ignored. It shows how an analysis copes with an oracle that cannot be relied on.
-/

namespace InvariantSynthesis

/-- How a check goes wrong. -/
inductive Disruption where
  | unknown
  | error
  | noModel
  | unsat
  deriving DecidableEq

structure Script where
  /-- The check that goes wrong, counted from 1. -/
  failing : Option (Nat × Disruption) := none
  /-- The check that goes wrong in oracles made from this one. -/
  failingSpawned : Option (Nat × Disruption) := none
  /-- The pop that goes wrong, counted from 1. -/
  failingPop : Option Nat := none
  /-- Variables left out of models. -/
  hidden : List String := []
  /-- Whether announcements are ignored. -/
  silent : Bool := false

structure Scripted (σ : Type) where
  inner : σ
  script : Script
  checks : Nat := 0
  pops : Nat := 0
  model : Option Model := none

namespace Scripted

variable {σ : Type} [Oracle σ]

def forward {α : Type} (r : Request σ α) : Request (Scripted σ) α :=
  fun ⟨inner, script, checks, pops, model⟩ =>
    let (a, inner) := r inner
    (a, ⟨inner, script, checks, pops, model⟩)

def forget : Request (Scripted σ) Unit := modify (fun s => { s with model := none })

def disrupt : Disruption → Request (Scripted σ) Answer
  | .unknown => pure (.unknown "scripted")
  | .error => throw (.internal "scripted")
  | .noModel => pure .sat
  | .unsat => pure .unsat

/-- Keep what may be seen of the inner oracle's model. -/
def observe (s : Scripted σ) : Scripted σ :=
  match Oracle.model? s.inner with
  | some m => { s with model := some (m.restrict (fun n => n ∉ s.script.hidden)) }
  | none => s

def ask : Request (Scripted σ) Answer := fun s =>
  let (a, s) := forward Oracle.check s
  (a, s.observe)

def check : Request (Scripted σ) Answer := do
  modify (fun s => { s with model := none, checks := s.checks + 1 })
  let s ← get
  match s.script.failing with
  | some (k, d) => if s.checks = k then disrupt d else ask
  | none => ask

def pop : Request (Scripted σ) Unit := do
  modify (fun s => { s with pops := s.pops + 1 })
  let s ← get
  if s.script.failingPop = some s.pops then throw (.internal "scripted pop")
  else
    forget
    forward Oracle.pop

end Scripted

instance {σ : Type} [Oracle σ] : Oracle (Scripted σ) where
  declare names := do
    if (← get).script.silent then pure () else Scripted.forward (Oracle.declare names)
  assert e := do
    Scripted.forget
    Scripted.forward (Oracle.assert e)
  push s := { s with inner := Oracle.push s.inner }
  pop := Scripted.pop
  depth s := Oracle.depth s.inner
  range s := Oracle.range s.inner
  check := Scripted.check
  model? s := s.model
  spawn s :=
    { inner := Oracle.spawn s.inner
      script := { s.script with failing := s.script.failingSpawned, failingPop := none } }

end InvariantSynthesis
