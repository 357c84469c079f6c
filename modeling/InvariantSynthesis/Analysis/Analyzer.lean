import InvariantSynthesis.Imprecision
import InvariantSynthesis.Search.Method

namespace InvariantSynthesis

structure Analyzer where
  config : Config
  /-- The work of all runs. -/
  stats : Statistics := .zero
  invariant : Option Invariant := none
  imprecise : List ImpreciseVar := []
  /-- The rounds of the last run that changed the value. -/
  rounds : Nat := 0

/-- The assertions must be satisfiable, as far as the oracle can tell. -/
def requireFeasible {S σ : Type} : Answer → Session S σ Unit
  | .unsat => throw .infeasiblePrecondition
  | .sat | .unknown _ => pure ()

namespace Analyzer

variable {σ : Type} [Oracle σ]

/-- Improve a value until nothing changes. The height of the first value bounds the rounds. -/
def climb (m : Method) : Nat → m.domain.Value × Statistics →
    Session Analyzer σ (m.domain.Value × Statistics)
  | 0, s => pure s
  | fuel + 1, s => do
    let (outcome, s) ← Session.nested s (m.round none)
    if ← Session.ofExcept outcome then
      Session.update (fun (a : Analyzer) => { a with rounds := a.rounds + 1 })
      climb m fuel s
    else return s

/-- Assert a procedure and a precondition. -/
def prepare (p : Procedure) (pre : Expr) : Session Analyzer σ Unit := do
  Session.update (fun a => { a with stats := { a.stats with instances := a.stats.instances + 1 } })
  Session.request (Oracle.declare p.symbols)
  Session.assert p.formula
  Session.assert p.enablingExpr
  Session.assert pre
  Session.update (fun a => { a with stats := { a.stats with calls := a.stats.calls + 1 } })
  requireFeasible (← Session.request Oracle.check)

def reset (a : Analyzer) : Analyzer := { a with invariant := none, imprecise := [], rounds := 0 }

/-- Find an invariant of a procedure under a precondition. -/
def run (p : Procedure) (pre : Expr) : Session Analyzer σ Unit := do
  Session.update reset
  Session.inScope (do
    prepare p pre
    let config := (← Session.state).config
    let range ← Session.look (fun o : σ => Oracle.range o)
    let m ← Session.ofExcept (Method.ofConfig config (.ofProcedures [p]) range)
    let first := m.domain.start
    let (value, stats) ← climb m (m.domain.height first + 1) (first, .zero)
    let found : Invariant := ⟨m, value⟩
    Session.update (fun a => { a with
      stats := a.stats.merge stats
      imprecise := if config.showImprecise then p.attributions found.imprecision else []
      invariant := some found }))

end Analyzer

end InvariantSynthesis
