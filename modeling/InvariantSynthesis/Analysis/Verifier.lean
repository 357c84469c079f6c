import InvariantSynthesis.Analysis.Analyzer
import InvariantSynthesis.Analysis.Property
import InvariantSynthesis.Procedure.Tag

/-!
Checking the assertions of a procedure. Each loop has an edge back to its head. A pass improves the
value once for every edge, in the order of locations, and passes are repeated until one changes
nothing; the assertions are then checked under the invariant that was found.

With an older version of the procedure the two are analysed together: the inputs that they share are
equal, and the assertions of the old version are assumed.
-/

namespace InvariantSynthesis

/-- What is appended to the variables of the old version. -/
def oldTag : String := "@old"

structure Verifier where
  config : Config
  procedure : Procedure
  /-- The old version, with its variables tagged. -/
  old : Option Procedure
  precondition : Expr
  loops : LoopSystem
  properties : List Property
  invariant : Option Invariant := none
  /-- The passes of the last run. -/
  passes : Nat := 0
  /-- The work of all runs. -/
  stats : Statistics := .zero
  imprecise : List ImpreciseVar := []

namespace Verifier

def create (config : Config) (p : Procedure) (old : Option Procedure) (precondition : Expr) :
    Verifier :=
  let old := old.map (Procedure.tagged oldTag)
  { config, procedure := p, old, precondition
    loops := .ofProcedures (p :: old.toList)
    properties := p.assertions.map (fun (b, a) => .ofAssertion b a) }

/-- Put a loop behind the loops that end no later. -/
def placeEdge (l : LoopTemplate) : List LoopTemplate → List LoopTemplate
  | [] => [l]
  | k :: ks => if l.back < k.back then l :: k :: ks else k :: placeEdge l ks

/-- The loops in the order in which a pass goes through their back edges. -/
def edges (v : Verifier) : List LoopTemplate :=
  v.loops.loops.foldl (fun es l => placeEdge l es) []

/-- The inputs that both versions have are equal. -/
def tie (v : Verifier) : Expr :=
  match v.old with
  | none => .bool true
  | some old =>
    .conj (v.procedure.inputs.filterMap (fun (name, sort) =>
      if (name ++ oldTag, sort) ∈ old.inputs then
        some (.eq (.var name sort) (.var (name ++ oldTag) sort))
      else none))

def symbols (v : Verifier) : List TypedName :=
  v.procedure.symbols ++ v.old.toList.flatMap Procedure.symbols

def oldAssumptions (v : Verifier) : List Expr :=
  match v.old with
  | none => []
  | some old =>
    [old.formula, old.enablingExpr, v.tie] ++
    old.assertions.map (fun (b, a) => .imply b.guard a.condition)

/-- All that is assumed before the search, in the order in which it is asserted. -/
def assumptions (v : Verifier) : List Expr :=
  [v.procedure.formula, v.procedure.enablingExpr] ++ v.oldAssumptions ++ [v.precondition]

def reset (v : Verifier) : Verifier :=
  { v with
    invariant := none
    imprecise := []
    passes := 0
    properties := v.properties.map (fun p => { p with status := .unknown, countermodel := none }) }

variable {σ : Type} [Oracle σ]

def countCall (v : Verifier) : Verifier :=
  { v with stats := { v.stats with calls := v.stats.calls + 1 } }

def prepare : Session Verifier σ Unit := do
  Session.update (fun v => { v with stats := { v.stats with instances := v.stats.instances + 1 } })
  let v ← Session.state
  Session.request (Oracle.declare v.symbols)
  v.assumptions.forM Session.assert
  Session.update countCall
  requireFeasible (← Session.request Oracle.check)

/-- One round for each focus, and whether one of them changed the value. -/
def pass (m : Method) : List (Option Nat) → Search m.domain.Value σ Bool
  | [] => pure false
  | focus :: rest => do
    let changed ← m.round focus
    return (← pass m rest) || changed

/-- Repeat passes until nothing changes. The height of the first value bounds the passes. -/
def climb (m : Method) (foci : List (Option Nat)) : Nat → m.domain.Value × Statistics →
    Session Verifier σ (m.domain.Value × Statistics)
  | 0, s => pure s
  | fuel + 1, s => do
    Session.update (fun (v : Verifier) => { v with passes := v.passes + 1 })
    let (outcome, s) ← Session.nested s (pass m foci)
    if ← Session.ofExcept outcome then climb m foci fuel s else return s

/-- The focus of each round of a pass. A procedure without loops has one round without focus. -/
def foci (v : Verifier) : List (Option Nat) :=
  if v.edges.isEmpty then [none] else v.edges.map (fun l => some l.id)

def checkProperty (invariant : Expr) (p : Property) : Session Verifier σ Property :=
  Session.inScope (do
    Session.assert invariant
    Session.assert (.negate p.condition)
    Session.update countCall
    match ← Session.request Oracle.check with
    | .unsat => return { p with status := .holds }
    | .unknown _ => return { p with status := .unknown }
    | .sat =>
      let m ← Session.requireModel
      return { p with status := .violated, countermodel := some (p.relevant m) })

/-- Check properties one after the other. An error leaves those that are left as they were. -/
def checkProperties (invariant : Expr) : Nat → List Property → Session Verifier σ Unit
  | _, [] => pure ()
  | i, p :: rest => do
    let p ← checkProperty invariant p
    Session.update (fun v => { v with properties := v.properties.set i p })
    checkProperties invariant (i + 1) rest

/-- The version of the procedure that a variable belongs to. -/
def versionOf (v : Verifier) (name : String) : Procedure :=
  match v.old with
  | some old => if name.endsWith oldTag then old else v.procedure
  | none => v.procedure

def attributions (v : Verifier) (entries : List Imprecise) : List ImpreciseVar :=
  entries.filterMap (fun (l, name) => (v.versionOf name).attribution? l name)

/-- Find an invariant and check all properties. -/
def run : Session Verifier σ Unit := do
  Session.update reset
  Session.inScope (do
    prepare
    let v ← Session.state
    let range ← Session.look (fun o : σ => Oracle.range o)
    let m ← Session.ofExcept (Method.ofConfig v.config v.loops range)
    let first := m.domain.start
    let (value, stats) ← climb m v.foci (m.domain.height first + 1) (first, .zero)
    Session.update (fun v => { v with stats := v.stats.merge stats })
    let found : Invariant := ⟨m, value⟩
    checkProperties found.expr 0 v.properties
    Session.update (fun v => { v with
      imprecise := if v.config.showImprecise then v.attributions found.imprecision else []
      invariant := some found }))

end Verifier

end InvariantSynthesis
