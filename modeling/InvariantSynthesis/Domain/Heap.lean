import InvariantSynthesis.Domain.Template

/-!
Points-to sets of pointers that flow around a loop. A pointer is the number of the allocation site
that it points to, or zero. Targets are collected as they come over the back edge; a pointer with
too many of them may point anywhere.
-/

namespace InvariantSynthesis

inductive PointsTo where
  /-- The possible targets in increasing order. -/
  | targets (ts : List Int)
  | top
  deriving DecidableEq

structure PointerRow where
  loop : LoopTemplate
  lb : String
  post : Expr

structure HeapDomain where
  rows : List PointerRow
  maxTargets : Nat

namespace HeapDomain

def ofLoops (s : LoopSystem) (maxTargets : Nat) : HeapDomain :=
  ⟨s.loops.flatMap (fun l => l.pointerVars.map (fun v => ⟨l, v.lb, v.post⟩)), maxTargets⟩

def addTarget (t : Int) : List Int → List Int
  | [] => [t]
  | u :: us => if t < u then t :: u :: us else if t = u then u :: us else u :: addTarget t us

def pointsTo (pointer : Expr) (ts : List Int) : Expr := .disj (ts.map (fun t => .eq pointer (.int t)))

def start (d : HeapDomain) : List PointsTo := d.rows.map (fun _ => .targets [])

def constraint (r : PointerRow) : PointsTo → Expr
  | .targets ts => .imply r.loop.preGuard (pointsTo (.intVar r.lb) ts)
  | .top => .bool true

def pre (d : HeapDomain) (value : List PointsTo) : Expr :=
  .conj ((d.rows.zip value).map (fun (r, v) => constraint r v))

/-- The condition that another target flows back. -/
def escape? (r : PointerRow) : PointsTo → Option Expr
  | .targets ts => some (.conj [r.loop.postGuard, .negate (pointsTo r.post ts)])
  | .top => none

def conditions (d : HeapDomain) (value : List PointsTo) (focus : Option Nat) : List (Nat × Expr) :=
  (d.rows.zip value).zipIdx.filterMap (fun ((r, v), i) =>
    if r.loop.inFocus focus then (escape? r v).map (i, ·) else none)

/-- The points-to set with another target. -/
def extend (d : HeapDomain) (t : Int) : PointsTo → PointsTo
  | .top => .top
  | .targets ts =>
    if t ∈ ts then .targets ts
    else if d.maxTargets < (addTarget t ts).length then .top
    else .targets (addTarget t ts)

def edit (d : HeapDomain) (value : List PointsTo) (i : Nat) (m : Model) :
    Except Error (Bool × List PointsTo) := do
  match d.rows[i]?, value[i]? with
  | some r, some old =>
    let new := d.extend (← m.requireInt r.post) old
    return (decide (new ≠ old), value.set i new)
  | _, _ => throw (.fault .indexOutOfRange)

/-- The targets of a pointer as a fact. At the top there is none. -/
def fact? (r : PointerRow) : PointsTo → Option Expr
  | .targets ts => some (pointsTo (.intVar r.lb) ts)
  | .top => none

def project (d : HeapDomain) (value : List PointsTo) (vars : NameSet) : Expr :=
  let covered := (d.rows.zip value).filter (fun (r, _) => vars.contains r.lb)
  .conj ((covered.filterMap (fun (r, v) => fact? r v)).filter (·.mentionsOnly vars))

def imprecision (d : HeapDomain) (value : List PointsTo) : List Imprecise :=
  Imprecise.dedup ((d.rows.zip value).filterMap (fun (r, v) =>
    if v = .top then some (some r.loop.back, r.lb) else none))

end HeapDomain

end InvariantSynthesis
