import InvariantSynthesis.Model
import InvariantSynthesis.Template.Row

/-!
Template polyhedra: one upper bound for each row. A row starts at the bottom, where no state comes
back over the back edge, and its bound only grows. A bound that no value in the range exceeds says
nothing, so the row is then at the top.
-/

namespace InvariantSynthesis

inductive RowValue where
  | bottom
  | bound (b : Int)
  | top
  deriving DecidableEq

/-- What an analysis reports as imprecise: a variable and the end of its loop. -/
abbrev Imprecise := Option Location × String

/-- Keep the first entry for each name. -/
def Imprecise.dedup (entries : List Imprecise) : List Imprecise :=
  entries.foldl (fun seen e => if seen.any (·.2 = e.2) then seen else seen ++ [e]) []

/-- The value of an integer expression in a model that has to have one. -/
def Model.requireInt (m : Model) (e : Expr) : Except Error Int :=
  match m.evalInt e with
  | some k => .ok k
  | none => .error (.missingModelValue e.text)

def Expr.mentionsOnly (e : Expr) (vars : NameSet) : Bool :=
  e.occurrences.all (fun v => vars.contains v.1)

namespace TemplateRow

/-- The row as an assumption before the body. -/
def constraint (r : TemplateRow) : RowValue → Expr
  | .bottom => .imply r.loop.preGuard (.bool false)
  | .bound b => .imply r.loop.preGuard (.le r.expr (.int b))
  | .top => .bool true

/-- The condition that a value flows back which the row excludes. At the top there is none. -/
def improvement? (r : TemplateRow) : RowValue → Option Expr
  | .bottom => some r.loop.postGuard
  | .bound b => some (.conj [r.loop.postGuard, .exceeds r.post (.int b)])
  | .top => none

/-- The row as a fact about the variables. At the top there is none. -/
def fact? (r : TemplateRow) : RowValue → Option Expr
  | .bottom => some (.bool false)
  | .bound b => some (.le r.expr (.int b))
  | .top => none

def postValue (r : TemplateRow) (m : Model) : Except Error Int := m.requireInt r.post

end TemplateRow

structure TemplateDomain where
  rows : List TemplateRow
  lower : Int
  upper : Int

namespace TemplateDomain

def ofLoops (s : LoopSystem) (shape : TemplateShape) (withheld : NameSet) (range : Int × Int) :
    Except Error TemplateDomain := do
  return ⟨← s.rows shape withheld, range.1, range.2⟩

def row (d : TemplateDomain) (i : Nat) : Except Error TemplateRow :=
  match d.rows[i]? with
  | some r => .ok r
  | none => .error (.fault .indexOutOfRange)

/-- The largest value of a row in the range of its variables. -/
def rowMax (d : TemplateDomain) (r : TemplateRow) : Int := r.form.maxOver d.lower d.upper

def start (d : TemplateDomain) : List RowValue := d.rows.map (fun _ => .bottom)

def pre (d : TemplateDomain) (value : List RowValue) : Expr :=
  .conj ((d.rows.zip value).map (fun (r, v) => r.constraint v))

def conditions (d : TemplateDomain) (value : List RowValue) (focus : Option Nat) :
    List (Nat × Expr) :=
  (d.rows.zip value).zipIdx.filterMap (fun ((r, v), i) =>
    if r.loop.inFocus focus then (r.improvement? v).map (i, ·) else none)

/-- The row value that admits a new bound. -/
def join (limit : Int) (bound : Int) : RowValue → RowValue
  | .top => .top
  | .bottom => if limit ≤ bound then .top else .bound bound
  | .bound b =>
    if bound ≤ b then .bound b else if limit ≤ bound then .top else .bound bound

/-- Raise a row to at least a bound, and say whether it changed. -/
def raise (d : TemplateDomain) (value : List RowValue) (i : Nat) (bound : Int) :
    Except Error (Bool × List RowValue) := do
  let r ← d.row i
  match value[i]? with
  | none => throw (.fault .indexOutOfRange)
  | some old =>
    let new := join (d.rowMax r) bound old
    return (decide (new ≠ old), value.set i new)

def edit (d : TemplateDomain) (value : List RowValue) (i : Nat) (m : Model) :
    Except Error (Bool × List RowValue) := do
  d.raise value i (← (← d.row i).postValue m)

def project (d : TemplateDomain) (value : List RowValue) (vars : NameSet) : Expr :=
  .conj ((d.rows.zip value).filterMap (fun (r, v) =>
    if r.expr.mentionsOnly vars then r.fact? v else none))

def imprecision (d : TemplateDomain) (value : List RowValue) : List Imprecise :=
  Imprecise.dedup ((d.rows.zip value).flatMap (fun (r, v) =>
    if v = .top then r.expr.names.map (some r.loop.back, ·) else []))

end TemplateDomain

end InvariantSynthesis
