import InvariantSynthesis.Domain.Template

/-!
Conjunctions of candidate facts. All candidates are assumed at the start; a candidate that some
state refutes is dropped, until the rest holds together. Equalities of two variables and a fixed
choice of inequalities are the two families of candidates.
-/

namespace InvariantSynthesis

/-- A fact about the variables of a loop, under a label. -/
structure Candidate (α : Type) where
  label : α
  loop : LoopTemplate
  /-- The fact about the variables that flowed back. -/
  pre : Expr
  /-- The fact about the values that flow back. -/
  post : Expr

structure CandidateDomain (α : Type) where
  candidates : List (Candidate α)

namespace CandidateDomain

variable {α : Type}

/-- Refuse candidates that are not boolean or use variables at other sorts. -/
def checked (s : LoopSystem) (cs : List (Candidate α)) : Except Error (CandidateDomain α) := do
  cs.forM (fun c => do
    s.checkSort c.pre .bool
    s.checkSort c.post .bool)
  return ⟨cs⟩

def alive (d : CandidateDomain α) (value : List Bool) : List (Candidate α) :=
  (d.candidates.zip value).filterMap (fun (c, b) => if b then some c else none)

def start (d : CandidateDomain α) : List Bool := d.candidates.map (fun _ => true)

def pre (d : CandidateDomain α) (value : List Bool) : Expr :=
  .conj ((d.alive value).map (fun c => .imply c.loop.preGuard c.pre))

/-- The condition that a candidate fails for the values that flow back. -/
def refutation (c : Candidate α) : Expr := .conj [c.loop.postGuard, .negate c.post]

def conditions (d : CandidateDomain α) (value : List Bool) (focus : Option Nat) :
    List (Nat × Expr) :=
  (d.candidates.zip value).zipIdx.filterMap (fun ((c, b), i) =>
    if b && c.loop.inFocus focus then some (i, refutation c) else none)

def edit (value : List Bool) (i : Nat) : Except Error (Bool × List Bool) :=
  match value[i]? with
  | some b => .ok (b, value.set i false)
  | none => .error (.fault .indexOutOfRange)

def project (d : CandidateDomain α) (value : List Bool) (vars : NameSet) : Expr :=
  .conj (((d.alive value).filter (fun c => c.pre.mentionsOnly vars)).map (·.pre))

end CandidateDomain

/-- Equalities of two variables of a loop, labelled by their names. -/
abbrev EqualityDomain := CandidateDomain (String × String)

def EqualityDomain.ofLoops (s : LoopSystem) : Except Error EqualityDomain :=
  CandidateDomain.checked s (s.loops.flatMap (fun l =>
    (pairs l.intVars).map (fun (x, y) => {
      label := (x.lb, y.lb)
      loop := l
      pre := .eq (.intVar x.lb) (.intVar y.lb)
      post := .eq x.post y.post })))

/-- Inequalities, labelled by themselves. -/
abbrev PredicateDomain := CandidateDomain Expr

/-- No variable is negative, and two variables are ordered one way or the other. -/
def PredicateDomain.inequalities (vars : List Expr) : List Expr :=
  vars.map (fun x => .atLeast x (.int 0)) ++
  (pairs vars).flatMap (fun (x, y) => [.le x y, .le y x])

def PredicateDomain.ofLoops (s : LoopSystem) : Except Error PredicateDomain :=
  CandidateDomain.checked s (s.loops.flatMap (fun l =>
    (inequalities (l.intVars.map (fun v => .intVar v.lb))).map (fun p => {
      label := p
      loop := l
      pre := p
      post := p.substitute l.postMap })))

end InvariantSynthesis
