import InvariantSynthesis.Domain.Template
import InvariantSynthesis.Oracle.Session

/-!
Ranking functions: for each loop a tuple of linear expressions over its integer variables that
decreases lexicographically with every turn. Turns on which the current tuple fails to decrease are
collected, and another oracle is asked for coefficients that decrease on all of them. Since integers
are bounded, a tuple that decreases with every turn shows that the loop ends.
-/

namespace InvariantSynthesis

inductive RankingFunction where
  /-- No turn of the loop has been seen. -/
  | unknown
  | found (components : List Expr)
  | gaveUp
  deriving DecidableEq

structure RankingRow where
  function : RankingFunction
  /-- The coefficients of each component. -/
  coefficients : List (List Int)
  /-- For each turn seen, how much every variable decreased. -/
  turns : List (List Int)
  deriving DecidableEq

structure RankedLoop where
  loop : LoopTemplate
  /-- The integer variables with the values that flow back. -/
  vars : List (Expr × Expr)

structure RankingDomain where
  loops : List RankedLoop
  maxComponents : Nat
  maxRefinements : Nat

/-- One of the differences is positive and none before it is negative. -/
def lexicographicDecrease (deltas : List Expr) : Expr :=
  .disj (deltas.zipIdx.map (fun (d, k) =>
    .conj ((deltas.take k).map (fun e => .atLeast e (.int 0)) ++ [.exceeds d (.int 0)])))

namespace RankedLoop

def deltas (l : RankedLoop) (coefficients : List (List Int)) : List Expr :=
  coefficients.map (fun cs =>
    .sum ((cs.zip l.vars).map (fun (c, pre, post) => .scale c (.minus pre post))))

def components (l : RankedLoop) (coefficients : List (List Int)) : List Expr :=
  coefficients.map (fun cs => .sum ((cs.zip l.vars).map (fun (c, pre, _) => .scale c pre)))

def turn (l : RankedLoop) : Expr := .conj [l.loop.preGuard, l.loop.postGuard]

/-- The condition that a turn does not decrease the function. -/
def failure? (l : RankedLoop) (r : RankingRow) : Option Expr :=
  match r.function with
  | .unknown => some l.turn
  | .found _ =>
    some (.conj [l.turn, .negate (lexicographicDecrease (l.deltas r.coefficients))])
  | .gaveUp => none

/-- How much every variable decreases on the turn of a model. -/
def turnOf (l : RankedLoop) (m : Model) : Except Error (List Int) :=
  l.vars.mapM (fun (pre, post) => do
    match Bounded.sub? (← m.requireInt pre) (← m.requireInt post) with
    | some d => return d
    | none => throw (.fault .overflow))

end RankedLoop

namespace RankingDomain

def ofLoops (s : LoopSystem) (maxComponents maxRefinements : Nat) : Except Error RankingDomain := do
  let loops ← s.loops.mapM (fun l => do
    let vars ← l.intVars.mapM (fun v => do
      s.checkSort (.minus (.intVar v.lb) v.post) .int
      return (.intVar v.lb, v.post))
    return ⟨l, vars⟩)
  return ⟨loops, max maxComponents 1, maxRefinements⟩

/-- The names of the unknown coefficients, by component and variable. -/
def coefficientNames (components vars : Nat) : List (List String) :=
  (List.range components).map (fun k =>
    (List.range vars).map (fun i => "$rank#c" ++ toString k ++ "_" ++ toString i))

/-- What the coefficients have to satisfy on a turn. -/
def requirement (names : List (List String)) (turn : List Int) : Expr :=
  lexicographicDecrease (names.map (fun cs =>
    .sum ((cs.zip turn).map (fun (c, d) => .scale d (.intVar c)))))

variable {σ : Type} [Oracle σ]

def solve (names : List (List String)) (turns : List (List Int)) : Session Statistics σ Answer := do
  Session.request (Oracle.declare (names.flatten.map (·, ValueSort.int)))
  turns.forM (fun turn => Session.assert (requirement names turn))
  Session.update (fun s => { s with calls := s.calls + 1 })
  Session.request Oracle.check

/-- The coefficients in the model of a solved request. One that has no value is zero. -/
def readCoefficients (names : List (List String)) : Session Statistics σ (List (List Int)) := do
  match ← Session.look (fun o : σ => Oracle.model? o) with
  | none => throw (.missingModelValue (", ".intercalate names.flatten))
  | some m => return names.map (fun cs => cs.map (fun c => (m.int? c).getD 0))

/-- Look for coefficients, first with a given number of components and then with one more each time,
for a number of attempts. Each attempt asks a new oracle, and one that gives up ends the search. -/
def search (parent : σ) (vars : Nat) (turns : List (List Int)) :
    Nat → Nat → ExceptT Error (StateM Statistics) (Option (List (List Int)))
  | 0, _ => pure none
  | attempts + 1, components => do
    let names := coefficientNames components vars
    modify (fun s => { s with instances := s.instances + 1 })
    let attempt : Session Statistics σ (Answer × List (List Int)) := do
      let answer ← solve names turns
      if answer = .sat then return (answer, ← readCoefficients names) else return (answer, [])
    let outcome ← ExceptT.mk (fun stats =>
      let (r, (stats, _)) := attempt (stats, Oracle.spawn parent)
      (r, stats))
    match outcome with
    | (.sat, coefficients) => return some coefficients
    | (.unsat, _) => search parent vars turns attempts (components + 1)
    | (.unknown _, _) => return none

def start (d : RankingDomain) : List RankingRow := d.loops.map (fun _ => ⟨.unknown, [], []⟩)

def conditions (d : RankingDomain) (value : List RankingRow) (focus : Option Nat) :
    List (Nat × Expr) :=
  (d.loops.zip value).zipIdx.filterMap (fun ((l, r), i) =>
    if l.loop.inFocus focus then (l.failure? r).map (i, ·) else none)

def adopt (l : RankedLoop) (r : RankingRow) : Option (List (List Int)) → RankingRow
  | some cs => { r with function := .found (l.components cs), coefficients := cs }
  | none => { r with function := .gaveUp }

/-- Record the turn of a model and look for a function that also decreases on it. The turn stays
recorded if the search fails with an error. -/
def edit (d : RankingDomain) (parent : σ) (i : Nat) (m : Model) :
    ExceptT Error (StateM (List RankingRow × Statistics)) Bool := fun (value, stats) =>
  match d.loops[i]?, value[i]? with
  | some l, some r =>
    match l.turnOf m with
    | .error e => (.error e, (value, stats))
    | .ok turn =>
      let r := { r with turns := r.turns ++ [turn] }
      if d.maxRefinements < r.turns.length then
        (.ok true, (value.set i { r with function := .gaveUp }, stats))
      else
        let first := max r.coefficients.length 1
        let attempts := d.maxComponents + 1 - first
        match (search parent l.vars.length r.turns attempts first).run stats with
        | (.ok found, stats) => (.ok true, (value.set i (adopt l r found), stats))
        | (.error e, stats) => (.error e, (value.set i r, stats))
  | _, _ => (.error (.fault .indexOutOfRange), (value, stats))

/-- For loops all of whose variables are given: every turn decreases the function. -/
def project (d : RankingDomain) (value : List RankingRow) (vars : NameSet) : Expr :=
  .conj ((d.loops.zip value).filterMap (fun (l, r) =>
    match r.function with
    | .found _ =>
      if l.vars.all (fun (pre, _) => pre.mentionsOnly vars) then
        some (.imply l.turn (lexicographicDecrease (l.deltas r.coefficients)))
      else none
    | _ => none))

def imprecision (d : RankingDomain) (value : List RankingRow) : List Imprecise :=
  (d.loops.zip value).flatMap (fun (l, r) =>
    if r.function = .gaveUp then
      l.vars.flatMap (fun (pre, _) => pre.names.map (some l.loop.back, ·))
    else [])

def name (d : RankingDomain) : String :=
  if 1 < d.maxComponents then "lexicographic ranking functions" else "linear ranking functions"

end RankingDomain

end InvariantSynthesis
