import InvariantSynthesis.Domain.Candidates
import InvariantSynthesis.Domain.Heap
import InvariantSynthesis.Domain.Ranking

/-!
Abstract domains. A domain describes its values by questions to an oracle: the value is assumed
before the loop bodies, and each row that might still be improved has a condition under which it
is. A model of that condition says how to improve the row.

Besides the single domains there are products and the splitting of a domain by symbolic paths. A
path is a valuation of the branch conditions in the loops; paths are found as models show them.
-/

namespace InvariantSynthesis

inductive Domain where
  | template (d : TemplateDomain)
  | equalities (d : EqualityDomain)
  | predicates (d : PredicateDomain)
  | ranking (d : RankingDomain)
  | heap (d : HeapDomain)
  | product (first second : Domain)
  | paths (inner : Domain) (conds : List Expr)

/-- What is known at the end, for the caller. -/
inductive Summary where
  | template (rows : List (Expr × RowValue))
  | equalities (sides : List (String × String))
  | predicates (facts : List Expr)
  | ranking (loops : List (Location × RankingFunction))
  | heap (rows : List (String × PointsTo))
  | product (first second : Summary)
  | paths (branches : List (List Bool × Summary))

namespace Domain

/-- The abstract values of a domain. -/
def Value : Domain → Type
  | .template _ => List RowValue
  | .equalities _ => List Bool
  | .predicates _ => List Bool
  | .ranking _ => List RankingRow
  | .heap _ => List PointsTo
  | .product a b => a.Value × b.Value
  | .paths d _ => List (List Bool × d.Value)

def name : Domain → String
  | .template _ => "template polyhedra"
  | .equalities _ => "equalities"
  | .predicates _ => "predicate abstraction"
  | .ranking d => d.name
  | .heap _ => "heap"
  | .product _ _ => "product"
  | .paths _ _ => "symbolic paths"

def start : (d : Domain) → d.Value
  | .template d => d.start
  | .equalities d => d.start
  | .predicates d => d.start
  | .ranking d => d.start
  | .heap d => d.start
  | .product a b => (a.start, b.start)
  | .paths _ _ => []

/-- The value as an assumption before the loop bodies. -/
def pre : (d : Domain) → d.Value → Expr
  | .template d, v => d.pre v
  | .equalities d, v => d.pre v
  | .predicates d, v => d.pre v
  | .ranking _, _ => .bool true
  | .heap d, v => d.pre v
  | .product a b, (v, w) => .conj [a.pre v, b.pre w]
  | .paths d _, [] => d.pre d.start
  | .paths d _, p :: ps => .disj ((p :: ps).map (fun (_, v) => d.pre v))

/-- Row `r` of path `k` has the number `r * stride + k`. -/
def stride : Nat := 65536

/-- The place of rows that are improved on a path not seen before. -/
def newPath : Nat := stride - 1

/-- The branch conditions as a path takes them. -/
def pathExpr (conds : List Expr) (path : List Bool) : Expr :=
  .conj ((conds.zip path).map (fun (c, taken) => if taken then c else .negate c))

def pathOf (conds : List Expr) (m : Model) : Except Error (List Bool) :=
  conds.mapM (fun c =>
    match m.evalBool c with
    | some b => .ok b
    | none => .error (.missingModelValue c.text))

/-- The distinct branch conditions of all loops. -/
def branchConditions (s : LoopSystem) : List Expr :=
  (s.loops.flatMap (·.pathConds)).foldl (fun cs c => if c ∈ cs then cs else cs ++ [c]) []

/-- For each row that might be improved, the condition under which it is. With a focus, only rows of
that loop are considered. -/
def conditions : (d : Domain) → d.Value → Option Nat → List (Nat × Expr)
  | .template d, v, focus => d.conditions v focus
  | .equalities d, v, focus => d.conditions v focus
  | .predicates d, v, focus => d.conditions v focus
  | .ranking d, v, focus => d.conditions v focus
  | .heap d, v, focus => d.conditions v focus
  | .product a b, (v, w), focus =>
    (a.conditions v focus).map (fun (i, c) => (2 * i, c)) ++
    (b.conditions w focus).map (fun (i, c) => (2 * i + 1, c))
  | .paths d conds, (ps : List (List Bool × d.Value)), focus =>
    let along := ps.zipIdx.flatMap (fun ((path, v), k) =>
      (d.conditions v focus).map (fun (r, c) =>
        (r * stride + k, Expr.conj [pathExpr conds path, c])))
    let unseen := Expr.negate (.disj (ps.map (fun (path, _) => pathExpr conds path)))
    let fresh := (d.conditions d.start focus).map (fun (r, c) =>
      (r * stride + newPath, Expr.conj [unseen, c]))
    along ++ if ps.length < newPath then fresh else []

/-- An improvement of a value, which may fail; what was improved before it fails is kept. -/
abbrev Edit (α : Type) := ExceptT Error (StateM (α × Statistics)) Bool

def Edit.pure {α : Type} (f : α → Except Error (Bool × α)) : Edit α := fun (v, stats) =>
  match f v with
  | .ok (changed, v) => (.ok changed, (v, stats))
  | .error e => (.error e, (v, stats))

def Edit.onPath {α : Type} (k : Nat) (inner : Edit α) : Edit (List (List Bool × α)) :=
  fun (ps, stats) =>
    match ps[k]? with
    | none => (.error (.fault .indexOutOfRange), (ps, stats))
    | some (path, v) =>
      let (r, (v, stats)) := inner (v, stats)
      (r, (ps.set k (path, v), stats))

/-- Improve the inner value of the path that a model takes, which is added if it is new. -/
def Edit.onModelPath {α : Type} (conds : List Expr) (m : Model) (first : α) (inner : Edit α) :
    Edit (List (List Bool × α)) := fun (ps, stats) =>
  match pathOf conds m with
  | .error e => (.error e, (ps, stats))
  | .ok path =>
    match ps.findIdx? (·.1 = path) with
    | some k => Edit.onPath k inner (ps, stats)
    | none =>
      let (r, s) := Edit.onPath ps.length inner (ps ++ [(path, first)], stats)
      (r.map (fun _ => true), s)

/-- Improve a row by a model of its condition, and say whether the value changed. The given oracle
is only used to make others. -/
def edit {σ : Type} [Oracle σ] (parent : σ) (m : Model) : (d : Domain) → Nat → Edit d.Value
  | .template d, i => Edit.pure (d.edit · i m)
  | .equalities _, i => Edit.pure (CandidateDomain.edit · i)
  | .predicates _, i => Edit.pure (CandidateDomain.edit · i)
  | .ranking d, i => d.edit parent i m
  | .heap d, i => Edit.pure (d.edit · i m)
  | .product a b, i => fun ((v, w), stats) =>
    if i % 2 = 0 then
      let (r, (v, stats)) := a.edit parent m (i / 2) (v, stats)
      (r, ((v, w), stats))
    else
      let (r, (w, stats)) := b.edit parent m (i / 2) (w, stats)
      (r, ((v, w), stats))
  | .paths d conds, i =>
    let inner := d.edit parent m (i / stride)
    if i % stride = newPath then Edit.onModelPath conds m d.start inner
    else Edit.onPath (i % stride) inner

/-- The facts of a value that mention only some variables. -/
def project : (d : Domain) → d.Value → NameSet → Expr
  | .template d, v, vars => d.project v vars
  | .equalities d, v, vars => d.project v vars
  | .predicates d, v, vars => d.project v vars
  | .ranking d, v, vars => d.project v vars
  | .heap d, v, vars => d.project v vars
  | .product a b, (v, w), vars => .conj [a.project v vars, b.project w vars]
  | .paths d _, [], vars => d.project d.start vars
  | .paths d _, p :: ps, vars => .disj ((p :: ps).map (fun (_, v) => d.project v vars))

/-- The parts of a value that say nothing, with the loop where this is known. -/
def imprecision : (d : Domain) → d.Value → List Imprecise
  | .template d, v => d.imprecision v
  | .equalities _, _ => []
  | .predicates _, _ => []
  | .ranking d, v => d.imprecision v
  | .heap d, v => d.imprecision v
  | .product a b, (v, w) => a.imprecision v ++ b.imprecision w
  | .paths d _, (ps : List (List Bool × d.Value)) =>
    Imprecise.dedup (ps.flatMap (fun (_, v) => d.imprecision v))

def summary : (d : Domain) → d.Value → Summary
  | .template d, v => .template ((d.rows.zip v).map (fun (r, x) => (r.expr, x)))
  | .equalities d, v => .equalities ((CandidateDomain.alive d v).map (·.label))
  | .predicates d, v => .predicates ((CandidateDomain.alive d v).map (·.label))
  | .ranking d, v => .ranking ((d.loops.zip v).map (fun (l, r) => (l.loop.back, r.function)))
  | .heap d, v => .heap ((d.rows.zip v).map (fun (r, x) => (r.lb, x)))
  | .product a b, (v, w) => .product (a.summary v) (b.summary w)
  | .paths d _, (ps : List (List Bool × d.Value)) =>
    .paths (ps.map (fun (path, v) => (path, d.summary v)))

end Domain

end InvariantSynthesis
