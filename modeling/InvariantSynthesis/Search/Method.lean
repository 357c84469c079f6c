import InvariantSynthesis.Domain.Height
import InvariantSynthesis.Search.Bisection

namespace InvariantSynthesis

inductive Method where
  | enumeration (d : Domain)
  | bisection (d : TemplateDomain)

namespace Method

def domain : Method → Domain
  | .enumeration d => d
  | .bisection d => .template d

/-- One round of improvement, on one loop or on all, and whether it changed the value. -/
def round {σ : Type} [Oracle σ] : (m : Method) → Option Nat → Search m.domain.Value σ Bool
  | .enumeration d, focus => d.enumerate focus
  | .bisection d, focus => d.bisect focus

/-- The method that a configuration selects for some loops with integers in a range. -/
def ofConfig (c : Config) (s : LoopSystem) (range : Int × Int) : Except Error Method := do
  let template := fun shape => TemplateDomain.ofLoops s shape c.withheld range
  match c.domain with
  | .ranking lexicographic =>
    let components := if lexicographic then c.maxComponents else 1
    return .enumeration (.ranking (← RankingDomain.ofLoops s components c.maxRefinements))
  | .equalities => return .enumeration (.equalities (← EqualityDomain.ofLoops s))
  | .predicates => return .enumeration (.predicates (← PredicateDomain.ofLoops s))
  | .heap => return .enumeration (.heap (HeapDomain.ofLoops s c.maxTargets))
  | .heapTemplate shape paths =>
    let product := Domain.product (.heap (HeapDomain.ofLoops s c.maxTargets))
      (.template (← template shape))
    if paths then return .enumeration (.paths product (Domain.branchConditions s))
    else return .enumeration product
  | .template shape .enumeration => return .enumeration (.template (← template shape))
  | .template shape .bisection => return .bisection (← template shape)

end Method

structure Invariant where
  method : Method
  value : method.domain.Value

namespace Invariant

def expr (i : Invariant) : Expr := i.method.domain.pre i.value

def project (i : Invariant) (vars : NameSet) : Expr := i.method.domain.project i.value vars

def imprecision (i : Invariant) : List Imprecise := i.method.domain.imprecision i.value

def summary (i : Invariant) : Summary := i.method.domain.summary i.value

end Invariant

end InvariantSynthesis
