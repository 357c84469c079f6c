import InvariantSynthesis.Domain.Basic

/-!
How far a value can still rise. Every improvement lowers the height, so the height bounds the number
of improvements that are left.
-/

namespace InvariantSynthesis

def total {α : Type} (f : α → Nat) : List α → Nat
  | [] => 0
  | a :: as => f a + total f as

def TemplateDomain.rowHeight (limit : Int) : RowValue → Nat
  | .bottom => (limit - Bounded.least).toNat + 2
  | .bound b => (limit - b).toNat + 1
  | .top => 0

def TemplateDomain.height (d : TemplateDomain) (value : List RowValue) : Nat :=
  total (fun (r, v) => rowHeight (d.rowMax r) v) (d.rows.zip value)

def RankingDomain.rowHeight (d : RankingDomain) (r : RankingRow) : Nat :=
  match r.function with
  | .gaveUp => 0
  | _ => d.maxRefinements + 2 - r.turns.length

def HeapDomain.rowHeight (d : HeapDomain) : PointsTo → Nat
  | .targets ts => d.maxTargets + 2 - ts.length
  | .top => 0

/-- A path not seen yet counts for itself and for the height of its first value. -/
def Domain.height : (d : Domain) → d.Value → Nat
  | .template d, v => d.height v
  | .equalities _, (v : List Bool) => v.count true
  | .predicates _, (v : List Bool) => v.count true
  | .ranking d, (v : List RankingRow) => total d.rowHeight v
  | .heap d, (v : List PointsTo) => total d.rowHeight v
  | .product a b, (v, w) => a.height v + b.height w
  | .paths d conds, (ps : List (List Bool × d.Value)) =>
    (Nat.pow 2 conds.length - ps.length) * (d.height d.start + 1) + total (fun (_, v) => d.height v) ps

end InvariantSynthesis
