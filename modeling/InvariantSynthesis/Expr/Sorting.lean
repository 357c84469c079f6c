import InvariantSynthesis.Table
import InvariantSynthesis.Expr.Basic

namespace InvariantSynthesis.Expr

/-- The sort, if the expression has one. -/
def sort : Expr → ValueSort
  | .int _ | .neg _ | .add _ | .sub _ _ | .mul _ _ => .int
  | .var _ s => s
  | .ite _ a _ => sort a
  | _ => .bool

mutual

/-- The sort, or nothing if an operator is applied to operands of the wrong sort. -/
def sort? : Expr → Option ValueSort
  | .bool _ => some .bool
  | .int _ => some .int
  | .var _ s => some s
  | .not a => if sort? a = some .bool then some .bool else none
  | .and args | .or args => if allOfSort .bool args then some .bool else none
  | .implies a b => if sort? a = some .bool ∧ sort? b = some .bool then some .bool else none
  | .neg a | .mul _ a => if sort? a = some .int then some .int else none
  | .add args => if allOfSort .int args then some .int else none
  | .sub a b => if sort? a = some .int ∧ sort? b = some .int then some .int else none
  | .le a b | .lt a b => if sort? a = some .int ∧ sort? b = some .int then some .bool else none
  | .eq a b =>
    match sort? a, sort? b with
    | some s, some t => if s = t then some .bool else none
    | _, _ => none
  | .ite c a b =>
    match sort? a with
    | some s => if sort? c = some .bool ∧ sort? b = some s then some s else none
    | none => none

def allOfSort (s : ValueSort) : List Expr → Bool
  | [] => true
  | a :: as => decide (sort? a = some s) && allOfSort s as

end

theorem allOfSort_iff (s : ValueSort) (args : List Expr) :
    allOfSort s args = true ↔ ∀ a ∈ args, sort? a = some s := by
  induction args with
  | nil => simp [allOfSort]
  | cons a as ih => simp [allOfSort, ih]

/-- The variables with their sorts in name order. Of two sorts given to one name the later
occurrence decides. -/
def symbols (e : Expr) : Table ValueSort := Table.ofList e.occurrences

/-- The names of the variables in order of first occurrence. -/
def names (e : Expr) : List String :=
  e.occurrences.foldl (fun seen p => if p.1 ∈ seen then seen else seen ++ [p.1]) []

/-- Replace the variables that the table binds. -/
def substitute (t : Table Expr) (e : Expr) : Expr :=
  e.bind (fun n s => (t.get? n).getD (.var n s))

end InvariantSynthesis.Expr
