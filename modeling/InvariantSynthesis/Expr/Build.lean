import InvariantSynthesis.Bounded
import InvariantSynthesis.Expr.Basic

namespace InvariantSynthesis.Expr

def intVar (name : String) : Expr := .var name .int

def boolVar (name : String) : Expr := .var name .bool

def negate : Expr → Expr
  | .bool b => .bool (!b)
  | .not a => a
  | e => .not e

/-- The operands of a conjunction, or nothing if one of them is false. -/
def conjuncts : List Expr → Option (List Expr)
  | [] => some []
  | .bool true :: rest => conjuncts rest
  | .bool false :: _ => none
  | .and inner :: rest => (conjuncts rest).map (inner ++ ·)
  | e :: rest => (conjuncts rest).map (e :: ·)

def conj (items : List Expr) : Expr :=
  match conjuncts items with
  | none => .bool false
  | some [] => .bool true
  | some [e] => e
  | some args => .and args

/-- The operands of a disjunction, or nothing if one of them is true. -/
def disjuncts : List Expr → Option (List Expr)
  | [] => some []
  | .bool false :: rest => disjuncts rest
  | .bool true :: _ => none
  | .or inner :: rest => (disjuncts rest).map (inner ++ ·)
  | e :: rest => (disjuncts rest).map (e :: ·)

def disj (items : List Expr) : Expr :=
  match disjuncts items with
  | none => .bool true
  | some [] => .bool false
  | some [e] => e
  | some args => .or args

def imply : Expr → Expr → Expr
  | .bool true, b => b
  | .bool false, _ => .bool true
  | _, .bool true => .bool true
  | a, .bool false => negate a
  | a, b => .implies a b

/-- The number of opposite sign. The least 64-bit number has none and stays under the operator. -/
def opposite : Expr → Expr
  | .int k =>
    match Bounded.neg? k with
    | some n => .int n
    | none => .neg (.int k)
  | .neg a => a
  | e => .neg e

def summands : Expr → List Expr
  | .int k => if k = 0 then [] else [.int k]
  | .add inner => inner
  | e => [e]

def sum (items : List Expr) : Expr :=
  match items.flatMap summands with
  | [] => .int 0
  | [e] => e
  | args => .add args

def plus (a b : Expr) : Expr := sum [a, b]

def minus (a : Expr) : Expr → Expr
  | .int k => if k = 0 then a else .sub a (.int k)
  | b => .sub a b

/-- A constant is folded unless the product leaves 64 bits. -/
def scale (k : Int) (e : Expr) : Expr :=
  if k = 0 then .int 0
  else if k = 1 then e
  else if k = -1 then opposite e
  else
    match e with
    | .int v =>
      match Bounded.mul? k v with
      | some p => .int p
      | none => .mul k (.int v)
    | e => .mul k e

def differ (a b : Expr) : Expr := negate (.eq a b)

def atLeast (a b : Expr) : Expr := .le b a

def exceeds (a b : Expr) : Expr := .lt b a

def choose : Expr → Expr → Expr → Expr
  | .bool true, a, _ => a
  | .bool false, _, b => b
  | c, a, b => .ite c a b

end InvariantSynthesis.Expr
