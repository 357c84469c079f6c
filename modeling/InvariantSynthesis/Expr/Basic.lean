/-!
Expressions over integer and boolean variables: linear integer arithmetic with constant
coefficients, comparisons, boolean connectives and if-then-else. Conjunctions, disjunctions and
sums take a list of operands, so the induction principle below gives a hypothesis for every operand.
-/

namespace InvariantSynthesis

inductive ValueSort where
  | bool
  | int
  deriving DecidableEq, Inhabited

def ValueSort.name : ValueSort → String
  | .bool => "bool"
  | .int => "int"

/-- A variable with its sort. -/
abbrev TypedName := String × ValueSort

inductive Value where
  | bool (b : Bool)
  | int (k : Int)
  deriving DecidableEq, Inhabited

def Value.sort : Value → ValueSort
  | .bool _ => .bool
  | .int _ => .int

def Value.int? : Value → Option Int
  | .int k => some k
  | .bool _ => none

def Value.bool? : Value → Option Bool
  | .bool b => some b
  | .int _ => none

def Value.text : Value → String
  | .bool b => if b then "true" else "false"
  | .int k => toString k

inductive Expr where
  | bool (b : Bool)
  | int (k : Int)
  | var (name : String) (sort : ValueSort)
  | not (a : Expr)
  | and (args : List Expr)
  | or (args : List Expr)
  | implies (a b : Expr)
  | neg (a : Expr)
  | add (args : List Expr)
  | sub (a b : Expr)
  | mul (k : Int) (a : Expr)
  | eq (a b : Expr)
  | le (a b : Expr)
  | lt (a b : Expr)
  | ite (c a b : Expr)
  deriving Inhabited

namespace Expr

@[elab_as_elim, induction_eliminator]
theorem induction {P : Expr → Prop}
    (bool : ∀ b, P (.bool b)) (int : ∀ k, P (.int k)) (var : ∀ n s, P (.var n s))
    (not : ∀ a, P a → P (.not a))
    (and : ∀ args, (∀ a ∈ args, P a) → P (.and args))
    (or : ∀ args, (∀ a ∈ args, P a) → P (.or args))
    (implies : ∀ a b, P a → P b → P (.implies a b))
    (neg : ∀ a, P a → P (.neg a))
    (add : ∀ args, (∀ a ∈ args, P a) → P (.add args))
    (sub : ∀ a b, P a → P b → P (.sub a b))
    (mul : ∀ k a, P a → P (.mul k a))
    (eq : ∀ a b, P a → P b → P (.eq a b))
    (le : ∀ a b, P a → P b → P (.le a b))
    (lt : ∀ a b, P a → P b → P (.lt a b))
    (ite : ∀ c a b, P c → P a → P b → P (.ite c a b)) (e : Expr) : P e :=
  @Expr.rec P (fun args => ∀ a ∈ args, P a)
    bool int var not and or implies neg add sub mul eq le lt ite
    (fun _ h => nomatch h) (fun _ _ ha has _ h => (List.mem_cons.mp h).elim (· ▸ ha) (has _)) e

mutual

def same : Expr → Expr → Bool
  | .bool a, .bool b => a == b
  | .int a, .int b => a == b
  | .var m r, .var n s => m == n && r == s
  | .not a, .not b => same a b
  | .and as, .and bs => sameAll as bs
  | .or as, .or bs => sameAll as bs
  | .implies a b, .implies c d => same a c && same b d
  | .neg a, .neg b => same a b
  | .add as, .add bs => sameAll as bs
  | .sub a b, .sub c d => same a c && same b d
  | .mul k a, .mul l b => k == l && same a b
  | .eq a b, .eq c d => same a c && same b d
  | .le a b, .le c d => same a c && same b d
  | .lt a b, .lt c d => same a c && same b d
  | .ite a b c, .ite d e f => same a d && same b e && same c f
  | _, _ => false

def sameAll : List Expr → List Expr → Bool
  | [], [] => true
  | a :: as, b :: bs => same a b && sameAll as bs
  | _, _ => false

end

theorem sameAll_iff (as : List Expr) (h : ∀ a ∈ as, ∀ b, same a b = true ↔ a = b) (bs : List Expr) :
    sameAll as bs = true ↔ as = bs := by
  induction as generalizing bs with
  | nil => cases bs <;> simp [sameAll]
  | cons a as ih =>
    cases bs with
    | nil => simp [sameAll]
    | cons b bs =>
      simp [sameAll, h a (by simp), ih (fun x hx => h x (List.mem_cons_of_mem _ hx))]

theorem same_iff (d e : Expr) : same d e = true ↔ d = e := by
  induction d generalizing e with
  | and args ih | or args ih | add args ih => cases e <;> simp [same, sameAll_iff args ih]
  | ite c a b ihc iha ihb => cases e <;> simp [same, ihc, iha, ihb, and_assoc]
  | bool | int | var => cases e <;> simp [same]
  | not a ih | neg a ih | mul k a ih => cases e <;> simp [same, ih]
  | implies a b iha ihb | sub a b iha ihb | eq a b iha ihb | le a b iha ihb | lt a b iha ihb =>
    cases e <;> simp [same, iha, ihb]

instance : DecidableEq Expr := fun a b => decidable_of_iff _ (same_iff a b)

mutual

/-- Every occurrence of a variable, from left to right. -/
def occurrences : Expr → List TypedName
  | .bool _ | .int _ => []
  | .var n s => [(n, s)]
  | .not a | .neg a | .mul _ a => occurrences a
  | .and args | .or args | .add args => occurrencesAll args
  | .implies a b | .sub a b | .eq a b | .le a b | .lt a b => occurrences a ++ occurrences b
  | .ite c a b => occurrences c ++ occurrences a ++ occurrences b

def occurrencesAll : List Expr → List TypedName
  | [] => []
  | a :: as => occurrences a ++ occurrencesAll as

end

theorem occurrencesAll_eq (args : List Expr) : occurrencesAll args = args.flatMap occurrences := by
  induction args with
  | nil => rfl
  | cons a as ih => simp [occurrencesAll, ih]

mutual

/-- Replace every variable by an expression that may depend on its name and sort. The shape around
the variables stays as it is. -/
def bind (f : String → ValueSort → Expr) : Expr → Expr
  | .bool b => .bool b
  | .int k => .int k
  | .var n s => f n s
  | .not a => .not (bind f a)
  | .and args => .and (bindAll f args)
  | .or args => .or (bindAll f args)
  | .implies a b => .implies (bind f a) (bind f b)
  | .neg a => .neg (bind f a)
  | .add args => .add (bindAll f args)
  | .sub a b => .sub (bind f a) (bind f b)
  | .mul k a => .mul k (bind f a)
  | .eq a b => .eq (bind f a) (bind f b)
  | .le a b => .le (bind f a) (bind f b)
  | .lt a b => .lt (bind f a) (bind f b)
  | .ite c a b => .ite (bind f c) (bind f a) (bind f b)

def bindAll (f : String → ValueSort → Expr) : List Expr → List Expr
  | [] => []
  | a :: as => bind f a :: bindAll f as

end

theorem bindAll_eq (f : String → ValueSort → Expr) (args : List Expr) :
    bindAll f args = args.map (bind f) := by
  induction args with
  | nil => rfl
  | cons a as ih => simp [bindAll, ih]

def rename (f : String → String) (e : Expr) : Expr := e.bind (fun n s => .var (f n) s)

end Expr

end InvariantSynthesis
