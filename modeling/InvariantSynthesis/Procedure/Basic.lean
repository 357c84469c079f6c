import InvariantSynthesis.Error
import InvariantSynthesis.Expr.Build
import InvariantSynthesis.Expr.Sorting
import InvariantSynthesis.SsaName

/-!
Procedures in static single assignment form: a sequence of blocks at increasing locations. A block
that ends a loop names the block where the loop starts and the variables that flow around. At the
loop head a boolean variable of the tool selects between the value at entry and the value that
flowed back.
-/

namespace InvariantSynthesis

structure Source where
  file : String
  line : Nat
  deriving DecidableEq

def Source.text (s : Source) : String := s.file ++ ":" ++ toString s.line

/-- A variable and the expression that defines it. -/
structure Equality where
  lhs : String
  rhs : Expr
  deriving DecidableEq

def Equality.toExpr (e : Equality) : Expr := .eq (.var e.lhs e.rhs.sort) e.rhs

structure Assertion where
  description : String
  condition : Expr
  deriving DecidableEq

/-- A variable that flows around a loop. -/
structure LoopVar where
  /-- The free variable for the value at the back edge. -/
  lb : String
  /-- The value that flows back. -/
  post : Expr
  pointer : Bool
  deriving DecidableEq

structure Block where
  location : Location
  source : Source
  equalities : List Equality := []
  constraints : List Expr := []
  /-- The condition under which the block is reached. -/
  guard : Expr := .bool true
  /-- The condition on which the block branches at its end. -/
  cond : Option Expr := none
  assertions : List Assertion := []
  /-- In a block that ends a loop, the index of the block where the loop starts. -/
  head : Option Nat := none
  loopVars : List LoopVar := []
  deriving DecidableEq

structure Procedure where
  name : String
  blocks : List Block := []
  inputs : List TypedName := []
  enabling : List Expr := []
  /-- What has been appended to the names of all variables. -/
  tag : String := ""
  deriving DecidableEq

namespace Procedure

/-- Append a block. Its location must come after the last one. -/
def push (p : Procedure) (b : Block) : Except Fault Procedure :=
  match p.blocks.getLast? with
  | some last =>
    if last.location < b.location then .ok { p with blocks := p.blocks ++ [b] }
    else .error (.locationOrder b.location last.location)
  | none => .ok { p with blocks := [b] }

/-- Make a block jump back to an earlier one. -/
def closeLoop (p : Procedure) (back head : Nat) : Except Fault Procedure :=
  if head < back then
    match p.blocks[back]? with
    | some b => .ok { p with blocks := p.blocks.set back { b with head := some head } }
    | none => .error .indexOutOfRange
  else .error .headNotBeforeBack

def indexOf? (p : Procedure) (l : Location) : Option Nat := p.blocks.findIdx? (·.location = l)

def find? (p : Procedure) (l : Location) : Option Block := do p.blocks[← p.indexOf? l]?

/-- The blocks that end a loop, with their indices. -/
def loopEnds (p : Procedure) : List (Nat × Block) :=
  p.blocks.zipIdx.filterMap (fun (b, i) => if b.head.isSome then some (i, b) else none)

/-- The variable that is true at a loop head if control came over the back edge. -/
def loopSelect (p : Procedure) (back : Block) : Expr :=
  .boolVar ("$guard#ls" ++ toString back.location ++ p.tag)

/-- What the blocks say about the variables. -/
def formula (p : Procedure) : Expr :=
  .conj (p.blocks.flatMap (fun b => b.equalities.map Equality.toExpr ++ b.constraints))

def enablingExpr (p : Procedure) : Expr := .conj p.enabling

def assertions (p : Procedure) : List (Block × Assertion) :=
  p.blocks.flatMap (fun b => b.assertions.map (b, ·))

end Procedure

/-- The variables of a block with sorts: first those that it defines and those that flow back, then
those of its expressions. -/
def Block.mentions (b : Block) : List TypedName :=
  b.equalities.map (fun e => (e.lhs, e.rhs.sort)) ++
  b.loopVars.map (fun v => (v.lb, v.post.sort)) ++
  ([b.guard] ++ b.equalities.map (·.rhs) ++ b.constraints ++ b.cond.toList ++
    b.loopVars.map (·.post)).flatMap (fun e => e.symbols.entries)

namespace Procedure

def addNew (known : List TypedName) (v : TypedName) : List TypedName :=
  if known.any (·.1 = v.1) then known else known ++ [v]

/-- The inputs, followed by the other variables in order of first mention. -/
def symbols (p : Procedure) : List TypedName :=
  (p.blocks.flatMap Block.mentions).foldl addNew p.inputs

end Procedure

end InvariantSynthesis
