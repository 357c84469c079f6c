import Std.Data.TreeMap
import InvariantSynthesis.Error

/-!
Reduced ordered decision diagrams that share their nodes. All diagrams live in one store. An edge
points to a node and may be complemented, so negation changes no node and one terminal is enough.
The store keeps one copy of each node and remembers the results of if-then-else.

Variables are numbered from 1, and a smaller variable is tested earlier.
-/

namespace InvariantSynthesis.Diagram

/-- A reference to a node, complemented or not. The index has no bound here: a store is taken to stay
below 2^31 nodes, which signed indices of 32 bits can tell apart. -/
structure Edge where
  index : Nat
  complemented : Bool
  deriving DecidableEq

namespace Edge

def one : Edge := ⟨1, false⟩

def zero : Edge := ⟨1, true⟩

instance : Inhabited Edge := ⟨one⟩

def flip (e : Edge) : Edge := ⟨e.index, !e.complemented⟩

def flipIf (b : Bool) (e : Edge) : Edge := if b then e.flip else e

def ofBool (b : Bool) : Edge := if b then one else zero

def isTerminal (e : Edge) : Bool := e.index = 1

/-- The index with a minus sign on a complemented edge. -/
def signed (e : Edge) : Int := if e.complemented then -(e.index : Int) else e.index

/-- A number of its own for each edge, which orders the tables of a store. -/
def key (e : Edge) : Nat := 2 * e.index + e.complemented.toNat

def text (e : Edge) : String := (if e.complemented then "~@" else "@") ++ toString e.index

@[simp]
theorem flip_flip (e : Edge) : e.flip.flip = e := by simp [flip]

@[simp]
theorem index_flip (e : Edge) : e.flip.index = e.index := rfl

end Edge

/-- A test of a variable with the diagrams for both outcomes. Variables are taken to stay below 2^32. -/
structure Node where
  var : Nat
  low : Edge
  high : Edge
  deriving DecidableEq

instance : Ord Node where
  compare := compareLex (compareOn (·.var)) (compareLex (compareOn (·.low.key)) (compareOn (·.high.key)))

/-- The node that stands for both constants. It tests no variable. -/
def terminal : Node := ⟨0, .one, .one⟩

structure Triple where
  test : Edge
  yes : Edge
  no : Edge
  deriving DecidableEq

instance : Ord Triple where
  compare :=
    compareLex (compareOn (·.test.key)) (compareLex (compareOn (·.yes.key)) (compareOn (·.no.key)))

structure Store where
  /-- The nodes by index. Index 0 is not used and index 1 holds the terminal. -/
  nodes : Array Node
  /-- The index of each node that is stored. -/
  unique : Std.TreeMap Node Nat
  /-- Results of if-then-else that were computed before. -/
  computed : Std.TreeMap Triple Edge

/-- A computation that may add nodes to the store. -/
abbrev Build (α : Type) := StateM Store α

namespace Store

def empty : Store := ⟨#[terminal, terminal], ∅, ∅⟩

instance : Inhabited Store := ⟨empty⟩

def size (s : Store) : Nat := s.nodes.size - 1

def node (s : Store) (e : Edge) : Node := s.nodes.getD e.index terminal

/-- The variable that an edge tests first, 0 for a constant. -/
def var (s : Store) (e : Edge) : Nat := (s.node e).var

def low (s : Store) (e : Edge) : Edge := (s.node e).low.flipIf e.complemented

def high (s : Store) (e : Edge) : Edge := (s.node e).high.flipIf e.complemented

/-- The diagrams for both values of a variable that is not below the first test. -/
def cofactors (s : Store) (e : Edge) (v : Nat) : Edge × Edge :=
  if e.isTerminal || v < s.var e then (e, e) else (s.low e, s.high e)

/-- The first variable that one of three diagrams tests. -/
def topVar (s : Store) (f g h : Edge) : Nat :=
  [g, h].foldl (fun m e => if e.isTerminal then m else min m (s.var e)) (s.var f)

def text (s : Store) : String :=
  "Bdd \x7b size: " ++ toString s.size ++ ", cached: " ++ toString s.computed.size ++ " \x7d"

end Store

/-- The edge to a node whose high edge is not complemented. The test is left out if it decides
nothing, and a node that is stored already is found again. -/
def regularNode (v : Nat) (low high : Edge) : Build Edge := fun s =>
  if low = high then (low, s)
  else
    match s.unique[(⟨v, low, high⟩ : Node)]? with
    | some i => (⟨i, false⟩, s)
    | none =>
      let i := s.nodes.size
      (⟨i, false⟩,
        { s with nodes := s.nodes.push ⟨v, low, high⟩, unique := s.unique.insert ⟨v, low, high⟩ i })

/-- The diagram that tests a variable and goes on with one of two diagrams. High edges are never
complemented, the complement moves to the edge that points to the node. -/
def branch (v : Nat) (low high : Edge) : Build Edge := do
  if high.complemented then
    return (← regularNode v low.flip high.flip).flip
  else
    regularNode v low high

def literal (v : Nat) : Build Edge := branch v .zero .one

/-- Like `branch`, for a variable given from outside. -/
def branchOn (v : Nat) (low high : Edge) : ExceptT Fault (StateM Store) Edge :=
  if v = 0 then throw .zeroVariable else liftM (branch v low high)

def literalOf (v : Nat) : ExceptT Fault (StateM Store) Edge := branchOn v .zero .one

/-- Walk down to the constant true. Indices decrease on the way, which bounds the fuel. -/
def Store.walk (s : Store) : Nat → Edge → List (Nat × Bool)
  | 0, _ => []
  | fuel + 1, e =>
    if e = .one then []
    else if s.high e ≠ .zero then (s.var e, true) :: s.walk fuel (s.high e)
    else (s.var e, false) :: s.walk fuel (s.low e)

/-- A path on which the diagram is true. -/
def Store.path? (s : Store) (e : Edge) : Option (List (Nat × Bool)) :=
  if e = .zero then none else some (s.walk e.index e)

end InvariantSynthesis.Diagram
