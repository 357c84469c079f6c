import InvariantSynthesis.BitSolver.Blast

/-!
The bit-level solver as an oracle. A check compares one diagram with the constant false, and a
model is read off a satisfying path; variables that the path leaves free are false or zero bits.
-/

namespace InvariantSynthesis

open Diagram

namespace BitSolver

/-- Give bits to new boolean variables and collect the new integer variables. -/
def announce (ints : List String) : List TypedName → Request BitSolver (List String)
  | [] => pure ints
  | (name, sort) :: rest => do
    match (← get).symbols.get? name with
    | some t =>
      if t.sort = sort then announce ints rest else throw (.sortClash name t.sort sort)
    | none =>
      if name ∈ ints then announce ints rest
      else
        match sort with
        | .bool => do
          let _ ← symbol name .bool
          announce ints rest
        | .int => announce (ints ++ [name]) rest

/-- Bits for several integers at once, one list for each place. -/
def freshPlaces (count : Nat) : Nat → Request BitSolver (List (List Edge))
  | 0 => pure []
  | places + 1 => do
    let bits ← freshBits count
    return bits :: (← freshPlaces count places)

def bindColumns (places : List (List Edge)) : Nat → List String → Request BitSolver Unit
  | _, [] => pure ()
  | i, name :: names => do
    bindSymbol name (.int ⟨places.map (fun bits => bits.getD i .zero)⟩)
    bindColumns places (i + 1) names

/-- New integers get their bits place by place, so that equal places are close together. -/
def declare (names : List TypedName) : Request BitSolver Unit := do
  let ints ← announce [] names
  let places ← freshPlaces ints.length (← get).width
  bindColumns places 0 ints

def assert (e : Expr) : Request BitSolver Unit := do
  modify (fun s => { s with model := none })
  let r ← expectBool e (← blast e)
  let top ← build (Diagram.and (← get).top r)
  modify (fun s => { s with top })

def push (s : BitSolver) : BitSolver := { s with outer := s.top :: s.outer }

def pop : Request BitSolver Unit := do
  match (← get).outer with
  | [] => throw .scopeUnderflow
  | top :: outer => modify (fun s => { s with top, outer, model := none })

def bitOn (s : BitSolver) (path : List (Nat × Bool)) (e : Edge) : Bool :=
  ((path.lookup (s.store.var e)).getD false) != e.complemented

def valueOn (s : BitSolver) (path : List (Nat × Bool)) : Term → Value
  | .bool e => .bool (s.bitOn path e)
  | .int w =>
    match w.decode (s.bitOn path) with
    | .ok k => .int k
    -- decoding a word of at most 32 bits does not overflow
    | .error _ => .int 0

def check : Request BitSolver Answer := do
  modify (fun s => { s with model := none })
  let s ← get
  if s.nodeLimit < s.store.size then return .unknown "node limit exceeded"
  else
    match s.store.path? s.top with
    | none => return .unsat
    | some path =>
      let model := s.symbols.map (s.valueOn path)
      modify (fun s => { s with model := some model })
      return .sat

def range (s : BitSolver) : Int × Int :=
  let half : Int := Nat.pow 2 (s.width - 1)
  (-half, half - 1)

end BitSolver

instance : Oracle BitSolver where
  declare := BitSolver.declare
  assert := BitSolver.assert
  push := BitSolver.push
  pop := BitSolver.pop
  depth s := s.outer.length
  range := BitSolver.range
  check := BitSolver.check
  model? s := s.model
  spawn s := .fresh s.width s.nodeLimit

end InvariantSynthesis
