import InvariantSynthesis.Oracle.Basic

namespace InvariantSynthesis

/-- A computation on a state of type `S` and an oracle of type `σ`. -/
abbrev Session (S σ α : Type) := ExceptT Error (StateM (S × σ)) α

namespace Session

variable {S T σ α : Type} [Oracle σ]

def request (r : Request σ α) : Session S σ α := fun (s, o) =>
  match r o with
  | (.ok a, o) => (.ok a, (s, o))
  | (.error e, o) => (.error (.oracle e), (s, o))

def ofExcept (r : Except Error α) : Session S σ α := fun so => (r, so)

def look (f : σ → α) : Session S σ α := fun (s, o) => (.ok (f o), (s, o))

def state : Session S σ S := fun (s, o) => (.ok s, (s, o))

def update (f : S → S) : Session S σ Unit := fun (s, o) => (.ok (), (f s, o))

def assert (e : Expr) : Session S σ Unit := request (Oracle.assert e)

def requireModel : Session S σ Model := do
  match ← look (fun o : σ => Oracle.model? o) with
  | some m => return m
  | none => throw (.oracle (.internal "satisfiable check without a model"))

/-- Run a session in a scope of its own. The scope is closed afterwards, also after an error. -/
def inScope (body : Session S σ α) : Session S σ α := fun (s, o) =>
  let o := Oracle.push o
  let level := Oracle.depth o
  let (r, (s, o)) := body (s, o)
  (r, (s, Oracle.release level o))

/-- Run a session on another state with the same oracle. -/
def nested (t : T) (body : Session T σ α) : Session S σ (Except Error α × T) := fun (s, o) =>
  let (r, (t, o)) := body (t, o)
  (.ok (r, t), (s, o))

end Session

end InvariantSynthesis
