import InvariantSynthesis.Model
import InvariantSynthesis.Procedure.Basic

namespace InvariantSynthesis

inductive Status where
  | unknown
  | holds
  | violated
  deriving DecidableEq

def Status.text : Status → String
  | .unknown => "UNKNOWN"
  | .holds => "OK"
  | .violated => "FAILURE"

structure Property where
  location : Location
  source : Source
  description : String
  condition : Expr
  status : Status := .unknown
  /-- For a violated property, values of its variables. -/
  countermodel : Option Model := none

namespace Property

def ofAssertion (b : Block) (a : Assertion) : Property where
  location := b.location
  source := b.source
  description := a.description
  condition := .imply b.guard a.condition

/-- The part of a model that matters to the property. -/
def relevant (p : Property) (m : Model) : Model :=
  m.restrict (fun n => p.condition.occurrences.any (·.1 = n))

def text (p : Property) : String :=
  "[" ++ p.source.text ++ "] " ++ p.description ++ ": " ++ p.status.text ++
  match p.countermodel with
  | some m =>
    " (" ++ ", ".intercalate (m.entries.map (fun (n, v) => n ++ "=" ++ v.text)) ++ ")"
  | none => ""

end Property

end InvariantSynthesis
