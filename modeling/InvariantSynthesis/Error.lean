import InvariantSynthesis.Expr.Basic

namespace InvariantSynthesis

inductive ConfigError where
  | noDomainSelected
  | contradictory (first second : String)
  | missingPrerequisite (option requires : String)
  | unknownOption (option : String)
  | invalidValue (option value : String)
  deriving DecidableEq

def ConfigError.message : ConfigError → String
  | .noDomainSelected => "no abstract domain selected"
  | .contradictory a b => "options `" ++ a ++ "` and `" ++ b ++ "` select different domains"
  | .missingPrerequisite o r => "option `" ++ o ++ "` requires `" ++ r ++ "`"
  | .unknownOption o => "unknown option `" ++ o ++ "`"
  | .invalidValue o v => "invalid value `" ++ v ++ "` for option `" ++ o ++ "`"

inductive OracleError where
  | scopeUnderflow
  | illSorted (what : String)
  | sortClash (name : String) (first second : ValueSort)
  | internal (what : String)
  deriving DecidableEq

def OracleError.message : OracleError → String
  | .scopeUnderflow => "pop without matching push"
  | .illSorted w => "ill-sorted expression: " ++ w
  | .sortClash n a b => "variable `" ++ n ++ "` used as both " ++ a.name ++ " and " ++ b.name
  | .internal w => "internal solver error: " ++ w

inductive Fault where
  | zeroVariable
  | emptyWord
  | widthOutOfRange
  | headNotBeforeBack
  | locationOrder (next previous : Nat)
  | indexOutOfRange
  | overflow
  deriving DecidableEq

def Fault.message? : Fault → Option String
  | .zeroVariable => some "Variable index should not be zero"
  | .emptyWord => some "Bit-vector must have at least one bit"
  | .widthOutOfRange => some "Integer width should be in the range 2..=32"
  | .headNotBeforeBack => some "Loop head must precede its loop-back node"
  | .locationOrder b a =>
    some ("Node locations must be strictly increasing (" ++ toString b ++ " after " ++ toString a ++ ")")
  | .indexOutOfRange | .overflow => none

/-- What ends the run of an analysis. -/
inductive Error where
  | config (e : ConfigError)
  | oracle (e : OracleError)
  | infeasiblePrecondition
  | illTypedTemplate (what : String)
  | missingModelValue (what : String)
  | fault (f : Fault)
  deriving DecidableEq

def Error.message : Error → String
  | .config e => "configuration error: " ++ e.message
  | .oracle e => "decision procedure failed: " ++ e.message
  | .infeasiblePrecondition => "precondition is infeasible"
  | .illTypedTemplate w => "ill-typed template: " ++ w
  | .missingModelValue w => "model has no value for `" ++ w ++ "`"
  | .fault f => f.message?.getD ""

end InvariantSynthesis
