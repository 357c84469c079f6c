import InvariantSynthesis.Config.Basic
import InvariantSynthesis.Error
import InvariantSynthesis.SsaName

/-!
Option tables and the configuration that they describe. An option table is a set of flags and a map
of values, all of them text. A table is consistent if it selects one domain, at most one shape, and
every option that it gives is known, goes with the domain, and has a value that can be read.
-/

namespace InvariantSynthesis

namespace Text

/-- The 25 characters with the property White_Space. -/
def isBlank (c : Char) : Bool :=
  (0x09 ≤ c.toNat && c.toNat ≤ 0x0d) || c.toNat = 0x20 || c.toNat = 0x85 || c.toNat = 0xa0 ||
  c.toNat = 0x1680 || (0x2000 ≤ c.toNat && c.toNat ≤ 0x200a) || c.toNat = 0x2028 ||
  c.toNat = 0x2029 || c.toNat = 0x202f || c.toNat = 0x205f || c.toNat = 0x3000

def trim (cs : List Char) : List Char :=
  ((cs.dropWhile isBlank).reverse.dropWhile isBlank).reverse

/-- The pieces between separators; there is one more than separators. -/
def splitAt (sep : Char) : List Char → List (List Char)
  | [] => [[]]
  | c :: cs =>
    if c = sep then [] :: splitAt sep cs
    else
      match splitAt sep cs with
      | [] => [[c]]
      | piece :: pieces => (c :: piece) :: pieces

end Text

structure Options where
  flags : NameSet := .empty
  values : Table String := .empty

namespace Options

def isSet (o : Options) (flag : String) : Bool := o.flags.contains flag

def domainFlags : List String :=
  ["compute-ranking-functions", "equalities", "heap", "heap-interval", "heap-zones",
    "predabs-solver", "enum-solver", "binsearch-solver"]

def shapeFlags : List String := ["intervals", "zones", "octagons"]

def knownFlags : List String :=
  ["compute-ranking-functions", "monolithic-ranking-function", "equalities", "heap",
    "heap-interval", "heap-zones", "sympath", "enum-solver", "predabs-solver", "binsearch-solver",
    "show-imprecise-vars", "intervals", "zones", "octagons"]

def knownValues : List String :=
  ["bitwidth", "max-ranking-components", "max-ranking-refinements", "max-heap-targets",
    "node-limit", "withhold"]

def allKnown (o : Options) : Except ConfigError Unit :=
  match (o.flags.names.find? (· ∉ knownFlags)).or (o.values.names.find? (· ∉ knownValues)) with
  | some option => .error (.unknownOption option)
  | none => .ok ()

/-- The one flag of a list that is set, if any is. -/
def single (o : Options) (flags : List String) : Except ConfigError (Option String) :=
  match flags.filter o.isSet with
  | [] => .ok none
  | [flag] => .ok (some flag)
  | first :: second :: _ => .error (.contradictory first second)

def requires (o : Options) (option : String) (holds : Bool) (requirement : String) :
    Except ConfigError Unit :=
  if o.isSet option && !holds then .error (.missingPrerequisite option requirement) else .ok ()

def shapeOf : Option String → TemplateShape
  | some "intervals" => .intervals
  | some "octagons" => .octagons
  | _ => .zones

def domainOf (selected : String) (shape : TemplateShape) (monolithic paths : Bool) : DomainConfig :=
  match selected with
  | "compute-ranking-functions" => .ranking (!monolithic)
  | "equalities" => .equalities
  | "predabs-solver" => .predicates
  | "heap" => .heap
  | "heap-interval" => .heapTemplate .intervals paths
  | "heap-zones" => .heapTemplate .zones paths
  | "binsearch-solver" => .template shape .bisection
  | _ => .template shape .enumeration

/-- A number in base ten, with or without a plus sign, that 64 bits hold. -/
def readNatural? (cs : List Char) : Option Nat :=
  let digits :=
    match cs with
    | '+' :: rest => rest
    | _ => cs
  if digits = [] || digits.any (fun c => !c.isDigit) then none
  else if Text.numberOf digits < 0x10000000000000000 then some (Text.numberOf digits)
  else none

/-- The number given for an option. Blanks around it do not matter. -/
def natural? (o : Options) (option : String) : Except ConfigError (Option Nat) :=
  match o.values.get? option with
  | none => .ok none
  | some raw =>
    match readNatural? (Text.trim raw.toList) with
    | some n => .ok (some n)
    | none => .error (.invalidValue option raw)

/-- The number given for an option, which must satisfy a condition. -/
def number (o : Options) (option : String) (default : Nat) (allowed : Nat → Bool) :
    Except ConfigError Nat := do
  match ← o.natural? option with
  | none => return default
  | some n => if allowed n then return n else throw (.invalidValue option (toString n))

/-- The names in a list with commas, without blanks around them. -/
def nameList (raw : String) : NameSet :=
  let pieces := (Text.splitAt ',' raw.toList).map Text.trim
  NameSet.ofNames ((pieces.filter (· ≠ [])).map String.ofList)

/-- The configuration that a table describes. Of several faults the first in this order is named:
unknown options, domains that exclude each other, options that need another domain, shapes that
exclude each other, values that cannot be used. -/
def config (o : Options) : Except ConfigError Config := do
  o.allKnown
  let some selected ← o.single domainFlags | throw .noDomainSelected
  o.requires "monolithic-ranking-function" (selected = "compute-ranking-functions")
    "compute-ranking-functions"
  o.requires "sympath" (selected = "heap-interval" || selected = "heap-zones")
    "heap-interval or heap-zones"
  let shape := shapeOf (← o.single shapeFlags)
  let domain :=
    domainOf selected shape (o.isSet "monolithic-ranking-function") (o.isSet "sympath")
  let default : Config := { domain }
  let positive := fun n => decide (0 < n)
  let width ← o.number "bitwidth" default.width (fun n => minWidth ≤ n && n ≤ maxWidth)
  let maxComponents ← o.number "max-ranking-components" default.maxComponents positive
  let maxRefinements ← o.number "max-ranking-refinements" default.maxRefinements positive
  let maxTargets ← o.number "max-heap-targets" default.maxTargets positive
  let nodeLimit ← o.number "node-limit" default.nodeLimit positive
  return { default with
    showImprecise := o.isSet "show-imprecise-vars"
    withheld := ((o.values.get? "withhold").map nameList).getD .empty
    width, maxComponents, maxRefinements, maxTargets, nodeLimit }

end Options

end InvariantSynthesis
