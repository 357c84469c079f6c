/-!
Names of program variables in static single assignment form. A name may carry tags: `#lb` and a
number mark a variable that flows around the loop closed at that location, a name that starts with
`dynamic_object$` stands for the objects allocated at the site whose number follows, and the text
after its first dot is the field that is accessed. A name that belongs to the tool itself has no
tags. Reading a name never fails, a missing tag is just absent.
-/

namespace InvariantSynthesis

/-- The number that a list of digits writes in base ten. -/
def Text.numberOf (digits : List Char) : Nat :=
  digits.foldl (fun n c => 10 * n + (c.toNat - '0'.toNat)) 0

abbrev Location := Nat

namespace SsaName

def reservedMarks : List (List Char) := ["__CPROVER".toList, "$".toList]

def dynamicMark : List Char := "dynamic_object$".toList

def loopBackMark : List Char := "#lb".toList

/-- What follows the mark at the start of a text. -/
def after? : List Char → List Char → Option (List Char)
  | [], cs => some cs
  | m :: mark, c :: cs => if m = c then after? mark cs else none
  | _ :: _, [] => none

/-- What follows the last occurrence of the mark. -/
def afterLast? (mark : List Char) : List Char → Option (List Char)
  | [] => after? mark []
  | c :: cs => (afterLast? mark cs).or (after? mark (c :: cs))

/-- The number at the start of a text, if there is one and 32 bits hold it. -/
def leadingNumber? (cs : List Char) : Option Nat :=
  let digits := cs.takeWhile Char.isDigit
  if digits = [] then none
  else if Text.numberOf digits < 0x100000000 then some (Text.numberOf digits)
  else none

def isReserved (name : String) : Bool :=
  reservedMarks.any (fun mark => (after? mark name.toList).isSome)

def isDynamic (name : String) : Bool := (after? dynamicMark name.toList).isSome

/-- The name as it stands in the program: without tags, and without the field of an object. -/
def prettyName (name : String) : String :=
  match after? dynamicMark name.toList with
  | some rest => String.ofList (dynamicMark ++ rest.takeWhile (fun c => c != '.' && c != '#'))
  | none => String.ofList (name.toList.takeWhile (· != '#'))

/-- The location where the variable's loop is closed. -/
def loopBack? (name : String) : Option Location := do
  leadingNumber? (← afterLast? loopBackMark name.toList)

def allocationSite? (name : String) : Option Location := do
  leadingNumber? (← after? dynamicMark name.toList)

def field? (name : String) : Option String := do
  let rest ← after? dynamicMark name.toList
  match rest.dropWhile (· != '.') with
  | [] => none
  | _ :: rest =>
    let field := rest.takeWhile (· != '#')
    if field = [] then none else some (String.ofList field)

end SsaName

/-- The object that a name stands for. -/
structure DynamicName where
  site : Option Location
  field : Option String
  deriving DecidableEq

/-- A name with its tags. -/
structure SsaName where
  full : String
  pretty : String
  loopBack : Option Location
  dynamic : Option DynamicName
  deriving DecidableEq

namespace SsaName

def parse? (name : String) : Option SsaName :=
  if isReserved name then none
  else some {
    full := name
    pretty := prettyName name
    loopBack := loopBack? name
    dynamic :=
      if isDynamic name then some ⟨allocationSite? name, field? name⟩ else none }

end SsaName

end InvariantSynthesis
