import InvariantSynthesis.Procedure.Basic

namespace InvariantSynthesis

structure HeapObject where
  site : Option Source
  field : Option String
  deriving DecidableEq

structure ImpreciseVar where
  ssaName : String
  prettyName : String
  loopHeader : Option Source
  dynamic : Option HeapObject
  deriving DecidableEq

def sourceText : Option Source → String
  | some s => s.text
  | none => "<NOT FOUND>"

def HeapObject.fieldName (o : HeapObject) : String := o.field.getD "<NO MEMBER>"

def ImpreciseVar.text (v : ImpreciseVar) : String :=
  v.prettyName ++ " (loop at " ++ sourceText v.loopHeader ++ ")" ++
  match v.dynamic with
  | some o => ", allocated at " ++ sourceText o.site ++ ", field " ++ o.fieldName
  | none => ""

namespace Procedure

/-- The last block strictly inside a loop that defines a variable of the given pretty name. -/
def loopHeader? (p : Procedure) (back : Location) (pretty : String) : Option Source := do
  let index ← p.indexOf? back
  let head ← (← p.blocks[index]?).head
  let body := (p.blocks.take index).drop (head + 1)
  let defining := body.filter (fun b => b.equalities.any (fun e => SsaName.prettyName e.lhs = pretty))
  return (← defining.getLast?).source

/-- Attribute a variable. Names that belong to the tool are not reported. -/
def attribution? (p : Procedure) (location : Option Location) (name : String) :
    Option ImpreciseVar := do
  let n ← SsaName.parse? name
  return {
    ssaName := name
    prettyName := n.pretty
    loopHeader := do p.loopHeader? (← n.loopBack.or location) n.pretty
    dynamic := n.dynamic.map (fun d =>
      ⟨do return (← p.find? (← d.site)).source, d.field⟩) }

def attributions (p : Procedure) (entries : List (Option Location × String)) : List ImpreciseVar :=
  entries.filterMap (fun (l, name) => p.attribution? l name)

end Procedure

end InvariantSynthesis
