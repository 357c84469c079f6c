import InvariantSynthesis.Expr.Text
import InvariantSynthesis.Procedure.Basic

/-!
The loops of one or more procedures, seen as places for an invariant. Under the guard before the
body the invariant is assumed of the variables that flowed back, and under the guard after the body
it has to hold of the values that flow back next.
-/

namespace InvariantSynthesis

structure LoopTemplate where
  id : Nat
  /-- Where the loop ends. -/
  back : Location
  /-- Where the loop starts. -/
  head : Location
  preGuard : Expr
  postGuard : Expr
  vars : List LoopVar
  /-- The branch conditions inside the loop. -/
  pathConds : List Expr
  /-- The sorts that the procedures give to the variables that flow back. -/
  sorts : Table ValueSort

namespace LoopTemplate

/-- The variables that are integers on one side of the back edge and no pointers. -/
def intVars (l : LoopTemplate) : List LoopVar :=
  l.vars.filter (fun v => !v.pointer && (v.post.sort = .int || l.sorts.get? v.lb = some .int))

def pointerVars (l : LoopTemplate) : List LoopVar := l.vars.filter (·.pointer)

def postMap (l : LoopTemplate) : Table Expr := Table.ofList (l.vars.map (fun v => (v.lb, v.post)))

/-- Whether a focus on one loop, if there is one, is on this loop. -/
def inFocus (l : LoopTemplate) : Option Nat → Bool
  | none => true
  | some id => l.id = id

end LoopTemplate

/-- All loops of an analysis with the sorts of all variables. -/
structure LoopSystem where
  loops : List LoopTemplate
  sorts : Table ValueSort

namespace LoopSystem

/-- The sorts that procedures give to variables. The first procedure decides. -/
def sortsOf (ps : List Procedure) : Table ValueSort :=
  (ps.flatMap Procedure.symbols).foldl (fun t v => t.insertNew v.1 v.2) .empty

/-- The template of the loop that ends in the given block. -/
def template? (sorts : Table ValueSort) (p : Procedure) (back : Nat × Block) (id : Nat) :
    Option LoopTemplate := do
  let (index, b) := back
  let headIndex ← b.head
  let head ← p.blocks[headIndex]?
  return {
    id
    back := b.location
    head := head.location
    preGuard := .conj [p.loopSelect b, head.guard]
    postGuard := b.guard
    vars := b.loopVars
    pathConds := ((p.blocks.take index).drop headIndex).filterMap (·.cond)
    sorts := Table.ofList (b.loopVars.filterMap (fun v => (sorts.get? v.lb).map (v.lb, ·))) }

def ofProcedures (ps : List Procedure) : LoopSystem :=
  let sorts := sortsOf ps
  let ends := ps.flatMap (fun p => p.loopEnds.map (p, ·))
  { loops := ends.zipIdx.filterMap (fun ((p, back), id) => template? sorts p back id), sorts }

/-- An expression has a sort and uses each variable at the sort that the procedures give it. -/
def checkSort (s : LoopSystem) (e : Expr) (sort : ValueSort) : Except Error Unit :=
  if e.sort? = some sort then
    match e.symbols.entries.find? (fun v => ((s.sorts.get? v.1).getD v.2) ≠ v.2) with
    | none => .ok ()
    | some (name, used) =>
      let declared := (s.sorts.get? name).getD used
      .error (.illTypedTemplate (e.text ++ " uses `" ++ name ++ "` as " ++ used.name ++
        ", declared " ++ declared.name))
  else .error (.illTypedTemplate (e.text ++ " is not a well-sorted " ++ sort.name))

end LoopSystem

end InvariantSynthesis
