import InvariantSynthesis.Procedure.Basic

namespace InvariantSynthesis

def Equality.tagged (tag : String) (e : Equality) : Equality :=
  ⟨e.lhs ++ tag, e.rhs.rename (· ++ tag)⟩

def Assertion.tagged (tag : String) (a : Assertion) : Assertion :=
  { a with condition := a.condition.rename (· ++ tag) }

def LoopVar.tagged (tag : String) (v : LoopVar) : LoopVar :=
  { v with lb := v.lb ++ tag, post := v.post.rename (· ++ tag) }

def Block.tagged (tag : String) (b : Block) : Block :=
  { b with
    equalities := b.equalities.map (Equality.tagged tag)
    constraints := b.constraints.map (Expr.rename (· ++ tag))
    guard := b.guard.rename (· ++ tag)
    cond := b.cond.map (Expr.rename (· ++ tag))
    assertions := b.assertions.map (Assertion.tagged tag)
    loopVars := b.loopVars.map (LoopVar.tagged tag) }

def Procedure.tagged (tag : String) (p : Procedure) : Procedure :=
  { p with
    blocks := p.blocks.map (Block.tagged tag)
    inputs := p.inputs.map (fun v => (v.1 ++ tag, v.2))
    enabling := p.enabling.map (Expr.rename (· ++ tag))
    tag := p.tag ++ tag }

end InvariantSynthesis
