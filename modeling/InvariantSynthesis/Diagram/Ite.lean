import InvariantSynthesis.Diagram.Basic

/-!
If-then-else of diagrams, and the connectives as its instances. The operands are brought into a
standard form first, so that the same function is looked up under one key.
-/

namespace InvariantSynthesis.Diagram

/-- The same function with a test and a first branch that are not complemented. The flag says
whether the result is the complement. -/
def Triple.standard (f g h : Edge) : Triple × Bool :=
  let (f, g, h) := if f.complemented then (f.flip, h, g) else (f, g, h)
  if g.complemented then (⟨f, g.flip, h.flip⟩, true) else (⟨f, g, h⟩, false)

def lookup? (t : Triple) : Build (Option Edge) := fun s => (s.computed[t]?, s)

def remember (t : Triple) (e : Edge) : Build Unit := fun s =>
  ((), { s with computed := s.computed.insert t e })

/-- If-then-else. Every step reaches edges with a smaller sum of indices, which bounds the fuel. -/
def iteWith : Nat → Edge → Edge → Edge → Build Edge
  | 0, f, _, _ => pure f
  | fuel + 1, f, g, h =>
    if f = .one then pure g
    else if f = .zero then pure h
    else if g = h then pure g
    else if g = .one ∧ h = .zero then pure f
    else if g = .zero ∧ h = .one then pure f.flip
    else if g = f then iteWith fuel f .one h
    else if h = f then iteWith fuel f g .zero
    else if g = f.flip then iteWith fuel f .zero h
    else if h = f.flip then iteWith fuel f g .one
    else do
      let (t, negated) := Triple.standard f g h
      match ← lookup? t with
      | some e => return e.flipIf negated
      | none =>
        let s ← get
        let v := s.topVar t.test t.yes t.no
        let (f₀, f₁) := s.cofactors t.test v
        let (g₀, g₁) := s.cofactors t.yes v
        let (h₀, h₁) := s.cofactors t.no v
        let low ← iteWith fuel f₀ g₀ h₀
        let high ← iteWith fuel f₁ g₁ h₁
        let e ← branch v low high
        remember t e
        return e.flipIf negated

/-- The diagram of `(f ∧ g) ∨ (¬f ∧ h)`. -/
def ite (f g h : Edge) : Build Edge := iteWith (f.index + g.index + h.index + 1) f g h

def and (u v : Edge) : Build Edge := ite u v .zero

def or (u v : Edge) : Build Edge := ite u .one v

def xor (u v : Edge) : Build Edge := ite u v.flip v

def eq (u v : Edge) : Build Edge := ite u v v.flip

def imply (u v : Edge) : Build Edge := ite u v .one

/-- Conjunction from left to right, which stops once it is false. -/
def andFrom (acc : Edge) : List Edge → Build Edge
  | [] => pure acc
  | e :: es => do
    let r ← and acc e
    if r = .zero then return r else andFrom r es

def andMany (es : List Edge) : Build Edge := andFrom .one es

end InvariantSynthesis.Diagram
