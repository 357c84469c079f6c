import InvariantSynthesis.Error
import InvariantSynthesis.Diagram.Ite

/-!
Signed words whose bits are diagrams, in two's complement with the lowest bit first. Each operation
makes its result wide enough to hold it, so that words are added, subtracted, negated and scaled as
integers without any bound.
-/

namespace InvariantSynthesis.Diagram

/-- Bits from the lowest to the sign. -/
structure Word where
  bits : List Edge
  deriving DecidableEq, Inhabited

namespace Word

def ofBits (bits : List Edge) : Except Fault Word :=
  if bits = [] then .error .emptyWord else .ok ⟨bits⟩

def width (w : Word) : Nat := w.bits.length

def sign (w : Word) : Edge := w.bits.getLastD .zero

/-- The bits that a number needs, the sign included. -/
def signedWidth (k : Int) : Nat :=
  let magnitude := if 0 ≤ k then k.toNat else (-k - 1).toNat
  (if magnitude = 0 then 0 else magnitude.log2 + 1) + 1

/-- The lowest bits of a number in two's complement. -/
def lowBits : Nat → Int → List Bool
  | 0, _ => []
  | n + 1, k => decide (k % 2 = 1) :: lowBits n (k / 2)

def constant (k : Int) : Word := ⟨(lowBits (signedWidth k) k).map Edge.ofBool⟩

/-- Repeat the sign up to a width. -/
def extend (w : Word) (width : Nat) : Word :=
  ⟨w.bits ++ List.replicate (width - w.width) w.sign⟩

/-- The bits of two words at the same places, both extended to a width. -/
def align (a b : Word) (width : Nat) : List (Edge × Edge) :=
  (a.extend width).bits.zip (b.extend width).bits

/-- Ripple-carry addition. -/
def addFrom (carry : Edge) : List (Edge × Edge) → Build (List Edge)
  | [] => pure []
  | (x, y) :: rest => do
    let xy ← xor x y
    let bit ← xor xy carry
    let carry ← or (← and x y) (← and carry xy)
    return bit :: (← addFrom carry rest)

def add (a b : Word) : Build Word := do
  return ⟨← addFrom .zero (a.align b (max a.width b.width + 1))⟩

def neg (a : Word) : Build Word := do
  let inverted : Word := ⟨(a.extend (a.width + 1)).bits.map Edge.flip⟩
  let sum ← inverted.add (constant 1)
  return ⟨sum.bits.take (a.width + 1)⟩

def sub (a b : Word) : Build Word := do a.add (← b.neg)

/-- The word times a power of two. -/
def shift (a : Word) (places : Nat) : Word := ⟨List.replicate places .zero ++ a.bits⟩

def addAll (acc : Word) : List Word → Build Word
  | [] => pure acc
  | w :: ws => do (← acc.add w).addAll ws

/-- Multiplication by a constant, the sum of one shifted word for each bit of its magnitude. -/
def scale (k : Int) (a : Word) : Build Word := do
  let places := (List.range (k.natAbs.log2 + 1)).filter k.natAbs.testBit
  match places.map a.shift with
  | [] => return constant 0
  | w :: ws =>
    let product ← w.addAll ws
    if k < 0 then product.neg else return product

def iteBits (c : Edge) : List (Edge × Edge) → Build (List Edge)
  | [] => pure []
  | (x, y) :: rest => do
    let bit ← ite c x y
    return bit :: (← iteBits c rest)

def ite (c : Edge) (a b : Word) : Build Word := do
  return ⟨← iteBits c (a.align b (max a.width b.width))⟩

/-- Equality of bits from the lowest on, up to the first pair that never agrees. -/
def equalFrom (acc : Edge) : List (Edge × Edge) → Build Edge
  | [] => pure acc
  | (x, y) :: rest => do
    let r ← and acc (← eq x y)
    if r = .zero then return r else equalFrom r rest

def equal (a b : Word) : Build Edge := equalFrom .one (a.align b (max a.width b.width))

def less (a b : Word) : Build Edge := do return (← a.sub b).sign

def atMost (a b : Word) : Build Edge := do return (← b.less a).flip

/-- The number that bits write in two's complement, the lowest first. -/
def signedValue : List Bool → Int
  | [] => 0
  | [sign] => -sign.toNat
  | b :: bs => b.toNat + 2 * signedValue bs

/-- The value of a bit; a constant has its own. -/
def bitValue (value : Edge → Bool) (e : Edge) : Bool := if e.isTerminal then e == .one else value e

/-- Set the bits that are true in a 64-bit register, from a place upwards. -/
def setBits (place : Nat) (register : BitVec 64) : List Bool → BitVec 64
  | [] => register
  | b :: bs => setBits (place + 1) (if b then register ||| 1#64 <<< place else register) bs

/-- The number in the lowest 64 bits, given the values of the bits that are not constant, computed in
64 bits. With fewer bits than that the sign counts as another place of the register, which is made
good by taking off the place after it. -/
def decode (w : Word) (value : Edge → Bool) : Except Fault Int :=
  let bits := (w.bits.take 64).map (bitValue value)
  let register := setBits 0 0#64 bits
  if bits.length < 64 && register.getLsbD (bits.length - 1) then
    let weight := 1#64 <<< bits.length
    if register.ssubOverflow weight then .error .overflow else .ok (register - weight).toInt
  else .ok register.toInt

end Word

end InvariantSynthesis.Diagram
