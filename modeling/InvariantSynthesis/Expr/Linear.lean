import InvariantSynthesis.Bounded
import InvariantSynthesis.Table
import InvariantSynthesis.Expr.Basic

namespace InvariantSynthesis

structure LinearForm where
  coeffs : Table Int
  constant : Int

namespace LinearForm

def zero : LinearForm := ⟨.empty, 0⟩

def addConstant? (form : LinearForm) (k : Int) : Option LinearForm := do
  return { form with constant := ← Bounded.add? form.constant k }

def addVariable? (form : LinearForm) (name : String) (k : Int) : Option LinearForm := do
  let c ← Bounded.add? ((form.coeffs.get? name).getD 0) k
  return { form with coeffs := form.coeffs.insert name c }

/-- Drop the variables that cancelled out. -/
def normalize (form : LinearForm) : LinearForm :=
  { form with coeffs := form.coeffs.filter (fun _ c => c != 0) }

/-- The largest contribution of one variable between the bounds. -/
def maxTerm (lower upper : Int) (c : Int) : Int :=
  if 0 ≤ c then Bounded.satMul c upper else Bounded.satMul c lower

/-- An upper bound of the form when every variable lies between the bounds, saturating at the
ends of 64 bits. -/
def maxOver (form : LinearForm) (lower upper : Int) : Int :=
  (form.coeffs.entries.map (fun p => maxTerm lower upper p.2)).foldl Bounded.satAdd form.constant

end LinearForm

namespace Expr

mutual

/-- Add a multiple of an expression to a form. -/
def addTo (factor : Int) (form : LinearForm) : Expr → Option LinearForm
  | .int k => do form.addConstant? (← Bounded.mul? factor k)
  | .var n .int => form.addVariable? n factor
  | .neg a => do addTo (← Bounded.neg? factor) form a
  | .add args => addAllTo factor form args
  | .sub a b => do
    let form ← addTo factor form a
    addTo (← Bounded.neg? factor) form b
  | .mul k a => do addTo (← Bounded.mul? factor k) form a
  | _ => none

def addAllTo (factor : Int) (form : LinearForm) : List Expr → Option LinearForm
  | [] => some form
  | a :: as => do addAllTo factor (← addTo factor form a) as

end

/-- The linear form of an integer expression without if-then-else. -/
def linearForm? (e : Expr) : Option LinearForm :=
  (addTo 1 .zero e).map LinearForm.normalize

end Expr

end InvariantSynthesis
