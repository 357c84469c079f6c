/-!
Signed 64-bit arithmetic, written on unbounded integers. A checked operation gives a result only
if 64 bits hold it, and a saturating operation stops at the nearer end of the range.
-/

namespace InvariantSynthesis.Bounded

def least : Int := -9223372036854775808

def greatest : Int := 9223372036854775807

/-- The integer itself, provided that 64 bits hold it. -/
def check (k : Int) : Option Int :=
  if least ≤ k ∧ k ≤ greatest then some k else none

def add? (a b : Int) : Option Int := check (a + b)

def sub? (a b : Int) : Option Int := check (a - b)

def mul? (a b : Int) : Option Int := check (a * b)

def neg? (a : Int) : Option Int := check (-a)

/-- The number in the range that is nearest to the given one. -/
def clamp (k : Int) : Int :=
  if k < least then least else if greatest < k then greatest else k

def satAdd (a b : Int) : Int := clamp (a + b)

def satMul (a b : Int) : Int := clamp (a * b)

theorem check_eq_some {k v : Int} :
    check k = some v ↔ k = v ∧ least ≤ k ∧ k ≤ greatest := by
  unfold check
  split
  · simp_all
  · simp only [reduceCtorEq, false_iff]
    omega

theorem clamp_mem (k : Int) : least ≤ clamp k ∧ clamp k ≤ greatest := by
  unfold clamp least greatest
  split
  · omega
  · split <;> omega

end InvariantSynthesis.Bounded
