import InvariantSynthesis.Proofs.Expr.Value
import InvariantSynthesis.Proofs.Oracle.Session

/-!
What an analysis may rely on in an oracle. An oracle keeps the assertions of nested scopes and the
sorts of the variables it has met. It answers negatively only if no valuation in range makes all
live assertions true, and the model of a positive answer makes them true.
-/

namespace InvariantSynthesis

/-- The assertions by scope, from the inside out. -/
structure Scopes where
  inner : List Expr
  outer : List (List Expr)

namespace Scopes

def none : Scopes := ⟨[], []⟩

/-- The assertions that were accepted and not discarded. -/
def live (c : Scopes) : List Expr := c.inner ++ c.outer.flatten

def add (c : Scopes) (e : Expr) : Scopes := { c with inner := e :: c.inner }

def opened (c : Scopes) : Scopes := ⟨[], c.inner :: c.outer⟩

def closed (c : Scopes) : Scopes :=
  match c.outer with
  | [] => c
  | inner :: outer => ⟨inner, outer⟩

@[simp] theorem live_add (c : Scopes) (e : Expr) : (c.add e).live = e :: c.live := rfl
@[simp] theorem live_opened (c : Scopes) : c.opened.live = c.live := rfl

end Scopes

/-- The sorts that variables are known to have. -/
abbrev Sorts := String → Option ValueSort

namespace Sorts

def Extends (Γ Δ : Sorts) : Prop := ∀ n s, Γ n = some s → Δ n = some s

/-- A boolean expression that uses every variable at its known sort. -/
structure Fits (Γ : Sorts) (e : Expr) : Prop where
  sort : e.sort? = some .bool
  known : ∀ p ∈ e.occurrences, Γ p.1 = some p.2

variable {Γ Δ Θ : Sorts}

theorem Extends.refl (Γ : Sorts) : Γ.Extends Γ := fun _ _ h => h

theorem Extends.trans (h : Γ.Extends Δ) (h' : Δ.Extends Θ) : Γ.Extends Θ :=
  fun n s hs => h' n s (h n s hs)

theorem Fits.extend {e : Expr} (h : Γ.Fits e) (hΓ : Γ.Extends Δ) : Δ.Fits e :=
  ⟨h.sort, fun p hp => hΓ p.1 p.2 (h.known p hp)⟩

end Sorts

/-- A variable of known sort has a value of this sort, another one a value of the sort it is used
at, with integers in a range. -/
def Valuation.Typed (ρ : Valuation) (Γ : Sorts) (range : Int × Int) : Prop :=
  ∀ n s, (ρ n s).Within ((Γ n).getD s) range

/-- The value of a variable that nothing is known of. -/
def ValueSort.default : ValueSort → Value
  | .bool => .bool false
  | .int => .int 0

theorem ValueSort.default_within (s : ValueSort) {range : Int × Int}
    (h : range.1 ≤ 0 ∧ 0 ≤ range.2) : s.default.Within s range := by
  cases s with
  | bool => rfl
  | int => exact ⟨rfl, h⟩

namespace Model

/-- A model as a valuation. Variables without a value are false or zero. -/
def valuation (m : Model) : Valuation := fun n s => (m.get? n).getD s.default

/-- The model gives all known variables values of their sorts in a range, and makes expressions
true. -/
structure Satisfies (m : Model) (range : Int × Int) (Γ : Sorts) (es : List Expr) : Prop where
  within : ∀ n v, m.get? n = some v → v.Within v.sort range
  known : ∀ n s, Γ n = some s → (m.get? n).map Value.sort = some s
  holds : ∀ e ∈ es, e.holds m.valuation = true

/-- A model as a valuation in which a variable has its value only at the sort of that value. -/
def sortedValuation (m : Model) : Valuation := fun n s =>
  match m.get? n with
  | some v => if v.sort = s then v else s.default
  | none => s.default

theorem sortedValuation_eq {m : Model} {n : String} {s : ValueSort}
    (h : ∀ v, m.get? n = some v → v.sort = s) : m.sortedValuation n s = m.valuation n s := by
  rw [sortedValuation, valuation]
  cases hv : m.get? n with
  | none => rfl
  | some v => simp [h v hv]

variable {m : Model} {range : Int × Int} {Γ : Sorts} {es : List Expr}

theorem Satisfies.inRange (h : m.Satisfies range Γ es) (hzero : range.1 ≤ 0 ∧ 0 ≤ range.2) :
    m.sortedValuation.InRange range := by
  intro n s
  rw [sortedValuation]
  cases hv : m.get? n with
  | none => exact s.default_within hzero
  | some v =>
    dsimp only
    split
    · rename_i hs
      rw [← hs]
      exact h.within n v hv
    · exact s.default_within hzero

theorem Satisfies.holds_sorted (h : m.Satisfies range Γ es) (hfits : ∀ e ∈ es, Γ.Fits e) :
    ∀ e ∈ es, e.holds m.sortedValuation = true := by
  intro e he
  rw [← h.holds e he, Expr.holds, Expr.holds]
  refine congrArg Value.truth (Expr.value_congr fun p hp => sortedValuation_eq fun v hv => ?_)
  have hsort := h.known p.1 p.2 ((hfits e he).known p hp)
  rw [hv] at hsort
  exact Option.some.inj hsort

end Model

/-- An oracle that can be relied on, for integers in a range. -/
structure Faithful (σ : Type) [Oracle σ] (range : Int × Int) where
  /-- The oracle has these assertions and has met these variables. -/
  Keeps : σ → Scopes → Sorts → Prop
  /-- The second state comes after the first. -/
  Later : σ → σ → Prop
  zero_mem : range.1 ≤ 0 ∧ 0 ≤ range.2
  bounded : Bounded.least ≤ range.1 ∧ range.2 ≤ Bounded.greatest
  later_refl : ∀ o, Later o o
  later_trans : ∀ {o p q}, Later o p → Later p q → Later o q
  range_eq : ∀ {o c Γ}, Keeps o c Γ → Oracle.range o = range
  depth_eq : ∀ {o c Γ}, Keeps o c Γ → Oracle.depth o = c.outer.length
  fits : ∀ {o c Γ}, Keeps o c Γ → ∀ e ∈ c.live, Γ.Fits e
  declare : ∀ {o c Γ names p}, Keeps o c Γ → (Oracle.declare names : Request σ Unit) o = (.ok (), p) →
    Later o p ∧ ∃ Δ, Γ.Extends Δ ∧ (∀ n s, names.lookup n = some s → Δ n = some s) ∧ Keeps p c Δ
  assert : ∀ {o c Γ e p}, Keeps o c Γ → (Oracle.assert e : Request σ Unit) o = (.ok (), p) →
    Later o p ∧ ∃ Δ, Γ.Extends Δ ∧ Keeps p (c.add e) Δ
  push : ∀ {o c Γ}, Keeps o c Γ → Later o (Oracle.push o) ∧ Keeps (Oracle.push o) c.opened Γ
  pop : ∀ {o c Γ}, Keeps o c Γ → c.outer ≠ [] →
    ∃ p, (Oracle.pop : Request σ Unit) o = (.ok (), p) ∧ Later o p ∧ Keeps p c.closed Γ
  check : ∀ {o c Γ a p}, Keeps o c Γ → (Oracle.check : Request σ Answer) o = (.ok a, p) →
    Later o p ∧ Keeps p c Γ
  unsat : ∀ {o c Γ p}, Keeps o c Γ → (Oracle.check : Request σ Answer) o = (.ok .unsat, p) →
    ∀ ρ : Valuation, ρ.InRange range → ∃ e ∈ c.live, e.holds ρ = false
  sat : ∀ {o c Γ p m}, Keeps o c Γ → (Oracle.check : Request σ Answer) o = (.ok .sat, p) →
    Oracle.model? p = some m → m.Satisfies range Γ c.live

/-- Once an oracle does not know an answer, it knows none later on. -/
def Faithful.Steady {σ : Type} [Oracle σ] {range : Int × Int} (F : Faithful σ range) : Prop :=
  ∀ {o o' p p' : σ} {c c' : Scopes} {Γ Γ' : Sorts} {reason : String} {a : Answer},
    F.Keeps o c Γ → (Oracle.check : Request σ Answer) o = (.ok (.unknown reason), o') →
    F.Later o p → F.Keeps p c' Γ' → (Oracle.check : Request σ Answer) p = (.ok a, p') →
    ∃ reason', a = .unknown reason'

end InvariantSynthesis
