import InvariantSynthesis.Proofs.Expr.Construction
import InvariantSynthesis.Proofs.Expr.Eval
import InvariantSynthesis.Proofs.Template.Flow
import Mathlib.Algebra.Order.Ring.Abs
import Mathlib.Order.Bounds.Basic
import Mathlib.Tactic.Linarith
import Mathlib.Tactic.Ring

/-!
The meaning of linear forms. A form that is read off an expression has the value of the expression
under every assignment of integers to the variables. The largest value of a form over a range is
found by taking for each variable the end of the range that the sign of its coefficient asks for, and
the saturating arithmetic finds it as long as the coefficients are small.
-/

namespace InvariantSynthesis

theorem Bounded.clamp_of_fits {k : Int} (h : Fits k) : clamp k = k := by
  rw [clamp, if_neg (not_lt.mpr h.1), if_neg (not_lt.mpr h.2)]

theorem Bounded.fits_of_abs_le {k : Int} (h : |k| ≤ greatest) : Fits k := by
  rw [abs_le, greatest] at h
  rw [Fits, least, greatest]
  omega

namespace LinearForm

section tally

/-- A sum over the variables and their coefficients. -/
def tally (f : String → Int → Int) : List (String × Int) → Int
  | [] => 0
  | p :: rest => f p.1 p.2 + tally f rest

variable {f g : String → Int → Int} {entries : List (String × Int)}

theorem tally_le (h : ∀ p ∈ entries, f p.1 p.2 ≤ g p.1 p.2) : tally f entries ≤ tally g entries := by
  induction entries with
  | nil => exact le_refl 0
  | cons p rest ih =>
    rw [tally, tally]
    exact add_le_add (h p List.mem_cons_self) (ih fun q hq => h q (List.mem_cons_of_mem _ hq))

theorem tally_congr (h : ∀ p ∈ entries, f p.1 p.2 = g p.1 p.2) : tally f entries = tally g entries :=
  le_antisymm (tally_le fun p hp => (h p hp).le) (tally_le fun p hp => (h p hp).ge)

theorem tally_zero (entries : List (String × Int)) : tally (fun _ _ => 0) entries = 0 := by
  induction entries with
  | nil => rfl
  | cons p rest ih => rw [tally, ih, add_zero]

theorem tally_nonneg (h : ∀ p ∈ entries, 0 ≤ f p.1 p.2) : 0 ≤ tally f entries := by
  rw [← tally_zero entries]
  exact tally_le h

theorem tally_nonpos (h : ∀ p ∈ entries, f p.1 p.2 ≤ 0) : tally f entries ≤ 0 := by
  rw [← tally_zero entries]
  exact tally_le h

theorem find_le_tally (h : ∀ n c, 0 ≤ f n c) (hzero : ∀ n, f n 0 = 0) (n : String) :
    f n ((Table.find n entries).getD 0) ≤ tally f entries := by
  induction entries with
  | nil => exact le_of_eq (hzero n)
  | cons p rest ih =>
    rw [Table.find, tally]
    by_cases hn : n = p.1
    · rw [if_pos hn, Option.getD_some, hn]
      exact le_add_of_nonneg_right (tally_nonneg fun p _ => h p.1 p.2)
    · rw [if_neg hn]
      exact le_add_of_nonneg_of_le (h p.1 p.2) ih

theorem tally_place (hzero : ∀ n, f n 0 = 0) (n : String) (c : Int)
    (hsorted : entries.Pairwise fun p q => p.1 < q.1) :
    tally f (Table.place n c entries) + f n ((Table.find n entries).getD 0) =
      tally f entries + f n c := by
  induction entries with
  | nil => simp [Table.place, Table.find, tally, hzero]
  | cons p rest ih =>
    obtain ⟨hp, hrest⟩ := List.pairwise_cons.mp hsorted
    rw [Table.place]
    split
    · rename_i hlt
      have hnone : Table.find n (p :: rest) = none := by
        apply Table.find_eq_none
        intro q hq
        rcases List.mem_cons.mp hq with rfl | hq
        · exact hlt
        · exact String.lt_trans hlt (hp q hq)
      rw [hnone, Option.getD_none, hzero, tally]
      ring
    · split
      · rename_i heq
        subst heq
        rw [tally, tally, Table.find, if_pos rfl, Option.getD_some]
        ring
      · rename_i hne
        have hrest := ih hrest
        rw [tally, tally, Table.find, if_neg hne]
        linarith

theorem tally_filter (hzero : ∀ n, f n 0 = 0) (entries : List (String × Int)) :
    tally f (entries.filter fun p => p.2 != 0) = tally f entries := by
  induction entries with
  | nil => rfl
  | cons p rest ih =>
    rw [List.filter_cons]
    split
    · rw [tally, tally, ih]
    · rename_i hp
      have hp : p.2 = 0 := by simpa using hp
      rw [ih, tally, hp, hzero, zero_add]

end tally

/-- The value of the form under an assignment of integers. -/
def value (x : String → Int) (form : LinearForm) : Int :=
  form.constant + tally (fun n c => c * x n) form.coeffs.entries

/-- The largest value when every variable lies between the bounds, see `isGreatest_peak`. -/
def peak (lower upper : Int) (form : LinearForm) : Int :=
  form.constant + tally (fun _ c => if 0 ≤ c then c * upper else c * lower) form.coeffs.entries

def weight (form : LinearForm) : Int := tally (fun _ c => |c|) form.coeffs.entries

variable {x : String → Int} {form form' : LinearForm} {n : String} {k : Int}

theorem value_addConstant (h : form.addConstant? k = some form') :
    form'.value x = form.value x + k := by
  obtain ⟨c, hc, heq⟩ := Option.bind_eq_some_iff.mp h
  cases heq
  obtain ⟨rfl, -⟩ := Bounded.check_eq_some.mp hc
  rw [value, value]
  ring

theorem value_addVariable (h : form.addVariable? n k = some form') :
    form'.value x = form.value x + k * x n := by
  obtain ⟨c, hc, heq⟩ := Option.bind_eq_some_iff.mp h
  cases heq
  obtain ⟨rfl, -⟩ := Bounded.check_eq_some.mp hc
  have hplace := tally_place (f := fun n c => c * x n) (fun n => zero_mul _) n
    ((form.coeffs.get? n).getD 0 + k) form.coeffs.sorted
  rw [value, value, Table.insert]
  rw [← Table.get?, add_mul] at hplace
  linarith

theorem value_normalize (form : LinearForm) : form.normalize.value x = form.value x := by
  have hfilter := tally_filter (f := fun n c => c * x n) (fun n => zero_mul _) form.coeffs.entries
  rw [value, value, normalize, Table.filter, hfilter]

theorem ne_zero_of_mem_normalize {p : String × Int}
    (hp : p ∈ form.normalize.coeffs.entries) : p.2 ≠ 0 := by
  simpa using (List.mem_filter.mp hp).2

theorem weight_normalize (form : LinearForm) : form.normalize.weight = form.weight :=
  tally_filter (fun _ => abs_zero) form.coeffs.entries

theorem exists_addVariable (n : String) (h : form.weight + |k| ≤ Bounded.greatest) :
    ∃ form', form.addVariable? n k = some form' ∧ form'.constant = form.constant ∧
      form'.weight ≤ form.weight + |k| := by
  have hold : |(form.coeffs.get? n).getD 0| ≤ form.weight :=
    find_le_tally (fun _ => abs_nonneg) (fun _ => abs_zero) n
  have hnew := abs_add_le ((form.coeffs.get? n).getD 0) k
  have hfits := Bounded.fits_of_abs_le (hnew.trans ((add_le_add_left hold |k|).trans h))
  have hplace := tally_place (f := fun _ c => |c|) (fun _ => abs_zero) n
    ((form.coeffs.get? n).getD 0 + k) form.coeffs.sorted
  rw [← Table.get?] at hplace
  refine ⟨_, Option.bind_eq_some_iff.mpr ⟨_, Bounded.check_eq_some.mpr ⟨rfl, hfits⟩, rfl⟩, rfl, ?_⟩
  rw [weight, weight, Table.insert]
  linarith

section maximum

variable {lower upper : Int}

theorem value_le_peak (hx : ∀ n, lower ≤ x n ∧ x n ≤ upper) : form.value x ≤ form.peak lower upper := by
  have hterm : ∀ p ∈ form.coeffs.entries,
      p.2 * x p.1 ≤ if 0 ≤ p.2 then p.2 * upper else p.2 * lower := by
    intro p _
    split
    · rename_i hp
      exact mul_le_mul_of_nonneg_left (hx p.1).2 hp
    · rename_i hp
      exact mul_le_mul_of_nonpos_left (hx p.1).1 (le_of_not_ge hp)
  rw [value, peak]
  exact add_le_add_right (tally_le hterm) _

/-- Each variable at the end of the range where its summand is largest. -/
def corner (lower upper : Int) (form : LinearForm) : String → Int :=
  fun n => if 0 ≤ (form.coeffs.get? n).getD 0 then upper else lower

theorem value_corner (lower upper : Int) (form : LinearForm) :
    form.value (form.corner lower upper) = form.peak lower upper := by
  rw [value, peak]
  congr 1
  apply tally_congr
  intro p hp
  simp only [corner, Table.get?, Table.find_of_mem form.coeffs.sorted hp, Option.getD_some, mul_ite]

theorem isGreatest_peak (h : lower ≤ upper) (form : LinearForm) :
    IsGreatest {k | ∃ x : String → Int, (∀ n, lower ≤ x n ∧ x n ≤ upper) ∧ form.value x = k}
      (form.peak lower upper) := by
  constructor
  · refine ⟨form.corner lower upper, fun n => ?_, value_corner lower upper form⟩
    unfold corner
    split <;> omega
  · rintro k ⟨x, hx, rfl⟩
    exact value_le_peak hx

theorem maxOver_fits (h : Bounded.Fits form.constant) : Bounded.Fits (form.maxOver lower upper) := by
  rw [maxOver]
  generalize form.constant = k at h
  induction form.coeffs.entries generalizing k with
  | nil => exact h
  | cons p rest ih => exact ih _ (Bounded.clamp_mem _)

variable {size : Int} (hlower : |lower| ≤ size) (hupper : |upper| ≤ size)
include hlower hupper

theorem abs_summand_le (c : Int) : |if 0 ≤ c then c * upper else c * lower| ≤ |c| * size := by
  split <;> rw [abs_mul] <;> gcongr

theorem maxTerm_eq {c : Int} (h : |c| * size ≤ Bounded.greatest) :
    maxTerm lower upper c = if 0 ≤ c then c * upper else c * lower := by
  have hfits := Bounded.fits_of_abs_le ((abs_summand_le hlower hupper c).trans h)
  rw [maxTerm, Bounded.satMul, Bounded.satMul, ← apply_ite Bounded.clamp,
    Bounded.clamp_of_fits hfits]

/-- As long as the coefficients are small, no sum on the way saturates. -/
theorem foldl_satAdd {entries : List (String × Int)}
    (h : |k| + tally (fun _ c => |c|) entries * size ≤ Bounded.greatest) :
    (entries.map fun p => maxTerm lower upper p.2).foldl Bounded.satAdd k =
      k + tally (fun _ c => if 0 ≤ c then c * upper else c * lower) entries := by
  induction entries generalizing k with
  | nil => simp [tally]
  | cons p rest ih =>
    rw [tally, add_mul] at h
    -- The bound covers the summand and the sum with it, so neither of the two is clamped.
    have hsize : 0 ≤ size := (abs_nonneg lower).trans hlower
    have hrest : 0 ≤ tally (fun _ c => |c|) rest * size :=
      mul_nonneg (tally_nonneg fun p _ => abs_nonneg p.2) hsize
    have hsum := (abs_add_le k _).trans (add_le_add_right (abs_summand_le hlower hupper p.2) |k|)
    have hp := maxTerm_eq hlower hupper (c := p.2) (by linarith [abs_nonneg k])
    have hadd := Bounded.clamp_of_fits (Bounded.fits_of_abs_le (hsum.trans (by linarith)))
    rw [List.map_cons, List.foldl_cons, hp, Bounded.satAdd, hadd, ih (by linarith), tally, add_assoc]

theorem maxOver_eq_peak (h : |form.constant| + form.weight * size ≤ Bounded.greatest) :
    form.maxOver lower upper = form.peak lower upper :=
  foldl_satAdd hlower hupper h

end maximum

end LinearForm

namespace Expr

variable {e : Expr} {factor : Int} {form form' : LinearForm} {ρ : Valuation}

theorem value_addAllTo {args : List Expr}
    (ih : ∀ a ∈ args, ∀ {factor form form'}, a.addTo factor form = some form' →
      form'.value (fun n => (ρ n .int).number) =
        form.value (fun n => (ρ n .int).number) + factor * a.number ρ)
    (h : addAllTo factor form args = some form') :
    form'.value (fun n => (ρ n .int).number) =
      form.value (fun n => (ρ n .int).number) + factor * total ρ args := by
  induction args generalizing form with
  | nil =>
    rw [addAllTo] at h
    cases h
    simp [total]
  | cons a as iha =>
    rw [addAllTo] at h
    obtain ⟨middle, hmiddle, h⟩ := Option.bind_eq_some_iff.mp h
    rw [iha (fun b hb => ih b (List.mem_cons_of_mem _ hb)) h, ih a List.mem_cons_self hmiddle, total,
      ← number]
    ring

/-- Adding a multiple of an expression to a form adds the multiple of its value. -/
theorem value_addTo (h : e.addTo factor form = some form') :
    form'.value (fun n => (ρ n .int).number) =
      form.value (fun n => (ρ n .int).number) + factor * e.number ρ := by
  induction e generalizing factor form form' with
  | int k =>
    rw [addTo] at h
    obtain ⟨c, hc, h⟩ := Option.bind_eq_some_iff.mp h
    obtain ⟨rfl, -⟩ := Bounded.check_eq_some.mp hc
    rw [LinearForm.value_addConstant h, number, value, Value.number_int]
  | var n s =>
    cases s with
    | bool => simp [addTo] at h
    | int =>
      rw [addTo] at h
      rw [LinearForm.value_addVariable h, number, value]
  | neg a ih =>
    rw [addTo] at h
    obtain ⟨c, hc, h⟩ := Option.bind_eq_some_iff.mp h
    obtain ⟨rfl, -⟩ := Bounded.check_eq_some.mp hc
    rw [ih h, number_neg]
    ring
  | add args ih =>
    rw [addTo] at h
    rw [value_addAllTo (fun a ha => ih a ha) h, number_add]
  | sub a b iha ihb =>
    rw [addTo] at h
    obtain ⟨middle, hmiddle, h⟩ := Option.bind_eq_some_iff.mp h
    obtain ⟨c, hc, h⟩ := Option.bind_eq_some_iff.mp h
    obtain ⟨rfl, -⟩ := Bounded.check_eq_some.mp hc
    rw [ihb h, iha hmiddle, number_sub]
    ring
  | mul k a ih =>
    rw [addTo] at h
    obtain ⟨c, hc, h⟩ := Option.bind_eq_some_iff.mp h
    obtain ⟨rfl, -⟩ := Bounded.check_eq_some.mp hc
    rw [ih h, number_mul]
    ring
  | bool | not | and | or | implies | eq | le | lt | ite => simp [addTo] at h

theorem value_eq_number (h : e.addTo factor form = some form')
    (hρ : ∀ n, ρ n .int = .int (ρ n .int).number) : e.value ρ = .int (e.number ρ) := by
  cases e with
  | var n s =>
    cases s with
    | bool => simp [addTo] at h
    | int =>
      rw [number, value]
      exact hρ n
  | int | neg | add | sub | mul =>
    rw [number, value]
    rfl
  | bool | not | and | or | implies | eq | le | lt | ite => simp [addTo] at h

theorem number_of_linearForm (h : e.linearForm? = some form) :
    e.number ρ = form.value fun n => (ρ n .int).number := by
  obtain ⟨form', hform', rfl⟩ := Option.map_eq_some_iff.mp h
  rw [LinearForm.value_normalize, value_addTo (ρ := ρ) hform', LinearForm.zero, LinearForm.value]
  simp [Table.empty, LinearForm.tally]

/-- To add the expression once, or its opposite, to a form that is not too heavy succeeds and makes
the form heavier by a limited amount. -/
def Adds (amount : Int) (e : Expr) : Prop := ∀ factor form, |factor| = 1 →
  form.weight + amount ≤ Bounded.greatest → ∃ form', e.addTo factor form = some form' ∧
    form'.constant = form.constant ∧ form'.weight ≤ form.weight + amount

section adds

variable {a b : Expr} {i j : Int}

theorem adds_intVar (n : String) : (intVar n).Adds 1 := by
  intro factor form hfactor hweight
  rw [intVar, addTo, ← hfactor]
  exact LinearForm.exists_addVariable n (hfactor ▸ hweight)

theorem neg_factor (h : |factor| = 1) : Bounded.neg? factor = some (-factor) := by
  have hfits : Bounded.Fits (-factor) := by
    apply Bounded.fits_of_abs_le
    rw [abs_neg, h, Bounded.greatest]
    decide
  exact Bounded.check_eq_some.mpr ⟨rfl, hfits⟩

theorem Adds.neg (h : a.Adds i) : (Expr.neg a).Adds i := by
  intro factor form hfactor hweight
  rw [addTo, neg_factor hfactor]
  exact h (-factor) form (by rw [abs_neg, hfactor]) hweight

theorem Adds.sub (ha : a.Adds i) (hb : b.Adds j) (hj : 0 ≤ j) : (Expr.sub a b).Adds (i + j) := by
  intro factor form hfactor hweight
  obtain ⟨middle, hmiddle, hconstant, hle⟩ := ha factor form hfactor (by linarith)
  obtain ⟨last, hlast, hconstant', hle'⟩ := hb (-factor) middle (by rw [abs_neg, hfactor])
    (by linarith)
  refine ⟨last, ?_, hconstant'.trans hconstant, by linarith⟩
  rw [addTo, hmiddle, neg_factor hfactor]
  exact hlast

theorem Adds.add (ha : a.Adds i) (hb : b.Adds j) (hj : 0 ≤ j) : (Expr.add [a, b]).Adds (i + j) := by
  intro factor form hfactor hweight
  obtain ⟨middle, hmiddle, hconstant, hle⟩ := ha factor form hfactor (by linarith)
  obtain ⟨last, hlast, hconstant', hle'⟩ := hb factor middle hfactor (by linarith)
  refine ⟨last, ?_, hconstant'.trans hconstant, by linarith⟩
  rw [addTo, addAllTo, hmiddle]
  simp [addAllTo, hlast]

theorem Adds.linearForm (h : a.Adds i) (hi : i ≤ Bounded.greatest) :
    ∃ form, a.linearForm? = some form ∧ form.constant = 0 ∧ form.weight ≤ i := by
  have hzero : LinearForm.zero.weight = 0 := rfl
  obtain ⟨form, hform, hconstant, hweight⟩ := h 1 .zero abs_one (by rwa [hzero, zero_add])
  rw [hzero, zero_add] at hweight
  refine ⟨form.normalize, by rw [linearForm?, hform, Option.map_some], hconstant, ?_⟩
  rwa [LinearForm.weight_normalize]

end adds

end Expr

structure LinearForm.Exact (form : LinearForm) (e : Expr) : Prop where
  nonzero : ∀ p ∈ form.coeffs.entries, p.2 ≠ 0
  value : ∀ (x : String → Int) (ρ : Valuation), (∀ n, ρ n .int = .int (x n)) →
    e.value ρ = .int (form.value x)
  evaluated : ∀ (m : Model) k, m.evalInt e = some k → k = form.value fun n => (m.int? n).getD 0

theorem Expr.exact_of_linearForm {e : Expr} {form : LinearForm} (h : e.linearForm? = some form) :
    form.Exact e where
  nonzero p hp := by
    obtain ⟨form', -, rfl⟩ := Option.map_eq_some_iff.mp h
    exact LinearForm.ne_zero_of_mem_normalize hp
  value x ρ hρ := by
    obtain ⟨form', hform', -⟩ := Option.map_eq_some_iff.mp h
    have hx : (fun n => (ρ n .int).number) = x := funext fun n => by rw [hρ, Value.number_int]
    rw [value_eq_number hform' fun n => by rw [hρ, Value.number_int], number_of_linearForm h, hx]
  evaluated m k hk := by
    have hx : (fun n => (m.valuation n .int).number) = fun n => (m.int? n).getD 0 := by
      funext n
      rw [Model.valuation, Model.int?]
      cases hn : m.get? n with
      | none => rfl
      | some v => cases v <;> rfl
    rw [← Model.number_of_evalInt hk, number_of_linearForm h, hx]

end InvariantSynthesis
