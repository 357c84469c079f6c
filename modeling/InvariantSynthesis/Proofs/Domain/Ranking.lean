import InvariantSynthesis.Proofs.Domain.Clause
import Mathlib.Tactic.Linarith
import Mathlib.Tactic.Ring

namespace InvariantSynthesis

def weighted : List Int → List Int → Int
  | c :: cs, x :: xs => c * x + weighted cs xs
  | _, _ => 0

section tuples

variable {ρ : Valuation}

theorem lex_of_lexicographicDecrease {γ : Type} {cs : List γ} {δ : γ → Expr} {f g : γ → Int}
    (hδ : ∀ c ∈ cs, (δ c).number ρ = f c - g c)
    (h : (lexicographicDecrease (cs.map δ)).holds ρ = true) :
    List.Lex (· < ·) (cs.map g) (cs.map f) := by
  simp only [lexicographicDecrease, Expr.holds_disj, List.any_map, List.any_eq_true,
    Function.comp_apply, Expr.holds_conj, List.all_append, List.all_map, List.all_cons, List.all_nil,
    Bool.and_true, Bool.and_eq_true, List.all_eq_true] at h
  obtain ⟨⟨e, k⟩, hmem, hbefore, hpos⟩ := h
  have hk := List.mem_zipIdx_iff_getElem?.mp hmem
  clear hmem
  -- The induction follows the tuple up to the place of the positive difference.
  induction cs generalizing k with
  | nil => simp at hk
  | cons c cs ih =>
    have hc := hδ c List.mem_cons_self
    cases k with
    | zero =>
      obtain rfl : δ c = e := by simpa using hk
      have hlt : g c < f c := by simpa [Expr.exceeds, hc] using hpos
      exact .rel hlt
    | succ k =>
      simp only [List.map_cons, List.take_succ_cons, List.forall_mem_cons] at hbefore
      have hle : g c ≤ f c := by simpa [Expr.atLeast, hc] using hbefore.1
      obtain hlt | heq := Int.lt_or_eq_of_le hle
      · exact .rel hlt
      · rw [List.map_cons, List.map_cons, heq]
        exact .cons (ih (fun c hc => hδ c (List.mem_cons_of_mem _ hc)) k hbefore.2 hpos hk)

theorem total_scale {ι : Type} (cs : List Int) (xs : List ι) (e : ι → Expr) :
    Expr.total ρ ((cs.zip xs).map fun p => .scale p.1 (e p.2)) =
      weighted cs (xs.map fun x => (e x).number ρ) := by
  induction cs generalizing xs with
  | nil => simp [Expr.total, weighted]
  | cons c cs ih =>
    cases xs with
    | nil => simp [Expr.total, weighted]
    | cons x xs =>
      rw [List.zip_cons_cons, List.map_cons, Expr.total, ih, List.map_cons, weighted, ← Expr.number,
        Expr.number_scale]

theorem weighted_sub {ι : Type} (cs : List Int) (xs : List ι) (f g : ι → Int) :
    weighted cs (xs.map fun x => f x - g x) = weighted cs (xs.map f) - weighted cs (xs.map g) := by
  induction cs generalizing xs with
  | nil => simp [weighted]
  | cons c cs ih =>
    cases xs with
    | nil => simp [weighted]
    | cons x xs =>
      simp only [List.map_cons, weighted, ih]
      ring

end tuples

namespace RankedLoop

variable {l : RankedLoop} {ρ : Valuation}

def before (l : RankedLoop) (ρ : Valuation) : List Int := l.vars.map fun x => x.1.number ρ

def after (l : RankedLoop) (ρ : Valuation) : List Int := l.vars.map fun x => x.2.number ρ

theorem number_components (coefficients : List (List Int)) :
    (l.components coefficients).map (Expr.number ρ) =
      coefficients.map fun cs => weighted cs (l.before ρ) := by
  rw [components, List.map_map]
  apply List.map_congr_left
  intro cs _
  rw [Function.comp_apply, Expr.number_sum]
  exact total_scale cs l.vars (·.1)

theorem lex_of_decrease {coefficients : List (List Int)}
    (h : (lexicographicDecrease (l.deltas coefficients)).holds ρ = true) :
    List.Lex (· < ·) (coefficients.map fun cs => weighted cs (l.after ρ))
      (coefficients.map fun cs => weighted cs (l.before ρ)) := by
  refine lex_of_lexicographicDecrease (fun cs _ => ?_) h
  rw [Expr.number_sum, before, after, ← weighted_sub]
  simp only [← Expr.number_minus]
  exact total_scale cs l.vars fun x => .minus x.1 x.2

theorem lex_of_not_failure {r : RankingRow} {components : List Expr} {e : Expr}
    (hfound : r.function = .found components) (hfailure : l.failure? r = some e)
    (he : e.holds ρ = false) (hentered : l.loop.preGuard.holds ρ = true)
    (hended : l.loop.postGuard.holds ρ = true) :
    List.Lex (· < ·) (r.coefficients.map fun cs => weighted cs (l.after ρ))
      (r.coefficients.map fun cs => weighted cs (l.before ρ)) := by
  rw [failure?, hfound] at hfailure
  cases hfailure
  apply lex_of_decrease
  simpa [turn, hentered, hended] using he

end RankedLoop

def LoopTemplate.ranked (l : LoopTemplate) : RankedLoop :=
  ⟨l, l.intVars.map fun x => (.intVar x.lb, x.post)⟩

theorem RankingDomain.loops_of_ofLoops {s : LoopSystem} {maxComponents maxRefinements : Nat}
    {d : RankingDomain} (h : ofLoops s maxComponents maxRefinements = .ok d) :
    d.loops = s.loops.map LoopTemplate.ranked := by
  obtain ⟨loops, hloops, h⟩ := Except.exists_of_bind_ok h
  cases h
  refine eq_map_of_mapM_ok (fun {l ranked} hl => ?_) hloops
  obtain ⟨vars, hvars, hl⟩ := Except.exists_of_bind_ok hl
  cases hl
  rw [LoopTemplate.ranked, ← eq_map_of_mapM_ok (fun {x pair} hx => ?_) hvars]
  obtain ⟨-, -, hx⟩ := Except.exists_of_bind_ok hx
  exact (Except.ok.inj hx).symm

section descent

variable {b a a' : Int} {xs ys : List Int}

/-- A tuple as a numeral with digits from `-b` to `b`, after an initial part. -/
def numeral (b a : Int) : List Int → Int
  | [] => a
  | x :: xs => numeral b (a * (2 * b + 1) + (x + b)) xs

def Digits (b : Int) (xs : List Int) : Prop := ∀ x ∈ xs, -b ≤ x ∧ x ≤ b

theorem Digits.cons {x : Int} : Digits b (x :: xs) ↔ (-b ≤ x ∧ x ≤ b) ∧ Digits b xs :=
  List.forall_mem_cons

theorem numeral_nonneg (hxs : Digits b xs) (h : 0 ≤ a) : 0 ≤ numeral b a xs := by
  induction xs generalizing a with
  | nil => exact h
  | cons x xs ih =>
    obtain ⟨hx, hxs⟩ := Digits.cons.mp hxs
    have hbase : 0 ≤ a * (2 * b + 1) := Int.mul_nonneg h (by omega)
    exact ih hxs (by omega)

/-- A larger initial part makes up for all digits after it. -/
theorem numeral_lt (hlength : xs.length = ys.length) (hxs : Digits b xs) (hys : Digits b ys)
    (h : a < a') : numeral b a xs < numeral b a' ys := by
  induction xs generalizing ys a a' with
  | nil =>
    obtain rfl := List.length_eq_zero_iff.mp hlength.symm
    exact h
  | cons x xs ih =>
    cases ys with
    | nil => cases hlength
    | cons y ys =>
      obtain ⟨hx, hxs⟩ := Digits.cons.mp hxs
      obtain ⟨hy, hys⟩ := Digits.cons.mp hys
      rw [numeral, numeral]
      refine ih (by simpa using hlength) hxs hys ?_
      have hbase : (a + 1) * (2 * b + 1) ≤ a' * (2 * b + 1) :=
        Int.mul_le_mul_of_nonneg_right h (by omega)
      linarith

theorem numeral_lt_of_lex (h : List.Lex (· < ·) xs ys) (hlength : xs.length = ys.length)
    (hxs : Digits b xs) (hys : Digits b ys) : numeral b a xs < numeral b a ys := by
  induction h generalizing a with
  | nil => cases hlength
  | rel hlt =>
    obtain ⟨-, hxs⟩ := Digits.cons.mp hxs
    obtain ⟨-, hys⟩ := Digits.cons.mp hys
    rw [numeral, numeral]
    exact numeral_lt (by simpa using hlength) hxs hys (by omega)
  | cons _ ih =>
    exact ih (by simpa using hlength) (Digits.cons.mp hxs).2 (Digits.cons.mp hys).2

/-- Tuples of bounded numbers do not decrease for ever. -/
theorem not_forall_lex {t : Nat → List Int} (hlength : ∀ n, (t (n + 1)).length = (t n).length)
    (ht : ∀ n, Digits b (t n)) : ¬∀ n, List.Lex (· < ·) (t (n + 1)) (t n) := by
  intro hlex
  have hbound : ∀ n : Nat, numeral b 0 (t n) + n ≤ numeral b 0 (t 0) := by
    intro n
    induction n with
    | zero => simp
    | succ n ih =>
      have hlt := numeral_lt_of_lex (a := 0) (hlex n) (hlength n) (ht (n + 1)) (ht n)
      omega
  have hlast := hbound ((numeral b 0 (t 0)).toNat + 1)
  have hnonneg := numeral_nonneg (ht ((numeral b 0 (t 0)).toNat + 1)) (Int.le_refl 0)
  omega

end descent

theorem exists_weighted_bound (b : Nat) (cs : List Int) :
    ∃ k : Nat, ∀ xs : List Int, (∀ x ∈ xs, x.natAbs ≤ b) → (weighted cs xs).natAbs ≤ k := by
  induction cs with
  | nil => exact ⟨0, fun xs _ => by simp [weighted]⟩
  | cons c cs ih =>
    obtain ⟨k, hk⟩ := ih
    refine ⟨c.natAbs * b + k, fun xs hxs => ?_⟩
    cases xs with
    | nil => simp [weighted]
    | cons x xs =>
      have hx : (c * x).natAbs ≤ c.natAbs * b := by
        rw [Int.natAbs_mul]
        exact Nat.mul_le_mul_left _ (hxs x List.mem_cons_self)
      have hrest := hk xs fun y hy => hxs y (List.mem_cons_of_mem _ hy)
      rw [weighted]
      omega

theorem exists_digits (b : Nat) (coefficients : List (List Int)) :
    ∃ k : Nat, ∀ xs : List Int, (∀ x ∈ xs, x.natAbs ≤ b) →
      Digits k (coefficients.map fun cs => weighted cs xs) := by
  induction coefficients with
  | nil => exact ⟨0, fun xs _ x hx => nomatch hx⟩
  | cons cs coefficients ih =>
    obtain ⟨j, hj⟩ := exists_weighted_bound b cs
    obtain ⟨k, hk⟩ := ih
    refine ⟨j + k, fun xs hxs => Digits.cons.mpr ⟨?_, fun y hy => ?_⟩⟩
    · have := hj xs hxs
      dsimp only
      omega
    · have := hk xs hxs y hy
      omega

namespace RankingDomain

variable {σ : Type} [Oracle σ]

def attempt (names : List (List String)) (turns : List (List Int)) :
    Session Statistics σ (Answer × List (List Int)) := do
  let answer ← solve names turns
  if answer = .sat then return (answer, ← readCoefficients names) else return (answer, [])

def proceed (next : ExceptT Error (StateM Statistics) (Option (List (List Int)))) :
    Except Error (Answer × List (List Int)) →
      ExceptT Error (StateM Statistics) (Option (List (List Int)))
  | .ok (.sat, coefficients) => pure (some coefficients)
  | .ok (.unsat, _) => next
  | .ok (.unknown _, _) => pure none
  | .error e => throw e

theorem search_succ (parent : σ) (vars : Nat) (turns : List (List Int)) (attempts components : Nat)
    (stats : Statistics) : search parent vars turns (attempts + 1) components stats =
      let outcome := attempt (coefficientNames components vars) turns
        ({ stats with instances := stats.instances + 1 }, Oracle.spawn parent)
      proceed (search parent vars turns attempts (components + 1)) outcome.1 outcome.2.1 := by
  have hmodify : (modify fun s => { s with instances := s.instances + 1 } :
      ExceptT Error (StateM Statistics) Unit) stats =
        (.ok (), { stats with instances := stats.instances + 1 }) := rfl
  rw [search, Session.bind_ok hmodify]
  cases houtcome : attempt (coefficientNames components vars) turns
      ({ stats with instances := stats.instances + 1 }, Oracle.spawn parent) with
  | mk r t =>
    obtain ⟨t, p⟩ := t
    have hrun : (ExceptT.mk (fun s => Prod.map id Prod.fst
        (attempt (coefficientNames components vars) turns (s, Oracle.spawn parent))) :
          ExceptT Error (StateM Statistics) _)
        { stats with instances := stats.instances + 1 } = (r, t) :=
      congrArg (Prod.map id Prod.fst) houtcome
    cases r with
    | error e => exact Session.bind_error hrun
    | ok found =>
      refine (Session.bind_ok hrun).trans ?_
      obtain ⟨answer, coefficients⟩ := found
      cases answer <;> rfl

end RankingDomain

end InvariantSynthesis
