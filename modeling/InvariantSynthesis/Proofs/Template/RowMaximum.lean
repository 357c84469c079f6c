import InvariantSynthesis.Proofs.BitSolver.Exact
import InvariantSynthesis.Proofs.Domain.Improvement
import InvariantSynthesis.Proofs.Expr.LinearForm

namespace InvariantSynthesis

theorem TemplateShape.linearForm_exprs {shape : TemplateShape} {withheld : NameSet}
    {vars : List LoopVar} {e : Expr} (h : e ∈ shape.exprs withheld vars) :
    ∃ form, e.linearForm? = some form ∧ form.constant = 0 ∧ form.weight ≤ 2 := by
  have hsmall : ∀ {i : Int}, e.Adds i → i ≤ 2 →
      ∃ form, e.linearForm? = some form ∧ form.constant = 0 ∧ form.weight ≤ 2 := by
    intro i hadds hi
    obtain ⟨form, hform, hconstant, hweight⟩ :=
      hadds.linearForm (hi.trans (by unfold Bounded.greatest; decide))
    exact ⟨form, hform, hconstant, hweight.trans hi⟩
  rcases mem_exprs h with ⟨x, -, rfl | rfl⟩ | ⟨x, -, y, -, he⟩
  · exact hsmall (Expr.adds_intVar x.lb) (by decide)
  · exact hsmall (Expr.adds_intVar x.lb).neg (by decide)
  · have hx := Expr.adds_intVar x.lb
    have hy := Expr.adds_intVar y.lb
    simp only [relations, List.mem_cons, List.not_mem_nil, or_false] at he
    rcases he with rfl | rfl | rfl | rfl
    · exact hsmall (hx.sub hy (by decide)) (by decide)
    · exact hsmall (hy.sub hx (by decide)) (by decide)
    · exact hsmall (hx.add hy (by decide)) (by decide)
    · exact hsmall (hx.neg.sub hy (by decide)) (by decide)

namespace LoopSystem

variable {s : LoopSystem}

theorem row?_of_linearForm {l : LoopTemplate} {e : Expr} {r : Option TemplateRow}
    (h : s.row? l e = .ok r) (hform : e.linearForm?.isSome = true) :
    ∃ r', r = some r' ∧ r'.loop = l ∧ r'.expr = e := by
  obtain ⟨-, -, h⟩ := Except.exists_of_bind_ok h
  obtain ⟨-, -, h⟩ := Except.exists_of_bind_ok h
  obtain ⟨form, hform⟩ := Option.isSome_iff_exists.mp hform
  rw [hform] at h
  cases h
  exact ⟨_, rfl, rfl, rfl⟩

theorem rows_of_loop {l : LoopTemplate} {es : List Expr} {rs : List (Option TemplateRow)}
    (h : es.mapM (s.row? l) = .ok rs) (hform : ∀ e ∈ es, e.linearForm?.isSome = true) :
    (rs.filterMap id).map (fun r => (r.loop, r.expr)) = es.map (l, ·) := by
  have hrows := forall₂_of_mapM_ok h
  clear h
  induction hrows with
  | nil => rfl
  | cons hrow _ ih =>
    obtain ⟨r, rfl, hloop, hexpr⟩ := row?_of_linearForm hrow (hform _ List.mem_cons_self)
    rw [List.filterMap_cons, id, List.map_cons, List.map_cons, hloop, hexpr,
      ih fun e he => hform e (List.mem_cons_of_mem _ he)]

theorem rows_complete {shape : TemplateShape} {withheld : NameSet} {rows : List TemplateRow}
    (h : s.rows shape withheld = .ok rows) : rows.map (fun r => (r.loop, r.expr)) =
      s.loops.flatMap fun l => (shape.exprs withheld l.intVars).map (l, ·) := by
  obtain ⟨lists, hlists, h⟩ := Except.exists_of_bind_ok h
  cases h
  have hloops := forall₂_of_mapM_ok hlists
  clear hlists h
  generalize s.loops = loops at hloops
  induction hloops with
  | nil => rfl
  | cons hloop _ ih =>
    rw [List.flatten_cons, List.filterMap_append, List.map_append, List.flatMap_cons, ih,
      rows_of_loop hloop]
    intro e he
    obtain ⟨form, hform, -⟩ := TemplateShape.linearForm_exprs he
    rw [hform, Option.isSome_some]

end LoopSystem

namespace TemplateDomain

variable {d : TemplateDomain}

theorem form_of_rows {s : LoopSystem} {shape : TemplateShape} {withheld : NameSet}
    (hrows : s.rows shape withheld = .ok d.rows) {r : TemplateRow} (hr : r ∈ d.rows) :
    r.expr.linearForm? = some r.form ∧ r.form.constant = 0 ∧ r.form.weight ≤ 2 := by
  obtain ⟨-, hexpr, hrow⟩ := LoopSystem.mem_rows hrows r hr
  obtain ⟨form, hform, hconstant, hweight⟩ := TemplateShape.linearForm_exprs hexpr
  obtain ⟨-, -, -, hform'⟩ := LoopSystem.row?_ok hrow
  cases hform.symm.trans hform'
  exact ⟨hform, hconstant, hweight⟩

theorem rowMax_fits {s : LoopSystem} {shape : TemplateShape} {withheld : NameSet}
    (hrows : s.rows shape withheld = .ok d.rows) {r : TemplateRow} (hr : r ∈ d.rows) :
    Bounded.Fits (d.rowMax r) := by
  apply LinearForm.maxOver_fits
  rw [(form_of_rows hrows hr).2.1]
  exact ⟨by decide, by decide⟩

/-- Small bounds are far from the ends of 64 bits, so the largest value of a row is exact. -/
theorem rowMax_eq_peak {s : LoopSystem} {shape : TemplateShape} {withheld : NameSet} {size : Int}
    (hrows : s.rows shape withheld = .ok d.rows) (hlower : |d.lower| ≤ size) (hupper : |d.upper| ≤ size)
    (hsize : 2 * size ≤ Bounded.greatest) {r : TemplateRow} (hr : r ∈ d.rows) :
    d.rowMax r = r.form.peak d.lower d.upper := by
  obtain ⟨-, hconstant, hweight⟩ := form_of_rows hrows hr
  apply LinearForm.maxOver_eq_peak hlower hupper
  rw [hconstant, abs_zero, zero_add]
  exact (mul_le_mul_of_nonneg_right hweight ((abs_nonneg _).trans hlower)).trans hsize

end TemplateDomain

/-- The valuation that reads its integers off an assignment. -/
def Valuation.ofInts (x : String → Int) : Valuation :=
  fun n s => if s = .bool then .bool true else .int (x n)

theorem Valuation.inRange_ofInts {x : String → Int} {range : Int × Int}
    (h : ∀ n, range.1 ≤ x n ∧ x n ≤ range.2) : (ofInts x).InRange range := by
  intro n s
  cases s with
  | bool => exact rfl
  | int => exact ⟨rfl, h n⟩

theorem Valuation.InRange.number {ρ : Valuation} {range : Int × Int} (h : ρ.InRange range)
    (n : String) : range.1 ≤ (ρ n .int).number ∧ (ρ n .int).number ≤ range.2 := by
  have hn := h n .int
  cases hv : ρ n .int with
  | bool b =>
    rw [hv] at hn
    cases hn
  | int k =>
    rw [hv] at hn
    exact hn.2

theorem Expr.isGreatest_number {e : Expr} {form : LinearForm} {range : Int × Int}
    (h : e.linearForm? = some form) (hrange : range.1 ≤ range.2) :
    IsGreatest {k | ∃ ρ : Valuation, ρ.InRange range ∧ e.number ρ = k}
      (form.peak range.1 range.2) := by
  obtain ⟨⟨x, hx, hpeak⟩, hbound⟩ := LinearForm.isGreatest_peak hrange form
  constructor
  · exact ⟨.ofInts x, Valuation.inRange_ofInts hx, (number_of_linearForm h).trans hpeak⟩
  · rintro k ⟨ρ, hρ, rfl⟩
    exact hbound ⟨_, hρ.number, (number_of_linearForm h).symm⟩

namespace TemplateDomain

variable {d : TemplateDomain} {range : Int × Int} {r : TemplateRow} {v v' : List RowValue} {i : Nat}
  {k : Int} {changed : Bool}

theorem top_of_raise (hr : d.rows[i]? = some r) (h : d.raise v i k = .ok (changed, v')) :
    v[i]? ≠ some .top ∧ v'[i]? = some .top ↔ changed = true ∧ d.rowMax r ≤ k := by
  obtain ⟨r', old, hr', hold, rfl, rfl⟩ := raise_ok h
  cases hr.symm.trans hr'
  have hlength := (List.getElem?_eq_some_iff.mp hold).1
  rw [hold, List.getElem?_set_self hlength, Option.some_inj, decide_eq_true_iff, ne_eq,
    Option.some_inj]
  constructor
  · rintro ⟨hnot, htop⟩
    have hne : join (d.rowMax r) k old ≠ old := fun h => hnot (h.symm.trans htop)
    rw [join_eq_of_ne hne] at htop
    refine ⟨hne, ?_⟩
    by_contra hlt
    rw [if_pos (not_le.mp hlt)] at htop
    cases htop
  · rintro ⟨hne, hle⟩
    refine ⟨?_, by rw [join_eq_of_ne hne, if_neg (not_lt.mpr hle)]⟩
    rintro rfl
    exact hne rfl

/-- The inequality of a row with this bound holds throughout the range exactly if the bound is at
least the row's largest value. -/
theorem forall_holds_iff
    (h : IsGreatest {k | ∃ ρ : Valuation, ρ.InRange range ∧ r.expr.number ρ = k} (d.rowMax r)) :
    (∀ ρ : Valuation, ρ.InRange range → (Expr.le r.expr (.int k)).holds ρ = true) ↔
      d.rowMax r ≤ k := by
  simp only [Expr.holds_le, Expr.number_int, decide_eq_true_eq]
  constructor
  · intro hall
    obtain ⟨ρ, hρ, hmax⟩ := h.1
    exact hmax ▸ hall ρ hρ
  · intro hle ρ hρ
    exact (h.2 ⟨ρ, hρ, rfl⟩).trans hle

end TemplateDomain

theorem BitSolver.range_small {width limit : Nat} {o : BitSolver} (h : create width limit = .ok o) :
    o.range.1 ≤ o.range.2 ∧ |o.range.1| ≤ 2 ^ 31 ∧ |o.range.2| ≤ 2 ^ 31 := by
  obtain ⟨hmin, hmax, rfl⟩ := of_create_ok h
  have hone : (1 : Int) ≤ 2 ^ (width - 1) := one_le_pow₀ (by decide)
  have hpow : (2 : Int) ^ (width - 1) ≤ 2 ^ 31 := pow_le_pow_right₀ (by decide) (by omega)
  rw [range_eq, fresh]
  simp only [abs_le]
  omega

/-- Linear forms are exact, every expression of a shape has its row, and the largest value of a row
in the range of a solver is reached there and not exceeded. A row is given up exactly when it is
raised and its inequality then holds throughout the range. -/
theorem TemplateDomain.linear_forms_and_maxima_exact :
    (∀ (e : Expr) (form : LinearForm), e.linearForm? = some form → form.Exact e) ∧
    ∀ {width limit : Nat} {o : BitSolver} {s : LoopSystem} {shape : TemplateShape}
      {withheld : NameSet} {d : TemplateDomain}, BitSolver.create width limit = .ok o →
      ofLoops s shape withheld o.range = .ok d →
      d.rows.map (fun r => (r.loop, r.expr)) =
        s.loops.flatMap (fun l => (shape.exprs withheld l.intVars).map (l, ·)) ∧
      ∀ i r, d.rows[i]? = some r → r.expr.linearForm? = some r.form ∧
        IsGreatest {k | ∃ ρ : Valuation, ρ.InRange o.range ∧ r.expr.number ρ = k} (d.rowMax r) ∧
        ∀ v k changed v', d.raise v i k = .ok (changed, v') →
          (v[i]? ≠ some .top ∧ v'[i]? = some .top ↔ changed = true ∧
            ∀ ρ : Valuation, ρ.InRange o.range → (Expr.le r.expr (.int k)).holds ρ = true) := by
  refine ⟨fun e form => Expr.exact_of_linearForm, ?_⟩
  intro width limit o s shape withheld d ho hd
  obtain ⟨rows, hrows, hd⟩ := Except.exists_of_bind_ok hd
  cases hd
  obtain ⟨hrange, hlower, hupper⟩ := BitSolver.range_small ho
  refine ⟨LoopSystem.rows_complete hrows, fun i r hr => ?_⟩
  have hmem := List.mem_of_getElem? hr
  obtain ⟨hform, -⟩ := form_of_rows hrows hmem
  have hmax := Expr.isGreatest_number hform hrange
  rw [← rowMax_eq_peak (d := ⟨rows, o.range.1, o.range.2⟩) hrows hlower hupper (by decide) hmem]
    at hmax
  refine ⟨hform, hmax, fun v k changed v' h => ?_⟩
  rw [top_of_raise hr h, forall_holds_iff hmax]

def LoopTemplate.twofold : LoopTemplate where
  id := 0
  back := 2
  head := 1
  preGuard := .bool true
  postGuard := .bool true
  vars := [⟨"x#lb2", .intVar "x1", false⟩, ⟨"x#lb2", .intVar "x2", false⟩]
  pathConds := []
  sorts := .ofList [("x#lb2", .int)]

/-- With four bits, the difference of the variable to itself is at most zero, and its sum with itself
is at most fourteen, which is where its row is given up. -/
theorem TemplateDomain.linear_forms_and_maxima_exact_twofold : ∃ o d,
    BitSolver.create 4 100 = .ok o ∧
      ofLoops ⟨[.twofold], LoopTemplate.twofold.sorts⟩ .octagons .empty o.range = .ok d ∧
      ∃ r r', d.rows[4]? = some r ∧ r.expr = .sub (.intVar "x#lb2") (.intVar "x#lb2") ∧
        d.rows[6]? = some r' ∧ r'.expr = .add [.intVar "x#lb2", .intVar "x#lb2"] ∧
        IsGreatest {k | ∃ ρ : Valuation, ρ.InRange o.range ∧ r.expr.number ρ = k} 0 ∧
        IsGreatest {k | ∃ ρ : Valuation, ρ.InRange o.range ∧ r'.expr.number ρ = k} 14 ∧
        ∃ v', d.raise d.start 6 14 = .ok (true, v') ∧ v'[6]? = some .top ∧
          ∀ ρ : Valuation, ρ.InRange o.range → (Expr.le r'.expr (.int 14)).holds ρ = true := by
  obtain ⟨d, hd⟩ : ∃ d, ofLoops ⟨[.twofold], LoopTemplate.twofold.sorts⟩ .octagons .empty
    (BitSolver.fresh 4 100).range = .ok d := ⟨_, rfl⟩
  have hexact := linear_forms_and_maxima_exact.2
    (BitSolver.create_eq 100 (by decide) (by decide)) hd
  cases hd
  obtain ⟨-, hdifference, -⟩ := hexact.2 4 _ rfl
  obtain ⟨-, hsum, hraise⟩ := hexact.2 6 _ rfl
  have htop := (hraise (List.replicate 8 .bottom) 14 true _ rfl).mp ⟨by decide, rfl⟩
  exact ⟨_, _, rfl, rfl, _, _, rfl, rfl, rfl, rfl, hdifference, hsum, _, rfl, rfl, htop.2⟩

end InvariantSynthesis
