import InvariantSynthesis.Proofs.Analysis.LeastValue

namespace InvariantSynthesis

theorem TemplateDomain.Inductive.of_stronger {d : TemplateDomain} {context context' : List Expr}
    {Γ : Sorts} {range : Int × Int} {w : List RowValue} (h : d.Inductive context' Γ range w)
    (hstronger : ∀ ρ : Valuation, ρ.Typed Γ range → (∀ e ∈ context, e.holds ρ = true) →
      ∀ e ∈ context', e.holds ρ = true) : d.Inductive context Γ range w :=
  ⟨h.toProper, fun {ρ} hρ hcontext => h.admits hρ (hstronger ρ hρ hcontext)⟩

theorem TemplateDomain.Least.below_of_stronger {d : TemplateDomain} {context context' : List Expr}
    {Γ : Sorts} {range : Int × Int} {v w : List RowValue} (hv : d.Least context Γ range v)
    (hw : d.Least context' Γ range w)
    (hstronger : ∀ ρ : Valuation, ρ.Typed Γ range → (∀ e ∈ context, e.holds ρ = true) →
      ∀ e ∈ context', e.holds ρ = true) : Below v w :=
  hv.below (hw.toInductive.of_stronger hstronger)

variable {config config' : Config} {s : LoopSystem} {context : List Expr} {range : Int × Int}
  {i j : Invariant}

/-- A state that gives the declared variables their sorts satisfies the same assumptions as a state
in which all values are of the sorts at which they are used. -/
theorem Concluded.sorted (h : Concluded config s context range i) {ρ : Valuation}
    (hρ : ρ.Typed s.declared range) :
    ρ.sorted.InRange range ∧ ∀ e ∈ context, e.holds ρ.sorted = e.holds ρ := by
  obtain ⟨foci, -, -, hsearched, hΓ, -, hcontext, -⟩ := h.settled
  rename_i F c symbols asked o p Γ ps
  refine ⟨hρ.inRange_sorted F.zero_mem, fun e he => ?_⟩
  exact hρ.holds_sorted hΓ (F.fits hsearched.keeps e ((hcontext e).mp he))

/-- A stronger precondition gives rows that are no higher. The rows are those of the same shape of
template polyhedra in two runs with the same assumptions but for the last, the precondition. Both
may use either strategy, any oracle and the verifier or the analyzer. The one precondition has to
follow from the other only in states that are in range and satisfy the other assumptions, among
which is the procedure's formula. -/
theorem template_rows_monotone {shape : TemplateShape} {strategy strategy' : Strategy}
    (hdomain : config.domain = .template shape strategy)
    (hdomain' : config'.domain = .template shape strategy')
    (hwithheld : config'.withheld = config.withheld) {P Q : Expr}
    (hP : Concluded config s (context ++ [P]) range i)
    (hQ : Concluded config' s (context ++ [Q]) range j)
    (himplies : ∀ ρ : Valuation, ρ.InRange range → (∀ e ∈ context, e.holds ρ = true) →
      P.holds ρ = true → Q.holds ρ = true) :
    ∃ d v w, TemplateDomain.ofLoops s shape config.withheld range = .ok d ∧
      i.template? = some (d, v) ∧ j.template? = some (d, w) ∧ TemplateDomain.Below v w := by
  obtain ⟨d, v, hd, hi, hv⟩ := hP.least hdomain
  obtain ⟨d', w, hd', hj, hw⟩ := hQ.least hdomain'
  rw [hwithheld] at hd'
  obtain rfl : d = d' := Except.ok.inj (hd.symm.trans hd')
  refine ⟨d, v, w, hd, hi, hj, hv.below_of_stronger hw fun ρ hρ hholds => ?_⟩
  obtain ⟨hrange, hsame⟩ := hP.sorted hρ
  have hsorted : ∀ e ∈ context ++ [P], e.holds ρ.sorted = true := fun e he =>
    (hsame e he).trans (hholds e he)
  have hq : Q.holds ρ.sorted = true := himplies ρ.sorted hrange
    (fun e he => hsorted e (List.mem_append_left _ he)) (hsorted P (by simp))
  intro e he
  rcases List.mem_append.mp he with hcontext | hlast
  · exact hholds e (List.mem_append_left _ hcontext)
  · rw [← (hQ.sorted hρ).2 e he, List.mem_singleton.mp hlast]
    exact hq

namespace Verifier

/-- The counter has already been raised. -/
def raised : Expr := .le (.int 1) (.intVar "x1")

theorem run_raised :
    (run (create counting counter none raised, ((BitSolver.fresh 2 1000).execute []).1)).1 = .ok () ∧
      (run (create counting counter none raised,
        ((BitSolver.fresh 2 1000).execute []).1)).2.1.invariant.map
          (fun i => i.template?.map (·.2)) = some (some [.bottom, .bottom]) := by
  decide +kernel

/-- Nothing flows back if the counter has been raised: these rows are below those that are found
without a precondition. -/
theorem template_rows_monotone_counter :
    ∃ i j, (run (create counting counter none raised,
        ((BitSolver.fresh 2 1000).execute []).1)).2.1.invariant = some i ∧
      (Analyzer.run counter (.bool true) (⟨bisecting, .zero, none, [], 0⟩,
        ((BitSolver.fresh 2 1000).execute []).1)).2.1.invariant = some j ∧
      ∃ d w, i.template? = some (d, [.bottom, .bottom]) ∧ j.template? = some (d, w) ∧
        TemplateDomain.Below [.bottom, .bottom] w := by
  obtain ⟨hrun, hrows⟩ := run_raised
  obtain ⟨i, hi, hrows⟩ := Option.map_eq_some_iff.mp hrows
  obtain ⟨j, hj⟩ := Option.isSome_iff_exists.mp run_bisecting.2
  have hraised : Concluded counting (.ofProcedures [counter])
      ([counter.formula, counter.enablingExpr] ++ [raised]) (-(2 ^ (2 - 1)), 2 ^ (2 - 1) - 1) i :=
    .of_verifier (by decide) (by decide) hrun (by decide +kernel) hi
  have hany : Concluded bisecting (.ofProcedures [counter])
      ([counter.formula, counter.enablingExpr] ++ [.bool true])
      (-(2 ^ (2 - 1)), 2 ^ (2 - 1) - 1) j := concluded_bisecting hj
  obtain ⟨d, v, w, -, hv, hw, hbelow⟩ := template_rows_monotone (show counting.domain = _ from rfl)
    (show bisecting.domain = _ from rfl) rfl hraised hany fun ρ _ _ _ => Expr.holds_bool ρ true
  obtain rfl : v = [.bottom, .bottom] := by
    rw [hv] at hrows
    exact Option.some.inj hrows
  exact ⟨i, j, hi, hj, d, w, hv, hw, hbelow⟩

end Verifier

end InvariantSynthesis
