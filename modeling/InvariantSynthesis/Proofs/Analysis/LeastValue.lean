import InvariantSynthesis.Proofs.Analysis.Conclusion
import InvariantSynthesis.Proofs.Search.Rise

namespace InvariantSynthesis

/-- The rows of an invariant of template polyhedra and their values. -/
def Invariant.template? : Invariant → Option (TemplateDomain × List RowValue)
  | ⟨.enumeration (.template d), v⟩ => some (d, v)
  | ⟨.bisection d, v⟩ => some (d, v)
  | _ => none

/-- A tight value about which nothing is left to ask is the least inductive value. -/
theorem TemplateDomain.Tight.least {d : TemplateDomain} {s : LoopSystem} {context : List Expr}
    {range : Int × Int} {v : List RowValue} (h : d.Tight context s.declared range v)
    (hcarried : ∀ r ∈ d.rows, r.Carried s)
    (hclosed : ∀ l ∈ s.loops, ∃ focus, l.inFocus focus = true ∧
      (Domain.template d).Closed v focus context s.declared range) :
    d.Least context s.declared range v := by
  refine ⟨⟨h.toProper, fun {ρ} hρ hcontext hpre {i r x} hr hx hguard => ?_⟩, h.below⟩
  obtain ⟨focus, hin, hclosed⟩ := hclosed r.loop (hcarried r (List.mem_of_getElem? hr)).mem
  exact admits_of_conditions hr hx hin (hclosed ρ hρ hcontext hpre) hguard

theorem Settled.least {config : Config} {shape : TemplateShape} {strategy : Strategy}
    {s : LoopSystem} {context : List Expr} {range : Int × Int} {foci : List (Option Nat)}
    {i : Invariant} (h : Settled config s context range foci i)
    (hdomain : config.domain = .template shape strategy) :
    ∃ d v, TemplateDomain.ofLoops s shape config.withheld range = .ok d ∧
      i.template? = some (d, v) ∧ d.Least context s.declared range v := by
  obtain ⟨ps, hs⟩ := h.loops
  have hm := h.selected
  rw [Method.ofConfig, hdomain] at hm
  have hcarried : ∀ {d}, TemplateDomain.ofLoops s shape config.withheld range = .ok d →
      ∀ r ∈ d.rows, r.Carried s := by
    intro d hd
    obtain ⟨rows, hrows, hd⟩ := Except.exists_of_bind_ok hd
    cases hd
    rw [hs] at hrows ⊢
    exact LoopSystem.row_carried hrows
  obtain ⟨m, value⟩ := i
  cases strategy with
  | enumeration =>
    obtain ⟨d, hd, hm⟩ := Except.exists_of_bind_ok hm
    cases hm
    have htight := h.invariant (P := d.Tight context s.declared range) TemplateDomain.tight_start
      fun {_ _ F _ _ _ _ _ _ _ _ _} hkeeps hΓ hlive hv hrun =>
        hv.rises (TemplateDomain.enumerate_rises hkeeps hrun) (hcarried hd) hΓ F.zero_mem hlive
    exact ⟨d, value, hd, rfl, htight.least (hcarried hd)
      fun l hl => h.closed (Domain.Unranked.descends (d := .template d) trivial) trivial hl⟩
  | bisection =>
    obtain ⟨d, hd, hm⟩ := Except.exists_of_bind_ok hm
    cases hm
    have htight := h.invariant (P := d.Tight context s.declared range) TemplateDomain.tight_start
      fun {_ _ F _ _ _ _ _ _ _ _ _} hkeeps hΓ hlive hv hrun =>
        hv.rises (TemplateDomain.bisect_rises hkeeps hrun) (hcarried hd) hΓ F.zero_mem hlive
    exact ⟨d, value, hd, rfl, htight.least (hcarried hd)
      fun l hl => h.closed (Domain.Unranked.descends (d := .template d) trivial) trivial hl⟩

theorem Concluded.least {config : Config} {shape : TemplateShape} {strategy : Strategy}
    {s : LoopSystem} {context : List Expr} {range : Int × Int} {i : Invariant}
    (h : Concluded config s context range i) (hdomain : config.domain = .template shape strategy) :
    ∃ d v, TemplateDomain.ofLoops s shape config.withheld range = .ok d ∧
      i.template? = some (d, v) ∧ d.Least context s.declared range v := by
  obtain ⟨foci, hsettled⟩ := h.settled
  exact hsettled.least hdomain

/-- The rows that a run ends with are the least inductive value, and every other run for the same
rows ends with the same value: with either strategy, by the verifier or the analyzer, and whatever
oracle it asks. -/
theorem template_value_least {config : Config} {shape : TemplateShape} {strategy : Strategy}
    (hdomain : config.domain = .template shape strategy) {s : LoopSystem} {context : List Expr}
    {range : Int × Int} {i : Invariant} (h : Concluded config s context range i) :
    ∃ d v, TemplateDomain.ofLoops s shape config.withheld range = .ok d ∧
      i.template? = some (d, v) ∧ d.Least context s.declared range v ∧
      ∀ {config' : Config} {strategy' : Strategy} {i' : Invariant},
        config'.domain = .template shape strategy' → config'.withheld = config.withheld →
        Concluded config' s context range i' → i'.template? = some (d, v) := by
  obtain ⟨d, v, hd, hi, hleast⟩ := h.least hdomain
  refine ⟨d, v, hd, hi, hleast, fun {config' strategy' i'} hdomain' hwithheld h' => ?_⟩
  obtain ⟨d', v', hd', hi', hleast'⟩ := h'.least hdomain'
  rw [hwithheld] at hd'
  obtain rfl : d = d' := Except.ok.inj (hd.symm.trans hd')
  rw [hi', hleast'.unique hleast]

namespace Verifier

def bisecting : Config where
  domain := .template .intervals .bisection
  width := 2

theorem concluded_counting {i : Invariant}
    (hi : (run (create counting counter none (.bool true),
      ((BitSolver.fresh 2 1000).execute []).1)).2.1.invariant = some i) :
    Concluded counting (.ofProcedures [counter]) (Analyzer.assumptions counter (.bool true))
      (-(2 ^ (2 - 1)), 2 ^ (2 - 1) - 1) i :=
  .of_verifier (by decide) (by decide) run_counter.1 rounds_counter hi

theorem run_bisecting :
    (Analyzer.run counter (.bool true)
        (⟨bisecting, .zero, none, [], 0⟩, ((BitSolver.fresh 2 1000).execute []).1)).1 = .ok () ∧
      (Analyzer.run counter (.bool true) (⟨bisecting, .zero, none, [], 0⟩,
        ((BitSolver.fresh 2 1000).execute []).1)).2.1.invariant.isSome = true := by
  decide +kernel

theorem concluded_bisecting {i : Invariant}
    (hi : (Analyzer.run counter (.bool true) (⟨bisecting, .zero, none, [], 0⟩,
      ((BitSolver.fresh 2 1000).execute []).1)).2.1.invariant = some i) :
    Concluded bisecting (.ofProcedures [counter]) (Analyzer.assumptions counter (.bool true))
      (-(2 ^ (2 - 1)), 2 ^ (2 - 1) - 1) i :=
  .of_analyzer (by decide) (by decide) rfl run_bisecting.1 (by decide +kernel) hi

/-- The verifier by enumeration and the analyzer by bisection find the same rows for the counter. -/
theorem template_value_least_counter :
    ∃ i i', (run (create counting counter none (.bool true),
        ((BitSolver.fresh 2 1000).execute []).1)).2.1.invariant = some i ∧
      (Analyzer.run counter (.bool true) (⟨bisecting, .zero, none, [], 0⟩,
        ((BitSolver.fresh 2 1000).execute []).1)).2.1.invariant = some i' ∧
      i.template?.map (·.2) = some [.top, .bound (-1)] ∧ i'.template? = i.template? := by
  have hrows : (run (create counting counter none (.bool true),
      ((BitSolver.fresh 2 1000).execute []).1)).2.1.invariant.map (fun i => i.template?.map (·.2)) =
        some (some [.top, .bound (-1)]) := by
    decide +kernel
  obtain ⟨i, hi, hrows⟩ := Option.map_eq_some_iff.mp hrows
  obtain ⟨i', hi'⟩ := Option.isSome_iff_exists.mp run_bisecting.2
  obtain ⟨d, v, -, hfound, -, hsame⟩ :=
    template_value_least (show counting.domain = _ from rfl) (concluded_counting hi)
  refine ⟨i, i', hi, hi', hrows, ?_⟩
  rw [hfound]
  exact hsame (show bisecting.domain = _ from rfl) rfl (concluded_bisecting hi')

end Verifier

end InvariantSynthesis
