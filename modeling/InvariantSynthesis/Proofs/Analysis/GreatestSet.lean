import InvariantSynthesis.Proofs.Analysis.Conclusion
import InvariantSynthesis.Proofs.Search.Refutation

namespace InvariantSynthesis

namespace Invariant

/-- The candidates of an invariant of equalities, and which of them are left. -/
def equalities? : Invariant → Option (EqualityDomain × List Bool)
  | ⟨.enumeration (.equalities d), v⟩ => some (d, v)
  | _ => none

def predicates? : Invariant → Option (PredicateDomain × List Bool)
  | ⟨.enumeration (.predicates d), v⟩ => some (d, v)
  | _ => none

end Invariant

namespace Settled

variable {config : Config} {s : LoopSystem} {context : List Expr} {range : Int × Int}
  {foci : List (Option Nat)} {i : Invariant}

theorem equalities_greatest (h : Settled config s context range foci i)
    (hdomain : config.domain = .equalities) :
    ∃ d v, EqualityDomain.ofLoops s = .ok d ∧ i.equalities? = some (d, v) ∧
      d.Greatest context s.declared range v := by
  obtain ⟨ps, hs⟩ := h.loops
  have hm := h.selected
  rw [Method.ofConfig, hdomain] at hm
  obtain ⟨d, hd, hm⟩ := Except.exists_of_bind_ok hm
  obtain ⟨m, value⟩ := i
  cases hm
  have hdeclared : ∀ c ∈ d.candidates, c.Declared s := by
    rw [hs] at hd ⊢
    exact EqualityDomain.declared hd
  have hample := h.invariant (P := d.Ample context s.declared range) CandidateDomain.ample_start
    (EqualityDomain.enumerate_ample hdeclared)
  exact ⟨d, value, hd, rfl, hample.greatest hdeclared
    fun l hl => h.closed (Domain.Unranked.descends (d := .equalities d) trivial) trivial hl⟩

theorem predicates_greatest (h : Settled config s context range foci i)
    (hdomain : config.domain = .predicates) :
    ∃ d v, PredicateDomain.ofLoops s = .ok d ∧ i.predicates? = some (d, v) ∧
      d.Greatest context s.declared range v := by
  obtain ⟨ps, hs⟩ := h.loops
  have hm := h.selected
  rw [Method.ofConfig, hdomain] at hm
  obtain ⟨d, hd, hm⟩ := Except.exists_of_bind_ok hm
  obtain ⟨m, value⟩ := i
  cases hm
  have hdeclared : ∀ c ∈ d.candidates, c.Declared s := by
    rw [hs] at hd ⊢
    exact PredicateDomain.declared hd
  have hample := h.invariant (P := d.Ample context s.declared range) CandidateDomain.ample_start
    (PredicateDomain.enumerate_ample hdeclared)
  exact ⟨d, value, hd, rfl, hample.greatest hdeclared
    fun l hl => h.closed (Domain.Unranked.descends (d := .predicates d) trivial) trivial hl⟩

end Settled

/-- The candidates that a search ends with are the greatest inductive set, and every other search for
the same loops ends with the same candidates: whatever foci it passes over, as the verifier and the
analyzer do, and whatever oracle it asks. -/
theorem candidates_greatest {config : Config} {s : LoopSystem} {context : List Expr}
    {range : Int × Int} {foci : List (Option Nat)} {i : Invariant}
    (h : Settled config s context range foci i) :
    (config.domain = .equalities → ∃ d v, EqualityDomain.ofLoops s = .ok d ∧
      i.equalities? = some (d, v) ∧ d.Greatest context s.declared range v ∧
      ∀ {config' : Config} {foci' : List (Option Nat)} {i' : Invariant},
        config'.domain = .equalities → Settled config' s context range foci' i' →
        i'.equalities? = some (d, v)) ∧
    (config.domain = .predicates → ∃ d v, PredicateDomain.ofLoops s = .ok d ∧
      i.predicates? = some (d, v) ∧ d.Greatest context s.declared range v ∧
      ∀ {config' : Config} {foci' : List (Option Nat)} {i' : Invariant},
        config'.domain = .predicates → Settled config' s context range foci' i' →
        i'.predicates? = some (d, v)) := by
  constructor
  · intro hdomain
    obtain ⟨d, v, hd, hi, hgreatest⟩ := h.equalities_greatest hdomain
    refine ⟨d, v, hd, hi, hgreatest, fun {config' foci' i'} hdomain' h' => ?_⟩
    obtain ⟨d', v', hd', hi', hgreatest'⟩ := h'.equalities_greatest hdomain'
    obtain rfl : d = d' := Except.ok.inj (hd.symm.trans hd')
    rw [hi', hgreatest'.unique hgreatest]
  · intro hdomain
    obtain ⟨d, v, hd, hi, hgreatest⟩ := h.predicates_greatest hdomain
    refine ⟨d, v, hd, hi, hgreatest, fun {config' foci' i'} hdomain' h' => ?_⟩
    obtain ⟨d', v', hd', hi', hgreatest'⟩ := h'.predicates_greatest hdomain'
    obtain rfl : d = d' := Except.ok.inj (hd.symm.trans hd')
    rw [hi', hgreatest'.unique hgreatest]

namespace Verifier

/-- A loop that raises one variable, which another follows a turn later. -/
def trailing : Procedure where
  name := "trail"
  blocks := [
    { location := 1, source := ⟨"trail", 1⟩
      equalities := [⟨"x1", .ite (.boolVar "$guard#ls2") (.intVar "x#lb2") (.int 0)⟩] },
    { location := 2, source := ⟨"trail", 2⟩, guard := .lt (.intVar "x1") (.int 1), head := some 0
      loopVars := [⟨"x#lb2", .add [.intVar "x1", .int 1], false⟩, ⟨"y#lb2", .intVar "x1", false⟩] }]

def ordering : Config where
  domain := .predicates
  width := 2

theorem run_trailing :
    (run (create ordering trailing none (.bool true), ((BitSolver.fresh 2 1000).execute []).1)).1 =
        .ok () ∧
      (run (create ordering trailing none (.bool true),
        ((BitSolver.fresh 2 1000).execute []).1)).2.1.invariant.map
          (fun i => i.predicates?.map (·.2)) = some (some [true, true, false, true]) := by
  decide +kernel

/-- The two variables are found to stay natural numbers, and their order is kept one way only. -/
theorem candidates_greatest_trailing :
    ∃ i d, (run (create ordering trailing none (.bool true),
        ((BitSolver.fresh 2 1000).execute []).1)).2.1.invariant = some i ∧
      i.predicates? = some (d, [true, true, false, true]) ∧
      d.Greatest (Analyzer.assumptions trailing (.bool true))
        (LoopSystem.ofProcedures [trailing]).declared (-(2 ^ (2 - 1)), 2 ^ (2 - 1) - 1)
        [true, true, false, true] := by
  obtain ⟨i, hi, hleft⟩ := Option.map_eq_some_iff.mp run_trailing.2
  have hconcluded := Concluded.of_verifier (show 2 ≤ 2 by decide) (by decide) run_trailing.1
    (by decide +kernel) hi
  obtain ⟨foci, hsettled⟩ := hconcluded.settled
  obtain ⟨d, v, -, hfound, hgreatest, -⟩ := (candidates_greatest hsettled).2 rfl
  rw [hfound] at hleft
  obtain rfl : v = [true, true, false, true] := Option.some.inj hleft
  exact ⟨i, d, hi, hfound, hgreatest⟩

end Verifier

end InvariantSynthesis
