import InvariantSynthesis.Proofs.BitSolver.Acceptance
import InvariantSynthesis.Proofs.Domain.Decrease
import InvariantSynthesis.Proofs.Oracle.Reach

namespace InvariantSynthesis

namespace BitSolver

variable {Γ : String → ValueSort} {s t : BitSolver} {c : Scopes} {e : Expr}

theorem Adds.range (h : s.Adds t) : t.range = s.range := by rw [range_eq, range_eq, h.width]

theorem heeds_fresh (width limit : Nat) : (fresh width limit).Heeds Γ := fun _ _ h => nomatch h

theorem assert_accepted (h : Keeps s c) (hs : s.Heeds Γ) (he : e.WellSorted Γ .bool) :
    ∃ t, assert e s = (.ok (), t) ∧ Keeps t (c.add e) ∧ t.Heeds Γ ∧ s.Adds t := by
  obtain ⟨x, t, hrun, ht, -⟩ := (assert_screened e).accepted he s hs
  obtain ⟨t', hrun', hkeeps, hadds⟩ | ⟨err, t', hrun', -⟩ := h.assert e
  · cases hrun.symm.trans hrun'
    exact ⟨t, hrun, hkeeps, ht, hadds⟩
  · cases hrun.symm.trans hrun'

theorem asserts_accepted {ι S : Type} {f : ι → Expr} (hf : ∀ i, (f i).WellSorted Γ .bool) (is : List ι)
    (h : Keeps s c) (hs : s.Heeds Γ) (state : S) :
    ∃ t c', (is.forM fun i => Session.assert (f i) : Session S BitSolver Unit) (state, s) =
        (.ok (), (state, t)) ∧ Keeps t c' ∧ s.Adds t ∧ (∀ e ∈ c.live, e ∈ c'.live) ∧
      ∀ i ∈ is, f i ∈ c'.live := by
  induction is generalizing s c with
  | nil => exact ⟨s, c, rfl, h, (Grows.refl h.valid).toAdds, fun _ he => he, by simp⟩
  | cons i is ih =>
    obtain ⟨t, hrun, ht, hheeds, hadds⟩ := assert_accepted h hs (hf i)
    obtain ⟨u, c', hrun', hu, hadds', hlive, hall⟩ := ih ht hheeds
    refine ⟨u, c', ?_, hu, hadds.trans hadds', fun e he => hlive e (List.mem_cons_of_mem _ he), ?_⟩
    · rw [List.forM_eq_forM, List.forM_cons]
      exact (Session.bind_ok (Session.request_eq hrun state)).trans hrun'
    · exact List.forall_mem_cons.mpr ⟨hlive _ List.mem_cons_self, hall⟩

end BitSolver

namespace RankingDomain

open BitSolver

theorem solve_answers {width : Nat} (hw : widthAllowed width = true) (limit : Nat) (names : List (List String))
    (turns : List (List Int)) (stats : Statistics) :
    ∃ a stats' t, solve names turns (stats, fresh width limit) = (.ok a, (stats', t)) ∧
      (a = .sat → ∃ m, t.model = some m ∧
        (∀ turn ∈ turns, (requirement names turn).holds m.valuation = true) ∧
        ∀ n v, m.get? n = some v → v.Within v.sort (fresh width limit).range) := by
  obtain ⟨x, s, hdeclare, hs, -⟩ := (declare_screened (Γ := fun _ => .int)
    (names.flatten.map (·, ValueSort.int))).accepted (by simp) _ (heeds_fresh width limit)
  have hfresh : Keeps (fresh width limit) _ := .fresh hw
  have hgrows := (declare_runs hfresh.valid (names.flatten.map (·, ValueSort.int))).grows
  rw [hdeclare] at hgrows
  have hkeeps := hfresh.later hgrows
  obtain ⟨t, c, hasserts, ht, hadds, -, hall⟩ :=
    asserts_accepted (wellSorted_requirement names) turns hkeeps hs stats
  obtain ⟨a, u, hcheck, -, -, -, -, -, hsat⟩ := ht.check
  refine ⟨a, { stats with calls := stats.calls + 1 }, u, ?_, fun ha => ?_⟩
  · have hrun : (Oracle.declare (names.flatten.map (·, ValueSort.int)) : Request BitSolver Unit)
        (fresh width limit) = (.ok (), s) := hdeclare
    rw [solve, Session.bind_ok (Session.request_eq hrun stats), Session.bind_ok hasserts]
    exact Session.request_eq hcheck _
  · obtain ⟨m, hm, hsatisfies⟩ := hsat ha
    refine ⟨m, hm, fun turn hturn => hsatisfies.holds _ (hall turn hturn), ?_⟩
    rw [hadds.range, hgrows.toAdds.range] at hsatisfies
    exact hsatisfies.within

/-- What a search for coefficients promises. -/
structure Solution (range : Int × Int) (vars : Nat) (turns coefficients : List (List Int)) : Prop where
  vars : ∀ cs ∈ coefficients, cs.length = vars
  range : ∀ cs ∈ coefficients, ∀ k ∈ cs, range.1 ≤ k ∧ k ≤ range.2
  decreases : ∀ turn ∈ turns, Decreases coefficients turn

theorem number_eq_int? (m : Model) (n : String) :
    (m.int? n).getD 0 = (Expr.intVar n).number m.valuation := by
  rw [Model.int?, Expr.intVar, Expr.number, Expr.value, Model.valuation]
  cases m.get? n with
  | none => rfl
  | some v => cases v <;> rfl

theorem coefficients_solve {components vars : Nat} {turns : List (List Int)} {m : Model}
    {range : Int × Int} (hzero : range.1 ≤ 0 ∧ 0 ≤ range.2)
    (hholds : ∀ turn ∈ turns,
      (requirement (coefficientNames components vars) turn).holds m.valuation = true)
    (hwithin : ∀ n v, m.get? n = some v → v.Within v.sort range) :
    Solution range vars turns
      ((coefficientNames components vars).map (·.map fun c => (m.int? c).getD 0)) := by
  simp only [number_eq_int?]
  refine ⟨fun cs hcs => ?_, fun cs hcs k hk => ?_, fun turn hturn => ?_⟩
  · obtain ⟨names, hnames, rfl⟩ := List.mem_map.mp hcs
    obtain ⟨j, -, rfl⟩ := List.mem_map.mp hnames
    simp
  · obtain ⟨names, -, rfl⟩ := List.mem_map.mp hcs
    obtain ⟨n, -, rfl⟩ := List.mem_map.mp hk
    rw [Expr.intVar, Expr.number, Expr.value, Model.valuation]
    cases hv : m.get? n with
    | none => exact hzero
    | some v =>
      have hv := hwithin n v hv
      cases v with
      | bool b => exact hzero
      | int k => exact hv.2
  · exact (holds_requirement m.valuation).mp (hholds turn hturn)

theorem readCoefficients_eq {σ : Type} [Oracle σ] {o : σ} {m : Model}
    (hm : (Oracle.model? o : Option Model) = some m) (names : List (List String)) (stats : Statistics) :
    readCoefficients names (stats, o) =
      (.ok (names.map (·.map fun c => (m.int? c).getD 0)), (stats, o)) := by
  have hlook : (Session.look (fun o : σ => Oracle.model? o) : Session Statistics σ _) (stats, o) =
      (.ok (some m), (stats, o)) := by rw [← hm]; rfl
  rw [readCoefficients, Session.bind_ok hlook]
  rfl

/-- A search on bit-level solvers comes to an end without an error, and coefficients that it finds
decrease on all turns. -/
theorem search_solves {parent : BitSolver} (hw : widthAllowed parent.width = true) (vars : Nat)
    (turns : List (List Int)) (attempts components : Nat) (stats : Statistics) :
    ∃ found stats', (search parent vars turns attempts components).run stats = (.ok found, stats') ∧
      ∀ cs, found = some cs → components ≤ cs.length ∧ cs.length < components + attempts ∧
        Solution parent.range vars turns cs := by
  induction attempts generalizing components stats with
  | zero => exact ⟨none, stats, rfl, by simp⟩
  | succ attempts ih =>
    obtain ⟨a, stats', t, hsolve, hsat⟩ := solve_answers hw parent.nodeLimit
      (coefficientNames components vars) turns { stats with instances := stats.instances + 1 }
    have hsucc := search_succ parent vars turns attempts components stats
    cases a with
    | sat =>
      obtain ⟨m, hm, hholds, hwithin⟩ := hsat rfl
      have hattempt : attempt (coefficientNames components vars) turns
          ({ stats with instances := stats.instances + 1 }, Oracle.spawn parent) = (.ok (.sat,
            (coefficientNames components vars).map (·.map fun c => (m.int? c).getD 0)), (stats', t)) :=
        (Session.bind_ok hsolve).trans (Session.bind_ok (readCoefficients_eq hm _ _))
      refine ⟨some _, stats', hsucc.trans (by rw [hattempt]; rfl), fun cs hcs => ?_⟩
      cases hcs
      refine ⟨?_, ?_, coefficients_solve (range_zero (pos_of_widthAllowed hw)) hholds hwithin⟩
      · simp [coefficientNames]
      · simp [coefficientNames]
    | unsat =>
      have hattempt : attempt (coefficientNames components vars) turns
          ({ stats with instances := stats.instances + 1 }, Oracle.spawn parent) =
            (.ok (.unsat, []), (stats', t)) := Session.bind_ok hsolve
      obtain ⟨found, stats'', hrun, hfound⟩ := ih (components + 1) stats'
      refine ⟨found, stats'', hsucc.trans (by rw [hattempt]; exact hrun), fun cs hcs => ?_⟩
      obtain ⟨hmin, hmax, hsolution⟩ := hfound cs hcs
      exact ⟨by omega, by omega, hsolution⟩
    | unknown reason =>
      have hattempt : attempt (coefficientNames components vars) turns
          ({ stats with instances := stats.instances + 1 }, Oracle.spawn parent) =
            (.ok (.unknown reason, []), (stats', t)) := Session.bind_ok hsolve
      exact ⟨none, stats', hsucc.trans (by rw [hattempt]; rfl), by simp⟩

end RankingDomain

end InvariantSynthesis
