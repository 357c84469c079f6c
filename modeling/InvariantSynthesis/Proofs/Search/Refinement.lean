import InvariantSynthesis.Proofs.BitSolver.Synthesis
import InvariantSynthesis.Proofs.Search.Reached
import InvariantSynthesis.Proofs.Search.Unreliable

namespace InvariantSynthesis

namespace RankingDomain

variable {d : RankingDomain} {range : Int × Int} {l : RankedLoop} {r : RankingRow} {v : List RankingRow}
  {m : Model} {i : Nat} {e : Expr} {stats : Statistics}

/-- The turns that are recorded for a loop. -/
structure Recorded (d : RankingDomain) (l : RankedLoop) (turns : List (List Int)) : Prop where
  vars : ∀ turn ∈ turns, turn.length = l.vars.length
  nodup : turns.Nodup
  few : turns.length ≤ d.maxRefinements + 1

/-- A function that was found is made of coefficients that decrease on all recorded turns. -/
structure Explains (d : RankingDomain) (range : Int × Int) (l : RankedLoop) (r : RankingRow)
    (components : List Expr) : Prop where
  few : r.turns.length ≤ d.maxRefinements
  components : components = l.components r.coefficients
  pos : 1 ≤ r.coefficients.length
  count : r.coefficients.length ≤ d.maxComponents
  solution : Solution range l.vars.length r.turns r.coefficients

/-- The state of the refinement for one loop. -/
structure Refined (d : RankingDomain) (range : Int × Int) (l : RankedLoop) (r : RankingRow) : Prop where
  recorded : d.Recorded l r.turns
  unknown : r.function = .unknown → r.turns = []
  found : ∀ components, r.function = .found components → d.Explains range l r components

/-- A turn on which the function fails was not recorded before. -/
theorem Refined.turn_new (h : d.Refined range l r) (hfailure : l.failure? r = some e) {ρ : Valuation}
    (he : e.holds ρ = true) : l.decrease ρ ∉ r.turns := by
  intro hmem
  cases hf : r.function with
  | unknown =>
    rw [h.unknown hf] at hmem
    cases hmem
  | gaveUp => simp [RankedLoop.failure?, hf] at hfailure
  | found components =>
    have hdecreases := (h.found components hf).solution.decreases _ hmem
    rw [← RankedLoop.holds_deltas] at hdecreases
    simp only [RankedLoop.failure?, hf, Option.some.injEq] at hfailure
    simp [← hfailure, hdecreases] at he

theorem Refined.room (h : d.Refined range l r) (hfailure : l.failure? r = some e) :
    r.turns.length ≤ d.maxRefinements := by
  cases hf : r.function with
  | unknown => simp [h.unknown hf]
  | gaveUp => simp [RankedLoop.failure?, hf] at hfailure
  | found components => exact (h.found components hf).few

theorem Refined.record (h : d.Refined range l r) (hfailure : l.failure? r = some e) {ρ : Valuation}
    (he : e.holds ρ = true) : d.Recorded l (r.turns ++ [l.decrease ρ]) := by
  refine ⟨fun turn hturn => ?_, ?_, ?_⟩
  · obtain hturn | hturn := List.mem_append.mp hturn
    · exact h.recorded.vars turn hturn
    · rw [List.mem_singleton.mp hturn, RankedLoop.decrease, List.length_map]
  · rw [← List.concat_eq_append]
    exact h.recorded.nodup.concat (h.turn_new hfailure he)
  · have hroom := h.room hfailure
    rw [List.length_append, List.length_singleton]
    omega

theorem Recorded.giveUp (h : d.Recorded l r.turns) (hgave : r.function = .gaveUp) :
    d.Refined range l r := by
  refine ⟨h, fun hf => ?_, fun components hf => ?_⟩
  · cases hgave.symm.trans hf
  · cases hgave.symm.trans hf

theorem Recorded.adopt (h : d.Recorded l r.turns) (hfew : r.turns.length ≤ d.maxRefinements)
    {found : Option (List (List Int))}
    (hfound : ∀ cs, found = some cs → 1 ≤ cs.length ∧ cs.length ≤ d.maxComponents ∧
      Solution range l.vars.length r.turns cs) :
    d.Refined range l (RankingDomain.adopt l r found) := by
  cases found with
  | none => exact Recorded.giveUp (r := { r with function := .gaveUp }) h rfl
  | some cs =>
    obtain ⟨hpos, hcount, hsolution⟩ := hfound cs rfl
    refine ⟨h, fun hf => ?_, fun components hf => ?_⟩
    · cases hf
    · cases hf
      exact ⟨hfew, rfl, hpos, hcount, hsolution⟩

theorem edit_refines {o : BitSolver} (hw : BitSolver.widthAllowed o.width = true)
    (hrange : o.range = range) (hl : d.loops[i]? = some l) (hr : v[i]? = some r) (h : d.Refined range l r)
    (hfailure : l.failure? r = some e) (heval : m.evalBool e = some true) :
    (d.edit o i m (v, stats)).2.1 = v ∨
      ∃ r', (d.edit o i m (v, stats)).2.1 = v.set i r' ∧ d.Refined range l r' := by
  simp only [RankingDomain.edit, hl, hr]
  cases hturn : l.turnOf m with
  | error err => exact .inl rfl
  | ok turn =>
    obtain rfl := RankedLoop.turnOf_ok hturn
    have hrecorded := h.record hfailure (Model.holds_of_evalBool heval)
    dsimp only
    split
    · exact .inr ⟨_, rfl, Recorded.giveUp hrecorded rfl⟩
    · rename_i hmany
      obtain ⟨found, stats', hsearch, hfound⟩ := search_solves hw l.vars.length
        (r.turns ++ [l.decrease m.valuation])
        (d.maxComponents + 1 - max r.coefficients.length 1) (max r.coefficients.length 1) stats
      rw [hsearch]
      refine .inr ⟨_, rfl, Recorded.adopt hrecorded (Nat.le_of_not_lt hmany) fun cs hcs => ?_⟩
      obtain ⟨hmin, hmax, hsolution⟩ := hfound cs hcs
      rw [hrange] at hsolution
      exact ⟨by omega, by omega, hsolution⟩

/-- All loops have rows in which the refinement is in order. -/
structure AllRefined (d : RankingDomain) (range : Int × Int) (v : List RankingRow) : Prop where
  length : v.length = d.loops.length
  rows : ∀ {i : Nat} {l : RankedLoop} {r : RankingRow}, d.loops[i]? = some l → v[i]? = some r →
    d.Refined range l r

theorem AllRefined.set (hv : d.AllRefined range v) (hl : d.loops[i]? = some l)
    (hr : d.Refined range l r) : d.AllRefined range (v.set i r) := by
  refine ⟨by rw [List.length_set, hv.length], fun {j k x} hk hx => ?_⟩
  rcases getElem?_set_cases hx with ⟨rfl, rfl⟩ | hx
  · cases hl.symm.trans hk
    exact hr
  · exact hv.rows hk hx

theorem improveAll_refines {o : BitSolver} (hw : BitSolver.widthAllowed o.width = true)
    (hrange : o.range = range) {conds : List (Nat × Expr)} (hnodup : (conds.map (·.1)).Nodup)
    (hconds : ∀ {i : Nat} {e : Expr}, (i, e) ∈ conds → ∃ l r, d.loops[i]? = some l ∧ v[i]? = some r ∧
      l.failure? r = some e)
    (hv : d.AllRefined range v) :
    d.AllRefined range ((Domain.ranking d).improveAll m conds ((v, stats), o)).2.1.1 := by
  induction conds generalizing v stats with
  | nil => exact hv
  | cons rc rest ih =>
    obtain ⟨i, e⟩ := rc
    obtain ⟨hfirst, hrest⟩ := List.nodup_cons.mp hnodup
    by_cases heval : m.evalBool e = some true
    · obtain ⟨l, r, hl, hr, hfailure⟩ := hconds List.mem_cons_self
      have hstep : ((Domain.ranking d).edit o m i (v, stats)).2.1 = v ∨ ∃ r',
          ((Domain.ranking d).edit o m i (v, stats)).2.1 = v.set i r' ∧ d.Refined range l r' :=
        edit_refines hw hrange hl hr (hv.rows hl hr) hfailure heval
      cases hrun : (Domain.ranking d).edit o m i (v, stats) with
      | mk x s =>
        obtain ⟨w, t⟩ : List RankingRow × Statistics := s
        rw [hrun] at hstep
        -- The rows of the conditions that are left are still as they were.
        have hw' : d.AllRefined range w ∧ ∀ {j : Nat}, j ≠ i → w[j]? = v[j]? := by
          obtain rfl | ⟨r', rfl, hr'⟩ := hstep
          · exact ⟨hv, fun _ => rfl⟩
          · exact ⟨hv.set hl hr', fun hj => List.getElem?_set_ne (Ne.symm hj)⟩
        cases x with
        | error err =>
          rw [Domain.improveAll_cons_error heval hrun]
          exact hw'.1
        | ok b =>
          rw [Domain.improveAll_cons_ok heval hrun]
          refine ih hrest (fun {j e'} hmem => ?_) hw'.1
          have hj : j ≠ i := fun hji => hfirst (List.mem_map.mpr ⟨(j, e'), hmem, hji⟩)
          rw [hw'.2 hj]
          exact hconds (List.mem_cons_of_mem _ hmem)
    · rw [Domain.improveAll_cons_false heval]
      exact ih hrest (fun hmem => hconds (List.mem_cons_of_mem _ hmem)) hv

theorem allRefined_start (d : RankingDomain) (range : Int × Int) : d.AllRefined range d.start := by
  refine ⟨List.length_map _, fun {i l r} hl hr => ?_⟩
  obtain ⟨l', -, rfl⟩ := List.mem_map.mp (List.mem_of_getElem? hr)
  refine ⟨⟨by simp, by simp, by simp⟩, fun _ => rfl, fun components hf => ?_⟩
  cases hf

end RankingDomain

namespace BitSolver

/-- A solver of this width, after any requests. -/
def Made (width : Nat) (s : BitSolver) : Prop :=
  ∃ limit s₀ commands, create width limit = .ok s₀ ∧ (s₀.execute commands).1 = s

end BitSolver

namespace RankingDomain

variable {d : RankingDomain} {v : List RankingRow} {width : Nat}

theorem enumerate_refines {focus : Option Nat} {stats : Statistics} {o : BitSolver}
    (ho : o.Made width) (hv : d.AllRefined (-(2 ^ (width - 1)), 2 ^ (width - 1) - 1) v) :
    d.AllRefined (-(2 ^ (width - 1)), 2 ^ (width - 1) - 1)
      ((Domain.ranking d).enumerate focus ((v, stats), o)).2.1.1 := by
  obtain ⟨limit, s₀, commands, hcreate, rfl⟩ := ho
  obtain ⟨hmin, hmax, hkeeps, -, hwidth⟩ := BitSolver.keeps_of_create hcreate commands
  obtain ⟨hsame, -⟩ | ⟨m, t, q, hquery, -, hstate⟩ :=
    Domain.enumerate_cases (.ranking d) focus v stats (s₀.execute commands).1
  · rw [hsame]
    exact hv
  · have hgood := BitSolver.bounded hmin hmax
    obtain ⟨-, p, hp, hcheck⟩ := Search.query_good hgood (hgood.push ⟨hwidth, _, hkeeps⟩) hquery
    have hq := hgood.check hp
    rw [hcheck] at hq
    obtain ⟨c, hc⟩ := hq.2
    rw [hstate]
    refine improveAll_refines hc.width ?_ nodup_conditions (fun hmem => ?_) hv
    · rw [BitSolver.range_eq, hq.1]
    · obtain ⟨l, r, hl, hr, -, hfailure⟩ := mem_conditions.mp hmem
      exact ⟨l, r, hl, hr, hfailure⟩

theorem bounds_of_ofLoops {s : LoopSystem} {maxComponents maxRefinements : Nat} {d : RankingDomain}
    (h : ofLoops s maxComponents maxRefinements = .ok d) :
    d.maxComponents = max maxComponents 1 ∧ d.maxRefinements = maxRefinements := by
  obtain ⟨loops, -, h⟩ := Except.exists_of_bind_ok h
  cases h
  exact ⟨rfl, rfl⟩

/-- Refinement keeps its books. In every value that rounds on bit-level solvers of one width lead to
from the start, however the rounds end, the turns that are recorded for a loop have one entry for
each integer variable, differ from one another, and are at most one more than the refinements that
are allowed. A function that was found has at least one component and no more than allowed; its
coefficients are numbers of the solvers' width, its components are the linear combinations of the
variables at the loop head with these coefficients, and they decrease lexicographically on every
recorded turn. -/
theorem refinement_consistent {s : LoopSystem} {maxComponents maxRefinements : Nat} {d : RankingDomain}
    (hd : ofLoops s maxComponents maxRefinements = .ok d) {width : Nat} {v : List RankingRow}
    (hv : (Domain.ranking d).Reached (BitSolver.Made width) v) :
    v.length = s.loops.length ∧
      ∀ {k : Nat} {l : LoopTemplate} {r : RankingRow}, s.loops[k]? = some l → v[k]? = some r →
        (∀ turn ∈ r.turns, turn.length = l.intVars.length) ∧ r.turns.Nodup ∧
          r.turns.length ≤ maxRefinements + 1 ∧
          ∀ components, r.function = .found components →
            1 ≤ r.coefficients.length ∧ r.coefficients.length ≤ max 1 maxComponents ∧
            (∀ cs ∈ r.coefficients, cs.length = l.intVars.length ∧
              ∀ c ∈ cs, -(2 ^ (width - 1)) ≤ c ∧ c < 2 ^ (width - 1)) ∧
            components = r.coefficients.map (fun cs =>
              .sum ((cs.zip l.intVars).map fun x => .scale x.1 (.intVar x.2.lb))) ∧
            (∀ ρ : Valuation, components.map (Expr.number ρ) = r.coefficients.map fun cs =>
              weighted cs (l.intVars.map fun x => (Expr.intVar x.lb).number ρ)) ∧
            ∀ turn ∈ r.turns, Decreases r.coefficients turn := by
  have hall : d.AllRefined (-(2 ^ (width - 1)), 2 ^ (width - 1) - 1) v :=
    hv.invariant (allRefined_start d _) fun ho hv => enumerate_refines ho hv
  have hloops := loops_of_ofLoops hd
  obtain ⟨hcomponents, hrefinements⟩ := bounds_of_ofLoops hd
  refine ⟨by rw [hall.length, hloops, List.length_map], fun {k l r} hl hr => ?_⟩
  have hl' : d.loops[k]? = some l.ranked := by rw [hloops, List.getElem?_map, hl, Option.map_some]
  have hvars : l.ranked.vars.length = l.intVars.length := List.length_map _
  obtain ⟨hrecorded, -, hfound⟩ := hall.rows hl' hr
  refine ⟨fun turn hturn => (hrecorded.vars turn hturn).trans hvars, hrecorded.nodup,
    hrefinements ▸ hrecorded.few, fun components hf => ?_⟩
  obtain ⟨-, hexplains, hpos, hcount, hsolution⟩ := hfound components hf
  refine ⟨hpos, by omega, fun cs hcs => ?_, ?_, fun ρ => ?_, hsolution.decreases⟩
  · refine ⟨(hsolution.vars cs hcs).trans hvars, fun c hc => ?_⟩
    have hrange := hsolution.range cs hcs c hc
    exact ⟨hrange.1, Int.lt_of_le_sub_one hrange.2⟩
  · rw [hexplains, RankedLoop.components]
    apply List.map_congr_left
    intro cs _
    rw [LoopTemplate.ranked, List.zip_map_right, List.map_map]
    rfl
  · rw [hexplains, RankedLoop.number_components, RankedLoop.before, LoopTemplate.ranked, List.map_map]
    rfl

/-- A loop whose turns lower one of two counters. -/
def lowering : Procedure where
  name := "lowering"
  blocks := [
    { location := 1, source := ⟨"lowering", 1⟩
      equalities := [⟨"x1", .ite (.boolVar "c") (.sub (.intVar "x#lb2") (.int 1)) (.intVar "x#lb2")⟩,
        ⟨"y1", .ite (.boolVar "c") (.intVar "y#lb2") (.sub (.intVar "y#lb2") (.int 1))⟩] },
    { location := 2, source := ⟨"lowering", 2⟩, head := some 0
      guard := .conj [.lt (.int 0) (.intVar "x#lb2"), .lt (.int 0) (.intVar "y#lb2")]
      loopVars := [⟨"x#lb2", .intVar "x1", false⟩, ⟨"y#lb2", .intVar "y1", false⟩] }]

def turnCommands : List BitSolver.Command := [.assert lowering.formula, .assert lowering.enablingExpr]

def afterRounds (d : RankingDomain) : Nat → List RankingRow
  | 0 => d.start
  | n + 1 => ((Domain.ranking d).enumerate none
      ((afterRounds d n, .zero), ((BitSolver.fresh 2 1000).execute turnCommands).1)).2.1.1

theorem reached_afterRounds (d : RankingDomain) (n : Nat) :
    (Domain.ranking d).Reached (BitSolver.Made 2) (d.afterRounds n) := by
  induction n with
  | zero => exact .start
  | succ n ih =>
    exact .round none .zero ih
      ⟨1000, _, turnCommands, BitSolver.create_eq 1000 (by decide) (by decide), rfl⟩

/-- The first turn that is recorded is explained by the second counter alone. The second one is a
counterexample to it, and the sum of the counters explains both. -/
theorem refinement_consistent_lowering : ∃ d l r,
    ofLoops (.ofProcedures [lowering]) 1 5 = .ok d ∧
      (Domain.ranking d).Reached (BitSolver.Made 2) [r] ∧
      (LoopSystem.ofProcedures [lowering]).loops = [l] ∧
      r.turns = [[0, 1], [1, 0]] ∧ r.coefficients = [[1, 1]] ∧
      r.turns.length ≤ 5 + 1 ∧ ∀ turn ∈ r.turns, turn.length = l.intVars.length ∧
        Decreases r.coefficients turn := by
  obtain ⟨d, hd⟩ : ∃ d, ofLoops (.ofProcedures [lowering]) 1 5 = .ok d := ⟨_, rfl⟩
  have hv := reached_afterRounds d 2
  have hrows : d.afterRounds 2 = [⟨
      .found [.sum [.scale 1 (.intVar "x#lb2"), .scale 1 (.intVar "y#lb2")]],
      [[1, 1]], [[0, 1], [1, 0]]⟩] := by
    cases hd
    decide +kernel
  rw [hrows] at hv
  obtain ⟨hturns, -, hfew, hfound⟩ := (refinement_consistent hd hv).2 (k := 0) rfl rfl
  obtain ⟨-, -, -, -, -, hdecreases⟩ := hfound _ rfl
  exact ⟨d, _, _, hd, hv, rfl, rfl, rfl, hfew, fun turn hturn =>
    ⟨hturns turn hturn, hdecreases turn hturn⟩⟩

end RankingDomain

end InvariantSynthesis
