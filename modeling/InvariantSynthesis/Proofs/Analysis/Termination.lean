import InvariantSynthesis.Proofs.Analysis.Conclusion
import InvariantSynthesis.Proofs.Domain.Ranking
import InvariantSynthesis.Proofs.Search.Ranking

namespace InvariantSynthesis

theorem Value.Within.natAbs_number {x : Value} {s : ValueSort} {range : Int × Int}
    (h : x.Within s range) : x.number.natAbs ≤ max range.1.natAbs range.2.natAbs := by
  cases x with
  | bool b => exact Nat.zero_le _
  | int k =>
    obtain ⟨-, hlow, hhigh⟩ := h
    rw [Value.number]
    omega

namespace LoopTemplate

/-- A state in which the loop makes a turn: it comes from the loop's end and gets there again. -/
structure Turn (l : LoopTemplate) (context : List Expr) (Γ : Sorts) (range : Int × Int)
    (ρ : Valuation) : Prop where
  typed : ρ.Typed Γ range
  assumed : ∀ e ∈ context, e.holds ρ = true
  entered : l.preGuard.holds ρ = true
  ended : l.postGuard.holds ρ = true

def before (l : LoopTemplate) (ρ : Valuation) : List Int :=
  l.intVars.map fun x => (Expr.intVar x.lb).number ρ

def after (l : LoopTemplate) (ρ : Valuation) : List Int := l.intVars.map fun x => x.post.number ρ

variable {l : LoopTemplate} {context : List Expr} {Γ : Sorts} {range : Int × Int} {ρ : Valuation}

theorem before_ranked : l.ranked.before ρ = l.before ρ := List.map_map

theorem after_ranked : l.ranked.after ρ = l.after ρ := List.map_map

theorem natAbs_before (hρ : ρ.Typed Γ range) :
    ∀ x ∈ l.before ρ, x.natAbs ≤ max range.1.natAbs range.2.natAbs := by
  intro x hx
  obtain ⟨v, -, rfl⟩ := List.mem_map.mp hx
  exact (hρ v.lb .int).natAbs_number

/-- Expressions that are linear in the integer variables rank the loop: every turn decreases their
values lexicographically, so the loop does not turn for ever. -/
structure Ranked (l : LoopTemplate) (context : List Expr) (Γ : Sorts) (range : Int × Int)
    (components : List Expr) : Prop where
  decreases : ∃ coefficients : List (List Int),
    (∀ ρ, components.map (Expr.number ρ) = coefficients.map fun cs => weighted cs (l.before ρ)) ∧
    ∀ {ρ}, l.Turn context Γ range ρ → List.Lex (· < ·)
      (coefficients.map fun cs => weighted cs (l.after ρ)) (components.map (Expr.number ρ))
  ends : ¬∃ states : Nat → Valuation, ∀ n, l.Turn context Γ range (states n) ∧
    l.before (states (n + 1)) = l.after (states n)

theorem not_forall_turn {coefficients : List (List Int)}
    (h : ∀ {ρ}, l.Turn context Γ range ρ → List.Lex (· < ·)
      (coefficients.map fun cs => weighted cs (l.after ρ))
      (coefficients.map fun cs => weighted cs (l.before ρ))) :
    ¬∃ states : Nat → Valuation, ∀ n, l.Turn context Γ range (states n) ∧
      l.before (states (n + 1)) = l.after (states n) := by
  rintro ⟨states, hstates⟩
  obtain ⟨b, hb⟩ := exists_digits (max range.1.natAbs range.2.natAbs) coefficients
  refine not_forall_lex (t := fun n => coefficients.map fun cs => weighted cs (l.before (states n)))
    (fun n => by rw [List.length_map, List.length_map])
    (fun n => hb _ (natAbs_before (hstates n).1.typed)) (fun n => ?_)
  rw [(hstates n).2]
  exact h (hstates n).1

end LoopTemplate

namespace RankingDomain

variable {s : LoopSystem} {d : RankingDomain} {v : List RankingRow} {context : List Expr}
  {range : Int × Int}

/-- A function that no turn refutes ranks its loop. -/
theorem ranked_of_closed (hloops : d.loops = s.loops.map LoopTemplate.ranked) (hv : d.Explained v)
    {k : Nat} {l : LoopTemplate} {r : RankingRow} {components : List Expr} {focus : Option Nat}
    (hl : s.loops[k]? = some l) (hr : v[k]? = some r) (hfound : r.function = .found components)
    (hfocus : l.inFocus focus = true)
    (hclosed : (Domain.ranking d).Closed v focus context s.declared range) :
    l.Ranked context s.declared range components := by
  have hk : d.loops[k]? = some l.ranked := by rw [hloops, List.getElem?_map, hl, Option.map_some]
  obtain ⟨e, hfailure⟩ : ∃ e, l.ranked.failure? r = some e := by
    simp [RankedLoop.failure?, hfound]
  have hlex : ∀ {ρ}, l.Turn context s.declared range ρ → List.Lex (· < ·)
      (r.coefficients.map fun cs => weighted cs (l.after ρ))
      (r.coefficients.map fun cs => weighted cs (l.before ρ)) := by
    intro ρ hturn
    have he := hclosed ρ hturn.typed hturn.assumed rfl (k, e)
      (mem_conditions.mpr ⟨l.ranked, r, hk, hr, hfocus, hfailure⟩)
    rw [← LoopTemplate.before_ranked, ← LoopTemplate.after_ranked]
    exact RankedLoop.lex_of_not_failure hfound hfailure he hturn.entered hturn.ended
  have hvalues : ∀ ρ, components.map (Expr.number ρ) =
      r.coefficients.map fun cs => weighted cs (l.before ρ) := by
    intro ρ
    rw [hv.components hk hr hfound, RankedLoop.number_components, LoopTemplate.before_ranked]
  refine ⟨⟨r.coefficients, hvalues, fun {ρ} hturn => ?_⟩, LoopTemplate.not_forall_turn hlex⟩
  rw [hvalues]
  exact hlex hturn

def functions (d : RankingDomain) (v : List RankingRow) : List (Location × RankingFunction) :=
  (d.loops.zip v).map fun (l, r) => (l.loop.back, r.function)

theorem length_functions (hv : d.Explained v) : (d.functions v).length = d.loops.length := by
  rw [functions, List.length_map, List.length_zip, hv.length, Nat.min_self]

theorem getElem?_functions {k : Nat} {back : Location} {function : RankingFunction} :
    (d.functions v)[k]? = some (back, function) ↔
      ∃ l r, d.loops[k]? = some l ∧ v[k]? = some r ∧ l.loop.back = back ∧ r.function = function := by
  simp [functions, List.getElem?_zip_eq_some, and_assoc]

end RankingDomain

/-- Every ranking function that is reported, linear or lexicographic, ranks its loop. A loop that was
given up or that was never seen to turn has none. -/
theorem functions_rank_loops {config : Config} {s : LoopSystem} {context : List Expr}
    {range : Int × Int} {i : Invariant} {lexicographic : Bool}
    (hdomain : config.domain = .ranking lexicographic)
    (h : Concluded config s context range i) :
    ∃ functions, i.summary = .ranking functions ∧ functions.length = s.loops.length ∧
      ∀ {k : Nat} {l : LoopTemplate} {back : Location} {function : RankingFunction},
        s.loops[k]? = some l → functions[k]? = some (back, function) →
        back = l.back ∧ ∀ components, function = .found components →
          l.Ranked context s.declared range components := by
  obtain ⟨foci, h⟩ := h.settled
  have hm := h.selected
  rw [Method.ofConfig, hdomain] at hm
  obtain ⟨d, hd, hm⟩ := Except.exists_of_bind_ok hm
  obtain ⟨m, v⟩ := i
  cases hm
  have hloops := RankingDomain.loops_of_ofLoops hd
  have hv : d.Explained v := h.invariant d.explained_start
    fun hkeeps _ _ hv hrun => RankingDomain.enumerate_explained hkeeps hv hrun
  refine ⟨d.functions v, rfl, ?_, fun {k l back function} hl hk => ?_⟩
  · rw [RankingDomain.length_functions hv, hloops, List.length_map]
  obtain ⟨x, r, hx, hr, rfl, rfl⟩ := RankingDomain.getElem?_functions.mp hk
  rw [hloops, List.getElem?_map, hl] at hx
  cases hx
  refine ⟨rfl, fun components hfound => ?_⟩
  obtain ⟨focus, hfocus, hclosed⟩ :=
    h.closed (RankingDomain.descends d) trivial (List.mem_of_getElem? hl)
  exact RankingDomain.ranked_of_closed hloops hv hl hr hfound hfocus hclosed

namespace Verifier

def descending : Config where
  domain := .ranking true
  width := 2

def reported? : Summary → Option (List (Location × RankingFunction))
  | .ranking functions => some functions
  | _ => none

theorem run_descending :
    (run (create descending counter none (.bool true),
        ((BitSolver.fresh 2 1000).execute []).1)).1 = .ok () ∧
      (run (create descending counter none (.bool true),
        ((BitSolver.fresh 2 1000).execute []).1)).2.1.invariant.map (fun i => reported? i.summary) =
          some (some [(2, .found [.mul (-2) (.intVar "x#lb2")])]) := by
  decide +kernel

/-- The counter on a turn that starts at zero. -/
def turningCounter : Model :=
  .ofList [("x1", .int 0), ("x#lb2", .int 0), ("$guard#ls2", .bool true)]

theorem turn_turningCounter : ∀ l ∈ (LoopSystem.ofProcedures [counter]).loops,
    l.Turn (Analyzer.assumptions counter (.bool true)) (LoopSystem.ofProcedures [counter]).declared
      (-(2 ^ (2 - 1)), 2 ^ (2 - 1) - 1) turningCounter.valuation := by
  have hstate : (∀ e ∈ Analyzer.assumptions counter (.bool true),
        e.holds turningCounter.valuation = true) ∧
      ∀ l ∈ (LoopSystem.ofProcedures [counter]).loops,
        l.preGuard.holds turningCounter.valuation = true ∧
          l.postGuard.holds turningCounter.valuation = true := by
    decide +kernel
  intro l hl
  refine ⟨?_, hstate.1, (hstate.2 l hl).1, (hstate.2 l hl).2⟩
  apply Model.typed_valuation (symbols_create counting counter none (.bool true)) (by decide) <;>
    decide +kernel

/-- The counter is found to end, since it rises with every turn that it makes. -/
theorem functions_rank_loops_counter :
    ∃ i l, (run (create descending counter none (.bool true),
        ((BitSolver.fresh 2 1000).execute []).1)).2.1.invariant = some i ∧
      i.summary = .ranking [(2, .found [.mul (-2) (.intVar "x#lb2")])] ∧
      (LoopSystem.ofProcedures [counter]).loops[0]? = some l ∧
      l.Turn (Analyzer.assumptions counter (.bool true)) (LoopSystem.ofProcedures [counter]).declared
        (-(2 ^ (2 - 1)), 2 ^ (2 - 1) - 1) turningCounter.valuation ∧
      l.Ranked (Analyzer.assumptions counter (.bool true))
        (LoopSystem.ofProcedures [counter]).declared (-(2 ^ (2 - 1)), 2 ^ (2 - 1) - 1)
        [.mul (-2) (.intVar "x#lb2")] := by
  obtain ⟨i, hi, hreported⟩ := Option.map_eq_some_iff.mp run_descending.2
  have hconcluded := Concluded.of_verifier (show 2 ≤ 2 by decide) (by decide) run_descending.1
    (by decide +kernel) hi
  obtain ⟨functions, hsummary, -, hranked⟩ := functions_rank_loops rfl hconcluded
  rw [hsummary] at hreported
  obtain rfl := Option.some.inj hreported
  obtain ⟨l, hl⟩ : ∃ l, (LoopSystem.ofProcedures [counter]).loops[0]? = some l := ⟨_, rfl⟩
  exact ⟨i, l, hi, hsummary, hl, turn_turningCounter l (List.mem_of_getElem? hl),
    (hranked hl rfl).2 _ rfl⟩

end Verifier

end InvariantSynthesis
