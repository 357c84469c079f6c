import InvariantSynthesis.Proofs.Analysis.Progress
import InvariantSynthesis.Proofs.Analysis.Termination
import Mathlib.Data.Nat.Bits

namespace InvariantSynthesis

namespace Round

variable {σ : Type} [Oracle σ] {range : Int × Int} {F : Faithful σ range} {c : Scopes} {Γ Δ : Sorts}

def invariant (r : Round σ) : Invariant := ⟨r.method, r.value⟩

/-- The round had no answer to go by: it was not known, or all that was true was overlooked. -/
def Unverified (r : Round σ) : Prop :=
  r.unknown = true ∨ r.question.1 = .ok .sat ∧ r.Overlooked

theorem closed_or_unverified {r : Round σ} {s : r.method.domain.Value × Statistics} {p : σ}
    (h : F.Keeps r.oracle c Δ) (hΓ : Γ.Extends Δ) (hs : r.method.domain.Sane r.value)
    (hr : r.method.domain.Roomy r.value) (hrun : r.outcome = (.ok false, (s, p))) :
    r.method.domain.Closed r.value r.focus c.live Γ range ∨ r.Unverified := by
  by_cases hasks : r.conditions = []
  · left
    intro ρ _ _ _ e he
    have he : e ∈ r.conditions := he
    rw [hasks] at he
    cases he
  · obtain ⟨a, t, q, Θ, hask, hasked, hlater⟩ := asked_of_ok h hasks hrun
    have hanswer : r.question.1 = .ok a := by rw [hask]
    cases a with
    | unsat => exact .inl ((Denied.of_ask hask nofun hasked hlater).closed hΓ)
    | unknown reason => exact .inr (.inl (by simp [unknown, hanswer, hasks]))
    | sat => exact .inr (.inr ⟨hanswer, overlooked_of_unchanged h hs hr hasks hanswer hrun⟩)

end Round

namespace Sought

variable {σ : Type} [Oracle σ] {range : Int × Int} {F : Faithful σ range} {config : Config}
  {s : LoopSystem} {context : List Expr} {foci : List (Option Nat)} {asked : List (Round σ)}
  {i : Invariant}

theorem closed_or_unverified (h : Sought F config s context foci asked i)
    (hr : i.method.domain.Roomy i.value) {l : LoopTemplate} (hl : l ∈ s.loops) :
    (∃ focus, l.inFocus focus = true ∧
        i.method.domain.Closed i.value focus context s.declared range) ∨
      ∃ r ∈ asked, r.invariant = i ∧ l.inFocus r.focus = true ∧ r.Unverified := by
  obtain ⟨focus, hfocus, hin⟩ := h.covered l hl
  obtain ⟨c, symbols, o, p, Γ, hsearched, hΓ, hcontext⟩ := h.searched
  obtain ⟨hsane, hrests⟩ := hsearched.rests (Method.descends_of_config h.selected)
  obtain ⟨stats, o₁, t, q, Δ, hΔ, hkeeps, -, hmem, hrun⟩ := hrests focus hfocus
  rcases Round.closed_or_unverified (r := ⟨i.method, focus, i.value, stats, o₁⟩) hkeeps
    (hΓ.trans hΔ) hsane hr hrun with hclosed | hunverified
  · exact .inl ⟨focus, hin, hclosed.of_context fun e he => (hcontext e).mpr he⟩
  · exact .inr ⟨_, hmem, rfl, hin, hunverified⟩

theorem explained (h : Sought F config s context foci asked i) {lexicographic : Bool}
    (hdomain : config.domain = .ranking lexicographic) :
    ∃ d v, i = ⟨.enumeration (.ranking d), v⟩ ∧ d.loops = s.loops.map LoopTemplate.ranked ∧
      d.Explained v := by
  have hm := h.selected
  rw [Method.ofConfig, hdomain] at hm
  obtain ⟨d, hd, hm⟩ := Except.exists_of_bind_ok hm
  obtain ⟨m, v⟩ := i
  cases hm
  have hv : d.Explained v := h.invariant d.explained_start
    fun hkeeps _ _ hv hrun => RankingDomain.enumerate_explained hkeeps hv hrun
  exact ⟨d, v, rfl, RankingDomain.loops_of_ofLoops hd, hv⟩

end Sought

/-- A run with a bit-level solver has ended with an invariant after some rounds, whatever the solver
had been asked before. -/
inductive BitSolver.Ended (width limit : Nat) (config : Config) (s : LoopSystem)
    (context : List Expr) (asked : List (Round BitSolver)) (i : Invariant) : Prop
  | verifier {s₀ : BitSolver} (commands : List Command) {f : Procedure} {old : Option Procedure}
      {pre : Expr} (created : create width limit = .ok s₀)
      (loops : s = (Verifier.create config f old pre).loops)
      (assumed : ∀ e, e ∈ context ↔
        e ∈ (s₀.execute commands).2.live ++ (Verifier.create config f old pre).assumptions)
      (rounds : asked = (Verifier.create config f old pre).rounds (s₀.execute commands).1)
      (run : (Verifier.run (.create config f old pre, (s₀.execute commands).1)).1 = .ok ())
      (found : (Verifier.run (.create config f old pre, (s₀.execute commands).1)).2.1.invariant =
        some i) :
      Ended width limit config s context asked i
  | analyzer {s₀ : BitSolver} (commands : List Command) {f : Procedure} {pre : Expr} {a : Analyzer}
      (created : create width limit = .ok s₀) (loops : s = .ofProcedures [f])
      (assumed : ∀ e, e ∈ context ↔
        e ∈ (s₀.execute commands).2.live ++ Analyzer.assumptions f pre)
      (selected : a.config = config) (rounds : asked = a.searchRounds f pre (s₀.execute commands).1)
      (run : (Analyzer.run f pre (a, (s₀.execute commands).1)).1 = .ok ())
      (found : (Analyzer.run f pre (a, (s₀.execute commands).1)).2.1.invariant = some i) :
      Ended width limit config s context asked i

namespace BitSolver

variable {width limit : Nat} {config : Config} {s : LoopSystem} {context : List Expr}
  {asked : List (Round BitSolver)} {i : Invariant}

theorem Ended.of_verifier {f : Procedure} {pre : Expr} (hmin : 2 ≤ width) (hmax : width ≤ 32)
    (hrun : (Verifier.run (.create config f none pre, ((fresh width limit).execute []).1)).1 = .ok ())
    (hfound : (Verifier.run (.create config f none pre,
      ((fresh width limit).execute []).1)).2.1.invariant = some i) :
    Ended width limit config (.ofProcedures [f]) (Analyzer.assumptions f pre)
      ((Verifier.create config f none pre).rounds ((fresh width limit).execute []).1) i := by
  have hloops : .ofProcedures [f] = (Verifier.create config f none pre).loops := rfl
  exact .verifier [] (create_eq limit hmin hmax) hloops (fun _ => Iff.rfl) rfl hrun hfound

theorem Ended.sought (h : Ended width limit config s context asked i) :
    ∃ (hmin : 2 ≤ width) (hmax : width ≤ 32) (foci : List (Option Nat)),
      Sought (faithful hmin hmax) config s context foci asked i := by
  cases h with
  | @verifier s₀ commands f old pre created loops assumed rounds run found =>
    obtain ⟨hmin, hmax, hkeeps⟩ := keeps_of_create created commands
    subst loops rounds
    exact ⟨hmin, hmax, _, Verifier.sought hkeeps assumed run found⟩
  | @analyzer s₀ commands f pre a created loops assumed selected rounds run found =>
    obtain ⟨hmin, hmax, hkeeps⟩ := keeps_of_create created commands
    subst loops selected rounds
    exact ⟨hmin, hmax, _, Analyzer.sought hkeeps assumed run found⟩

end BitSolver

/-- Every ranking function that is reported ranks its loop, or the question that asks whether it does
had no answer that the search could use: the number of nodes was above the limit, or all that was
true left 64 bits. -/
theorem functions_rank_or_unverified {width limit : Nat} {config : Config} {s : LoopSystem}
    {context : List Expr} {asked : List (Round BitSolver)} {i : Invariant} {lexicographic : Bool}
    (hdomain : config.domain = .ranking lexicographic)
    (h : BitSolver.Ended width limit config s context asked i) :
    ∃ functions, i.summary = .ranking functions ∧ functions.length = s.loops.length ∧
      ∀ {k : Nat} {l : LoopTemplate} {back : Location} {components : List Expr},
        s.loops[k]? = some l → functions[k]? = some (back, .found components) →
        back = l.back ∧
          (l.Ranked context s.declared (-(2 ^ (width - 1)), 2 ^ (width - 1) - 1) components ∨
            ∃ r ∈ asked, r.invariant = i ∧ l.inFocus r.focus = true ∧ r.Unverified) := by
  obtain ⟨hmin, hmax, foci, h⟩ := h.sought
  obtain ⟨d, v, rfl, hloops, hv⟩ := h.explained hdomain
  refine ⟨d.functions v, rfl, ?_, fun {k l back components} hl hk => ?_⟩
  · rw [RankingDomain.length_functions hv, hloops, List.length_map]
  obtain ⟨x, r, hx, hr, rfl, hfound⟩ := RankingDomain.getElem?_functions.mp hk
  rw [hloops, List.getElem?_map, hl] at hx
  cases hx
  refine ⟨rfl, ?_⟩
  rcases h.closed_or_unverified trivial (List.mem_of_getElem? hl) with
    ⟨focus, hfocus, hclosed⟩ | hunverified
  · exact .inl (RankingDomain.ranked_of_closed hloops hv hl hr hfound hfocus hclosed)
  · exact .inr hunverified

namespace Verifier

def ascending : Config where
  domain := .ranking false
  width := 2

/-- A loop that jumps to a given number, as long as that is another one. A wide loop also asks for a
positive sum which 64 bits need not hold. -/
def jump (wide : Bool) : Procedure where
  name := "jump"
  inputs := [("n", .int)]
  blocks := [
    { location := 1, source := ⟨"jump", 1⟩
      equalities := [⟨"x1", .ite (.boolVar "$guard#ls2") (.intVar "x#lb2") (.int 0)⟩] },
    { location := 2, source := ⟨"jump", 2⟩, head := some 0
      guard :=
        if wide then
          .conj [.differ (.intVar "n") (.intVar "x1"),
            .lt (.int 0) (.add [.int 9223372036854775807, .intVar "n"])]
        else .differ (.intVar "n") (.intVar "x1")
      loopVars := [⟨"x#lb2", .intVar "n", false⟩] }]

def jumping (up : Bool) : Model :=
  .ofList [("n", .int (if up then 1 else 0)), ("x1", .int (if up then 0 else 1)),
    ("x#lb2", .int (if up then 0 else 1)), ("$guard#ls2", .bool true)]

theorem typed_jumping (wide up : Bool) : (jumping up).valuation.Typed
    (LoopSystem.ofProcedures [jump wide]).declared (-(2 ^ (2 - 1)), 2 ^ (2 - 1) - 1) := by
  apply Model.typed_valuation (symbols_create ascending (jump wide) none (.bool true))
    (by decide) <;>
  · revert wide up
    decide +kernel

theorem turn_jumping (wide up : Bool) {l : LoopTemplate}
    (hl : l ∈ (LoopSystem.ofProcedures [jump wide]).loops) :
    l.Turn (Analyzer.assumptions (jump wide) (.bool true))
        (LoopSystem.ofProcedures [jump wide]).declared (-(2 ^ (2 - 1)), 2 ^ (2 - 1) - 1)
        (jumping up).valuation ∧
      l.before (jumping !up).valuation = l.after (jumping up).valuation := by
  have hassumed : ∀ wide up, ∀ e ∈ Analyzer.assumptions (jump wide) (.bool true),
      e.holds (jumping up).valuation = true := by
    decide +kernel
  have hloops : ∀ wide up, ∀ l ∈ (LoopSystem.ofProcedures [jump wide]).loops,
      l.preGuard.holds (jumping up).valuation = true ∧
        l.postGuard.holds (jumping up).valuation = true ∧
        l.before (jumping !up).valuation = l.after (jumping up).valuation := by
    decide +kernel
  obtain ⟨hentered, hended, hnext⟩ := hloops wide up l hl
  exact ⟨⟨typed_jumping wide up, hassumed wide up, hentered, hended⟩, hnext⟩

theorem not_ranked_jump {wide : Bool} {l : LoopTemplate}
    (hl : l ∈ (LoopSystem.ofProcedures [jump wide]).loops) (components : List Expr) :
    ¬l.Ranked (Analyzer.assumptions (jump wide) (.bool true))
      (LoopSystem.ofProcedures [jump wide]).declared (-(2 ^ (2 - 1)), 2 ^ (2 - 1) - 1)
      components := by
  intro h
  apply h.ends
  refine ⟨fun n => (jumping n.bodd).valuation, fun n => ?_⟩
  have hturn := turn_jumping wide n.bodd hl
  rw [← Nat.bodd_succ] at hturn
  exact hturn

theorem run_jump (wide : Bool) (limit : Nat) (hlimit : limit = if wide then 1000 else 50) :
    (run (create ascending (jump wide) none (.bool true),
        ((BitSolver.fresh 2 limit).execute []).1)).1 = .ok () ∧
      (run (create ascending (jump wide) none (.bool true),
        ((BitSolver.fresh 2 limit).execute []).1)).2.1.invariant.map (fun i => reported? i.summary) =
          some (some [(2, .found [.intVar "x#lb2"])]) := by
  subst hlimit
  revert wide
  decide +kernel

/-- With 50 nodes a function is found for the loop, and there was no answer to the question whether it
ranks the loop. -/
theorem functions_rank_or_unverified_jump :
    ∃ i, (run (create ascending (jump false) none (.bool true),
        ((BitSolver.fresh 2 50).execute []).1)).2.1.invariant = some i ∧
      i.summary = .ranking [(2, .found [.intVar "x#lb2"])] ∧
      ∃ r ∈ (create ascending (jump false) none (.bool true)).rounds
        ((BitSolver.fresh 2 50).execute []).1, r.invariant = i ∧ r.Unverified := by
  obtain ⟨hrun, hfound⟩ := run_jump false 50 rfl
  obtain ⟨i, hi, hreported⟩ := Option.map_eq_some_iff.mp hfound
  have hended := BitSolver.Ended.of_verifier (Nat.le_refl 2) (by decide) hrun hi
  obtain ⟨functions, hsummary, -, hranked⟩ := functions_rank_or_unverified rfl hended
  rw [hsummary] at hreported
  obtain rfl := Option.some.inj hreported
  obtain ⟨l, hl⟩ : ∃ l, (LoopSystem.ofProcedures [jump false]).loops[0]? = some l := ⟨_, rfl⟩
  obtain h | ⟨r, hmem, hr, -, hunverified⟩ := (hranked hl rfl).2
  · exact absurd h (not_ranked_jump (List.mem_of_getElem? hl) _)
  · exact ⟨i, hi, hsummary, r, hmem, hr, hunverified⟩

theorem unranked_function_found (wide : Bool) (limit : Nat)
    (hlimit : limit = if wide then 1000 else 50) :
    (run (create ascending (jump wide) none (.bool true),
        ((BitSolver.fresh 2 limit).execute []).1)).1 = .ok () ∧
      ∃ i l, (run (create ascending (jump wide) none (.bool true),
          ((BitSolver.fresh 2 limit).execute []).1)).2.1.invariant = some i ∧
        i.summary = .ranking [(2, .found [.intVar "x#lb2"])] ∧
        (LoopSystem.ofProcedures [jump wide]).loops[0]? = some l ∧
        ¬l.Ranked (Analyzer.assumptions (jump wide) (.bool true))
          (LoopSystem.ofProcedures [jump wide]).declared (-(2 ^ (2 - 1)), 2 ^ (2 - 1) - 1)
          [.intVar "x#lb2"] := by
  obtain ⟨hrun, hfound⟩ := run_jump wide limit hlimit
  refine ⟨hrun, ?_⟩
  obtain ⟨i, hi, hreported⟩ := Option.map_eq_some_iff.mp hfound
  have hsummary : i.summary = .ranking [(2, .found [.intVar "x#lb2"])] := by
    cases hs : i.summary <;> rw [hs] at hreported <;> cases hreported
    rfl
  obtain ⟨l, hl⟩ : ∃ l, (LoopSystem.ofProcedures [jump wide]).loops[0]? = some l := ⟨_, rfl⟩
  exact ⟨i, l, hi, hsummary, hl, not_ranked_jump (List.mem_of_getElem? hl) _⟩

/-- A function that does not rank its loop is found, since the number of nodes was above the limit
when it was to be verified. -/
theorem timeout_yields_function :
    ((run (create ascending (jump false) none (.bool true),
        ((BitSolver.fresh 2 50).execute []).1)).1 = .ok () ∧
      ∃ i l, (run (create ascending (jump false) none (.bool true),
          ((BitSolver.fresh 2 50).execute []).1)).2.1.invariant = some i ∧
        i.summary = .ranking [(2, .found [.intVar "x#lb2"])] ∧
        (LoopSystem.ofProcedures [jump false]).loops[0]? = some l ∧
        ¬l.Ranked (Analyzer.assumptions (jump false) (.bool true))
          (LoopSystem.ofProcedures [jump false]).declared (-(2 ^ (2 - 1)), 2 ^ (2 - 1) - 1)
          [.intVar "x#lb2"]) ∧
      ∃ r ∈ (create ascending (jump false) none (.bool true)).rounds
        ((BitSolver.fresh 2 50).execute []).1, r.unknown = true :=
  ⟨unranked_function_found false 50 rfl, by decide +kernel⟩

end Verifier

end InvariantSynthesis
