import InvariantSynthesis.Proofs.Analysis.Soundness
import InvariantSynthesis.Proofs.Search.Progress
import InvariantSynthesis.Proofs.Search.Unreliable

namespace InvariantSynthesis

namespace Method

variable {σ : Type} [Oracle σ] {range : Int × Int} {F : Faithful σ range} {c : Scopes} {Γ : Sorts}
  {m : Method} {foci : List (Option Nat)} {v : m.domain.Value} {stats : Statistics} {o : σ}

theorem spacious_of_config {config : Config} {s : LoopSystem} {bounds : Int × Int} {m : Method}
    (h : ofConfig config s bounds = .ok m) : m.domain.Spacious := by
  rcases domain_of_config h with hrelational | ⟨d, hd⟩ | ⟨d, conds, hd, hrelational⟩
  · exact .plain fun v => hrelational.roomy
  · rw [hd]
    exact .plain fun v => trivial
  · rw [hd]
    exact .paths fun v => hrelational.roomy

theorem round_roomy (hm : m.domain.Spacious) {focus : Option Nat} {s : m.domain.Value × Statistics}
    {p : σ} {b : Bool} (h : F.Keeps o c Γ) (hv : m.domain.Roomy v)
    (hrun : m.round focus ((v, stats), o) = (.ok b, (s, p))) : m.domain.Roomy s.1 := by
  cases m with
  | enumeration d => exact Domain.enumerate_roomy hm h hv hrun
  | bisection d => exact trivial

theorem ready_rounds (hd : m.domain.Descends) (hm : m.domain.Spacious) (h : F.Keeps o c Γ)
    (hs : m.domain.Sane v) (hr : m.domain.Roomy v) :
    ∀ r ∈ m.rounds foci ((v, stats), o), r.Ready F c := by
  induction foci generalizing o Γ v stats with
  | nil =>
    intro r hr
    cases hr
  | cons focus rest ih =>
    intro r hmem
    rcases List.mem_cons.mp hmem with rfl | hmem
    · exact ⟨⟨Γ, h⟩, hd, hs, hr⟩
    · split at hmem
      · rename_i changed t hround
        obtain ⟨⟨w, st⟩, p⟩ := t
        obtain ⟨Δ, hreaches⟩ := Round.reaches_outcome (r := ⟨m, focus, v, stats, o⟩) h hround
        have hstep := (Round.outcome_ok (r := ⟨m, focus, v, stats, o⟩) h hd hs hround).1
        exact ih hreaches.keeps hstep.sane (round_roomy hm h hr hround) r hmem
      · cases hmem

theorem ready_climbRounds (hd : m.domain.Descends) (hm : m.domain.Spacious) {fuel : Nat}
    (h : F.Keeps o c Γ) (hs : m.domain.Sane v) (hr : m.domain.Roomy v) :
    ∀ r ∈ m.climbRounds foci fuel ((v, stats), o), r.Ready F c := by
  induction fuel generalizing o Γ v stats with
  | zero =>
    intro r hr
    cases hr
  | succ fuel ih =>
    intro r hmem
    rcases List.mem_append.mp hmem with hmem | hmem
    · exact ready_rounds hd hm h hs hr r hmem
    · split at hmem
      · rename_i t hpass
        obtain ⟨⟨w, st⟩, p⟩ := t
        obtain ⟨Δ, hreaches⟩ := reaches_pass h hpass
        have hroomy : m.domain.Roomy w := pass_invariant (Γ := Γ) (P := m.domain.Roomy)
          (fun hkeeps _ hv hround => round_roomy hm hkeeps hv hround) h (.refl Γ) hr hpass
        exact ih hreaches.keeps (pass_step hd h hs hpass).sane hroomy r hmem
      · cases hmem

theorem ready_of_config {config : Config} {s : LoopSystem} {bounds : Int × Int} {m : Method}
    (hm : ofConfig config s bounds = .ok m) {fuel : Nat} (h : F.Keeps o c Γ) :
    ∀ r ∈ m.climbRounds foci fuel ((m.domain.start, .zero), o), r.Ready F c :=
  ready_climbRounds (descends_of_config hm) (spacious_of_config hm) h m.domain.sane_start
    (spacious_of_config hm).start

end Method

section run

variable {σ : Type} [Oracle σ] {range : Int × Int} {F : Faithful σ range} {c : Scopes} {Γ : Sorts}
  {o : σ}

theorem Verifier.ready_rounds (h : F.Keeps o c Γ) (v : Verifier) :
    ∀ r ∈ v.rounds o, r.Ready F (c.opened.addAll v.assumptions) := by
  intro r hmem
  rw [rounds] at hmem
  split at hmem
  · rename_i v' p hprepare
    split at hmem
    · rename_i m hm
      obtain ⟨-, Δ, -, hreaches⟩ := prepare_ok (Faithful.reaches_push h).keeps hprepare
      exact Method.ready_of_config hm hreaches.keeps r hmem
    · cases hmem
  · cases hmem

theorem Analyzer.ready_searchRounds (h : F.Keeps o c Γ) (a : Analyzer) (f : Procedure) (pre : Expr) :
    ∀ r ∈ a.searchRounds f pre o, r.Ready F (c.opened.addAll (assumptions f pre)) := by
  intro r hmem
  rw [searchRounds] at hmem
  split at hmem
  · rename_i a' p hprepare
    split at hmem
    · rename_i m hm
      obtain ⟨-, Δ, -, hreaches⟩ := prepare_ok (Faithful.reaches_push h).keeps hprepare
      exact Method.ready_of_config hm hreaches.keeps r hmem
    · cases hmem
  · cases hmem

end run

/-- In every round of a run, also of one that ends with an error later, a positive answer leads to a
change or to an error, unless all that is true in the model leaves 64 bits when it is evaluated. -/
theorem sat_rounds_heed {width limit : Nat} {s₀ : BitSolver}
    (hcreate : BitSolver.create width limit = .ok s₀) (commands : List BitSolver.Command)
    (v : Verifier) (a : Analyzer) (f : Procedure) (pre : Expr) {r : Round BitSolver}
    (hmem : r ∈ v.rounds (s₀.execute commands).1 ∨ r ∈ a.searchRounds f pre (s₀.execute commands).1)
    (hasks : r.conditions ≠ []) (hsat : r.question.1 = .ok .sat) : r.Heeds := by
  obtain ⟨hmin, hmax, hkeeps⟩ := BitSolver.keeps_of_create hcreate commands
  rcases hmem with hmem | hmem
  · exact (v.ready_rounds hkeeps r hmem).heeds hasks hsat
  · exact (a.ready_searchRounds hkeeps f pre r hmem).heeds hasks hsat

namespace Verifier

/-- A loop that goes on as long as a sum is positive which 64 bits do not hold. -/
def carry : Procedure where
  name := "carry"
  blocks := [
    { location := 1, source := ⟨"carry", 1⟩ },
    { location := 2, source := ⟨"carry", 2⟩, head := some 0
      guard := .lt (.int 0) (.add [.int 9223372036854775807, .int 1])
      loopVars := [⟨"x#lb2", .int 1, false⟩] },
    { location := 3, source := ⟨"carry", 3⟩
      assertions := [⟨"not entered", .not (.boolVar "$guard#ls2")⟩] }]

theorem rounds_carry : ∃ r ∈ (create counting carry none (.bool true)).rounds
    ((BitSolver.fresh 2 1000).execute []).1,
      r.conditions ≠ [] ∧ r.question.1 = .ok .sat ∧ r.outcome.1 = .ok false := by
  decide +kernel

/-- The answer says that the loop is entered, and nothing comes of it, since the condition of the loop
cannot be evaluated. -/
theorem sat_rounds_heed_carry : ∃ r ∈ (create counting carry none (.bool true)).rounds
    ((BitSolver.fresh 2 1000).execute []).1,
      r.question.1 = .ok .sat ∧ r.outcome.1 = .ok false ∧ r.Overlooked := by
  obtain ⟨r, hmem, hasks, hsat, hrun⟩ := rounds_carry
  refine ⟨r, hmem, hsat, hrun, ?_⟩
  have hcreate := BitSolver.create_eq 1000 (Nat.le_refl 2) (by decide)
  exact (sat_rounds_heed hcreate [] _ { config := counting } carry (.bool true) (.inl hmem) hasks
    hsat).overlooked hrun

/-- A positive answer is ignored: the search ends with the first round, though the answer to its
question was positive, and the assertion that the loop is never entered is found to hold. -/
theorem sat_round_ignored :
    (run (create counting carry none (.bool true), ((BitSolver.fresh 2 1000).execute []).1)).1 =
        .ok () ∧
      (∃ q ∈ (run (create counting carry none (.bool true),
        ((BitSolver.fresh 2 1000).execute []).1)).2.1.properties, q.status = .holds) ∧
      ∃ r ∈ (create counting carry none (.bool true)).rounds ((BitSolver.fresh 2 1000).execute []).1,
        r.question.1 = .ok .sat ∧ r.outcome.1 = .ok false := by
  refine ⟨by decide +kernel, by decide +kernel, ?_⟩
  obtain ⟨r, hmem, -, hsat, hrun⟩ := rounds_carry
  exact ⟨r, hmem, hsat, hrun⟩

end Verifier

end InvariantSynthesis
