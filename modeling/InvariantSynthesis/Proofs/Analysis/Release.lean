import InvariantSynthesis.Proofs.Analysis.Frame
import InvariantSynthesis.Proofs.Analysis.Soundness

namespace InvariantSynthesis

namespace Scopes

theorem addAll_addAll (c : Scopes) (es es' : List Expr) :
    (c.addAll es).addAll es' = c.addAll (es ++ es') :=
  List.foldl_append.symm

theorem outer_addAll (c : Scopes) (es : List Expr) : (c.addAll es).outer = c.outer := by
  induction es generalizing c with
  | nil => rfl
  | cons e es ih => exact ih (c.add e)

theorem closed_addAll_opened (c : Scopes) (es : List Expr) : (c.opened.addAll es).closed = c := by
  rw [closed, outer_addAll]
  rfl

end Scopes

namespace BitSolver

variable {s t q : BitSolver} {c : Scopes}

theorem Keeps.outer_assert (h : Keeps s c) (e : Expr) :
    (BitSolver.assert e s).2.outer = s.outer := by
  have hg := ((h.forget none).conjoined e).grows
  rw [assert_eq]
  cases hrun : BitSolver.conjoined e { s with model := none } with
  | mk x t =>
    rw [hrun] at hg
    cases x with
    | error err =>
      rw [Session.bind_error hrun]
      exact hg.outer
    | ok top =>
      rw [Session.bind_ok hrun]
      exact hg.outer

theorem outer_check (s : BitSolver) : (check s).2.outer = s.outer := by
  by_cases hlimit : s.nodeLimit < s.store.size
  · rw [check_eq_unknown hlimit]
  · cases hpath : s.store.path? s.top with
    | none => rw [check_eq_unsat hlimit hpath]
    | some path => rw [check_eq_sat hlimit hpath]

/-- The scopes around the innermost one are as they were, and the innermost one has its assertions
and perhaps more. -/
structure Inside (s t : BitSolver) (c : Scopes) : Prop where
  keeps : ∃ es, t.Keeps (c.addAll es)
  adds : s.Adds t
  outer : t.outer = s.outer

theorem Inside.refl (h : s.Keeps c) : Inside s s c :=
  ⟨⟨[], h⟩, (Grows.refl h.valid).toAdds, rfl⟩

/-- The stack of diagrams is as it was, with the same assertions. -/
structure Restored (s t : BitSolver) (c : Scopes) : Prop where
  keeps : t.Keeps c
  adds : s.Adds t
  top : t.top = s.top
  outer : t.outer = s.outer

theorem Restored.inside (h : Restored s t c) : Inside s t c :=
  ⟨⟨[], h.keeps⟩, h.adds, h.outer⟩

theorem lowers : Oracle.Lowers BitSolver := by
  intro s t hpop
  have hpop : pop s = (.ok (), t) := hpop
  cases hs : s.outer with
  | nil =>
    rw [pop_eq_error hs] at hpop
    cases hpop
  | cons e es =>
    rw [pop_eq_ok hs] at hpop
    cases hpop
    show es.length < s.outer.length
    rw [hs]
    exact Nat.lt_succ_self _

theorem release_eq (h : q.outer = s.top :: s.outer) :
    Oracle.release (Oracle.depth s.push) q =
      { q with top := s.top, outer := s.outer, model := none } := by
  have hpop : (Oracle.pop : Request BitSolver Unit) q =
      (.ok (), { q with top := s.top, outer := s.outer, model := none }) := pop_eq_ok h
  have hlevel : Oracle.depth s.push = s.outer.length + 1 := rfl
  have hdepth : Oracle.depth q = s.outer.length + 1 := congrArg List.length h
  rw [Oracle.release_eq_iff lowers]
  exact ⟨1, .next (by omega) hpop (.done (Nat.lt_succ_self _))⟩

theorem Inside.released (hs : s.Keeps c) (h : Inside s.push q c.opened) :
    Restored s (Oracle.release (Oracle.depth s.push) q) c := by
  obtain ⟨⟨es, hkeeps⟩, hadds, houter⟩ := h
  have houter : q.outer = s.top :: s.outer := houter
  rw [release_eq houter]
  rcases hkeeps.pop with ⟨t, hpop, -, ht, ha, -⟩ | ⟨-, hnil⟩
  · obtain rfl : { q with top := s.top, outer := s.outer, model := none } = t :=
      (Prod.mk.inj ((pop_eq_ok houter).symm.trans hpop)).2
    rw [Scopes.closed_addAll_opened] at ht
    have hpush : s.Adds s.push := hs.valid.adds s.top (s.top :: s.outer) s.model
    exact ⟨ht, hpush.trans (hadds.trans ha), rfl, rfl⟩
  · rw [Scopes.outer_addAll] at hnil
    cases hnil

/-- Requests and closed scopes leave the scopes around. -/
theorem frame_inside : Oracle.Frame fun s t : BitSolver => ∀ c, s.Keeps c → Inside s t c where
  refl s c h := .refl h
  trans h h' c hc := by
    obtain ⟨⟨es, hkeeps⟩, hadds, houter⟩ := h c hc
    obtain ⟨⟨es', hkeeps'⟩, hadds', houter'⟩ := h' _ hkeeps
    refine ⟨⟨es ++ es', ?_⟩, hadds.trans hadds', houter'.trans houter⟩
    rw [← Scopes.addAll_addAll]
    exact hkeeps'
  declare names s c h := by
    have hg := (declare_runs h.valid names).grows
    exact ⟨⟨[], h.later hg⟩, hg.toAdds, hg.outer⟩
  assert e s c h := by
    have houter := h.outer_assert e
    rcases h.assert e with ⟨t, hrun, hk, ha⟩ | ⟨err, t, hrun, hk, ha⟩
    · rw [hrun] at houter
      show Inside s (assert e s).2 c
      rw [hrun]
      exact ⟨⟨[e], hk⟩, ha, houter⟩
    · rw [hrun] at houter
      show Inside s (assert e s).2 c
      rw [hrun]
      exact ⟨⟨[], hk⟩, ha, houter⟩
  check s c h := by
    have houter := outer_check s
    obtain ⟨a, t, hrun, hk, ha, -⟩ := h.check
    rw [hrun] at houter
    show Inside s (check s).2 c
    rw [hrun]
    exact ⟨⟨[], hk⟩, ha, houter⟩
  scope h c hc := ((h c.opened hc.push).released hc).inside

/-- The solver as a run of the verifier or of the analyzer leaves it, with or without an error. -/
inductive Left (s : BitSolver) : BitSolver → Prop
  | verifier (v : Verifier) : Left s (Verifier.run (v, s)).2.2
  | analyzer (a : Analyzer) (f : Procedure) (pre : Expr) : Left s (Analyzer.run f pre (a, s)).2.2

theorem Left.restored (h : s.Left t) (hs : s.Keeps c) : Restored s t c := by
  cases h with
  | verifier v =>
    obtain ⟨q, hq, hrun⟩ := Verifier.run_scoped frame_inside v s
    rw [hrun]
    exact (hq c.opened hs.push).released hs
  | analyzer a f pre =>
    obtain ⟨q, hq, hrun⟩ := Analyzer.run_scoped frame_inside f pre a s
    rw [hrun]
    exact (hq c.opened hs.push).released hs

/-- A solver that was made, asked and lent to runs, and its live assertions. -/
inductive Used (width limit : Nat) : BitSolver → Scopes → Prop
  | created {s : BitSolver} (made : create width limit = .ok s) : Used width limit s .none
  | asked {s : BitSolver} {c : Scopes} (used : Used width limit s c) (command : Command) :
      Used width limit (step (s, c) command).1 (step (s, c) command).2
  | left {s t : BitSolver} {c : Scopes} (used : Used width limit s c) (run : s.Left t) :
      Used width limit t c

theorem Used.keeps {width limit : Nat} (h : Used width limit s c) :
    ∃ (hmin : 2 ≤ width) (hmax : width ≤ 32), (faithful hmin hmax).Keeps s c s.sorts := by
  induction h with
  | created made => exact keeps_of_create made []
  | asked used command ih =>
    obtain ⟨hmin, hmax, hkeeps, -, hwidth⟩ := ih
    obtain ⟨hstep, hadds⟩ := step_keeps hkeeps command
    exact ⟨hmin, hmax, hstep, rfl, hadds.width.trans hwidth⟩
  | left used run ih =>
    obtain ⟨hmin, hmax, hkeeps, -, hwidth⟩ := ih
    have hrestored := run.restored hkeeps
    exact ⟨hmin, hmax, hrestored.keeps, rfl, hrestored.adds.width.trans hwidth⟩

/-- Below the limit, the answer is determined by the live assertions. -/
theorem Keeps.answer (h : s.Keeps c) (hsize : s.store.size ≤ s.nodeLimit) :
    (BitSolver.check s).1 = .ok .sat ∧ Satisfiable s.width c ∨
      (BitSolver.check s).1 = .ok .unsat ∧ ¬Satisfiable s.width c := by
  obtain ⟨a, t, hrun, -, -, -, hunknown, hunsat, hsat⟩ := h.check
  rw [hrun]
  rw [range_eq] at hunsat hsat
  cases a with
  | unknown reason => exact absurd (hunknown.mp ⟨reason, rfl⟩) (Nat.not_lt_of_le hsize)
  | unsat =>
    refine .inr ⟨rfl, ?_⟩
    rintro ⟨ρ, hρ, hholds⟩
    obtain ⟨e, he, hfalse⟩ := hunsat rfl ρ hρ
    exact nomatch (hholds e he).symm.trans hfalse
  | sat =>
    obtain ⟨m, -, hm⟩ := hsat rfl
    have hzero := range_zero h.width_pos
    rw [range_eq] at hzero
    exact .inl ⟨rfl, m.sortedValuation, hm.inRange hzero, hm.holds_sorted h.fits⟩

theorem Keeps.answer_eq (h : s.Keeps c) (h' : t.Keeps c) (hwidth : t.width = s.width)
    (hsize : s.store.size ≤ s.nodeLimit) (hsize' : t.store.size ≤ t.nodeLimit) :
    (BitSolver.check t).1 = (BitSolver.check s).1 := by
  have hanswer' := h'.answer hsize'
  rw [hwidth] at hanswer'
  rcases h.answer hsize with ⟨hs, hc⟩ | ⟨hs, hc⟩ <;> rcases hanswer' with ⟨ht, hc'⟩ | ⟨ht, hc'⟩
  · rw [hs, ht]
  · exact absurd hc hc'
  · exact absurd hc' hc
  · rw [hs, ht]

theorem Keeps.step_eq (h : s.Keeps c) (h' : t.Keeps c) {command : Command}
    (hcommand : ∀ e, command ≠ .assert e) : (step (t, c) command).2 = (step (s, c) command).2 := by
  cases command with
  | declare | push | check => rfl
  | assert e => exact absurd rfl (hcommand e)
  | pop =>
    rcases h.pop with ⟨u, hpop, hopen, -⟩ | ⟨hpop, hnone⟩ <;>
      rcases h'.pop with ⟨u', hpop', hopen', -⟩ | ⟨hpop', hnone'⟩ <;> simp only [step, hpop, hpop']
    · exact absurd hnone' hopen
    · exact absurd hnone hopen'

theorem Keeps.foldl_step_eq (h : s.Keeps c) (h' : t.Keeps c) {commands : List Command}
    (hcommands : ∀ e, .assert e ∉ commands) :
    (commands.foldl step (t, c)).2 = (commands.foldl step (s, c)).2 := by
  induction commands generalizing s t c with
  | nil => rfl
  | cons command commands ih =>
    have heq := h.step_eq h' fun e he => hcommands e (he ▸ List.mem_cons_self)
    have hstep := (step_keeps h command).1
    have hstep' := (step_keeps h' command).1
    rw [heq] at hstep'
    have ht : step (t, c) command = ((step (t, c) command).1, (step (s, c) command).2) :=
      Prod.ext rfl heq
    rw [List.foldl_cons, List.foldl_cons, ht]
    exact ih hstep hstep' fun e he => hcommands e (List.mem_cons_of_mem _ he)

/-- However a run ends, the solver has the stack of diagrams that it had before. Later requests other
than assertions leave it with the same live assertions as if there had been no run; and while the
live assertions are the same, a check below the limit has the same answer. -/
theorem run_restores_stack {width limit : Nat} {s₀ : BitSolver} (hcreate : create width limit = .ok s₀)
    (commands : List Command) {t : BitSolver} (hrun : (s₀.execute commands).1.Left t) :
    t.top = (s₀.execute commands).1.top ∧ t.outer = (s₀.execute commands).1.outer ∧
      ∀ later : List Command,
        let without := s₀.execute (commands ++ later)
        let after := later.foldl step (t, (s₀.execute commands).2)
        ((∀ e, .assert e ∉ later) → after.2 = without.2) ∧
        (after.2 = without.2 → after.1.store.size ≤ limit → without.1.store.size ≤ limit →
          (check after.1).1 = (check without.1).1) := by
  obtain ⟨hmin, hmax, rfl⟩ := of_create_ok hcreate
  obtain ⟨hs, ha⟩ := execute_keeps limit (widthAllowed_iff.mpr ⟨hmin, hmax⟩) commands
  obtain ⟨ht, hadds, htop, houter⟩ := hrun.restored hs
  refine ⟨htop, houter, fun later => ?_⟩
  have hwithout : (fresh width limit).execute (commands ++ later) =
      later.foldl step ((fresh width limit).execute commands) := List.foldl_append
  dsimp only
  rw [hwithout]
  refine ⟨fun hlater => hs.foldl_step_eq ht hlater, fun hsame hsize hsize' => ?_⟩
  obtain ⟨hs', ha'⟩ := foldl_step_keeps hs later
  obtain ⟨ht', hadds'⟩ := foldl_step_keeps ht later
  rw [hsame] at ht'
  have hlimit := ha'.nodeLimit.trans ha.nodeLimit
  have hlimit' := hadds'.nodeLimit.trans (hadds.nodeLimit.trans ha.nodeLimit)
  refine hs'.answer_eq ht' ?_ ?_ ?_
  · exact (hadds'.width.trans hadds.width).trans ha'.width.symm
  · rw [hlimit]
    exact hsize'
  · rw [hlimit']
    exact hsize

/-- A caller's scopes: a number below zero, and inside them a contradiction. -/
def nestedCommands : List Command :=
  [.declare [("x1", .int)], .push, .assert (.lt (.intVar "x1") (.int 0)), .push,
    .assert (.eq (.intVar "x1") (.int 1))]

/-- The solver after a run whose precondition uses a number as a truth value. -/
def clashed : BitSolver :=
  (Verifier.run (.create Verifier.counting Verifier.counter none (.boolVar "x1"),
    ((fresh 2 1000).execute nestedCommands).1)).2.2

/-- The run ends with an error in the scopes of its caller. When the caller closes the inner one, the
contradiction is gone and the outer one is satisfiable, as without the run. -/
theorem run_restores_stack_clashed :
    (Verifier.run (.create Verifier.counting Verifier.counter none (.boolVar "x1"),
        ((fresh 2 1000).execute nestedCommands).1)).1 =
      .error (.oracle (.sortClash "x1" .int .bool)) ∧
    clashed.top = ((fresh 2 1000).execute nestedCommands).1.top ∧
    clashed.outer = ((fresh 2 1000).execute nestedCommands).1.outer ∧
    (check ([.pop].foldl step (clashed, ((fresh 2 1000).execute nestedCommands).2)).1).1 =
      (check ((fresh 2 1000).execute (nestedCommands ++ [.pop])).1).1 ∧
    (check ((fresh 2 1000).execute (nestedCommands ++ [.pop])).1).1 = .ok .sat := by
  have hleft : ((fresh 2 1000).execute nestedCommands).1.Left clashed := .verifier _
  obtain ⟨htop, houter, hlater⟩ :=
    run_restores_stack (create_eq 1000 (by decide) (by decide)) nestedCommands hleft
  obtain ⟨hsame, hanswer⟩ := hlater [.pop]
  refine ⟨by decide +kernel, htop, houter, ?_, by decide +kernel⟩
  exact hanswer (hsame (by simp)) (by decide +kernel) (by decide +kernel)

end BitSolver

end InvariantSynthesis
