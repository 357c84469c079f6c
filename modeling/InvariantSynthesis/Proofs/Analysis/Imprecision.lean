import InvariantSynthesis.Proofs.Analysis.Soundness
import InvariantSynthesis.Proofs.Analysis.Work
import InvariantSynthesis.Proofs.Domain.Imprecision

namespace InvariantSynthesis

open Session

theorem leaves_requireFeasible {S σ γ : Type} {f : S → γ} (a : Answer) :
    Leaves f (requireFeasible a : Session S σ Unit) := by
  cases a with
  | unsat => exact leaves_throw _
  | sat | unknown => exact leaves_pure ()

theorem leaves_check {S σ γ α : Type} [Oracle σ] {f : S → γ} {g : S → S} {k : Answer → Session S σ α}
    (hg : ∀ s, f (g s) = f s) (hk : ∀ answer, Leaves f (k answer)) :
    Leaves f (do Session.update g; k (← Session.request Oracle.check)) :=
  (leaves_update hg).bind fun _ => (leaves_request _).bind hk

namespace Analyzer

variable {σ : Type} [Oracle σ] {f : Procedure} {pre : Expr} {a a' : Analyzer} {o p : σ}

theorem leaves_prepare (f : Procedure) (pre : Expr) :
    Leaves config (prepare f pre : Session Analyzer σ Unit) := by
  refine Leaves.bind (leaves_update fun _ => rfl) fun _ => (leaves_request _).bind fun _ => ?_
  refine (leaves_request _).bind fun _ => (leaves_request _).bind fun _ => ?_
  exact (leaves_request _).bind fun _ => leaves_check (fun _ => rfl) leaves_requireFeasible

theorem imprecise_of_run
    (hrun : (run f pre : Session Analyzer σ Unit) (a, o) = (.ok (), (a', p))) :
    ∃ i range, a'.invariant = some i ∧
      Method.ofConfig a.config (.ofProcedures [f]) range = .ok i.method ∧
      a'.imprecise = if a.config.showImprecise then f.attributions i.imprecision else [] := by
  rw [run_eq] at hrun
  obtain ⟨⟨⟩, t₀, h₀, hrun⟩ := ok_of_bind hrun
  cases h₀
  obtain ⟨q, hbody, -⟩ := inScope_ok hrun
  obtain ⟨⟨⟩, ⟨b, o₁⟩, hprepare, hconclude⟩ := ok_of_bind hbody
  have hconfig : b.config = a.config := by
    have hleaves := leaves_prepare f pre a.reset (Oracle.push o)
    rwa [hprepare] at hleaves
  rw [conclude_eq] at hconclude
  obtain ⟨m, t₁, h₁, hclimb⟩ := ok_of_bind hconclude
  obtain ⟨hm, rfl⟩ := ofExcept_ok h₁
  obtain ⟨⟨value, stats⟩, t₂, -, hreport⟩ := ok_of_bind hclimb
  rw [hconfig] at hm hreport
  cases hreport
  exact ⟨⟨m, value⟩, Oracle.range o₁, rfl, hm, rfl⟩

end Analyzer

namespace Verifier

variable {σ : Type} [Oracle σ] {v v' w : Verifier} {o p : σ}

def task (v : Verifier) : Config × Procedure × Option Procedure × LoopSystem :=
  (v.config, v.procedure, v.old, v.loops)

theorem leaves_prepare : Leaves task (prepare : Session Verifier σ Unit) := by
  refine Leaves.bind (leaves_update fun _ => rfl) fun _ => leaves_state.bind fun v => ?_
  refine (leaves_request _).bind fun _ => (leaves_forM (fun _ => leaves_request _) _).bind fun _ => ?_
  exact leaves_check (fun _ => rfl) leaves_requireFeasible

theorem leaves_checkProperty (invariant : Expr) (q : Property) :
    Leaves task (checkProperty invariant q : Session Verifier σ Property) := by
  apply Leaves.inScope
  refine (leaves_request _).bind fun _ => (leaves_request _).bind fun _ => ?_
  refine leaves_check (fun _ => rfl) fun answer => ?_
  cases answer with
  | unsat | unknown => exact leaves_pure _
  | sat => exact leaves_requireModel.bind fun _ => leaves_pure _

theorem leaves_checkProperties (invariant : Expr) (i : Nat) (qs : List Property) :
    Leaves task (checkProperties invariant i qs : Session Verifier σ Unit) := by
  induction qs generalizing i with
  | nil => exact leaves_pure ()
  | cons q qs ih =>
    refine (leaves_checkProperty invariant q).bind fun _ => ?_
    exact Leaves.bind (leaves_update fun _ => rfl) fun _ => ih _

theorem imprecise_of_run (hrun : (run : Session Verifier σ Unit) (v, o) = (.ok (), (v', p))) :
    ∃ i range, v'.invariant = some i ∧ Method.ofConfig v.config v.loops range = .ok i.method ∧
      v'.imprecise = if v.config.showImprecise then v.attributions i.imprecision else [] := by
  rw [run_eq] at hrun
  obtain ⟨⟨⟩, t₀, h₀, hrun⟩ := ok_of_bind hrun
  cases h₀
  obtain ⟨q, hbody, -⟩ := inScope_ok hrun
  obtain ⟨⟨⟩, ⟨w, o₁⟩, hprepare, hconclude⟩ := ok_of_bind hbody
  have hw : w.task = v.task := by
    have hleaves := leaves_prepare v.reset (Oracle.push o)
    rwa [hprepare] at hleaves
  rw [conclude_eq] at hconclude
  obtain ⟨m, t₁, h₁, hclimb⟩ := ok_of_bind hconclude
  obtain ⟨hm, rfl⟩ := ofExcept_ok h₁
  obtain ⟨⟨value, stats⟩, ⟨w₂, o₂⟩, hclimbed, hreport⟩ := ok_of_bind hclimb
  obtain ⟨⟨⟩, t₃, h₃, hcheck⟩ := ok_of_bind hreport
  cases h₃
  obtain ⟨⟨⟩, ⟨w₄, o₄⟩, hchecked, hend⟩ := ok_of_bind hcheck
  have hw₄ : w₄.task = v.task := by
    have hleaves := leaves_checkProperties (Invariant.mk m value).expr 0 w.properties
      { w₂ with stats := w₂.stats.merge stats } o₂
    rw [hchecked] at hleaves
    obtain ⟨hpasses, -⟩ := climb_ok hclimbed
    have hw₂ : w₂.task = w.task := by rw [hpasses]; rfl
    exact (hleaves.trans hw₂).trans hw
  cases hend
  simp only [task, Prod.mk.injEq] at hw hw₄
  refine ⟨⟨m, value⟩, Oracle.range o₁, rfl, ?_, ?_⟩
  · rw [← hw.1, ← hw.2.2.2]
    exact hm
  · simp only [hw₄, attributions, versionOf]

theorem attributions_of_single (h : v.old = none) (entries : List Imprecise) :
    v.attributions entries = v.procedure.attributions entries := by
  simp only [attributions, versionOf, h]
  rfl

end Verifier

theorem Invariant.reportedAs {config : Config} {s : LoopSystem} {range : Int × Int} {i : Invariant}
    (hdomain : config.domain = .heap ∨ ∃ shape strategy, config.domain = .template shape strategy)
    (h : Method.ofConfig config s range = .ok i.method) (p : Procedure) :
    i.method.domain.ReportedAs i.value p (p.attributions i.imprecision) := by
  obtain ⟨m, value⟩ := i
  rw [Method.ofConfig] at h
  rcases hdomain with hheap | ⟨shape, strategy, htemplate⟩
  · rw [hheap] at h
    cases h
    exact (Domain.listedBy_heap _ value).reportedAs
  · rw [htemplate] at h
    cases strategy with
    | enumeration | bisection =>
      obtain ⟨d, -, h⟩ := Except.exists_of_bind_ok h
      cases h
      exact (Domain.listedBy_template d value).reportedAs

/-- A run for one procedure that looks for points-to sets or template bounds and ends without an error
reports the variables of the rows at the top of its invariant: those and no others, except for the
variables of the tool, each once, in the order of their first rows, and each at the last block inside
its loop that defines it. It does not matter what the oracle answers. -/
theorem imprecise_reported_exactly {σ : Type} [Oracle σ] {config : Config} (p : Procedure) (pre : Expr)
    (hdomain : config.domain = .heap ∨ ∃ shape strategy, config.domain = .template shape strategy)
    (hshow : config.showImprecise = true) :
    (∀ (a : Analyzer) (o : σ), a.config = config →
      ((Analyzer.run p pre : Session Analyzer σ Unit) (a, o)).1 = .ok () →
      ∃ i range, ((Analyzer.run p pre : Session Analyzer σ Unit) (a, o)).2.1.invariant = some i ∧
        Method.ofConfig config (.ofProcedures [p]) range = .ok i.method ∧
        i.method.domain.ReportedAs i.value p
          ((Analyzer.run p pre : Session Analyzer σ Unit) (a, o)).2.1.imprecise) ∧
    (∀ (v : Verifier) (o : σ), v.config = config → v.procedure = p → v.old = none →
      ((Verifier.run : Session Verifier σ Unit) (v, o)).1 = .ok () →
      ∃ i range, ((Verifier.run : Session Verifier σ Unit) (v, o)).2.1.invariant = some i ∧
        Method.ofConfig config v.loops range = .ok i.method ∧
        i.method.domain.ReportedAs i.value p
          ((Verifier.run : Session Verifier σ Unit) (v, o)).2.1.imprecise) := by
  constructor
  · rintro a o rfl hrun
    obtain ⟨⟨a', o'⟩, hend⟩ : ∃ t, Analyzer.run p pre (a, o) = (.ok (), t) := ⟨_, Prod.ext hrun rfl⟩
    obtain ⟨i, range, hi, hm, hreport⟩ := Analyzer.imprecise_of_run hend
    rw [if_pos hshow] at hreport
    rw [hend]
    exact ⟨i, range, hi, hm, hreport ▸ i.reportedAs hdomain hm p⟩
  · rintro v o rfl rfl hold hrun
    obtain ⟨⟨v', o'⟩, hend⟩ : ∃ t, Verifier.run (v, o) = (.ok (), t) := ⟨_, Prod.ext hrun rfl⟩
    obtain ⟨i, range, hi, hm, hreport⟩ := Verifier.imprecise_of_run hend
    rw [if_pos hshow, Verifier.attributions_of_single hold] at hreport
    rw [hend]
    exact ⟨i, range, hi, hm, hreport ▸ i.reportedAs hdomain hm v.procedure⟩

/-- A loop that raises a number in a block of its own. -/
def stepping : Procedure where
  name := "step"
  blocks := [
    { location := 1, source := ⟨"step", 1⟩
      equalities := [⟨"x#1", .ite (.boolVar "$guard#ls3") (.intVar "x#lb3") (.int 0)⟩] },
    { location := 2, source := ⟨"step", 2⟩
      equalities := [⟨"x#2", .add [.intVar "x#1", .int 1]⟩] },
    { location := 3, source := ⟨"step", 3⟩, guard := .lt (.intVar "x#1") (.int 1), head := some 0
      loopVars := [⟨"x#lb3", .intVar "x#2", false⟩] }]

def reporting : Config where
  domain := .template .intervals .enumeration
  width := 2
  showImprecise := true

theorem run_stepping :
    (Analyzer.run stepping (.bool true) ({ config := reporting }, BitSolver.fresh 2 1000)).1 = .ok () ∧
      (Verifier.run (.create reporting stepping none (.bool true), BitSolver.fresh 2 1000)).1 =
        .ok () ∧
      (Verifier.run (.create reporting stepping none (.bool true),
        BitSolver.fresh 2 1000)).2.1.imprecise = [⟨"x#lb3", "x", some ⟨"step", 2⟩, none⟩] := by
  decide +kernel

/-- The number is reported at the block that raises it. -/
theorem imprecise_reported_exactly_stepping :
    (∃ i, (Analyzer.run stepping (.bool true)
        ({ config := reporting }, BitSolver.fresh 2 1000)).2.1.invariant = some i ∧
      i.method.domain.ReportedAs i.value stepping (Analyzer.run stepping (.bool true)
        ({ config := reporting }, BitSolver.fresh 2 1000)).2.1.imprecise) ∧
    (∃ i, (Verifier.run (.create reporting stepping none (.bool true),
        BitSolver.fresh 2 1000)).2.1.invariant = some i ∧
      i.method.domain.ReportedAs i.value stepping [⟨"x#lb3", "x", some ⟨"step", 2⟩, none⟩]) := by
  obtain ⟨hanalyzer, hverifier, hreport⟩ := run_stepping
  have hdomain : reporting.domain = .heap ∨
      ∃ shape strategy, reporting.domain = .template shape strategy := .inr ⟨_, _, rfl⟩
  obtain ⟨hsingle, hchecking⟩ :=
    imprecise_reported_exactly (σ := BitSolver) stepping (.bool true) hdomain rfl
  constructor
  · obtain ⟨i, -, hi, -, hreported⟩ := hsingle _ _ rfl hanalyzer
    exact ⟨i, hi, hreported⟩
  · obtain ⟨i, -, hi, -, hreported⟩ := hchecking _ _ rfl rfl rfl hverifier
    rw [hreport] at hreported
    exact ⟨i, hi, hreported⟩

end InvariantSynthesis
