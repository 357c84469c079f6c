import InvariantSynthesis.BitSolver.Oracle
import InvariantSynthesis.Proofs.Analysis.Accounts
import InvariantSynthesis.Proofs.Analysis.Run

namespace InvariantSynthesis

open Session

namespace Verifier

variable {σ : Type} [Oracle σ]

theorem climbing_climb (m : Method) (foci : List (Option Nat)) (fuel : Nat)
    (s : m.domain.Value × Statistics) (v : Verifier) (o : Tallied σ) :
    Climbing stats (m.climbRounds foci fuel (s, o)) s v o (climb m foci fuel s (v, o)) := by
  induction fuel generalizing s v o with
  | zero => exact .done (.refl (s, o) ()) rfl
  | succ fuel ih =>
    have hpassed := m.accounts_pass foci (s, o)
    rw [Method.climbRounds]
    cases hpass : pass m foci (s, o) with
    | mk x t =>
      obtain ⟨t, q⟩ := t
      rw [hpass] at hpassed
      have hnested : (Session.nested s (pass m foci) : Session Verifier (Tallied σ) _)
          ({ v with passes := v.passes + 1 }, o) =
            (.ok (x, t), ({ v with passes := v.passes + 1 }, q)) := by
        rw [Session.nested, hpass]
      have hupdate : (Session.update fun v => { v with passes := v.passes + 1 } :
          Session Verifier (Tallied σ) Unit) (v, o) =
            (.ok (), ({ v with passes := v.passes + 1 }, o)) := rfl
      rw [climb, bind_ok hupdate, bind_ok hnested]
      cases x with
      | error e =>
        rw [List.append_nil]
        exact .done hpassed rfl
      | ok changed =>
        cases changed with
        | true => exact Climbing.next (b := { v with passes := v.passes + 1 }) hpassed rfl (ih t _ q)
        | false =>
          rw [List.append_nil]
          exact .done hpassed rfl

end Verifier

namespace Analyzer

variable {σ : Type} [Oracle σ]

theorem climbing_climb (m : Method) (fuel : Nat) (s : m.domain.Value × Statistics) (a : Analyzer)
    (o : Tallied σ) :
    Climbing stats (m.climbRounds [none] fuel (s, o)) s a o (climb m fuel s (a, o)) := by
  induction fuel generalizing s a o with
  | zero => exact .done (.refl (s, o) ()) rfl
  | succ fuel ih =>
    have hpassed := m.accounts_pass [none] (s, o)
    rw [Method.climbRounds]
    rw [Verifier.pass_one] at hpassed ⊢
    cases hround : m.round none (s, o) with
    | mk x t =>
      obtain ⟨t, q⟩ := t
      rw [hround] at hpassed
      have hnested : (Session.nested s (m.round none) : Session Analyzer (Tallied σ) _) (a, o) =
          (.ok (x, t), (a, q)) := by
        rw [Session.nested, hround]
      rw [climb, bind_ok hnested]
      cases x with
      | error e =>
        rw [List.append_nil]
        exact .done hpassed rfl
      | ok changed =>
        cases changed with
        | true => exact Climbing.next (b := { a with rounds := a.rounds + 1 }) hpassed rfl (ih t _ q)
        | false =>
          rw [List.append_nil]
          exact .done hpassed rfl

def enlist (a : Analyzer) : Analyzer :=
  { a with stats := { a.stats with instances := a.stats.instances + 1 } }

theorem balanced_prepare (f : Procedure) (pre : Expr) (a : Analyzer) (o : Tallied σ) :
    Balanced stats [] (a.enlist, o) ((prepare f pre : Session Analyzer _ Unit) (a, o)).2 := by
  have hcounts : Counts stats (do
      Session.request (Oracle.declare f.symbols)
      Session.assert f.formula
      Session.assert f.enablingExpr
      Session.assert pre
      Session.update (fun a => { a with stats := { a.stats with calls := a.stats.calls + 1 } })
      requireFeasible (← Session.request Oracle.check) : Session Analyzer (Tallied σ) Unit) := by
    refine (counts_declare _).bind fun _ => (counts_assert _).bind fun _ => ?_
    refine (counts_assert _).bind fun _ => (counts_assert _).bind fun _ => ?_
    rw [← bind_assoc]
    exact (counts_check fun _ => rfl).bind counts_requireFeasible
  exact hcounts a.enlist o

def report (f : Procedure) (config : Config) (m : Method) :
    m.domain.Value × Statistics → Session Analyzer σ Unit := fun (value, stats) =>
  Session.update (fun a => { a with
    stats := a.stats.merge stats
    imprecise :=
      if config.showImprecise then f.attributions (Invariant.mk m value).imprecision else []
    invariant := some ⟨m, value⟩ })

def conclude (f : Procedure) : Session Analyzer σ Unit := do
  let config := (← Session.state).config
  let range ← Session.look (fun o : σ => Oracle.range o)
  let m ← Session.ofExcept (Method.ofConfig config (.ofProcedures [f]) range)
  climb m (m.domain.height m.domain.start + 1) (m.domain.start, .zero) >>= report f config m

theorem run_eq (f : Procedure) (pre : Expr) : (run f pre : Session Analyzer σ Unit) = (do
    Session.update reset
    Session.inScope (do
      prepare f pre
      conclude f)) :=
  rfl

def concludeRounds (a : Analyzer) (f : Procedure) (o : σ) : List (Round σ) :=
  match Method.ofConfig a.config (.ofProcedures [f]) (Oracle.range o) with
  | .ok m => m.climbRounds [none] (m.domain.height m.domain.start + 1) ((m.domain.start, .zero), o)
  | .error _ => []

theorem conclude_eq (f : Procedure) (a : Analyzer) (o : σ) :
    (conclude f : Session Analyzer σ Unit) (a, o) = (do
      let m ← Session.ofExcept (Method.ofConfig a.config (.ofProcedures [f]) (Oracle.range o))
      climb m (m.domain.height m.domain.start + 1) (m.domain.start, .zero) >>=
        report f a.config m : Session Analyzer σ Unit) (a, o) :=
  rfl

theorem reports_conclude (f : Procedure) (a : Analyzer) (o : Tallied σ) :
    Reports stats (a.concludeRounds f o) (a, o)
      ((conclude f : Session Analyzer (Tallied σ) Unit) (a, o)) := by
  rw [conclude_eq, concludeRounds]
  cases Method.ofConfig a.config (.ofProcedures [f]) (Oracle.range o) with
  | error e => exact .of_balanced (.refl _)
  | ok m =>
    exact (climbing_climb m _ (m.domain.start, .zero) a o).reports
      fun found b q => ⟨_, rfl, .of_eq rfl rfl⟩

theorem reports_run (f : Procedure) (pre : Expr) (a : Analyzer) (o : Tallied σ) :
    Reports stats (a.searchRounds f pre o) (a.reset.enlist, o)
      ((run f pre : Session Analyzer (Tallied σ) Unit) (a, o)) := by
  rw [run_eq]
  apply Reports.inScope (balanced_prepare f pre a.reset (Oracle.push o))
  · intro e t hprepare
    rw [searchRounds, hprepare]
  · intro t hprepare
    rw [searchRounds, hprepare]
    exact reports_conclude f t.1 t.2

end Analyzer

namespace Verifier

variable {σ : Type} [Oracle σ]

theorem balanced_prepare (v : Verifier) (o : Tallied σ) :
    Balanced stats [] (v.enlist, o) ((prepare : Session Verifier _ Unit) (v, o)).2 := by
  have hcounts : Counts stats (do
      Session.request (Oracle.declare v.symbols)
      v.assumptions.forM Session.assert
      Session.update countCall
      requireFeasible (← Session.request Oracle.check) : Session Verifier (Tallied σ) Unit) := by
    refine (counts_declare _).bind fun _ => (counts_forM counts_assert _).bind fun _ => ?_
    rw [← bind_assoc]
    exact (counts_check fun _ => rfl).bind counts_requireFeasible
  exact hcounts v.enlist o

theorem counts_checkProperty (invariant : Expr) (p : Property) :
    Counts stats (checkProperty invariant p : Session Verifier (Tallied σ) Property) := by
  refine Counts.inScope ((counts_assert _).bind fun _ => (counts_assert _).bind fun _ => ?_)
  rw [← bind_assoc]
  refine (counts_check fun _ => rfl).bind fun answer => ?_
  cases answer with
  | unsat | unknown => exact counts_pure _
  | sat => exact counts_requireModel.bind fun m => counts_pure _

theorem counts_checkProperties (invariant : Expr) (i : Nat) (ps : List Property) :
    Counts stats (checkProperties invariant i ps : Session Verifier (Tallied σ) Unit) := by
  induction ps generalizing i with
  | nil => exact counts_pure ()
  | cons p ps ih =>
    refine (counts_checkProperty invariant p).bind fun q => Counts.bind ?_ fun _ => ih (i + 1)
    exact counts_update fun _ => rfl

def report (ps : List Property) (m : Method) :
    m.domain.Value × Statistics → Session Verifier σ Unit := fun (value, stats) => do
  Session.update (fun v => { v with stats := v.stats.merge stats })
  checkProperties (Invariant.mk m value).expr 0 ps
  Session.update (fun v => { v with
    imprecise :=
      if v.config.showImprecise then v.attributions (Invariant.mk m value).imprecision else []
    invariant := some ⟨m, value⟩ })

theorem balanced_report (ps : List Property) (m : Method) (found : m.domain.Value × Statistics)
    (v : Verifier) (o : Tallied σ) :
    Balanced stats [] ({ v with stats := v.stats.merge found.2 }, o) (report ps m found (v, o)).2 := by
  have hcounts : Counts stats (do
      checkProperties (Invariant.mk m found.1).expr 0 ps
      Session.update (fun v => { v with
        imprecise :=
          if v.config.showImprecise then v.attributions (Invariant.mk m found.1).imprecision else []
        invariant := some ⟨m, found.1⟩ }) : Session Verifier (Tallied σ) Unit) := by
    refine (counts_checkProperties _ _ _).bind fun _ => ?_
    exact counts_update fun _ => rfl
  exact hcounts _ o

def concludeRounds (v : Verifier) (o : σ) : List (Round σ) :=
  match Method.ofConfig v.config v.loops (Oracle.range o) with
  | .ok m => m.climbRounds v.foci (m.domain.height m.domain.start + 1) ((m.domain.start, .zero), o)
  | .error _ => []

theorem conclude_eq (v : Verifier) (o : σ) : (conclude : Session Verifier σ Unit) (v, o) = (do
    let m ← Session.ofExcept (Method.ofConfig v.config v.loops (Oracle.range o))
    climb m v.foci (m.domain.height m.domain.start + 1) (m.domain.start, .zero) >>=
      report v.properties m : Session Verifier σ Unit) (v, o) :=
  rfl

theorem reports_conclude (v : Verifier) (o : Tallied σ) :
    Reports stats (v.concludeRounds o) (v, o)
      ((conclude : Session Verifier (Tallied σ) Unit) (v, o)) := by
  rw [conclude_eq, concludeRounds]
  cases Method.ofConfig v.config v.loops (Oracle.range o) with
  | error e => exact .of_balanced (.refl _)
  | ok m =>
    exact (climbing_climb m v.foci _ (m.domain.start, .zero) v o).reports
      fun found w q => ⟨_, rfl, balanced_report v.properties m found w q⟩

theorem reports_run (v : Verifier) (o : Tallied σ) :
    Reports stats (v.rounds o) (v.reset.enlist, o)
      ((run : Session Verifier (Tallied σ) Unit) (v, o)) := by
  rw [run_eq]
  apply Reports.inScope (balanced_prepare v.reset (Oracle.push o))
  · intro e t hprepare
    rw [rounds, hprepare]
  · intro t hprepare
    rw [rounds, hprepare]
    exact reports_conclude t.1 t.2

end Verifier

namespace Analyzer

variable {σ : Type} [Oracle σ]

/-- What a run is asked for. -/
structure Task (σ : Type) where
  procedure : Procedure
  precondition : Expr
  oracle : σ

def Task.tallied (t : Task σ) : Task (Tallied σ) := { t with oracle := { inner := t.oracle } }

def roundsOf (a : Analyzer) (t : Task σ) : List (Round σ) :=
  a.searchRounds t.procedure t.precondition t.oracle

def perform (a : Analyzer) (t : Task σ) : Except Error Unit × (Analyzer × σ) :=
  (run t.procedure t.precondition : Session Analyzer σ Unit) (a, t.oracle)

def after (a : Analyzer) (t : Task σ) : Analyzer := (a.perform t).2.1

def work (a : Analyzer) (t : Task σ) : Statistics :=
  (a.perform t.tallied).2.2.work ((a.roundsOf t.tallied).flatMap Round.spawned)

/-- The work of a task that is in no statistics. -/
def unreported (a : Analyzer) (t : Task σ) : Statistics := Round.unreported (a.roundsOf t.tallied)

theorem perform_tallied (a : Analyzer) (t : Task σ) :
    a.perform t = Prod.map id (Prod.map id Tallied.inner) (a.perform t.tallied) :=
  run_congr Tallied.morphism_inner.congruence t.procedure t.precondition a t.tallied.oracle

theorem after_merge (a : Analyzer) (t : Task σ) :
    (a.after t).stats.merge (a.unreported t) = a.stats.merge (a.work t) := by
  rw [after, perform_tallied]
  exact (reports_run t.procedure t.precondition a t.tallied.oracle).settles.merge_eq rfl

theorem unreported_of_ok {a : Analyzer} {t : Task σ} (h : (a.perform t).1 = .ok ()) :
    a.unreported t = .zero := by
  rw [perform_tallied] at h
  exact (reports_run t.procedure t.precondition a t.tallied.oracle).complete h

end Analyzer

namespace Verifier

variable {σ : Type} [Oracle σ]

def perform (v : Verifier) (o : σ) : Except Error Unit × (Verifier × σ) :=
  (run : Session Verifier σ Unit) (v, o)

def after (v : Verifier) (o : σ) : Verifier := (v.perform o).2.1

def work (v : Verifier) (o : σ) : Statistics :=
  let tallied : Tallied σ := { inner := o }
  (v.perform tallied).2.2.work ((v.rounds tallied).flatMap Round.spawned)

/-- The work of a run that is in no statistics. -/
def unreported (v : Verifier) (o : σ) : Statistics :=
  Round.unreported (v.rounds ({ inner := o } : Tallied σ))

theorem perform_tallied (v : Verifier) (o : σ) : v.perform o =
    Prod.map id (Prod.map id Tallied.inner) (v.perform ({ inner := o } : Tallied σ)) :=
  run_congr Tallied.morphism_inner.congruence v ({ inner := o } : Tallied σ)

theorem after_merge (v : Verifier) (o : σ) :
    (v.after o).stats.merge (v.unreported o) = v.stats.merge (v.work o) := by
  rw [after, perform_tallied]
  exact (v.reports_run { inner := o }).settles.merge_eq rfl

theorem unreported_of_ok {v : Verifier} {o : σ} (h : (v.perform o).1 = .ok ()) :
    v.unreported o = .zero := by
  rw [perform_tallied] at h
  exact (v.reports_run { inner := o }).complete h

end Verifier

/-- The statistics of an analyzer and of a verifier, together with what they leave out, count the work
of all runs: the runs that were started and the oracles that were made, and the checks of all these
oracles. A run that ends without an error leaves nothing out. Each run has an oracle of its own, which
may be the one that an earlier run has left. -/
theorem statistics_count_reported_work {σ : Type} [Oracle σ] :
    (∀ (a : Analyzer) (ts : List (Analyzer.Task σ)),
      (ts.foldl Analyzer.after a).stats.merge (.along Analyzer.after Analyzer.unreported a ts) =
        a.stats.merge (.along Analyzer.after Analyzer.work a ts)) ∧
    (∀ (v : Verifier) (os : List σ),
      (os.foldl Verifier.after v).stats.merge (.along Verifier.after Verifier.unreported v os) =
        v.stats.merge (.along Verifier.after Verifier.work v os)) ∧
    (∀ (a : Analyzer) (t : Analyzer.Task σ), (a.perform t).1 = .ok () → a.unreported t = .zero) ∧
    ∀ (v : Verifier) (o : σ), (v.perform o).1 = .ok () → v.unreported o = .zero :=
  ⟨Statistics.along_merge Analyzer.after_merge, Statistics.along_merge Verifier.after_merge,
    fun _ _ => Analyzer.unreported_of_ok, fun _ _ => Verifier.unreported_of_ok⟩

namespace Analyzer

/-- A loop without a condition, whose variable becomes the value of an expression. -/
def leap (post : Expr) : Procedure where
  name := "leap"
  blocks := [
    { location := 1, source := ⟨"leap", 1⟩ },
    { location := 2, source := ⟨"leap", 2⟩, head := some 0
      loopVars := [⟨"x#lb2", post, false⟩] }]

def leaping : Analyzer where
  config := { domain := .template .intervals .enumeration, width := 2, nodeLimit := 1000 }

/-- The invariant of a loop on a new solver. -/
def leapTask (post : Expr) : Task BitSolver := ⟨leap post, .bool true, .fresh 2 1000⟩

/-- Nothing is left out if the expression can be evaluated. -/
theorem statistics_count_reported_work_leap :
    leaping.unreported (leapTask (.int 1)) = .zero ∧
      (Verifier.create leaping.config (leap (.int 1)) none (.bool true)).unreported
        (BitSolver.fresh 2 1000) = .zero := by
  obtain ⟨-, -, hanalyzer, hverifier⟩ := @statistics_count_reported_work BitSolver _
  constructor
  · apply hanalyzer
    decide +kernel
  · apply hverifier
    decide +kernel

/-- The expression is too large to be evaluated. The round that finds this out fails, and its check is
in no statistics. -/
theorem failed_search_uncounted :
    let t := leapTask (.add [.int 9223372036854775807, .int 1])
    leaping.work t = ⟨1, 2⟩ ∧ (leaping.after t).stats = ⟨1, 1⟩ := by
  decide +kernel

end Analyzer

end InvariantSynthesis
