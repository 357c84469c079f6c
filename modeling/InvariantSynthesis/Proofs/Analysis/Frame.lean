import InvariantSynthesis.Proofs.Analysis.Congruence
import InvariantSynthesis.Proofs.Oracle.Frame

namespace InvariantSynthesis

variable {σ : Type} [Oracle σ] {R : σ → σ → Prop} (hR : Oracle.Frame R)

include hR

open Session

theorem Oracle.Frame.congruence : Congruence (fun _ _ (a _ : Session _ σ _) => a.Respects R) where
  ofExcept := respects_ofExcept hR
  state := respects_state hR
  update := respects_update hR
  range := respects_look hR _
  model? := respects_look hR _
  declare names := respects_request (hR.declare names)
  assert := respects_assert hR
  check := respects_request hR.check
  improve _ _ _ := respects_of_eq hR fun _ _ => rfl
  bind h h' := h.bind hR h'
  inScope h := h.inScope hR
  nested h := h.nested

theorem Analyzer.run_scoped (p : Procedure) (pre : Expr) (a : Analyzer) (o : σ) :
    ∃ q, R (Oracle.push o) q ∧ ((run p pre : Session Analyzer σ Unit) (a, o)).2.2 =
      Oracle.release (Oracle.depth (Oracle.push o)) q := by
  refine Respects.scoped (Respects.bind hR (prepare_congr hR.congruence p pre) fun _ => ?_) a o
  refine (respects_state hR).bind hR fun a => ?_
  refine (respects_look hR _).bind hR fun range => ?_
  refine (respects_ofExcept hR _).bind hR fun m => ?_
  exact Respects.bind hR (climb_congr hR.congruence m _ _) fun _ => respects_update hR _

namespace Verifier

theorem respects_conclude : Respects R (conclude : Session Verifier σ Unit) :=
  conclude_congr hR.congruence

theorem run_scoped (v : Verifier) (o : σ) :
    ∃ q, R (Oracle.push o) q ∧ ((run : Session Verifier σ Unit) (v, o)).2.2 =
      Oracle.release (Oracle.depth (Oracle.push o)) q := by
  rw [run_eq]
  refine Respects.scoped (Respects.bind hR ?_ fun _ => respects_conclude hR) v o
  exact prepare_congr hR.congruence

omit hR in
def enlist (v : Verifier) : Verifier :=
  { v with stats := { v.stats with instances := v.stats.instances + 1 } }

omit hR in
def analyse : Session Verifier σ Unit := do
  Session.update countCall
  requireFeasible (← Session.request Oracle.check)
  conclude

theorem respects_analyse : Respects R (analyse : Session Verifier σ Unit) := by
  refine (respects_update hR _).bind hR fun _ => ?_
  refine (respects_request hR.check).bind hR fun a => ?_
  exact Respects.bind hR (hR.congruence.requireFeasible a) fun _ => respects_conclude hR

omit hR in
/-- A run declares the variables in a scope of its own, asserts the assumptions, and goes on from
there. -/
theorem run_apply (v : Verifier) (o : σ) : (run : Session Verifier σ Unit) (v, o) =
    Session.inScope (do
      Session.request (Oracle.declare v.symbols)
      v.assumptions.forM Session.assert
      analyse) (v.reset.enlist, o) := by
  have hprepare : (prepare : Session Verifier σ Unit) (v.reset, Oracle.push o) =
      (do
        Session.request (Oracle.declare v.symbols)
        v.assumptions.forM Session.assert
        Session.update countCall
        requireFeasible (← Session.request Oracle.check) : Session Verifier σ Unit)
        (v.reset.enlist, Oracle.push o) :=
    rfl
  have hbody : (prepare >>= fun _ => conclude : Session Verifier σ Unit) (v.reset, Oracle.push o) =
      (do
        Session.request (Oracle.declare v.symbols)
        v.assumptions.forM Session.assert
        analyse : Session Verifier σ Unit) (v.reset.enlist, Oracle.push o) := by
    rw [Session.bind_of_eq hprepare]
    simp only [analyse, bind_assoc]
  have hupdate : (Session.update reset : Session Verifier σ Unit) (v, o) = (.ok (), (v.reset, o)) :=
    rfl
  rw [run_eq, Session.bind_ok hupdate, Session.inScope, Session.inScope, hbody]

end Verifier

end InvariantSynthesis
