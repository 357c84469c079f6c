import InvariantSynthesis.Proofs.Analysis.Frame
import InvariantSynthesis.Proofs.Oracle.Morphism
import InvariantSynthesis.Proofs.Oracle.Reach

namespace InvariantSynthesis

structure Recorded (σ : Type) where
  inner : σ
  /-- The answers so far, the first one in front. -/
  answers : List Answer := []

namespace Recorded

variable {σ : Type} [Oracle σ]

def forward {α : Type} (r : Request σ α) : Request (Recorded σ) α := fun ⟨inner, answers⟩ =>
  let (a, inner) := r inner
  (a, ⟨inner, answers⟩)

def check : Request (Recorded σ) Answer := do
  let a ← forward Oracle.check
  modify (fun s => { s with answers := s.answers ++ [a] })
  return a

end Recorded

instance {σ : Type} [Oracle σ] : Oracle (Recorded σ) where
  declare names := Recorded.forward (Oracle.declare names)
  assert e := Recorded.forward (Oracle.assert e)
  push s := { s with inner := Oracle.push s.inner }
  pop := Recorded.forward Oracle.pop
  depth s := Oracle.depth s.inner
  range s := Oracle.range s.inner
  check := Recorded.check
  model? s := Oracle.model? s.inner
  spawn s := { inner := Oracle.spawn s.inner }

namespace Recorded

variable {σ α S : Type} [Oracle σ] {o p : σ} {answers : List Answer}

omit [Oracle σ] in
theorem forward_eq {r : Request σ α} {x : Except OracleError α} (h : r o = (x, p))
    (answers : List Answer) : forward r ⟨o, answers⟩ = (x, ⟨p, answers⟩) := by
  rw [forward, h]

theorem check_eq {a : Answer} (h : (Oracle.check : Request σ Answer) o = (.ok a, p))
    (answers : List Answer) :
    (Oracle.check : Request (Recorded σ) Answer) ⟨o, answers⟩ = (.ok a, ⟨p, answers ++ [a]⟩) := by
  show check ⟨o, answers⟩ = _
  rw [check, Session.bind_ok (forward_eq h answers)]
  rfl

theorem check_error {e : OracleError} (h : (Oracle.check : Request σ Answer) o = (.error e, p))
    (answers : List Answer) :
    (Oracle.check : Request (Recorded σ) Answer) ⟨o, answers⟩ = (.error e, ⟨p, answers⟩) := by
  show check ⟨o, answers⟩ = _
  rw [check, Session.bind_error (forward_eq h answers)]

theorem mem_answers_check {r r' : Recorded σ} {a : Answer}
    (h : (Oracle.check : Request (Recorded σ) Answer) r = (.ok a, r')) : a ∈ r'.answers := by
  obtain ⟨o, answers⟩ := r
  cases hcheck : (Oracle.check : Request σ Answer) o with
  | mk x p =>
    cases x with
    | ok b =>
      rw [check_eq hcheck] at h
      cases h
      exact List.mem_append_right answers List.mem_cons_self
    | error e =>
      rw [check_error hcheck] at h
      cases h

/-- Nothing depends on whether an oracle is recorded. -/
theorem morphism_inner : Oracle.Morphism (inner : Recorded σ → σ) where
  declare _ _ := rfl
  assert _ _ := rfl
  push _ := rfl
  pop _ := rfl
  depth _ := rfl
  range _ := rfl
  check r := by
    obtain ⟨o, answers⟩ := r
    cases hcheck : (Oracle.check : Request σ Answer) o with
    | mk x p =>
      cases x with
      | ok a =>
        rewrite [check_eq hcheck]
        rfl
      | error e =>
        rewrite [check_error hcheck]
        rfl
  model? _ := rfl
  spawn _ := rfl

theorem answers_closeTo (level fuel : Nat) (r : Recorded σ) :
    (Oracle.closeTo level fuel r).answers = r.answers := by
  induction fuel generalizing r with
  | zero => rfl
  | succ fuel ih =>
    rw [Oracle.closeTo]
    split
    · obtain ⟨o, answers⟩ := r
      cases hpop : (Oracle.pop : Request σ Unit) o with
      | mk x p =>
        have hpop' : (Oracle.pop : Request (Recorded σ) Unit) ⟨o, answers⟩ = (x, ⟨p, answers⟩) :=
          forward_eq hpop answers
        rw [hpop']
        cases x with
        | ok => exact ih ⟨p, answers⟩
        | error => rfl
    · rfl

theorem frame_answers : Oracle.Frame fun r r' : Recorded σ => r.answers <+: r'.answers where
  refl r := List.prefix_refl _
  trans h h' := h.trans h'
  declare names r := List.prefix_refl _
  assert e r := List.prefix_refl _
  check r := by
    obtain ⟨o, answers⟩ := r
    cases hcheck : (Oracle.check : Request σ Answer) o with
    | mk x p =>
      cases x with
      | ok a =>
        rw [check_eq hcheck]
        exact List.prefix_append answers [a]
      | error e =>
        rewrite [check_error hcheck]
        exact List.prefix_refl answers
  scope {r q} h := by
    rw [Oracle.release, answers_closeTo]
    exact h

theorem assertAll_eq {es : List Expr} {s s' : S}
    (h : (es.forM Session.assert : Session S σ Unit) (s, o) = (.ok (), (s', p))) :
    (es.forM Session.assert : Session S (Recorded σ) Unit) (s, ⟨o, answers⟩) =
      (.ok (), (s', ⟨p, answers⟩)) := by
  induction es generalizing o with
  | nil =>
    cases h
    rfl
  | cons e es ih =>
    rw [List.forM_eq_forM, List.forM_cons] at h ⊢
    obtain ⟨⟨⟩, ⟨t, q⟩, hfirst, hrest⟩ := Session.ok_of_bind h
    obtain ⟨rfl, hassert⟩ := Session.request_ok hfirst
    have hfirst' : (Session.assert e : Session S (Recorded σ) Unit) (t, ⟨o, answers⟩) =
        (.ok (), (t, ⟨q, answers⟩)) :=
      Session.request_eq (forward_eq hassert answers) t
    rw [Session.bind_ok hfirst']
    exact ih hrest

end Recorded

namespace Verifier

variable {σ : Type} [Oracle σ] {o o₁ o₂ o₃ : σ} {v w : Verifier} {a : Answer}

/-- The answers to the checks of a run. -/
def answers (v : Verifier) (o : σ) : List Answer :=
  ((run : Session Verifier (Recorded σ) Unit) (v, { inner := o })).2.2.answers

/-- The first question of a run is whether the assumptions can hold together. -/
theorem mem_answers
    (hdeclare : (Oracle.declare v.symbols : Request σ Unit) (Oracle.push o) = (.ok (), o₁))
    (hassert : (v.assumptions.forM Session.assert : Session Verifier σ Unit)
      (v.reset.enlist, o₁) = (.ok (), (v.reset.enlist, o₂)))
    (hcheck : (Oracle.check : Request σ Answer) o₂ = (.ok a, o₃)) : a ∈ v.answers o := by
  let w := v.reset.enlist
  have h₁ : (Session.request (Oracle.declare v.symbols) : Session Verifier (Recorded σ) Unit)
      (w, ⟨Oracle.push o, []⟩) = (.ok (), (w, ⟨o₁, []⟩)) :=
    Session.request_eq (Recorded.forward_eq hdeclare []) w
  have h₂ : (v.assumptions.forM Session.assert : Session Verifier (Recorded σ) Unit)
      (w, ⟨o₁, []⟩) = (.ok (), (w, ⟨o₂, []⟩)) :=
    Recorded.assertAll_eq hassert
  have h₃ : (Session.update countCall : Session Verifier (Recorded σ) Unit) (w, ⟨o₂, []⟩) =
      (.ok (), (w.countCall, ⟨o₂, []⟩)) := rfl
  have h₄ : (Session.request Oracle.check : Session Verifier (Recorded σ) Answer)
      (w.countCall, ⟨o₂, []⟩) = (.ok a, (w.countCall, ⟨o₃, [a]⟩)) :=
    Session.request_eq (Recorded.check_eq hcheck []) w.countCall
  have h₅ : (analyse : Session Verifier (Recorded σ) Unit) (w, ⟨o₂, []⟩) =
      (requireFeasible a >>= fun _ => conclude) (w.countCall, ⟨o₃, [a]⟩) := by
    rw [analyse, Session.bind_ok h₃, Session.bind_ok h₄]
  -- What comes after this question only adds answers.
  have hrest : (requireFeasible a >>= fun _ => conclude : Session Verifier (Recorded σ) Unit).Respects
      fun r r' => r.answers <+: r'.answers :=
    (Recorded.frame_answers.congruence.requireFeasible a).bind Recorded.frame_answers fun _ =>
      respects_conclude Recorded.frame_answers
  have hanswers : v.answers o =
      ((do
        Session.request (Oracle.declare v.symbols)
        v.assumptions.forM Session.assert
        analyse : Session Verifier (Recorded σ) Unit) (w, ⟨Oracle.push o, []⟩)).2.2.answers := by
    rw [answers, run_apply]
    exact Recorded.answers_closeTo _ _ _
  rw [hanswers, Session.bind_ok h₁, Session.bind_ok h₂, h₅]
  exact (hrest _ _).subset List.mem_cons_self

end Verifier

end InvariantSynthesis
