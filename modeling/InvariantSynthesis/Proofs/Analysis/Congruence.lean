import InvariantSynthesis.Analysis.Verifier

namespace InvariantSynthesis

/-- A relation between sessions with two oracles that holds of the steps of an analysis and is kept
where sessions are put together. -/
structure Session.Congruence {τ σ : Type} [Oracle τ] [Oracle σ]
    (P : ∀ ⦃S α : Type⦄, Session S τ α → Session S σ α → Prop) : Prop where
  ofExcept : ∀ {S α : Type} (r : Except Error α), P (ofExcept r : Session S τ α) (ofExcept r)
  state : ∀ {S : Type}, P (state : Session S τ S) state
  update : ∀ {S : Type} (f : S → S), P (update f) (update f)
  range : ∀ {S : Type},
    P (look fun o => Oracle.range o : Session S τ (Int × Int)) (look fun o => Oracle.range o)
  model? : ∀ {S : Type},
    P (look fun o => Oracle.model? o : Session S τ (Option Model)) (look fun o => Oracle.model? o)
  declare : ∀ {S : Type} (names : List TypedName),
    P (request (Oracle.declare names) : Session S τ Unit) (request (Oracle.declare names))
  assert : ∀ {S : Type} (e : Expr), P (assert e : Session S τ Unit) (assert e)
  check : ∀ {S : Type}, P (request Oracle.check : Session S τ Answer) (request Oracle.check)
  improve : ∀ (d : Domain) (m : Model) (row : Nat),
    P (d.improve m row : Search d.Value τ Bool) (d.improve m row)
  bind : ∀ {S α β : Type} {a : Session S τ α} {b : Session S σ α} {f : α → Session S τ β}
    {g : α → Session S σ β}, P a b → (∀ x, P (f x) (g x)) → P (a >>= f) (b >>= g)
  inScope : ∀ {S α : Type} {a : Session S τ α} {b : Session S σ α}, P a b →
    P (inScope a) (inScope b)
  nested : ∀ {S T α : Type} {t : T} {a : Session T τ α} {b : Session T σ α}, P a b →
    P (nested t a : Session S τ (Except Error α × T)) (nested t b)

variable {τ σ : Type} [Oracle τ] [Oracle σ]
  {P : ∀ ⦃S α : Type⦄, Session S τ α → Session S σ α → Prop} (hP : Session.Congruence P)

include hP

namespace Session.Congruence

variable {S α : Type}

theorem pure (a : α) : P (Pure.pure a : Session S τ α) (Pure.pure a) := hP.ofExcept (.ok a)

theorem throw (e : Error) : P (throw e : Session S τ α) (throw e) := hP.ofExcept (.error e)

theorem requireModel : P (requireModel : Session S τ Model) requireModel := by
  refine hP.bind hP.model? fun found => ?_
  cases found with
  | some m => exact hP.pure m
  | none => exact hP.throw _

theorem forM {f : α → Session S τ Unit} {g : α → Session S σ Unit} (h : ∀ a, P (f a) (g a))
    (as : List α) : P (as.forM f) (as.forM g) := by
  induction as with
  | nil => exact hP.pure ()
  | cons a as ih =>
    rw [List.forM_eq_forM, List.forM_cons, List.forM_eq_forM, List.forM_cons]
    exact hP.bind (h a) fun _ => ih

theorem requireFeasible (a : Answer) :
    P (requireFeasible a : Session S τ Unit) (requireFeasible a) := by
  cases a with
  | unsat => exact hP.throw _
  | sat | unknown => exact hP.pure ()

end Session.Congruence

namespace Search

variable {α : Type}

theorem value_congr : P (value : Search α τ α) value :=
  hP.bind hP.state fun _ => hP.pure _

theorem check_congr : P (check : Search α τ Answer) check :=
  hP.bind (hP.update _) fun _ => hP.check

theorem ask_congr (assumption : Expr) (conds : List (Nat × Expr)) :
    P (ask assumption conds : Search α τ Answer) (ask assumption conds) := by
  refine hP.bind (hP.assert _) fun _ => ?_
  exact hP.bind (hP.assert _) fun _ => check_congr hP

end Search

namespace Domain

theorem improveAll_congr (d : Domain) (m : Model) (conds : List (Nat × Expr)) :
    P (d.improveAll m conds : Search d.Value τ Bool) (d.improveAll m conds) := by
  induction conds with
  | nil => exact hP.pure false
  | cons rc rest ih =>
    rw [improveAll, improveAll]
    split
    · refine hP.bind (hP.improve d m rc.1) fun changed => ?_
      exact hP.bind ih fun _ => hP.pure _
    · exact ih

theorem enumerate_congr (d : Domain) (focus : Option Nat) :
    P (d.enumerate focus : Search d.Value τ Bool) (d.enumerate focus) := by
  refine hP.bind (Search.value_congr hP) fun v => ?_
  dsimp only
  split
  · exact hP.pure false
  · refine hP.inScope (hP.bind (Search.ask_congr hP _ _) fun answer => ?_)
    cases answer with
    | unsat | unknown => exact hP.pure false
    | sat => exact hP.bind hP.requireModel fun m => d.improveAll_congr hP m _

end Domain

namespace TemplateDomain

theorem fitting_congr {S : Type} (x : Option Int) :
    P (fitting x : Session S τ Int) (fitting x) := by
  cases x with
  | some k => exact hP.pure k
  | none => exact hP.throw _

theorem reaches_congr (r : TemplateRow) (assumption : Expr) (bound : Int) :
    P (reaches r assumption bound : Search (List RowValue) τ (Option Int))
      (reaches r assumption bound) := by
  refine hP.bind (fitting_congr hP _) fun k => ?_
  refine hP.inScope (hP.bind (hP.assert _) fun _ => ?_)
  refine hP.bind (hP.assert _) fun _ => hP.bind (Search.check_congr hP) fun answer => ?_
  cases answer with
  | unsat | unknown => exact hP.pure none
  | sat =>
    refine hP.bind hP.requireModel fun m => ?_
    exact hP.bind (hP.ofExcept _) fun _ => hP.pure _

theorem settle_congr (r : TemplateRow) (assumption : Expr) (fuel : Nat) (lower upper : Int) :
    P (settle r assumption fuel lower upper : Search (List RowValue) τ Int)
      (settle r assumption fuel lower upper) := by
  induction fuel generalizing lower upper with
  | zero => exact hP.pure lower
  | succ fuel ih =>
    rw [settle, settle]
    split
    · refine hP.bind (fitting_congr hP _) fun mid => ?_
      refine hP.bind (reaches_congr hP r assumption mid) fun reached => ?_
      cases reached with
      | some v => exact ih _ _
      | none => exact hP.bind (fitting_congr hP _) fun _ => ih _ _
    · exact hP.pure lower

theorem witness_congr (d : TemplateDomain) (value : List RowValue) (conds : List (Nat × Expr)) :
    P (d.witness value conds : Search (List RowValue) τ (Option (Nat × Int)))
      (d.witness value conds) := by
  refine hP.inScope (hP.bind (Search.ask_congr hP _ _) fun answer => ?_)
  cases answer with
  | unsat | unknown => exact hP.pure none
  | sat =>
    refine hP.bind hP.requireModel fun m => ?_
    split
    · exact hP.pure none
    · exact hP.bind (hP.ofExcept _) fun _ => hP.pure _

theorem bisect_congr (d : TemplateDomain) (focus : Option Nat) :
    P (d.bisect focus : Search (List RowValue) τ Bool) (d.bisect focus) := by
  refine hP.bind (Search.value_congr hP) fun value => ?_
  dsimp only
  split
  · exact hP.pure false
  · refine hP.bind (d.witness_congr hP _ _) fun found => ?_
    split
    · exact hP.pure false
    · refine hP.bind (hP.ofExcept _) fun r => ?_
      refine hP.bind (settle_congr hP r _ _ _ _) fun best => ?_
      refine hP.bind (hP.ofExcept _) fun raised => ?_
      exact hP.bind (hP.update _) fun _ => hP.pure _

end TemplateDomain

theorem Method.round_congr (m : Method) (focus : Option Nat) :
    P (m.round focus : Search m.domain.Value τ Bool) (m.round focus) := by
  cases m with
  | enumeration d => exact d.enumerate_congr hP focus
  | bisection d => exact d.bisect_congr hP focus

namespace Analyzer

theorem climb_congr (m : Method) (fuel : Nat) (s : m.domain.Value × Statistics) :
    P (climb m fuel s : Session Analyzer τ _) (climb m fuel s) := by
  induction fuel generalizing s with
  | zero => exact hP.pure s
  | succ fuel ih =>
    refine hP.bind (hP.nested (m.round_congr hP none)) fun result => ?_
    refine hP.bind (hP.ofExcept _) fun changed => ?_
    split
    · exact hP.bind (hP.update _) fun _ => ih _
    · exact hP.pure _

theorem prepare_congr (p : Procedure) (pre : Expr) :
    P (prepare p pre : Session Analyzer τ Unit) (prepare p pre) := by
  refine hP.bind (hP.update _) fun _ => hP.bind (hP.declare _) fun _ => ?_
  refine hP.bind (hP.assert _) fun _ => hP.bind (hP.assert _) fun _ => ?_
  refine hP.bind (hP.assert _) fun _ => hP.bind (hP.update _) fun _ => ?_
  exact hP.bind hP.check fun _ => hP.requireFeasible _

theorem run_congr (p : Procedure) (pre : Expr) :
    P (run p pre : Session Analyzer τ Unit) (run p pre) := by
  refine hP.bind (hP.update _) fun _ => ?_
  refine hP.inScope (hP.bind (prepare_congr hP p pre) fun _ => ?_)
  refine hP.bind hP.state fun a => hP.bind hP.range fun range => ?_
  refine hP.bind (hP.ofExcept _) fun m => ?_
  exact hP.bind (climb_congr hP m _ _) fun _ => hP.update _

end Analyzer

namespace Verifier

theorem pass_congr (m : Method) (foci : List (Option Nat)) :
    P (pass m foci : Search m.domain.Value τ Bool) (pass m foci) := by
  induction foci with
  | nil => exact hP.pure false
  | cons focus rest ih =>
    refine hP.bind (m.round_congr hP focus) fun _ => ?_
    exact hP.bind ih fun _ => hP.pure _

theorem climb_congr (m : Method) (foci : List (Option Nat)) (fuel : Nat)
    (s : m.domain.Value × Statistics) :
    P (climb m foci fuel s : Session Verifier τ _) (climb m foci fuel s) := by
  induction fuel generalizing s with
  | zero => exact hP.pure s
  | succ fuel ih =>
    refine hP.bind (hP.update _) fun _ => ?_
    refine hP.bind (hP.nested (pass_congr hP m foci)) fun result => ?_
    refine hP.bind (hP.ofExcept _) fun changed => ?_
    split
    · exact ih _
    · exact hP.pure _

theorem prepare_congr : P (prepare : Session Verifier τ Unit) prepare := by
  refine hP.bind (hP.update _) fun _ => hP.bind hP.state fun v => ?_
  refine hP.bind (hP.declare _) fun _ => hP.bind (hP.forM hP.assert _) fun _ => ?_
  refine hP.bind (hP.update _) fun _ => ?_
  exact hP.bind hP.check fun _ => hP.requireFeasible _

theorem checkProperty_congr (invariant : Expr) (p : Property) :
    P (checkProperty invariant p : Session Verifier τ Property) (checkProperty invariant p) := by
  refine hP.inScope (hP.bind (hP.assert _) fun _ => hP.bind (hP.assert _) fun _ => ?_)
  refine hP.bind (hP.update _) fun _ => hP.bind hP.check fun answer => ?_
  cases answer with
  | unsat | unknown => exact hP.pure _
  | sat => exact hP.bind hP.requireModel fun _ => hP.pure _

theorem checkProperties_congr (invariant : Expr) (i : Nat) (ps : List Property) :
    P (checkProperties invariant i ps : Session Verifier τ Unit)
      (checkProperties invariant i ps) := by
  induction ps generalizing i with
  | nil => exact hP.pure ()
  | cons p ps ih =>
    refine hP.bind (checkProperty_congr hP invariant p) fun _ => ?_
    exact hP.bind (hP.update _) fun _ => ih _

omit [Oracle τ] hP in
def conclude : Session Verifier σ Unit := do
  let v ← Session.state
  let range ← Session.look (fun o : σ => Oracle.range o)
  let m ← Session.ofExcept (Method.ofConfig v.config v.loops range)
  let first := m.domain.start
  let (value, stats) ← climb m v.foci (m.domain.height first + 1) (first, .zero)
  Session.update (fun v => { v with stats := v.stats.merge stats })
  let found : Invariant := ⟨m, value⟩
  checkProperties found.expr 0 v.properties
  Session.update (fun v => { v with
    imprecise := if v.config.showImprecise then v.attributions found.imprecision else []
    invariant := some found })

omit [Oracle τ] hP in
theorem run_eq : (run : Session Verifier σ Unit) = (do
    Session.update reset
    Session.inScope (do
      prepare
      conclude)) :=
  rfl

theorem conclude_congr : P (conclude : Session Verifier τ Unit) conclude := by
  refine hP.bind hP.state fun v => hP.bind hP.range fun range => ?_
  refine hP.bind (hP.ofExcept _) fun m => hP.bind (climb_congr hP m _ _ _) fun found => ?_
  refine hP.bind (hP.update _) fun _ => ?_
  exact hP.bind (checkProperties_congr hP _ _ _) fun _ => hP.update _

theorem run_congr : P (run : Session Verifier τ Unit) run := by
  rw [run_eq, run_eq]
  refine hP.bind (hP.update _) fun _ => ?_
  exact hP.inScope (hP.bind (prepare_congr hP) fun _ => conclude_congr hP)

end Verifier

end InvariantSynthesis
