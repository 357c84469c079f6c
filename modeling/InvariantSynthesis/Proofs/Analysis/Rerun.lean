import InvariantSynthesis.Proofs.Analysis.Countermodels
import InvariantSynthesis.Proofs.Analysis.Retrace
import InvariantSynthesis.Proofs.Oracle.Recorded

namespace InvariantSynthesis

open BitSolver Session

def Property.unchecked (q : Property) : Property :=
  { q with status := .unknown, countermodel := none }

theorem Property.relevant_again {q : Property} {m m' : Model} {names : String → Prop}
    (hm : m.Agrees names m') (hq : q.condition.Among names) : q.relevant m' = q.relevant m := by
  apply Table.eq_of_get?
  intro n
  rw [relevant, relevant, Model.get?_restrict, Model.get?_restrict]
  split
  · rename_i hany
    obtain ⟨p, hp, hn⟩ := List.any_eq_true.mp hany
    obtain rfl : p.1 = n := of_decide_eq_true hn
    exact hm p.1 (hq p hp)
  · rfl

section verifier

variable {last : BitSolver} {declared : String → Prop} {ps : List Procedure}

theorem Method.retraces_round {m : Method} (hd : m.domain.Legible declared)
    (hroom : last.store.size ≤ last.nodeLimit) (focus : Option Nat) :
    Retraces last declared Eq (m.round focus) := by
  cases m with
  | enumeration d => exact d.retraces_enumerate hd hroom focus
  | bisection d => exact TemplateDomain.retraces_bisect hd hroom focus

namespace Verifier

/-- Two verifiers of the same procedures that differ at most in the work that they have counted. -/
structure Matches (ps : List Procedure) (v w : Verifier) : Prop where
  loops : v.loops = .ofProcedures ps
  eq : w = { v with stats := w.stats }

section update

variable {f : Verifier → Verifier} (hloops : ∀ v, (f v).loops = v.loops)
  (hstats : ∀ v stats, f { v with stats } = { f v with stats := (f { v with stats }).stats })
include hloops hstats

theorem Matches.update {v w : Verifier} (h : Matches ps v w) : Matches ps (f v) (f w) := by
  refine ⟨(hloops v).trans h.loops, ?_⟩
  rw [h.eq]
  exact hstats v w.stats

theorem retraces_update : Retraces last declared (Matches ps) (Session.update f) :=
  .update (Matches.update hloops hstats)

end update

theorem retraces_pass {m : Method} (hd : m.domain.Legible declared)
    (hroom : last.store.size ≤ last.nodeLimit) (foci : List (Option Nat)) :
    Retraces last declared Eq (pass m foci) := by
  induction foci with
  | nil => exact .pure false
  | cons focus rest ih =>
    refine (Method.retraces_round hd hroom focus).bind fun changed => ?_
    exact ih.bind fun more => .pure (more || changed)

theorem retraces_climb {m : Method} (hd : m.domain.Legible declared)
    (hroom : last.store.size ≤ last.nodeLimit) (foci : List (Option Nat)) (fuel : Nat)
    (s : m.domain.Value × Statistics) :
    Retraces last declared (Matches ps) (climb m foci fuel s) := by
  induction fuel generalizing s with
  | zero => exact .pure s
  | succ fuel ih =>
    refine (retraces_update (fun _ => by rfl) fun _ _ => by rfl).bind fun _ => ?_
    refine Retraces.nested_bind (f := fun changed s => if changed then climb m foci fuel s else pure s)
      (retraces_pass hd hroom foci) fun changed s => ?_
    cases changed with
    | true => exact ih s
    | false => exact .pure s

def judging {σ : Type} [Oracle σ] (q : Property) : Answer → Session Verifier σ Property
  | .unsat => return { q with status := .holds }
  | .unknown _ => return { q with status := .unknown }
  | .sat => do
    let m ← Session.requireModel
    return { q with status := .violated, countermodel := some (q.relevant m) }

theorem checkProperty_eq {σ : Type} [Oracle σ] (invariant : Expr) (q : Property) :
    (checkProperty invariant q : Session Verifier σ Property) =
      inScope (ask countCall invariant (.negate q.condition) >>= judging q) := by
  simp only [checkProperty, ask, bind_assoc]
  rfl

theorem respects_judging {σ : Type} [Oracle σ] {R : σ → σ → Prop} (hR : Oracle.Frame R)
    (q : Property) (a : Answer) : Respects R (judging q a : Session Verifier σ Property) := by
  cases a with
  | unsat | unknown => exact respects_pure hR _
  | sat => exact (respects_requireModel hR).bind hR fun _ => respects_pure hR _

theorem judging_ok {σ : Type} [Oracle σ] {q q' : Property} {a : Answer} {v v' : Verifier} {o p : σ}
    (h : judging q a (v, o) = (.ok q', (v', p))) : v' = v ∧ p = o := by
  cases a with
  | unsat | unknown =>
    cases h
    exact ⟨rfl, rfl⟩
  | sat =>
    obtain ⟨m, t, hmodel, hresult⟩ := ok_of_bind h
    obtain ⟨-, rfl⟩ := requireModel_ok hmodel
    cases hresult
    exact ⟨rfl, rfl⟩

theorem judging_again {q q' : Property} {a : Answer} {v v' w : Verifier} {s s' t : BitSolver}
    (halike : Alike s t) (hfits : s.sorts.Fits (.negate q.condition))
    (h : judging q a (v, s) = (.ok q', (v', s'))) : judging q a (w, t) = (.ok q', (w, t)) := by
  cases a with
  | unsat | unknown =>
    cases h
    rfl
  | sat =>
    obtain ⟨m, u, hmodel, hresult⟩ := ok_of_bind h
    obtain ⟨-, rfl⟩ := requireModel_ok hmodel
    cases hresult
    obtain ⟨m', hmodel', hagrees⟩ := requireModel_again halike hmodel w
    have hknown : q.condition.Among s.Known := by
      intro p hp
      rw [← Expr.occurrences_negate] at hp
      rw [Known, hfits.known p hp]
      rfl
    rw [judging, bind_ok hmodel', q.relevant_again hagrees hknown]
    rfl

theorem retraces_checkProperty (hroom : last.store.size ≤ last.nodeLimit) (invariant : Expr)
    (q : Property) : Retraces last declared (Matches ps) (checkProperty invariant q) := by
  rw [checkProperty_eq]
  apply Retraces.inScope
  apply Retraces.ask hroom
  · exact Matches.update (f := countCall) (fun _ => rfl) fun _ _ => rfl
  · exact respects_judging frame_inside q
  · exact fun h => (judging_ok h).2
  · intro a q' v w s t v' hvw htwin halike hfits h
    obtain ⟨rfl, -⟩ := judging_ok h
    exact ⟨w, judging_again halike hfits h, hvw⟩

theorem retraces_checkProperties (hroom : last.store.size ≤ last.nodeLimit) (invariant : Expr)
    (i : Nat) (qs : List Property) :
    Retraces last declared (Matches ps) (checkProperties invariant i qs) := by
  induction qs generalizing i with
  | nil => exact .pure ()
  | cons q qs ih =>
    refine (retraces_checkProperty hroom invariant q).bind fun q' => ?_
    refine (retraces_update (fun _ => by rfl) fun _ _ => by rfl).bind fun _ => ih (i + 1)

theorem retraces_conclude (hroom : last.store.size ≤ last.nodeLimit) :
    Retraces last (LoopSystem.ofProcedures ps).Declares (Matches ps) conclude := by
  apply Retraces.state_bind (respects_conclude frame_inside)
  intro v w hvw
  constructor
  · rw [hvw.eq]
    rfl
  refine Retraces.look_range.bind fun range => ?_
  refine Retraces.ofExcept_bind fun m hm => ?_
  rw [hvw.loops] at hm
  refine (retraces_climb (Method.legible_of_config hm) hroom _ _ _).bind fun found => ?_
  refine (retraces_update (fun _ => by rfl) fun _ _ => by rfl).bind fun _ => ?_
  refine (retraces_checkProperties hroom _ _ _).bind fun _ => ?_
  exact retraces_update (fun _ => by rfl) fun _ _ => by rfl

theorem retraces_analyse (hroom : last.store.size ≤ last.nodeLimit) :
    Retraces last (LoopSystem.ofProcedures ps).Declares (Matches ps) analyse := by
  refine (retraces_update (fun _ => by rfl) fun _ _ => by rfl).bind fun _ => ?_
  refine (Retraces.check hroom).bind fun a => ?_
  cases a with
  | unsat => exact .ofExcept (.error _)
  | sat | unknown => exact retraces_conclude hroom

end Verifier

end verifier

namespace Verifier

section reset

variable {σ : Type} [Oracle σ] {range : Int × Int} {F : Faithful σ range} {c : Scopes} {Γ : Sorts}
  {o p : σ} {v v' : Verifier}

theorem reset_eq (v : Verifier) : v.reset =
    { v with
      invariant := none, imprecise := [], passes := 0
      properties := v.properties.map Property.unchecked } :=
  rfl

theorem reset_reset (v : Verifier) : v.reset.reset = v.reset := by
  have hunchecked : Property.unchecked ∘ Property.unchecked = Property.unchecked := rfl
  rw [reset_eq, reset_eq, List.map_map, hunchecked]

theorem checkProperty_unchecked {invariant : Expr} {q q' : Property} (h : F.Keeps o c Γ)
    (hrun : checkProperty invariant q (v, o) = (.ok q', (v', p))) :
    v' = { v with stats := v'.stats } ∧ (∃ Δ, F.Keeps p c Δ) ∧ q'.unchecked = q.unchecked := by
  obtain ⟨hv, a, o₁, o₂, Δ, -, -, hclosed, hjudges⟩ := checkProperty_asked h hrun
  refine ⟨hv, ⟨Δ, hclosed.keeps⟩, ?_⟩
  cases a with
  | unsat | unknown =>
    cases hjudges
    rfl
  | sat =>
    obtain ⟨m, -, rfl⟩ := hjudges
    rfl

theorem checkProperties_reset {invariant : Expr} {i : Nat} {qs : List Property} (h : F.Keeps o c Γ)
    (hqs : (v.properties.drop i).map Property.unchecked = qs.map Property.unchecked)
    (hrun : checkProperties invariant i qs (v, o) = (.ok (), (v', p))) :
    v'.reset = { v.reset with stats := v'.stats } := by
  induction qs generalizing i v o Γ with
  | nil =>
    cases hrun
    rfl
  | cons q qs ih =>
    obtain ⟨q', ⟨v₁, o₁⟩, hfirst, hrun₁⟩ := ok_of_bind hrun
    obtain ⟨⟨⟩, t₂, h₂, hrest⟩ := ok_of_bind hrun₁
    cases h₂
    obtain ⟨hv₁, ⟨Δ, hkeeps⟩, hq'⟩ := checkProperty_unchecked h hfirst
    obtain ⟨q₀, rest, hdrop, hq₀, hrest'⟩ := List.map_eq_cons_iff.mp hqs
    have hset : (v.properties.set i q').map Property.unchecked =
        v.properties.map Property.unchecked := by
      have hget : v.properties[i]? = some q₀ := by rw [← List.head?_drop, hdrop, List.head?_cons]
      rw [List.map_set, hq', ← hq₀]
      apply set_of_getElem?
      rw [List.getElem?_map, hget, Option.map_some]
    have htail : (v.properties.set i q').drop (i + 1) = rest := by
      rw [List.drop_set_of_lt (Nat.lt_succ_self i), ← List.tail_drop, hdrop, List.tail_cons]
    obtain ⟨st, rfl⟩ : ∃ st, v₁ = { v with stats := st } := ⟨_, hv₁⟩
    have hreset : reset { v with properties := v.properties.set i q', stats := st } =
        { v.reset with stats := st } := by
      rw [reset_eq, reset_eq, hset]
    have hnext := ih hkeeps (by rw [htail, hrest']) hrest
    rw [hnext, hreset]

theorem conclude_reset (h : F.Keeps o c Γ)
    (hrun : (conclude : Session Verifier σ Unit) (v, o) = (.ok (), (v', p))) :
    v'.reset = { v.reset with stats := v'.stats } := by
  obtain ⟨w, t₁, h₁, hrun₁⟩ := ok_of_bind hrun
  cases h₁
  obtain ⟨range', t₂, h₂, hrun₂⟩ := ok_of_bind hrun₁
  cases h₂
  obtain ⟨m, t₃, h₃, hrun₃⟩ := ok_of_bind hrun₂
  obtain ⟨hm, rfl⟩ := ofExcept_ok h₃
  obtain ⟨⟨value, stats⟩, ⟨v₄, o₄⟩, hclimb, hrun₄⟩ := ok_of_bind hrun₃
  obtain ⟨hv₄, hclimbs⟩ := climb_ok hclimb
  obtain ⟨passes, rfl⟩ : ∃ passes, v₄ = { v with passes } := ⟨_, hv₄⟩
  obtain ⟨Δ, hclimbed⟩ := hclimbs.reaches h
  obtain ⟨⟨⟩, t₅, h₅, hrun₅⟩ := ok_of_bind hrun₄
  cases h₅
  obtain ⟨⟨⟩, ⟨v₆, o₆⟩, hcheck, hrun₆⟩ := ok_of_bind hrun₅
  cases hrun₆
  have hreset := checkProperties_reset hclimbed.keeps (by rw [List.drop_zero]) hcheck
  exact hreset

theorem run_reset (h : F.Keeps o c Γ)
    (hrun : (run : Session Verifier σ Unit) (v, o) = (.ok (), (v', p))) :
    v'.reset = { v.reset with stats := v'.stats } := by
  rw [run_eq] at hrun
  obtain ⟨⟨⟩, t₀, h₀, hrun₀⟩ := ok_of_bind hrun
  cases h₀
  obtain ⟨q, hbody, -⟩ := inScope_ok hrun₀
  obtain ⟨⟨⟩, ⟨v₁, o₁⟩, hprepare, hconclude⟩ := ok_of_bind hbody
  obtain ⟨hv₁, Δ, -, hreaches⟩ := prepare_ok (Faithful.reaches_push h).keeps hprepare
  rw [conclude_reset hreaches.keeps hconclude, hv₁]
  have hreset : reset { v.reset with stats := v₁.stats } = { v.reset.reset with stats := v₁.stats } :=
    rfl
  rw [hreset, reset_reset]

end reset

section again

variable {s t : BitSolver} {c : Scopes} {v v₁ : Verifier}

/-- The sorts of the variables are declared without contradiction. -/
def Consistent (v : Verifier) : Prop :=
  ∀ n sort sort', (n, sort) ∈ v.symbols → (n, sort') ∈ v.symbols → sort = sort'

/-- A run up to its declarations, and the solver at its end. Repeated from there, the declarations find
all variables known. -/
theorem twin_of_run (hs : s.Keeps c) (hv : v.loops = .ofProcedures (v.procedure :: v.old.toList))
    (hrun : run (v, s) = (.ok (), (v₁, t))) :
    ∃ s₁ q, BitSolver.declare v.symbols s.push = (.ok (), s₁) ∧
      (v.assumptions.forM Session.assert >>= fun _ => analyse : Session Verifier BitSolver Unit)
        (v.reset.enlist, s₁) = (.ok (), (v₁, q)) ∧
      s₁.Adds q ∧ q.Adds t ∧ Twin t v.loops.Declares s₁ t.push := by
  have hrestored : Restored s t c := by
    have hleft : s.Left (run (v, s)).2.2 := .verifier v
    rw [hrun] at hleft
    exact hleft.restored hs
  rw [run_apply] at hrun
  obtain ⟨q, hbody, ht⟩ := inScope_ok hrun
  obtain ⟨⟨⟩, ⟨w, s₁⟩, h₁, hrest⟩ := ok_of_bind hbody
  obtain ⟨rfl, hdeclare⟩ := request_ok h₁
  have hdeclare : BitSolver.declare v.symbols s.push = (.ok (), s₁) := hdeclare
  obtain ⟨hgrows, hsorts⟩ := declare_runs hs.push.valid v.symbols
  rw [hdeclare] at hgrows hsorts
  have hs₁ : s₁.Keeps c.opened := hs.push.later hgrows
  have hinside : Inside s₁ q c.opened := by
    refine Respects.adds ?_ hrest hs₁
    refine (respects_forM frame_inside (respects_assert frame_inside) _).bind frame_inside ?_
    exact fun _ => respects_analyse frame_inside
  have hq : q.Adds t := by
    obtain ⟨es, hq⟩ := hinside.keeps
    rw [ht]
    exact adds_release hq.valid (hinside.outer.trans hgrows.outer)
  refine ⟨s₁, q, hdeclare, hrest, hinside.adds, hq, ⟨c.opened, hs₁⟩, ?_, rfl, ?_, ?_, ?_⟩
  · exact hrestored.keeps.valid.adds t.top (t.top :: t.outer) t.model
  · exact hrestored.top.trans hgrows.top.symm
  · show t.top :: t.outer = s₁.outer
    rw [hrestored.top, hrestored.outer]
    exact hgrows.outer.symm
  · intro n hn
    obtain ⟨sort, hsort⟩ := Option.isSome_iff_exists.mp hn
    rw [hv, LoopSystem.declared_eq, List.flatMap_cons] at hsort
    rw [Known, hsorts () rfl n sort hsort]
    rfl

/-- Where the node limit was exceeded, the second run is told so by its first check. -/
theorem unknown_mem_answers {declared : String → Prop} {w x : Verifier} {s₁ q : BitSolver}
    (hdeclare : BitSolver.declare w.symbols t.push = (.ok (), t.push))
    (hbody : (w.assumptions.forM Session.assert >>= fun _ => analyse :
      Session Verifier BitSolver Unit) (x, s₁) = (.ok (), (v₁, q)))
    (htwin : Twin t declared s₁ t.push) (hlast : q.Adds t)
    (hfull : t.nodeLimit < t.store.size) : ∃ reason, .unknown reason ∈ w.answers t := by
  have hforM : Retraces t declared (fun _ y => y = w.reset.enlist)
      (w.assumptions.forM Session.assert : Session Verifier BitSolver Unit) :=
    .forM .assert _
  obtain ⟨⟨⟩, ⟨x₂, s₂⟩, hassert, hanalyse⟩ := ok_of_bind hbody
  obtain ⟨c, hs₁⟩ := htwin.keeps
  obtain ⟨es, hs₂⟩ := (hforM.respects.adds hassert hs₁).keeps
  have hadds := ((respects_analyse frame_inside).adds hanalyse hs₂).adds.trans hlast
  obtain ⟨y, t₂, hassert', rfl, htwin₂⟩ := hforM.again rfl htwin hassert hadds
  have hfull₂ : t₂.nodeLimit < t₂.store.size := by
    rw [htwin₂.later.nodeLimit, Diagram.Store.size, htwin₂.nodes]
    exact hfull
  exact ⟨_, mem_answers hdeclare hassert' (check_eq_unknown hfull₂)⟩

theorem run_again {width : Nat} {hmin : 2 ≤ width} {hmax : width ≤ 32}
    (hs : (faithful hmin hmax).Keeps s c s.sorts)
    (hv : v.loops = .ofProcedures (v.procedure :: v.old.toList))
    (hrun : run (v, s) = (.ok (), (v₁, t))) (hknown : ∀ reason, .unknown reason ∉ v₁.answers t) :
    (v.Consistent ∧ ∃ stats t', run (v₁, t) = (.ok (), ({ v₁ with stats }, t'))) ∨
      ∃ n sort sort', (n, sort) ∈ v.symbols ∧ (n, sort') ∈ v.symbols ∧ sort ≠ sort' ∧
        (run (v₁, t)).1 = .error (.oracle (.sortClash n sort sort')) := by
  have hreset := run_reset hs hrun
  have hsymbols : v₁.symbols = v.symbols := by
    have h := congrArg symbols hreset
    exact h
  have hassumptions : v₁.assumptions = v.assumptions := by
    have h := congrArg assumptions hreset
    exact h
  obtain ⟨s₁, q, hdeclare, hbody, hadds, hlast, htwin⟩ := twin_of_run hs.1 hv hrun
  rw [run_apply, hsymbols, hassumptions]
  obtain ⟨hsorts, hdeclare'⟩ | ⟨n, sort, sort', hn, hn', hne, herror⟩ :=
    declare_again hs.1.push.valid hdeclare ((hadds.trans hlast).trans htwin.later)
  · left
    -- A solver that is full would leave the first check of the second run unanswered.
    have hroom : t.store.size ≤ t.nodeLimit := by
      apply Nat.le_of_not_lt
      intro hfull
      rw [← hsymbols] at hdeclare'
      rw [← hassumptions] at hbody
      obtain ⟨reason, hmem⟩ := unknown_mem_answers hdeclare' hbody htwin hlast hfull
      exact hknown reason hmem
    constructor
    · intro n sort sort' hn hn'
      exact Option.some.inj ((hsorts _ hn).symm.trans (hsorts _ hn'))
    have hmatches : Matches (v.procedure :: v.old.toList) v.reset.enlist v₁.reset.enlist := by
      refine ⟨hv, ?_⟩
      rw [hreset]
      rfl
    rw [hv] at htwin
    have hretraces : Retraces t (LoopSystem.ofProcedures (v.procedure :: v.old.toList)).Declares
        (Matches (v.procedure :: v.old.toList))
        (v.assumptions.forM Session.assert >>= fun _ => analyse) :=
      (Retraces.forM .assert _).bind fun _ => retraces_analyse hroom
    obtain ⟨w, r, hbody', hmatches', -⟩ := hretraces.again hmatches htwin hbody hlast
    refine ⟨w.stats, Oracle.release (Oracle.depth t.push) r, ?_⟩
    have hrequest : (request (Oracle.declare v.symbols) : Session Verifier BitSolver Unit)
        (v₁.reset.enlist, Oracle.push t) = (.ok (), (v₁.reset.enlist, t.push)) :=
      request_eq hdeclare' v₁.reset.enlist
    rw [← hmatches'.eq, Session.inScope, bind_ok hrequest, hbody']
    rfl
  · refine .inr ⟨n, sort, sort', hn, hn', hne, ?_⟩
    have hrequest : (request (Oracle.declare v.symbols) : Session Verifier BitSolver Unit)
        (v₁.reset.enlist, Oracle.push t) =
          (.error (.oracle (.sortClash n sort sort')), (v₁.reset.enlist, t.push)) :=
      request_error herror v₁.reset.enlist
    rw [Session.inScope, bind_error hrequest]

end again

/-- Running again is idempotent as far as the declarations allow it. When a run has ended without an
error, whatever the solver was used for before, and no check of a second run with the same verifier
and the same solver is left unanswered, then the second run ends without an error, too, with the same
invariant, passes, properties with their countermodels, and imprecise variables: only the work is
counted further. The one exception is a procedure that declares a variable at two sorts, where the
second run fails with an error that names it. -/
theorem rerun_same_unless_clash {width limit : Nat} {s t : BitSolver} {c : Scopes}
    (hs : BitSolver.Used width limit s c) (config : Config) (f : Procedure) (old : Option Procedure)
    (pre : Expr) {v : Verifier} (hrun : run (create config f old pre, s) = (.ok (), (v, t)))
    (hknown : ∀ reason, .unknown reason ∉ v.answers t) :
    ((create config f old pre).Consistent ∧
        ∃ stats t', run (v, t) = (.ok (), ({ v with stats }, t'))) ∨
      ∃ n sort sort', (n, sort) ∈ (create config f old pre).symbols ∧
        (n, sort') ∈ (create config f old pre).symbols ∧ sort ≠ sort' ∧
        (run (v, t)).1 = .error (.oracle (.sortClash n sort sort')) := by
  obtain ⟨hmin, hmax, hkeeps⟩ := hs.keeps
  exact run_again hkeeps rfl hrun hknown

/-- The second run of a procedure with a violated assertion. -/
theorem rerun_same_unless_clash_low :
    run (create counting lowCounter none (.bool true), BitSolver.fresh 2 1000) =
        (.ok (), (lowVerifier, lowSolver)) ∧
      (∀ reason, .unknown reason ∉ lowVerifier.answers lowSolver) ∧
      ∃ stats t', run (lowVerifier, lowSolver) = (.ok (), ({ lowVerifier with stats }, t')) := by
  have hok : (run (create counting lowCounter none (.bool true), BitSolver.fresh 2 1000)).1 =
      .ok () := by
    decide +kernel
  have hrun : run (create counting lowCounter none (.bool true), BitSolver.fresh 2 1000) =
      (.ok (), (lowVerifier, lowSolver)) := by
    rw [lowVerifier, lowSolver, ← hok, Prod.mk.eta]
  have hanswers : ∀ a ∈ lowVerifier.answers lowSolver, a = .sat ∨ a = .unsat := by decide +kernel
  have hknown : ∀ reason, .unknown reason ∉ lowVerifier.answers lowSolver := by
    intro reason hmem
    obtain h | h := hanswers _ hmem <;> cases h
  have hsorts : ∀ p ∈ (create counting lowCounter none (.bool true)).symbols,
      ∀ q ∈ (create counting lowCounter none (.bool true)).symbols, p.1 = q.1 → p.2 = q.2 := by
    decide +kernel
  have hused : BitSolver.Used 2 1000 (BitSolver.fresh 2 1000) .none := .created rfl
  refine ⟨hrun, hknown, ?_⟩
  obtain ⟨-, hsame⟩ | ⟨n, sort, sort', hn, hn', hne, -⟩ :=
    rerun_same_unless_clash hused counting lowCounter none (.bool true) hrun hknown
  · exact hsame
  · exact absurd (hsorts _ hn _ hn' rfl) hne

/-- A procedure without statements that has an input at two sorts. -/
def twice : Procedure where
  name := "twice"
  inputs := [("x", .int), ("x", .bool)]

/-- All checks of both runs are answered, but only the first run ends without an error. -/
theorem rerun_fails_on_two_sorts :
    let first := run (create counting twice none (.bool true), BitSolver.fresh 2 1000)
    first.1 = .ok () ∧
      (create counting twice none (.bool true)).answers (BitSolver.fresh 2 1000) = [.sat] ∧
      first.2.1.answers first.2.2 = [] ∧
      (run first.2).1 = .error (.oracle (.sortClash "x" .int .bool)) := by
  decide +kernel

end Verifier

end InvariantSynthesis
