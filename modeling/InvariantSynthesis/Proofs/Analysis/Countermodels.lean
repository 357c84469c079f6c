import InvariantSynthesis.Proofs.Analysis.Release
import InvariantSynthesis.Proofs.Expr.Occurrence

namespace InvariantSynthesis

/-- A countermodel of a property under assumptions and an invariant. -/
structure Genuine (context : List Expr) (invariant : Expr) (range : Int × Int) (q : Property)
    (m : Model) : Prop where
  /-- The variables of the property have values of their sorts. -/
  assigns : ∀ p ∈ q.condition.occurrences, (m.get? p.1).map Value.sort = some p.2
  /-- No other variable has a value. -/
  only : ∀ n v, m.get? n = some v → ∃ p ∈ q.condition.occurrences, p.1 = n
  refutes : q.condition.holds m.valuation = false
  /-- The values are those of a state. -/
  state : ∃ ρ : Valuation, ρ.InRange range ∧ (∀ n v, m.get? n = some v → ρ n v.sort = v) ∧
    (∀ e ∈ context, e.holds ρ = true) ∧ invariant.holds ρ = true

/-- What is reported of a property: a countermodel if it is violated, and none otherwise. -/
structure Reported (context : List Expr) (invariant : Expr) (range : Int × Int) (q : Property) :
    Prop where
  violated : q.status = .violated → ∃ m, q.countermodel = some m ∧ Genuine context invariant range q m
  otherwise : q.status ≠ .violated → q.countermodel = none

variable {context : List Expr} {invariant : Expr} {range : Int × Int} {q : Property}

theorem Reported.of_none {status : Status} (hstatus : status ≠ .violated)
    (hnone : q.countermodel = none) : Reported context invariant range { q with status } :=
  ⟨fun h => absurd h hstatus, fun _ => hnone⟩

theorem Property.get?_relevant (q : Property) (m : Model) {p : TypedName}
    (hp : p ∈ q.condition.occurrences) : (q.relevant m).get? p.1 = m.get? p.1 := by
  rw [relevant, Model.get?_restrict, if_pos]
  exact List.any_eq_true.mpr ⟨p, hp, decide_eq_true rfl⟩

theorem Property.of_get?_relevant {m : Model} {n : String} {v : Value}
    (h : (q.relevant m).get? n = some v) :
    m.get? n = some v ∧ ∃ p ∈ q.condition.occurrences, p.1 = n := by
  rw [relevant, Model.get?_restrict] at h
  split at h
  · rename_i hany
    obtain ⟨p, hp, hn⟩ := List.any_eq_true.mp hany
    exact ⟨h, p, hp, of_decide_eq_true hn⟩
  · cases h

theorem Model.Satisfies.genuine {m : Model} {Γ : Sorts}
    (h : m.Satisfies range Γ (.negate q.condition :: invariant :: context))
    (hfits : ∀ e ∈ Expr.negate q.condition :: invariant :: context, Γ.Fits e)
    (hzero : range.1 ≤ 0 ∧ 0 ≤ range.2) :
    Genuine context invariant range q (q.relevant m) := by
  have hknown : ∀ p ∈ q.condition.occurrences, (m.get? p.1).map Value.sort = some p.2 := by
    intro p hp
    rw [← Expr.occurrences_negate] at hp
    exact h.known p.1 p.2 ((hfits _ List.mem_cons_self).known p hp)
  have hsorted := h.holds_sorted hfits
  refine ⟨fun p hp => ?_, fun n v hv => (Property.of_get?_relevant hv).2, ?_,
    m.sortedValuation, h.inRange hzero, fun n v hv => ?_, fun e he => ?_, ?_⟩
  · rw [q.get?_relevant m hp]
    exact hknown p hp
  · have hfalse := h.holds _ List.mem_cons_self
    rw [Expr.holds_negate, Bool.not_eq_true'] at hfalse
    rw [← hfalse, Expr.holds, Expr.holds]
    refine congrArg Value.truth (Expr.value_congr fun p hp => ?_)
    rw [valuation, valuation, q.get?_relevant m hp]
  · simp [sortedValuation, (Property.of_get?_relevant hv).1]
  · exact hsorted e (List.mem_cons_of_mem _ (List.mem_cons_of_mem _ he))
  · exact hsorted invariant (List.mem_cons_of_mem _ List.mem_cons_self)

namespace Verifier

variable {σ : Type} [Oracle σ] {F : Faithful σ range} {c : Scopes} {Γ : Sorts} {o p : σ}
  {v v' : Verifier}

theorem checkProperty_reported {q' : Property} (h : F.Keeps o c Γ) (hq : q.countermodel = none)
    (hrun : checkProperty invariant q (v, o) = (.ok q', (v', p))) :
    Reported c.live invariant range q' := by
  obtain ⟨-, a, o₁, o₂, Δ, hasked, hcheck, -, hjudges⟩ := checkProperty_asked h hrun
  cases a with
  | unsat =>
    cases hjudges
    exact .of_none nofun hq
  | unknown reason =>
    cases hjudges
    exact .of_none nofun hq
  | sat =>
    obtain ⟨m, hm, rfl⟩ := hjudges
    have hsat := F.sat hasked.keeps hcheck hm
    refine ⟨fun _ => ⟨_, rfl, ?_⟩, fun hstatus => absurd rfl hstatus⟩
    obtain ⟨hassigns, honly, hrefutes, hstate⟩ := hsat.genuine (F.fits hasked.keeps) F.zero_mem
    exact ⟨hassigns, honly, hrefutes, hstate⟩

theorem run_reported (h : F.Keeps o c Γ)
    (hrun : (run : Session Verifier σ Unit) (v, o) = (.ok (), (v', p))) :
    ∃ i, v'.invariant = some i ∧
      ∀ q ∈ v'.properties, Reported (c.live ++ v.assumptions) i.expr range q := by
  obtain ⟨m, value, o₁, o₂, o₃, Δ, Θ, w, w', -, hinvariant, -, -, hclimbed, hw, hw', hcheck⟩ :=
    run_steps h hrun
  have hreset : ∀ q ∈ v.reset.properties, q.status = .unknown ∧ q.countermodel = none := by
    intro q hq
    obtain ⟨q₀, -, rfl⟩ := List.mem_map.mp hq
    exact ⟨rfl, rfl⟩
  have hlive : ∀ {invariant q}, Reported (c.opened.addAll v.assumptions).live invariant range q →
      Reported (c.live ++ v.assumptions) invariant range q := by
    intro invariant q hq
    refine ⟨fun hstatus => ?_, hq.otherwise⟩
    obtain ⟨m, hm, hassigns, honly, hrefutes, ρ, hρ, hagrees, hcontext, hinv⟩ := hq.violated hstatus
    refine ⟨m, hm, hassigns, honly, hrefutes, ρ, hρ, hagrees, fun e he => hcontext e ?_, hinv⟩
    exact Scopes.mem_live_addAll.mpr (List.mem_append.mp he)
  refine ⟨_, hinvariant, fun q hq => hlive ?_⟩
  rw [hw'] at hq
  refine (checkProperties_invariant (.refl hclimbed.keeps) (fun {q} _ _ _ _ _ _ hq hreaches hrun => ?_)
    (fun q hq => ?_) hcheck).2 q hq
  · exact checkProperty_reported hreaches.keeps (hreset q hq).2 hrun
  · rw [hw] at hq
    obtain ⟨hstatus, hnone⟩ := hreset q hq
    exact ⟨fun h => absurd (hstatus.symm.trans h) nofun, fun _ => hnone⟩

/-- Countermodels are genuine. When a run ends without an error, whatever the solver and the verifier
were used for before, every violated property has a countermodel: it gives values to the variables of
the property and to no others, makes the property false, and belongs to a state in range that
satisfies all that is asserted and the invariant. A property that is not violated has no
countermodel, even if an earlier run had found one. -/
theorem countermodels_genuine {width limit : Nat} {s : BitSolver} {c : Scopes}
    (hs : BitSolver.Used width limit s c) (v : Verifier) (hrun : (run (v, s)).1 = .ok ()) :
    ∃ i, (run (v, s)).2.1.invariant = some i ∧ ∀ q ∈ (run (v, s)).2.1.properties,
      (q.status = .violated → ∃ m, q.countermodel = some m ∧
        Genuine (c.live ++ v.assumptions) i.expr (-(2 ^ (width - 1)), 2 ^ (width - 1) - 1) q m) ∧
      (q.status ≠ .violated → q.countermodel = none) := by
  obtain ⟨hmin, hmax, hkeeps⟩ := hs.keeps
  obtain ⟨i, hi, hreported⟩ := run_reported hkeeps (Prod.ext hrun rfl)
  exact ⟨i, hi, fun q hq => ⟨(hreported q hq).violated, (hreported q hq).otherwise⟩⟩

/-- The counter with an assertion that it stays below one. -/
def lowCounter : Procedure where
  name := "count"
  blocks := [
    { location := 1, source := ⟨"count", 1⟩
      equalities := [⟨"x1", .ite (.boolVar "$guard#ls2") (.intVar "x#lb2") (.int 0)⟩] },
    { location := 2, source := ⟨"count", 2⟩, guard := .lt (.intVar "x1") (.int 1), head := some 0
      loopVars := [⟨"x#lb2", .add [.intVar "x1", .int 1], false⟩] },
    { location := 3, source := ⟨"count", 3⟩
      assertions := [⟨"low", .lt (.intVar "x1") (.int 1)⟩, ⟨"natural", .le (.int 0) (.intVar "x1")⟩] }]

def lowVerifier : Verifier :=
  (run (create counting lowCounter none (.bool true), BitSolver.fresh 2 1000)).2.1

def lowSolver : BitSolver :=
  (run (create counting lowCounter none (.bool true), BitSolver.fresh 2 1000)).2.2

/-- A second run with the same verifier and the same solver. The first property is violated with a
genuine countermodel, and the second one has none. -/
theorem countermodels_genuine_rerun :
    (run (lowVerifier, lowSolver)).1 = .ok () ∧
      ∃ i low natural, (run (lowVerifier, lowSolver)).2.1.invariant = some i ∧
        (run (lowVerifier, lowSolver)).2.1.properties = [low, natural] ∧
        natural.countermodel = none ∧ ∃ m, low.countermodel = some m ∧
          Genuine (Scopes.none.live ++ lowVerifier.assumptions) i.expr
            (-(2 ^ (2 - 1)), 2 ^ (2 - 1) - 1) low m := by
  have hrun : (run (lowVerifier, lowSolver)).1 = .ok () := by decide +kernel
  have hstatuses : (run (lowVerifier, lowSolver)).2.1.properties.map (·.status) =
      [.violated, .holds] := by
    decide +kernel
  have hleft : (BitSolver.fresh 2 1000).Left lowSolver :=
    .verifier (create counting lowCounter none (.bool true))
  have hused : BitSolver.Used 2 1000 lowSolver .none := .left (.created rfl) hleft
  obtain ⟨i, hi, hreported⟩ := countermodels_genuine hused lowVerifier hrun
  obtain ⟨low, rest, hlow, hstatus, hrest⟩ := List.map_eq_cons_iff.mp hstatuses
  obtain ⟨natural, rest, rfl, hstatus', hnil⟩ := List.map_eq_cons_iff.mp hrest
  obtain rfl := List.map_eq_nil_iff.mp hnil
  rw [hlow] at hreported
  refine ⟨hrun, i, low, natural, hi, hlow, ?_, (hreported low (by simp)).1 hstatus⟩
  exact (hreported natural (by simp)).2 (by simp [hstatus'])

end Verifier

end InvariantSynthesis
