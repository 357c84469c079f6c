import InvariantSynthesis.Proofs.Analysis.Run
import InvariantSynthesis.Proofs.BitSolver.Exact

namespace InvariantSynthesis

namespace Verifier

/-- The states that the procedures can be in under the assumptions. Each loop that was entered over
its back edge has taken up the values of an earlier state at its end. -/
inductive Reachable (v : Verifier) (context : List Expr) (range : Int × Int) : Valuation → Prop
  | intro {ρ : Valuation} (source : LoopTemplate → Valuation)
      (typed : ρ.Typed v.loops.declared range)
      (assumed : ∀ e ∈ context ++ v.assumptions, e.holds ρ = true)
      (reached : ∀ l ∈ v.loops.loops, l.preGuard.holds ρ = true → Reachable v context range (source l))
      (flows : ∀ l ∈ v.loops.loops, l.preGuard.holds ρ = true → l.Flows (source l) ρ) :
      Reachable v context range ρ

variable {v : Verifier} {context : List Expr} {range : Int × Int} {ρ : Valuation}

theorem Reachable.typed (h : v.Reachable context range ρ) : ρ.Typed v.loops.declared range := by
  cases h with
  | intro _ typed _ _ _ => exact typed

theorem Reachable.assumed (h : v.Reachable context range ρ) :
    ∀ e ∈ context ++ v.assumptions, e.holds ρ = true := by
  cases h with
  | intro _ _ assumed _ _ => exact assumed

theorem mem_placeEdge {l k : LoopTemplate} {es : List LoopTemplate} :
    k ∈ placeEdge l es ↔ k = l ∨ k ∈ es := by
  induction es with
  | nil => simp [placeEdge]
  | cons e es ih =>
    rw [placeEdge]
    split
    · simp
    · simp only [List.mem_cons, ih]
      exact or_left_comm

theorem mem_edges (v : Verifier) {l : LoopTemplate} : l ∈ v.edges ↔ l ∈ v.loops.loops := by
  have h : ∀ (ls es : List LoopTemplate),
      l ∈ ls.foldl (fun es k => placeEdge k es) es ↔ l ∈ es ∨ l ∈ ls := by
    intro ls
    induction ls with
    | nil => simp
    | cons k ls ih =>
      intro es
      rw [List.foldl_cons, ih, mem_placeEdge, List.mem_cons]
      exact ⟨fun h => h.elim (fun h => h.elim (.inr ∘ .inl) .inl) (.inr ∘ .inr),
        fun h => h.elim (.inl ∘ .inr) (fun h => h.elim (.inl ∘ .inl) .inr)⟩
  rw [edges, h]
  simp

theorem exists_focus (v : Verifier) {l : LoopTemplate} (h : l ∈ v.loops.loops) :
    ∃ focus ∈ v.foci, l.inFocus focus = true := by
  have hmem := v.mem_edges.mpr h
  refine ⟨some l.id, ?_, by simp [LoopTemplate.inFocus]⟩
  rw [foci]
  split
  · rename_i hempty
    rw [List.isEmpty_iff.mp hempty] at hmem
    cases hmem
  · exact List.mem_map.mpr ⟨l, hmem, rfl⟩

/-- A value about which nothing is left to ask holds in every reachable state. -/
theorem holds_pre_of_reachable {d : Domain} {value : d.Value} {assertions : List Expr}
    (hd : d.Relational) (hc : d.Carries v.loops range)
    (hclosed : ∀ focus ∈ v.foci, d.Closed value focus assertions v.loops.declared range)
    (hassertions : ∀ e ∈ assertions, e ∈ context ++ v.assumptions)
    (h : v.Reachable context range ρ) : (d.pre value).holds ρ = true := by
  induction h with
  | @intro ρ source typed assumed reached flows ih =>
    apply (Domain.holds_pre hd value ρ).mpr
    intro c hmem hentered
    obtain ⟨hloop, hcarried⟩ := hc value c hmem
    obtain ⟨focus, hfocus, hin⟩ := v.exists_focus hloop
    have hsource := reached c.loop hloop hentered
    have hflows := flows c.loop hloop hentered
    have hfalse := hclosed focus hfocus (source c.loop) hsource.typed
      (fun e he => hsource.assumed e (hassertions e he)) (ih c.loop hloop hentered)
    exact hcarried typed hflows (Domain.kept_of_conditions hd hfalse c hmem hin hflows.guard)

theorem symbols_create (config : Config) (p : Procedure) (old : Option Procedure) (pre : Expr)
    (n : String) : (create config p old pre).loops.declared n =
      (create config p old pre).symbols.lookup n := by
  rw [create, LoopSystem.declared_eq, List.flatMap_cons]
  rfl

end Verifier

instance (v : Value) (s : ValueSort) (range : Int × Int) : Decidable (v.Within s range) :=
  match v with
  | .bool _ => inferInstanceAs (Decidable (s = .bool))
  | .int k => inferInstanceAs (Decidable (s = .int ∧ range.1 ≤ k ∧ k ≤ range.2))

theorem Model.typed_valuation {m : Model} {symbols : List TypedName} {Γ : Sorts} {range : Int × Int}
    (hΓ : ∀ n, Γ n = symbols.lookup n) (hzero : range.1 ≤ 0 ∧ 0 ≤ range.2)
    (hknown : ∀ p ∈ symbols, (m.get? p.1).isSome = true ∧ (m.valuation p.1 p.2).Within p.2 range)
    (hnames : ∀ p ∈ m.entries, (symbols.lookup p.1).isSome = true) : m.valuation.Typed Γ range := by
  intro n s
  rw [hΓ]
  cases hn : symbols.lookup n with
  | none =>
    cases hm : m.get? n with
    | none =>
      rw [Model.valuation, hm]
      exact s.default_within hzero
    | some v =>
      have := hnames _ (Table.mem_of_find hm)
      rw [hn] at this
      cases this
  | some t =>
    obtain ⟨before, after, rfl, -⟩ := List.lookup_eq_some_iff.mp hn
    obtain ⟨hsome, hwithin⟩ := hknown (n, t) (by simp)
    obtain ⟨v, hv⟩ := Option.isSome_iff_exists.mp hsome
    rw [Model.valuation] at hwithin ⊢
    rw [hv] at hwithin ⊢
    exact hwithin

theorem Method.pre_of_ranking {config : Config} {s : LoopSystem} {range : Int × Int} {m : Method}
    {b : Bool} (h : ofConfig config s range = .ok m) (hrank : config.domain = .ranking b)
    (value : m.domain.Value) : m.domain.pre value = .bool true := by
  rw [ofConfig, hrank] at h
  obtain ⟨d, -, h⟩ := Except.exists_of_bind_ok h
  cases h
  rfl

namespace Verifier

variable {σ : Type} [Oracle σ] {range : Int × Int} {F : Faithful σ range} {c : Scopes} {Γ Δ : Sorts}
  {o : σ} {v : Verifier} {ρ : Valuation}

theorem mem_assertions {c : Scopes} {es : List Expr} {e : Expr}
    (h : e ∈ (c.opened.addAll es).live) : e ∈ c.live ++ es :=
  List.mem_append.mpr ((Scopes.mem_live_addAll (c := c.opened)).mp h)

theorem Verified.holds {invariant : Expr} {q : Property} (h : Verified F c Δ invariant o q)
    (hq : q.status = .holds) (hΓ : Γ.Extends Δ) (hρ : ρ.Typed Γ range)
    (hcontext : ∀ e ∈ c.live, e.holds ρ = true) (hinvariant : invariant.holds ρ = true) :
    q.condition.holds ρ = true := by
  obtain ⟨a, p, Θ, -, hΔ, hkeeps, hcheck⟩ := h hq
  obtain ⟨e, he, hfalse⟩ := Faithful.unsat_typed hkeeps (hΓ.trans hΔ) hcheck hρ
  rcases List.mem_cons.mp he with rfl | he
  · simpa using hfalse
  · rcases List.mem_cons.mp he with rfl | he
    · exact absurd (hinvariant.symm.trans hfalse) (by simp)
    · exact absurd ((hcontext e he).symm.trans hfalse) (by simp)

/-- The invariant of a run holds in every reachable state if one of the checks after the search was
answered negatively. -/
theorem Searched.holds_pre {m : Method} {value : m.domain.Value} {o₁ o₂ a a' : σ} {c' : Scopes}
    {Γ' : Sorts} {rounds : List (Round σ)} {symbols : List TypedName}
    (h : Searched F (c.opened.addAll v.assumptions) symbols v.foci rounds m value o₁ o₂ Δ)
    (hd : m.domain.Relational) (hc : m.domain.Carries v.loops range)
    (hΓ : v.loops.declared.Extends Δ) (hover : ∀ r ∈ rounds, r.overflows = false)
    (hsteady : F.Steady) (hlater : F.Later o₂ a) (hkeeps : F.Keeps a c' Γ')
    (hcheck : (Oracle.check : Request σ Answer) a = (.ok .unsat, a'))
    (hρ : v.Reachable c.live range ρ) : (m.domain.pre value).holds ρ = true := by
  obtain ⟨-, hdenies⟩ := h.denies hd.unranked.descends hd.roomy hover
  refine holds_pre_of_reachable hd hc (fun focus hfocus => ?_) (fun e he => mem_assertions he) hρ
  exact (hdenies focus hfocus).closed_of_later hΓ hsteady hlater hkeeps hcheck

theorem holds_of_run {config : Config} {f : Procedure} {old : Option Procedure} {pre : Expr}
    {v' : Verifier} {p : σ} (hsteady : F.Steady) (h : F.Keeps o c Γ)
    (hpaths : ∀ shape, config.domain ≠ .heapTemplate shape true)
    (hrun : (run : Session Verifier σ Unit) (create config f old pre, o) = (.ok (), (v', p)))
    (hover : ∀ r ∈ (create config f old pre).rounds o, r.overflows = false) :
    ∀ q ∈ v'.properties, q.status = .holds →
      ∀ ρ, (create config f old pre).Reachable c.live range ρ → q.condition.holds ρ = true := by
  intro q hq hstatus ρ hρ
  obtain ⟨m, value, o₁, o₂, Δ, Θ, hm, -, -, hΘ, hsearched, hverified⟩ := run_ok h hrun
  have hΓ : (create config f old pre).loops.declared.Extends Δ := fun n s hn =>
    hsearched.declared n s ((symbols_create config f old pre n).symm.trans hn)
  have hinvariant : (m.domain.pre value).holds ρ = true := by
    by_cases hrank : ∃ b, config.domain = .ranking b
    · obtain ⟨b, hb⟩ := hrank
      rw [Method.pre_of_ranking hm hb, Expr.holds_bool]
    · obtain ⟨a, a', Ξ, hlater, -, hkeeps, hcheck⟩ := hverified q hq hstatus
      obtain ⟨hd, hc⟩ := Method.relational_of_config rfl hm (fun b hb => hrank ⟨b, hb⟩) hpaths
      exact Searched.holds_pre hsearched hd hc hΓ hover hsteady hlater hkeeps hcheck hρ
  exact (hverified q hq).holds hstatus (hΓ.trans hΘ) hρ.typed
    (fun e he => hρ.assumed e (mem_assertions he)) hinvariant

/-- A property that is found to hold is true in every reachable state, whatever the bit-level solver
has been asked before and however many nodes it is allowed. -/
theorem holds_in_reachable {width limit : Nat} {s₀ : BitSolver}
    (hcreate : BitSolver.create width limit = .ok s₀) (commands : List BitSolver.Command)
    (config : Config) (f : Procedure) (old : Option Procedure) (pre : Expr)
    (hpaths : ∀ shape, config.domain ≠ .heapTemplate shape true)
    (hrun : (run (create config f old pre, (s₀.execute commands).1)).1 = .ok ())
    (hover : ∀ r ∈ (create config f old pre).rounds (s₀.execute commands).1, r.overflows = false) :
    ∀ q ∈ (run (create config f old pre, (s₀.execute commands).1)).2.1.properties,
      q.status = .holds →
      ∀ ρ, (create config f old pre).Reachable (s₀.execute commands).2.live
        (-(2 ^ (width - 1)), 2 ^ (width - 1) - 1) ρ → q.condition.holds ρ = true := by
  obtain ⟨hmin, hmax, hkeeps⟩ := BitSolver.keeps_of_create hcreate commands
  exact holds_of_run (BitSolver.steady hmin hmax) hkeeps hpaths (Prod.ext hrun rfl) hover

/-- A loop that raises a counter from zero to one. -/
def counter : Procedure where
  name := "count"
  blocks := [
    { location := 1, source := ⟨"count", 1⟩
      equalities := [⟨"x1", .ite (.boolVar "$guard#ls2") (.intVar "x#lb2") (.int 0)⟩] },
    { location := 2, source := ⟨"count", 2⟩, guard := .lt (.intVar "x1") (.int 1), head := some 0
      loopVars := [⟨"x#lb2", .add [.intVar "x1", .int 1], false⟩] },
    { location := 3, source := ⟨"count", 3⟩
      assertions := [⟨"natural", .le (.int 0) (.intVar "x1")⟩] }]

def counting : Config where
  domain := .template .intervals .enumeration
  width := 2

def counterState (turned : Bool) : Model :=
  .ofList [("x1", .int (if turned then 1 else 0)), ("x#lb2", .int (if turned then 1 else 0)),
    ("$guard#ls2", .bool turned)]

theorem typed_counterState (turned : Bool) : (counterState turned).valuation.Typed
    (LoopSystem.ofProcedures [counter]).declared (-(2 ^ (2 - 1)), 2 ^ (2 - 1) - 1) := by
  apply Model.typed_valuation (symbols_create counting counter none (.bool true)) (by decide) <;>
  · revert turned
    decide +kernel

theorem reachable_counterState (config : Config) :
    (create config counter none (.bool true)).Reachable [] (-(2 ^ (2 - 1)), 2 ^ (2 - 1) - 1)
      (counterState true).valuation := by
  have hassumed : ∀ turned, ∀ e ∈ (create counting counter none (.bool true)).assumptions,
      e.holds (counterState turned).valuation = true := by
    decide +kernel
  have hentry : ∀ l ∈ (LoopSystem.ofProcedures [counter]).loops,
      l.preGuard.holds (counterState false).valuation = false := by
    decide +kernel
  have hturn : ∀ l ∈ (LoopSystem.ofProcedures [counter]).loops,
      l.postGuard.holds (counterState false).valuation = true ∧ ∀ x ∈ l.vars,
        x.post.value (counterState false).valuation =
          (counterState true).valuation x.lb (l.sortOf x) := by
    decide +kernel
  have hfirst : (create config counter none (.bool true)).Reachable []
      (-(2 ^ (2 - 1)), 2 ^ (2 - 1) - 1) (counterState false).valuation := by
    refine .intro (fun _ => fun _ s => s.default) (typed_counterState false) (hassumed false)
      (fun l hl hpre => ?_) (fun l hl hpre => ?_) <;>
    · exact absurd (hpre.symm.trans (hentry l hl)) (by simp)
  refine .intro (fun _ => (counterState false).valuation) (typed_counterState true)
    (hassumed true) (fun _ _ _ => hfirst) (fun l hl _ => ?_)
  exact ⟨(hturn l hl).1, (hturn l hl).2⟩

theorem run_counter :
    (run (create counting counter none (.bool true), ((BitSolver.fresh 2 1000).execute []).1)).1 =
        .ok () ∧
      ∃ q ∈ (run (create counting counter none (.bool true),
        ((BitSolver.fresh 2 1000).execute []).1)).2.1.properties, q.status = .holds := by
  decide +kernel

theorem rounds_counter : ∀ r ∈ (create counting counter none (.bool true)).rounds
    ((BitSolver.fresh 2 1000).execute []).1, r.unknown = false ∧ r.overflows = false := by
  decide +kernel

/-- The counter is found never to be negative, and it is not after a turn. -/
theorem holds_in_reachable_counter :
    (create counting counter none (.bool true)).Reachable ((BitSolver.fresh 2 1000).execute []).2.live
        (-(2 ^ (2 - 1)), 2 ^ (2 - 1) - 1) (counterState true).valuation ∧
      ∃ q ∈ (run (create counting counter none (.bool true),
          ((BitSolver.fresh 2 1000).execute []).1)).2.1.properties,
        q.status = .holds ∧ q.condition.holds (counterState true).valuation = true := by
  obtain ⟨hrun, q, hq, hstatus⟩ := run_counter
  have hreachable := reachable_counterState counting
  refine ⟨hreachable, q, hq, hstatus, ?_⟩
  exact holds_in_reachable (BitSolver.create_eq 1000 (by decide) (by decide)) [] counting counter none
    (.bool true) (by simp [counting]) hrun (fun r hr => (rounds_counter r hr).2) q hq hstatus
    (counterState true).valuation hreachable

end Verifier

end InvariantSynthesis
