import InvariantSynthesis.Proofs.Analysis.Soundness

/-!
Splitting by symbolic paths. The value of a path collects what flows back along this path over all
loops together, and a state is admitted if the value of one path admits it. This covers the states
whose loops were all left along one path. It does not cover a state whose loops were left along
different paths, so with two loops a property can be found to hold that is not true.
-/

namespace InvariantSynthesis

theorem mem_zip_map {α β : Type} {f : α → β} {as : List α} {a : α} (h : a ∈ as) :
    (a, f a) ∈ as.zip (as.map f) := by
  obtain ⟨i, hi⟩ := List.getElem?_of_mem h
  refine List.mem_of_getElem? (i := i) (List.getElem?_zip_eq_some.mpr ⟨hi, ?_⟩)
  rw [List.getElem?_map, hi]
  rfl

namespace Domain

/-- Whatever a value says about a loop, the first value says that nothing flows back there. -/
def Rejecting (d : Domain) : Prop :=
  ∀ v : d.Value, ∀ c ∈ d.clauses v,
    ∃ c' ∈ d.clauses d.start, c'.loop = c.loop ∧ ∀ ρ, c'.post.holds ρ = false

theorem rejecting_template (d : TemplateDomain) : (Domain.template d).Rejecting := by
  intro v c hc
  obtain ⟨⟨r, x⟩, hmem, hc⟩ := List.mem_filterMap.mp hc
  have hr := (List.of_mem_zip hmem).1
  have hloop : c.loop = r.loop := by cases x <;> cases hc <;> rfl
  exact ⟨⟨r.loop, .bool false, .bool false⟩,
    List.mem_filterMap.mpr ⟨(r, .bottom), mem_zip_map hr, rfl⟩, hloop.symm, by simp⟩

theorem rejecting_heap (d : HeapDomain) : (Domain.heap d).Rejecting := by
  intro v c hc
  obtain ⟨⟨r, x⟩, hmem, hc⟩ := List.mem_filterMap.mp hc
  have hr := (List.of_mem_zip hmem).1
  have hloop : c.loop = r.loop := by cases x <;> cases hc; rfl
  exact ⟨⟨r.loop, HeapDomain.pointsTo (.intVar r.lb) [], HeapDomain.pointsTo r.post []⟩,
    List.mem_filterMap.mpr ⟨(r, .targets []), mem_zip_map hr, rfl⟩, hloop.symm,
    by simp [HeapDomain.pointsTo]⟩

theorem Rejecting.product {a b : Domain} (ha : a.Rejecting) (hb : b.Rejecting) :
    (Domain.product a b).Rejecting := by
  rintro ⟨v, w⟩ c hc
  rcases List.mem_append.mp hc with hc | hc
  · obtain ⟨c', hc', hrest⟩ := ha v c hc
    exact ⟨c', List.mem_append_left _ hc', hrest⟩
  · obtain ⟨c', hc', hrest⟩ := hb w c hc
    exact ⟨c', List.mem_append_right _ hc', hrest⟩

variable {d : Domain} {conds : List Expr} {ps : List (List Bool × d.Value)} {ρ : Valuation}
  {focus : Option Nat}

theorem holds_pre_paths (h : ∀ v : d.Value, (v = d.start ∨ ∃ p ∈ ps, p.2 = v) →
    (d.pre v).holds ρ = true) : ((Domain.paths d conds).pre ps).holds ρ = true := by
  cases ps with
  | nil => exact h _ (.inl rfl)
  | cons p ps =>
    rw [pre, Expr.holds_disj, List.any_eq_true]
    exact ⟨d.pre p.2, List.mem_map.mpr ⟨p, List.mem_cons_self, rfl⟩,
      h p.2 (.inr ⟨p, List.mem_cons_self, rfl⟩)⟩

theorem holds_pre_paths_of_mem {p : List Bool × d.Value} (hp : p ∈ ps)
    (h : (d.pre p.2).holds ρ = true) : ((Domain.paths d conds).pre ps).holds ρ = true := by
  cases ps with
  | nil => cases hp
  | cons q ps =>
    rw [pre, Expr.holds_disj, List.any_eq_true]
    exact ⟨d.pre p.2, List.mem_map.mpr ⟨p, hp, rfl⟩, h⟩

theorem false_along {p : List Bool × d.Value} (hp : p ∈ ps)
    (hpath : (pathExpr conds p.1).holds ρ = true)
    (h : ∀ e ∈ (Domain.paths d conds).conditions ps focus, e.2.holds ρ = false) :
    ∀ e ∈ d.conditions p.2 focus, e.2.holds ρ = false := by
  intro e he
  obtain ⟨k, hk⟩ := List.getElem?_of_mem hp
  have hfalse := h (e.1 * stride + k, .conj [pathExpr conds p.1, e.2])
    (mem_conditions_paths.mpr (.inl ⟨k, p.1, p.2, e.1, e.2, hk, he, rfl, rfl⟩))
  simpa [hpath] using hfalse

theorem false_unseen (hroom : ps.length < newPath)
    (hunseen : ∀ p ∈ ps, (pathExpr conds p.1).holds ρ = false)
    (h : ∀ e ∈ (Domain.paths d conds).conditions ps focus, e.2.holds ρ = false) :
    ∀ e ∈ d.conditions d.start focus, e.2.holds ρ = false := by
  intro e he
  have hfalse := h (e.1 * stride + newPath, .conj [unseen conds ps, e.2])
    (mem_conditions_paths.mpr (.inr ⟨hroom, e.1, e.2, he, rfl, rfl⟩))
  simpa [holds_unseen.mpr hunseen] using hfalse

end Domain

namespace Verifier

/-- The states in which all loops that were entered have taken up the values of earlier states on
one path. -/
inductive Coherent (v : Verifier) (context : List Expr) (range : Int × Int) : Valuation → Prop
  | intro {ρ : Valuation} (source : LoopTemplate → Valuation) (path : List Bool)
      (typed : ρ.Typed v.loops.declared range)
      (assumed : ∀ e ∈ context ++ v.assumptions, e.holds ρ = true)
      (reached : ∀ l ∈ v.loops.loops, l.preGuard.holds ρ = true → Coherent v context range (source l))
      (flows : ∀ l ∈ v.loops.loops, l.preGuard.holds ρ = true → l.Flows (source l) ρ)
      (along : ∀ l ∈ v.loops.loops, l.preGuard.holds ρ = true →
        path = (Domain.branchConditions v.loops).map (Expr.holds (source l))) :
      Coherent v context range ρ

variable {v : Verifier} {context : List Expr} {range : Int × Int} {ρ : Valuation}

theorem Coherent.typed (h : v.Coherent context range ρ) : ρ.Typed v.loops.declared range := by
  cases h with
  | intro _ _ typed _ _ _ _ => exact typed

theorem Coherent.assumed (h : v.Coherent context range ρ) :
    ∀ e ∈ context ++ v.assumptions, e.holds ρ = true := by
  cases h with
  | intro _ _ _ assumed _ _ _ => exact assumed

theorem Coherent.reachable (h : v.Coherent context range ρ) : v.Reachable context range ρ := by
  induction h with
  | intro source _ typed assumed _ flows _ ih => exact .intro source typed assumed ih flows

theorem Reachable.coherent (hone : v.loops.loops.length ≤ 1) (h : v.Reachable context range ρ) :
    v.Coherent context range ρ := by
  induction h with
  | @intro ρ source typed assumed _ flows ih =>
    cases hloops : v.loops.loops with
    | nil =>
      refine .intro source [] typed assumed ?_ ?_ ?_ <;>
      · intro l hl
        rw [hloops] at hl
        cases hl
    | cons l rest =>
      refine .intro source ((Domain.branchConditions v.loops).map (Expr.holds (source l))) typed
        assumed ih flows fun k hk _ => ?_
      rw [hloops] at hk hone
      obtain rfl : rest = [] := List.length_eq_zero_iff.mp (by simpa using hone)
      rw [List.mem_singleton.mp hk]

/-- A value of paths about which nothing is left to ask holds in every coherent state. -/
theorem holds_pre_of_coherent {d : Domain} {ps : List (List Bool × d.Value)}
    {assertions : List Expr} (hd : d.Relational) (hreject : d.Rejecting)
    (hc : d.Carries v.loops range) (hroom : ps.length < Domain.newPath)
    (hlength : ∀ p ∈ ps, p.1.length = (Domain.branchConditions v.loops).length)
    (hclosed : ∀ focus ∈ v.foci, (Domain.paths d (Domain.branchConditions v.loops)).Closed ps focus
      assertions v.loops.declared range)
    (hassertions : ∀ e ∈ assertions, e ∈ context ++ v.assumptions)
    (h : v.Coherent context range ρ) :
    ((Domain.paths d (Domain.branchConditions v.loops)).pre ps).holds ρ = true := by
  induction h with
  | @intro ρ source path typed assumed reached flows along ih =>
    have hfalse : ∀ l ∈ v.loops.loops, l.preGuard.holds ρ = true → ∀ focus ∈ v.foci,
        ∀ e ∈ (Domain.paths d (Domain.branchConditions v.loops)).conditions ps focus,
          e.2.holds (source l) = false := fun l hl hentered focus hfocus =>
      hclosed focus hfocus (source l) (reached l hl hentered).typed
        (fun e he => (reached l hl hentered).assumed e (hassertions e he)) (ih l hl hentered)
    by_cases hseen : ∃ p ∈ ps, p.1 = path
    · obtain ⟨p, hp, rfl⟩ := hseen
      apply Domain.holds_pre_paths_of_mem hp
      apply (Domain.holds_pre hd p.2 ρ).mpr
      intro c hmem hentered
      obtain ⟨hloop, hcarried⟩ := hc p.2 c hmem
      obtain ⟨focus, hfocus, hin⟩ := v.exists_focus hloop
      have hflows := flows c.loop hloop hentered
      have hpath := (Domain.holds_pathExpr (hlength p hp)).mpr (along c.loop hloop hentered)
      have hkept := Domain.kept_of_conditions hd
        (Domain.false_along hp hpath (hfalse c.loop hloop hentered focus hfocus)) c hmem hin
      exact hcarried typed hflows (hkept hflows.guard)
    · -- nothing flows back on a path that was not seen, so no loop with a clause was entered
      apply Domain.holds_pre_paths
      intro w _
      apply (Domain.holds_pre hd w ρ).mpr
      intro c hmem hentered
      obtain ⟨c', hmem', hsame, hpost⟩ := hreject w c hmem
      rw [← hsame] at hentered
      obtain ⟨hloop, -⟩ := hc d.start c' hmem'
      obtain ⟨focus, hfocus, hin⟩ := v.exists_focus hloop
      have hflows := flows c'.loop hloop hentered
      have hunseen : ∀ p ∈ ps,
          (Domain.pathExpr (Domain.branchConditions v.loops) p.1).holds (source c'.loop) = false := by
        intro p hp
        rw [Bool.eq_false_iff]
        intro hpath
        refine hseen ⟨p, hp, ?_⟩
        rw [along c'.loop hloop hentered]
        exact (Domain.holds_pathExpr (hlength p hp)).mp hpath
      have hkept := Domain.kept_of_conditions hd
        (Domain.false_unseen hroom hunseen (hfalse c'.loop hloop hentered focus hfocus)) c' hmem' hin
      exact absurd ((hkept hflows.guard).symm.trans (hpost _)) (by simp)

end Verifier

theorem Method.paths_of_config {config : Config} {s : LoopSystem} {ps : List Procedure}
    {bounds range : Int × Int} {m : Method} {shape : TemplateShape} (hs : s = .ofProcedures ps)
    (h : ofConfig config s bounds = .ok m) (hpaths : config.domain = .heapTemplate shape true) :
    ∃ d : Domain, m = .enumeration (.paths d (Domain.branchConditions s)) ∧
      d.Relational ∧ d.Rejecting ∧ d.Carries s range := by
  subst hs
  rw [ofConfig, hpaths] at h
  obtain ⟨t, ht, h⟩ := Except.exists_of_bind_ok h
  cases h
  exact ⟨_, rfl, ⟨trivial, trivial⟩, (Domain.rejecting_heap _).product (Domain.rejecting_template t),
    (HeapDomain.carries _).product (TemplateDomain.carries ht)⟩

def Invariant.pathCount (i : Invariant) : Nat :=
  match i.summary with
  | .paths branches => branches.length
  | _ => 0

namespace Verifier

variable {σ : Type} [Oracle σ] {range : Int × Int} {F : Faithful σ range} {c : Scopes} {Γ Δ : Sorts}
  {o : σ} {v : Verifier} {ρ : Valuation}

theorem holds_of_paths_run {config : Config} {f : Procedure} {old : Option Procedure} {pre : Expr}
    {shape : TemplateShape} {v' : Verifier} {p : σ} (h : F.Keeps o c Γ)
    (hpaths : config.domain = .heapTemplate shape true)
    (hrun : (run : Session Verifier σ Unit) (create config f old pre, o) = (.ok (), (v', p)))
    (hover : ∀ r ∈ (create config f old pre).rounds o, r.overflows = false)
    (hknown : ∀ r ∈ (create config f old pre).rounds o, r.unknown = false)
    (hroom : ∀ i ∈ v'.invariant, i.pathCount < Domain.newPath) :
    ∃ i, v'.invariant = some i ∧
      ∀ ρ, (create config f old pre).Coherent c.live range ρ → i.expr.holds ρ = true ∧
        ∀ q ∈ v'.properties, q.status = .holds → q.condition.holds ρ = true := by
  obtain ⟨m, value, o₁, o₂, Δ, Θ, hm, hinvariant, -, hΘ, hsearched, hverified⟩ := run_ok h hrun
  obtain ⟨d, rfl, hd, hreject, hc⟩ := Method.paths_of_config rfl hm hpaths
  refine ⟨_, hinvariant, fun ρ hρ => ?_⟩
  have hΓ : (create config f old pre).loops.declared.Extends Δ := fun n s hn =>
    hsearched.declared n s ((symbols_create config f old pre n).symm.trans hn)
  have hlength : List.length (α := List Bool × d.Value) value < Domain.newPath := by
    have hcount := hroom _ hinvariant
    exact lt_of_eq_of_lt (List.length_map _).symm hcount
  obtain ⟨hsane, hdenies⟩ := hsearched.denies (Domain.Unranked.descends (d := .paths d _) hd.unranked)
    ⟨Nat.le_of_lt hlength, fun _ _ => hd.roomy⟩ hover
  have hpre := holds_pre_of_coherent hd hreject hc hlength (fun q hq => (hsane.2 q hq).1)
    (fun focus hfocus => (hdenies focus hfocus).closed hΓ hknown) (fun e he => mem_assertions he) hρ
  refine ⟨hpre, fun q hq hstatus => ?_⟩
  exact (hverified q hq).holds hstatus (hΓ.trans hΘ) hρ.typed
    (fun e he => hρ.assumed e (mem_assertions he)) hpre

/-- What a split invariant does cover: the states that come from one path, and with it all states of
a procedure that has one loop. -/
theorem paths_hold_in_coherent {width limit : Nat} {s₀ : BitSolver}
    (hcreate : BitSolver.create width limit = .ok s₀) (commands : List BitSolver.Command)
    (config : Config) (f : Procedure) (old : Option Procedure) (pre : Expr) {shape : TemplateShape}
    (hpaths : config.domain = .heapTemplate shape true)
    (hrun : (run (create config f old pre, (s₀.execute commands).1)).1 = .ok ())
    (hover : ∀ r ∈ (create config f old pre).rounds (s₀.execute commands).1, r.overflows = false)
    (hknown : ∀ r ∈ (create config f old pre).rounds (s₀.execute commands).1, r.unknown = false)
    (hroom : ∀ i ∈ (run (create config f old pre, (s₀.execute commands).1)).2.1.invariant,
      i.pathCount < Domain.newPath) :
    ∃ i, (run (create config f old pre, (s₀.execute commands).1)).2.1.invariant = some i ∧
      ∀ ρ, ((create config f old pre).Coherent (s₀.execute commands).2.live
            (-(2 ^ (width - 1)), 2 ^ (width - 1) - 1) ρ ∨
          (create config f old pre).loops.loops.length ≤ 1 ∧
            (create config f old pre).Reachable (s₀.execute commands).2.live
              (-(2 ^ (width - 1)), 2 ^ (width - 1) - 1) ρ) →
        i.expr.holds ρ = true ∧
          ∀ q ∈ (run (create config f old pre, (s₀.execute commands).1)).2.1.properties,
            q.status = .holds → q.condition.holds ρ = true := by
  obtain ⟨hmin, hmax, hkeeps⟩ := BitSolver.keeps_of_create hcreate commands
  obtain ⟨i, hi, hholds⟩ :=
    holds_of_paths_run hkeeps hpaths (Prod.ext hrun rfl) hover hknown hroom
  refine ⟨i, hi, fun ρ hρ => ?_⟩
  rcases hρ with hρ | ⟨hone, hρ⟩
  · exact hholds ρ hρ
  · exact hholds ρ (hρ.coherent hone)

/-- The first loop turns while a condition holds, then the second turns for ever. -/
def turns : Procedure where
  name := "turns"
  blocks := [
    { location := 1, source := ⟨"t.c", 1⟩, cond := some (.boolVar "c")
      equalities := [⟨"first", .boolVar "$guard#ls2"⟩] },
    { location := 2, source := ⟨"t.c", 2⟩, guard := .boolVar "c", head := some 0
      loopVars := [⟨"x#lb2", .int 1, false⟩] },
    { location := 3, source := ⟨"t.c", 3⟩, guard := .not (.boolVar "c")
      equalities := [⟨"second", .boolVar "$guard#ls4"⟩]
      assertions := [⟨"not both turned", .not (.and [.boolVar "first", .boolVar "second"])⟩] },
    { location := 4, source := ⟨"t.c", 4⟩, guard := .not (.boolVar "c"), head := some 2
      loopVars := [⟨"y#lb4", .int 1, false⟩] }]

def splitting : Config where
  domain := .heapTemplate .intervals true
  width := 2

def turnsState (c first second : Bool) : Model :=
  .ofList [("c", .bool c), ("first", .bool first), ("second", .bool second),
    ("$guard#ls2", .bool first), ("$guard#ls4", .bool second),
    ("x#lb2", .int (if first then 1 else 0)), ("y#lb4", .int (if second then 1 else 0))]

theorem typed_turnsState (c first second : Bool) : (turnsState c first second).valuation.Typed
    (create splitting turns none (.bool true)).loops.declared (-(2 ^ (2 - 1)), 2 ^ (2 - 1) - 1) := by
  apply Model.typed_valuation (symbols_create splitting turns none (.bool true)) (by decide) <;>
  · revert c first second
    decide +kernel

theorem assumed_turnsState : ∀ c first second,
    ∀ e ∈ (create splitting turns none (.bool true)).assumptions,
      e.holds (turnsState c first second).valuation = true := by
  decide +kernel

theorem coherent_start : (create splitting turns none (.bool true)).Coherent []
    (-(2 ^ (2 - 1)), 2 ^ (2 - 1) - 1) (turnsState true false false).valuation := by
  have hentry : ∀ l ∈ (create splitting turns none (.bool true)).loops.loops,
      l.preGuard.holds (turnsState true false false).valuation = false := by
    decide +kernel
  refine .intro (fun _ => fun _ s => s.default) [] (typed_turnsState true false false)
    (assumed_turnsState true false false) (fun l hl hpre => ?_) (fun l hl hpre => ?_)
    (fun l hl hpre => ?_) <;>
  · exact absurd (hpre.symm.trans (hentry l hl)) (by simp)

theorem coherent_turned : (create splitting turns none (.bool true)).Coherent []
    (-(2 ^ (2 - 1)), 2 ^ (2 - 1) - 1) (turnsState false true false).valuation := by
  have hturn : ∀ l ∈ (create splitting turns none (.bool true)).loops.loops,
      l.preGuard.holds (turnsState false true false).valuation = true →
      l.postGuard.holds (turnsState true false false).valuation = true ∧ ∀ x ∈ l.vars,
        x.post.value (turnsState true false false).valuation =
          (turnsState false true false).valuation x.lb (l.sortOf x) := by
    decide +kernel
  refine .intro (fun _ => (turnsState true false false).valuation) _ (typed_turnsState false true false)
    (assumed_turnsState false true false) (fun _ _ _ => coherent_start) (fun l hl hpre => ?_)
    (fun _ _ _ => rfl)
  exact ⟨(hturn l hl hpre).1, (hturn l hl hpre).2⟩

theorem reachable_both_turned : (create splitting turns none (.bool true)).Reachable []
    (-(2 ^ (2 - 1)), 2 ^ (2 - 1) - 1) (turnsState false true true).valuation := by
  have hturn : ∀ l ∈ (create splitting turns none (.bool true)).loops.loops,
      l.postGuard.holds (turnsState (l.id == 0) (l.id != 0) false).valuation = true ∧ ∀ x ∈ l.vars,
        x.post.value (turnsState (l.id == 0) (l.id != 0) false).valuation =
          (turnsState false true true).valuation x.lb (l.sortOf x) := by
    decide +kernel
  refine .intro (fun l => (turnsState (l.id == 0) (l.id != 0) false).valuation)
    (typed_turnsState false true true) (assumed_turnsState false true true) (fun l _ _ => ?_)
    (fun l hl _ => ⟨(hturn l hl).1, (hturn l hl).2⟩)
  by_cases hid : l.id = 0
  · rw [hid]
    exact coherent_start.reachable
  · have hfirst : (l.id == 0) = false := by simpa using hid
    simp only [bne, hfirst]
    exact coherent_turned.reachable

/-- No answer is missing in the run on the two loops, and none of the paths that it finds admits the
state after a turn of each. -/
theorem run_turns :
    (run (create splitting turns none (.bool true),
        ((BitSolver.fresh 2 1000).execute []).1)).1 = .ok () ∧
      (∀ i ∈ (run (create splitting turns none (.bool true),
          ((BitSolver.fresh 2 1000).execute []).1)).2.1.invariant,
        i.pathCount < Domain.newPath ∧ i.expr.holds (turnsState false true true).valuation = false) ∧
      ∃ q ∈ (run (create splitting turns none (.bool true),
          ((BitSolver.fresh 2 1000).execute []).1)).2.1.properties,
        q.status = .holds ∧ q.condition.holds (turnsState false true true).valuation = false := by
  decide +kernel

theorem rounds_turns : ∀ r ∈ (create splitting turns none (.bool true)).rounds
    ((BitSolver.fresh 2 1000).execute []).1, r.overflows = false ∧ r.unknown = false := by
  decide +kernel

theorem paths_hold_in_coherent_turned :
    (create splitting turns none (.bool true)).Coherent ((BitSolver.fresh 2 1000).execute []).2.live
        (-(2 ^ (2 - 1)), 2 ^ (2 - 1) - 1) (turnsState false true false).valuation ∧
      ∃ i, (run (create splitting turns none (.bool true),
          ((BitSolver.fresh 2 1000).execute []).1)).2.1.invariant = some i ∧
        i.expr.holds (turnsState false true false).valuation = true := by
  obtain ⟨i, hi, hholds⟩ := paths_hold_in_coherent
    (BitSolver.create_eq 1000 (show 2 ≤ 2 by decide) (by decide)) [] splitting turns none (.bool true)
    rfl run_turns.1 (fun r hr => (rounds_turns r hr).1) (fun r hr => (rounds_turns r hr).2)
    (fun i hi => (run_turns.2.1 i hi).1)
  exact ⟨coherent_turned, i, hi, (hholds _ (.inl coherent_turned)).1⟩

/-- With two loops a split invariant can miss a state that is reached, though no check was left open,
and a property that was found to hold is not true there. -/
theorem paths_miss_both_turned :
    (run (create splitting turns none (.bool true),
        ((BitSolver.fresh 2 1000).execute []).1)).1 = .ok () ∧
      (∀ r ∈ (create splitting turns none (.bool true)).rounds ((BitSolver.fresh 2 1000).execute []).1,
        r.overflows = false ∧ r.unknown = false) ∧
      (create splitting turns none (.bool true)).Reachable ((BitSolver.fresh 2 1000).execute []).2.live
        (-(2 ^ (2 - 1)), 2 ^ (2 - 1) - 1) (turnsState false true true).valuation ∧
      (∀ i ∈ (run (create splitting turns none (.bool true),
          ((BitSolver.fresh 2 1000).execute []).1)).2.1.invariant,
        i.expr.holds (turnsState false true true).valuation = false) ∧
      ∃ q ∈ (run (create splitting turns none (.bool true),
          ((BitSolver.fresh 2 1000).execute []).1)).2.1.properties,
        q.status = .holds ∧ q.condition.holds (turnsState false true true).valuation = false := by
  obtain ⟨hok, hinvariant, hproperty⟩ := run_turns
  exact ⟨hok, rounds_turns, reachable_both_turned, fun i hi => (hinvariant i hi).2, hproperty⟩

end Verifier

end InvariantSynthesis
