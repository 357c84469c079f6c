import InvariantSynthesis.Proofs.Domain.Names
import InvariantSynthesis.Proofs.Search.Refinement

namespace InvariantSynthesis

variable {ρ : Valuation} {vars : NameSet}

section parts

theorem TemplateRow.holds_constraint_entered {r : TemplateRow}
    (h : r.loop.preGuard.holds ρ = true) (x : RowValue) :
    (r.constraint x).holds ρ = true ↔ ∀ e ∈ r.fact? x, e.holds ρ = true := by
  cases x with
  | bottom | bound b => simp [constraint, fact?, h]
  | top => simp [constraint, fact?]

theorem TemplateDomain.holds_pre_entered {d : TemplateDomain}
    (h : ∀ r ∈ d.rows, r.loop.preGuard.holds ρ = true) (v : List RowValue) :
    (d.pre v).holds ρ = true ↔ ∀ p ∈ d.rows.zip v, ∀ e ∈ p.1.fact? p.2, e.holds ρ = true := by
  rw [pre, Expr.holds_conj, List.all_map, List.all_eq_true]
  apply forall₂_congr
  intro p hp
  exact TemplateRow.holds_constraint_entered (h p.1 (List.of_mem_zip hp).1) p.2

theorem TemplateDomain.holds_project (d : TemplateDomain) (v : List RowValue) :
    (d.project v vars).holds ρ = true ↔ ∀ p ∈ d.rows.zip v, p.1.expr.mentionsOnly vars = true →
      ∀ e ∈ p.1.fact? p.2, e.holds ρ = true := by
  simp only [project, Expr.holds_conj, List.all_eq_true, List.mem_filterMap,
    Option.ite_none_right_eq_some, Option.mem_def]
  constructor
  · intro h p hp hvars e he
    exact h e ⟨p, hp, hvars, he⟩
  · rintro h e ⟨p, hp, hvars, he⟩
    exact h p hp hvars e he

theorem HeapDomain.holds_pre_entered {d : HeapDomain}
    (h : ∀ r ∈ d.rows, r.loop.preGuard.holds ρ = true) (v : List PointsTo) :
    (d.pre v).holds ρ = true ↔ ∀ p ∈ d.rows.zip v, ∀ e ∈ fact? p.1 p.2, e.holds ρ = true := by
  rw [pre, Expr.holds_conj, List.all_map, List.all_eq_true]
  apply forall₂_congr
  rintro ⟨r, x⟩ hp
  have hentered := h r (List.of_mem_zip hp).1
  cases x with
  | targets ts => simp [constraint, fact?, hentered]
  | top => simp [constraint, fact?]

theorem HeapDomain.mentionsOnly_fact {r : PointerRow} {x : PointsTo} {e : Expr}
    (hvars : vars.contains r.lb = true) (he : e ∈ fact? r x) : e.mentionsOnly vars = true := by
  cases x with
  | targets ts =>
    cases he
    have hvar : (Expr.intVar r.lb).Among fun n => vars.contains n = true := by
      intro p hp
      rw [List.mem_singleton.mp hp]
      exact hvars
    have hfact : (pointsTo (.intVar r.lb) ts).Among fun n => vars.contains n = true := by
      apply Expr.among_disj
      intro c hc
      obtain ⟨t, -, rfl⟩ := List.mem_map.mp hc
      exact Expr.among_eq_int hvar
    exact List.all_eq_true.mpr hfact
  | top => cases he

theorem HeapDomain.holds_project (d : HeapDomain) (v : List PointsTo) :
    (d.project v vars).holds ρ = true ↔ ∀ p ∈ d.rows.zip v, vars.contains p.1.lb = true →
      ∀ e ∈ fact? p.1 p.2, e.holds ρ = true := by
  simp only [project, Expr.holds_conj, List.all_eq_true, List.mem_filter, List.mem_filterMap]
  constructor
  · intro h p hp hvars e he
    exact h e ⟨⟨p, ⟨hp, hvars⟩, he⟩, mentionsOnly_fact hvars he⟩
  · rintro h e ⟨⟨p, ⟨hp, hvars⟩, he⟩, -⟩
    exact h p hp hvars e he

theorem CandidateDomain.holds_pre_entered {α : Type} {d : CandidateDomain α}
    (h : ∀ c ∈ d.candidates, c.loop.preGuard.holds ρ = true) (v : List Bool) :
    (d.pre v).holds ρ = true ↔ ∀ c ∈ d.alive v, c.pre.holds ρ = true := by
  rw [pre, Expr.holds_conj, List.all_map, List.all_eq_true]
  apply forall₂_congr
  intro c hc
  have hentered := h c (List.of_mem_zip (mem_alive.mp hc)).1
  simp [hentered]

theorem CandidateDomain.holds_project {α : Type} (d : CandidateDomain α) (v : List Bool) :
    (d.project v vars).holds ρ = true ↔
      ∀ c ∈ d.alive v, c.pre.mentionsOnly vars = true → c.pre.holds ρ = true := by
  simp only [project, Expr.holds_conj, List.all_map, List.all_eq_true, List.mem_filter,
    Function.comp_apply, and_imp]

end parts

namespace Domain

/-- The domain is made for the loops of a system. -/
def MadeFor (s : LoopSystem) : Domain → Prop
  | .template d => ∃ shape withheld range, TemplateDomain.ofLoops s shape withheld range = .ok d
  | .equalities d => EqualityDomain.ofLoops s = .ok d
  | .predicates d => PredicateDomain.ofLoops s = .ok d
  | .ranking d => ∃ maxComponents maxRefinements,
      RankingDomain.ofLoops s maxComponents maxRefinements = .ok d
  | .heap d => ∃ maxTargets, d = HeapDomain.ofLoops s maxTargets
  | .product a b => a.MadeFor s ∧ b.MadeFor s
  | .paths d conds => d.MadeFor s ∧ conds = branchConditions s

/-- What the domain says of a loop is over the variables that flow around it. Nothing is asked of
ranking functions. -/
def Over (s : LoopSystem) : Domain → Prop
  | .template d => ∀ r ∈ d.rows, r.loop ∈ s.loops ∧ r.expr.Over r.loop
  | .equalities d | .predicates d => ∀ c ∈ d.candidates, c.loop ∈ s.loops ∧ c.pre.Over c.loop
  | .heap d => ∀ r ∈ d.rows, r.loop ∈ s.loops ∧ (Expr.intVar r.lb).Over r.loop
  | .ranking _ => True
  | .product a b => a.Over s ∧ b.Over s
  | .paths d _ => d.Over s

theorem MadeFor.over_loops {s : LoopSystem} {d : Domain} (h : d.MadeFor s) : d.Over s := by
  induction d with
  | template d =>
    obtain ⟨shape, withheld, range, h⟩ := h
    exact TemplateDomain.over_loops h
  | equalities d => exact EqualityDomain.over_loops h
  | predicates d => exact PredicateDomain.over_loops h
  | ranking d => trivial
  | heap d =>
    obtain ⟨maxTargets, rfl⟩ := h
    exact HeapDomain.over_loops
  | product a b iha ihb => exact ⟨iha h.1, ihb h.2⟩
  | paths d conds ih => exact ih h.1

section meaning

variable {s : LoopSystem} {d : Domain} (hd : d.Over s) (hu : d.Unranked)
  (hentered : ∀ l ∈ s.loops, l.preGuard.holds ρ = true)
include hd hu hentered

/-- A value implies its projections. -/
theorem holds_project_of_pre (v : d.Value) (h : (d.pre v).holds ρ = true) :
    (d.project v vars).holds ρ = true := by
  induction d with
  | template d =>
    have hfacts := (TemplateDomain.holds_pre_entered (fun r hr => hentered _ (hd r hr).1) v).mp h
    apply (TemplateDomain.holds_project d v).mpr
    exact fun p hp _ => hfacts p hp
  | equalities d | predicates d =>
    have hfacts := (CandidateDomain.holds_pre_entered (fun c hc => hentered _ (hd c hc).1) v).mp h
    apply (CandidateDomain.holds_project d v).mpr
    exact fun c hc _ => hfacts c hc
  | ranking d => exact hu.elim
  | heap d =>
    have hfacts := (HeapDomain.holds_pre_entered (fun r hr => hentered _ (hd r hr).1) v).mp h
    apply (HeapDomain.holds_project d v).mpr
    exact fun p hp _ => hfacts p hp
  | product a b iha ihb =>
    obtain ⟨v, w⟩ := v
    have hboth : (a.pre v).holds ρ = true ∧ (b.pre w).holds ρ = true := by simpa [pre] using h
    have hleft := iha hd.1 hu.1 v hboth.1
    have hright := ihb hd.2 hu.2 w hboth.2
    simp [project, hleft, hright]
  | paths d conds ih =>
    cases v with
    | nil => exact ih hd hu d.start h
    | cons p ps =>
      rw [pre, Expr.holds_disj, List.any_map, List.any_eq_true] at h
      obtain ⟨q, hq, hpre⟩ := h
      rw [project, Expr.holds_disj, List.any_map, List.any_eq_true]
      exact ⟨q, hq, ih hd hu q.2 hpre⟩

/-- A projection on all variables that flow around loops implies the value. -/
theorem holds_pre_of_project (hall : ∀ l ∈ s.loops, ∀ x ∈ l.vars, vars.contains x.lb = true)
    (v : d.Value) (h : (d.project v vars).holds ρ = true) : (d.pre v).holds ρ = true := by
  have hscope : ∀ {l : LoopTemplate} {e : Expr}, l ∈ s.loops ∧ e.Over l →
      e.mentionsOnly vars = true := by
    rintro l e ⟨hl, hover⟩
    rw [Expr.mentionsOnly, List.all_eq_true]
    intro p hp
    obtain ⟨-, x, hx, hname⟩ := hover p hp
    rw [← hname]
    exact hall l hl x hx
  induction d with
  | template d =>
    have hfacts := (TemplateDomain.holds_project d v).mp h
    apply (TemplateDomain.holds_pre_entered (fun r hr => hentered _ (hd r hr).1) v).mpr
    exact fun p hp => hfacts p hp (hscope (hd p.1 (List.of_mem_zip hp).1))
  | equalities d | predicates d =>
    have hfacts := (CandidateDomain.holds_project d v).mp h
    apply (CandidateDomain.holds_pre_entered (fun c hc => hentered _ (hd c hc).1) v).mpr
    exact fun c hc => hfacts c hc (hscope (hd c (List.of_mem_zip (CandidateDomain.mem_alive.mp hc)).1))
  | ranking d => exact hu.elim
  | heap d =>
    have hfacts := (HeapDomain.holds_project d v).mp h
    apply (HeapDomain.holds_pre_entered (fun r hr => hentered _ (hd r hr).1) v).mpr
    intro p hp
    have hname := hscope (hd p.1 (List.of_mem_zip hp).1)
    exact hfacts p hp (by simpa [Expr.mentionsOnly, Expr.intVar, Expr.occurrences] using hname)
  | product a b iha ihb =>
    obtain ⟨v, w⟩ := v
    have hboth : (a.project v vars).holds ρ = true ∧ (b.project w vars).holds ρ = true := by
      simpa [project] using h
    have hleft := iha hd.1 hu.1 v hboth.1
    have hright := ihb hd.2 hu.2 w hboth.2
    simp [pre, hleft, hright]
  | paths d conds ih =>
    cases v with
    | nil => exact ih hd hu d.start h
    | cons p ps =>
      rw [project, Expr.holds_disj, List.any_map, List.any_eq_true] at h
      obtain ⟨q, hq, hproject⟩ := h
      rw [pre, Expr.holds_disj, List.any_map, List.any_eq_true]
      exact ⟨q, hq, ih hd hu q.2 hproject⟩

end meaning

end Domain

/-- Projections are faithful. Let a domain of rows, candidates and points-to sets, of products of such
domains and of their splittings by paths be made for the loops of some procedures. In every state that
enters all loops over their back edges, a value implies its projection on any variables, and the
projection implies the value if none of the variables that flow around the loops is left out. -/
theorem projection_faithful {ps : List Procedure} {d : Domain} (hd : d.MadeFor (.ofProcedures ps))
    (hu : d.Unranked) (v : d.Value) (vars : NameSet) {ρ : Valuation}
    (hentered : ∀ l ∈ (LoopSystem.ofProcedures ps).loops, l.preGuard.holds ρ = true) :
    ((d.pre v).holds ρ = true → (d.project v vars).holds ρ = true) ∧
      ((∀ l ∈ (LoopSystem.ofProcedures ps).loops, ∀ x ∈ l.vars, vars.contains x.lb = true) →
        (d.project v vars).holds ρ = true → (d.pre v).holds ρ = true) :=
  ⟨Domain.holds_project_of_pre hd.over_loops hu hentered v,
    fun hall => Domain.holds_pre_of_project hd.over_loops hu hentered hall v⟩

/-- A loop with a pointer and a number, and a branch in its body. -/
def walking : Procedure where
  name := "walking"
  blocks := [
    { location := 1, source := ⟨"walking", 1⟩, cond := some (.boolVar "c") },
    { location := 2, source := ⟨"walking", 2⟩, guard := .boolVar "c", head := some 0
      loopVars := [⟨"p#lb2", .intVar "p1", true⟩, ⟨"n#lb2", .intVar "n1", false⟩] }]

def walkingDomain (t : TemplateDomain) : Domain :=
  .paths (.product (.heap (.ofLoops (.ofProcedures [walking]) 4)) (.template t))
    (Domain.branchConditions (.ofProcedures [walking]))

/-- On one path the pointer has one target and the number is bounded. On the other one nothing flows
back. -/
def walkingValue (t : TemplateDomain) : (walkingDomain t).Value :=
  [([true], [.targets [4]], [.bound 3, .top]), ([false], [.targets []], [.bottom, .bottom])]

def walkingState : Valuation
  | _, .bool => .bool true
  | n, .int => .int (if n = "p#lb2" then 4 else 3)

theorem projection_faithful_walking : ∃ t l,
    TemplateDomain.ofLoops (.ofProcedures [walking]) .intervals .empty (-8, 7) = .ok t ∧
      (LoopSystem.ofProcedures [walking]).loops = [l] ∧ l.preGuard.holds walkingState = true ∧
      ((walkingDomain t).pre (walkingValue t)).holds walkingState = true ∧
      ((walkingDomain t).project (walkingValue t) (.ofNames ["n#lb2"])).holds walkingState = true ∧
      (((walkingDomain t).project (walkingValue t) (.ofNames ["n#lb2", "p#lb2"])).holds walkingState =
        true → ((walkingDomain t).pre (walkingValue t)).holds walkingState = true) := by
  obtain ⟨t, ht⟩ : ∃ t, TemplateDomain.ofLoops (.ofProcedures [walking]) .intervals .empty (-8, 7) =
    .ok t := ⟨_, rfl⟩
  obtain ⟨l, hl⟩ : ∃ l, (LoopSystem.ofProcedures [walking]).loops = [l] := ⟨_, rfl⟩
  have hmade : (walkingDomain t).MadeFor (.ofProcedures [walking]) :=
    ⟨⟨⟨4, rfl⟩, ⟨_, _, _, ht⟩⟩, rfl⟩
  have hentered : ∀ l ∈ (LoopSystem.ofProcedures [walking]).loops,
      l.preGuard.holds walkingState = true := by decide +kernel
  have hall : ∀ l ∈ (LoopSystem.ofProcedures [walking]).loops, ∀ x ∈ l.vars,
      (NameSet.ofNames ["n#lb2", "p#lb2"]).contains x.lb = true := by decide +kernel
  have hpre : ((walkingDomain t).pre (walkingValue t)).holds walkingState = true := by
    cases ht
    decide +kernel
  have hfaithful := fun vars =>
    projection_faithful hmade ⟨trivial, trivial⟩ (walkingValue t) vars hentered
  exact ⟨t, l, ht, hl, hentered l (by simp [hl]), hpre, (hfaithful _).1 hpre, (hfaithful _).2 hall⟩

section names

/-- The name occurs in a guard of the loop or in a value that flows back. -/
def RankedLoop.Mentions (l : RankedLoop) (n : String) : Prop :=
  l.loop.preGuard.Mentions n ∨ l.loop.postGuard.Mentions n ∨ ∃ p ∈ l.vars, p.2.Mentions n

def Domain.Ranks : (d : Domain) → d.Value → RankedLoop → Prop
  | .ranking d, (v : List RankingRow), l =>
    ∃ r components, (l, r) ∈ d.loops.zip v ∧ r.function = .found components
  | .product a b, (v, w), l => a.Ranks v l ∨ b.Ranks w l
  | .paths d _, (ps : List (List Bool × d.Value)), l => ∃ p ∈ ps, d.Ranks p.2 l
  | .template _, _, _ | .equalities _, _, _ | .predicates _, _, _ | .heap _, _, _ => False

/-- The name was asked for, or it is mentioned by a loop that has a function and all of whose variables
were asked for. -/
def Domain.Visible (d : Domain) (v : d.Value) (vars : NameSet) (n : String) : Prop :=
  vars.contains n = true ∨
    ∃ l, d.Ranks v l ∧ (∀ p ∈ l.vars, p.1.mentionsOnly vars = true) ∧ l.Mentions n

theorem Domain.Visible.imp {d d' : Domain} {v : d.Value} {v' : d'.Value} {n : String}
    (h : d.Visible v vars n) (hranks : ∀ l, d.Ranks v l → d'.Ranks v' l) : d'.Visible v' vars n := by
  rcases h with h | ⟨l, hl, hmention⟩
  · exact .inl h
  · exact .inr ⟨l, hranks l hl, hmention⟩

theorem Domain.not_ranks_start (d : Domain) (l : RankedLoop) : ¬ d.Ranks d.start l := by
  induction d with
  | ranking d =>
    rintro ⟨r, components, hmem, hfound⟩
    obtain ⟨l', -, rfl⟩ := List.mem_map.mp (List.of_mem_zip hmem).2
    cases hfound
  | product a b iha ihb =>
    rintro (h | h)
    · exact iha h
    · exact ihb h
  | paths d conds ih =>
    rintro ⟨p, hp, -⟩
    cases hp
  | template | equalities | predicates | heap => exact id

theorem Domain.Unranked.not_ranks {d : Domain} (h : d.Unranked) (v : d.Value) (l : RankedLoop) :
    ¬ d.Ranks v l := by
  induction d with
  | ranking d => exact h.elim
  | product a b iha ihb =>
    obtain ⟨v, w⟩ := v
    rintro (hr | hr)
    · exact iha h.1 v hr
    · exact ihb h.2 w hr
  | paths d conds ih =>
    rintro ⟨p, -, hr⟩
    exact ih h p.2 hr
  | template | equalities | predicates | heap => exact id

variable {names : String → Prop}

theorem among_lexicographicDecrease {deltas : List Expr} (h : ∀ e ∈ deltas, e.Among names) :
    (lexicographicDecrease deltas).Among names := by
  apply Expr.among_disj
  intro e he
  obtain ⟨⟨d, k⟩, hd, rfl⟩ := List.mem_map.mp he
  apply Expr.among_conj
  intro c hc
  rcases List.mem_append.mp hc with hc | hc
  · obtain ⟨e, he, rfl⟩ := List.mem_map.mp hc
    exact Expr.among_operand (h e (List.mem_of_mem_take he)) rfl
  · rw [List.mem_singleton.mp hc]
    exact Expr.among_exceeds (h d (List.fst_mem_of_mem_zipIdx hd))

theorem RankedLoop.among_deltas {l : RankedLoop}
    (h : ∀ p ∈ l.vars, p.1.Among names ∧ p.2.Among names) (coefficients : List (List Int)) :
    ∀ e ∈ l.deltas coefficients, e.Among names := by
  intro e he
  obtain ⟨cs, -, rfl⟩ := List.mem_map.mp he
  have hkeeps := Expr.arithmetical_among names
  refine hkeeps.sum fun a ha => ?_
  obtain ⟨⟨c, p⟩, hmem, rfl⟩ := List.mem_map.mp ha
  obtain ⟨hpre, hpost⟩ := h p (List.of_mem_zip hmem).2
  exact hkeeps.scale c (hkeeps.minus hpre hpost)

theorem TemplateDomain.among_project (d : TemplateDomain) (v : List RowValue) :
    (d.project v vars).Among fun n => vars.contains n = true := by
  apply Expr.among_conj
  intro e he
  obtain ⟨⟨r, x⟩, -, he⟩ := List.mem_filterMap.mp he
  obtain ⟨hscope, he⟩ := Option.ite_none_right_eq_some.mp he
  cases x with
  | bottom =>
    cases he
    exact Expr.among_bool false
  | bound b =>
    cases he
    exact Expr.among_operands (Expr.among_of_mentionsOnly hscope) (Expr.among_int b) rfl
  | top => cases he

theorem CandidateDomain.among_project {α : Type} (d : CandidateDomain α) (v : List Bool) :
    (d.project v vars).Among fun n => vars.contains n = true := by
  apply Expr.among_conj
  intro e he
  obtain ⟨c, hc, rfl⟩ := List.mem_map.mp he
  exact Expr.among_of_mentionsOnly (List.mem_filter.mp hc).2

theorem HeapDomain.among_project (d : HeapDomain) (v : List PointsTo) :
    (d.project v vars).Among fun n => vars.contains n = true := by
  apply Expr.among_conj
  intro e he
  exact Expr.among_of_mentionsOnly (List.mem_filter.mp he).2

theorem RankingDomain.among_project (d : RankingDomain) (v : List RankingRow) :
    (d.project v vars).Among ((Domain.ranking d).Visible v vars) := by
  apply Expr.among_conj
  intro e he
  obtain ⟨⟨l, r⟩, hmem, he⟩ := List.mem_filterMap.mp he
  cases hf : r.function with
  | unknown | gaveUp => simp [hf] at he
  | found components =>
    simp only [hf, Option.ite_none_right_eq_some, List.all_eq_true, Option.some.injEq] at he
    obtain ⟨hscope, rfl⟩ := he
    have hvisible : ∀ n, l.Mentions n → (Domain.ranking d).Visible v vars n := fun n hn =>
      .inr ⟨l, ⟨r, components, hmem, hf⟩, hscope, hn⟩
    refine (Expr.logical_among _).imply ?_ ?_
    · have hpre := l.loop.preGuard.among_mentions.mono fun n hn => hvisible n (.inl hn)
      have hpost := l.loop.postGuard.among_mentions.mono fun n hn => hvisible n (.inr (.inl hn))
      apply Expr.among_conj
      simpa using ⟨hpre, hpost⟩
    · apply among_lexicographicDecrease
      apply RankedLoop.among_deltas
      intro p hp
      have hpost := p.2.among_mentions.mono fun n hn => hvisible n (.inr (.inr ⟨p, hp, hn⟩))
      exact ⟨(Expr.among_of_mentionsOnly (hscope p hp)).mono fun n hn => .inl hn, hpost⟩

theorem Domain.among_project (d : Domain) (v : d.Value) :
    (d.project v vars).Among (d.Visible v vars) := by
  induction d with
  | template d => exact (d.among_project v).mono fun n hn => .inl hn
  | equalities d | predicates d => exact (CandidateDomain.among_project d v).mono fun n hn => .inl hn
  | ranking d => exact d.among_project v
  | heap d => exact (d.among_project v).mono fun n hn => .inl hn
  | product a b iha ihb =>
    obtain ⟨v, w⟩ := v
    have hleft : (a.project v vars).Among ((Domain.product a b).Visible (v, w) vars) :=
      (iha v).mono fun n hn => hn.imp fun l hl => .inl hl
    have hright : (b.project w vars).Among ((Domain.product a b).Visible (v, w) vars) :=
      (ihb w).mono fun n hn => hn.imp fun l hl => .inr hl
    apply Expr.among_conj
    simpa using ⟨hleft, hright⟩
  | paths d conds ih =>
    cases v with
    | nil =>
      exact (ih d.start).mono fun n hn => hn.imp fun l hl => absurd hl (d.not_ranks_start l)
    | cons p ps =>
      apply Expr.among_disj
      intro e he
      obtain ⟨q, hq, rfl⟩ := List.mem_map.mp he
      exact (ih q.2).mono fun n hn => hn.imp fun l hl => ⟨q, hq, hl⟩

end names

/-- The names in projections. Without ranking functions a projection mentions only variables that were
asked for, whatever the domain and the value. With them it also mentions the guards of a loop and the
values that flow back, but only of loops that have a function and all of whose variables were asked
for. -/
theorem projection_mentions (d : Domain) (v : d.Value) (vars : NameSet) :
    (d.Unranked → ∀ p ∈ (d.project v vars).occurrences, vars.contains p.1 = true) ∧
      ∀ p ∈ (d.project v vars).occurrences, vars.contains p.1 = true ∨
        ∃ l, d.Ranks v l ∧ (∀ q ∈ l.vars, q.1.mentionsOnly vars = true) ∧ l.Mentions p.1 := by
  have hvisible : (d.project v vars).Among (d.Visible v vars) := d.among_project v
  refine ⟨fun hu p hp => ?_, hvisible⟩
  rcases hvisible p hp with h | ⟨l, hl, -⟩
  · exact h
  · exact absurd hl (hu.not_ranks v l)

theorem projection_mentions_walking : ∃ t,
    TemplateDomain.ofLoops (.ofProcedures [walking]) .intervals .empty (-8, 7) = .ok t ∧
      (walkingDomain t).Unranked ∧
      ("n#lb2", .int) ∈
        ((walkingDomain t).project (walkingValue t) (.ofNames ["n#lb2"])).occurrences ∧
      (NameSet.ofNames ["n#lb2"]).contains "n#lb2" = true := by
  obtain ⟨t, ht⟩ : ∃ t, TemplateDomain.ofLoops (.ofProcedures [walking]) .intervals .empty (-8, 7) =
    .ok t := ⟨_, rfl⟩
  have hu : (walkingDomain t).Unranked := ⟨trivial, trivial⟩
  have hmem : ("n#lb2", .int) ∈
      ((walkingDomain t).project (walkingValue t) (.ofNames ["n#lb2"])).occurrences := by
    cases ht
    decide +kernel
  exact ⟨t, ht, hu, hmem, (projection_mentions _ _ _).1 hu _ hmem⟩

/-- The function found for `lowering` is projected on its two variables, and the projection mentions the
guard of the loop. -/
theorem projection_mentions_guard : ∃ d v,
    RankingDomain.ofLoops (.ofProcedures [RankingDomain.lowering]) 1 5 = .ok d ∧
      (Domain.ranking d).Reached (BitSolver.Made 2) v ∧
      ∃ p ∈ (d.project v (.ofNames ["x#lb2", "y#lb2"])).occurrences,
        (NameSet.ofNames ["x#lb2", "y#lb2"]).contains p.1 = false := by
  obtain ⟨d, hd⟩ : ∃ d, RankingDomain.ofLoops (.ofProcedures [RankingDomain.lowering]) 1 5 = .ok d :=
    ⟨_, rfl⟩
  refine ⟨d, d.afterRounds 1, hd, RankingDomain.reached_afterRounds .., ?_⟩
  cases hd
  decide +kernel

end InvariantSynthesis
