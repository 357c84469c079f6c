import InvariantSynthesis.Proofs.Domain.Improvement
import InvariantSynthesis.Proofs.Domain.Ranking
import InvariantSynthesis.Proofs.Expr.Occurrence

/-!
The variables that an improvement looks up in a model. The domains that are made for some procedures
evaluate expressions over declared variables. Their conditions are over declared variables as well,
but for those of ranking functions, which mention the choice at the loop head; of these none is true
by its form, so the oracle is asked about each of them.
-/

namespace InvariantSynthesis

variable {names : String → Prop}

section parts

def TemplateDomain.Reads (d : TemplateDomain) (names : String → Prop) : Prop :=
  ∀ r ∈ d.rows, r.loop.postGuard.Among names ∧ r.post.Among names

def HeapDomain.Reads (d : HeapDomain) (names : String → Prop) : Prop :=
  ∀ r ∈ d.rows, r.loop.postGuard.Among names ∧ r.post.Among names

def CandidateDomain.Reads {α : Type} (d : CandidateDomain α) (names : String → Prop) : Prop :=
  ∀ c ∈ d.candidates, c.loop.postGuard.Among names ∧ c.post.Among names

def RankingDomain.Reads (d : RankingDomain) (names : String → Prop) : Prop :=
  ∀ l ∈ d.loops, ∀ p ∈ l.vars, p.1.Among names ∧ p.2.Among names

/-- What the domain evaluates in a model is over variables with names of some kind. The conditions of
ranking functions are not included. -/
def Domain.Reads (names : String → Prop) : Domain → Prop
  | .template d => d.Reads names
  | .equalities d | .predicates d => d.Reads names
  | .ranking d => d.Reads names
  | .heap d => d.Reads names
  | .product a b => a.Reads names ∧ b.Reads names
  | .paths d conds => d.Reads names ∧ ∀ c ∈ conds, c.Among names

end parts

section conditions

theorem TemplateRow.among_improvement {r : TemplateRow} {x : RowValue} {e : Expr}
    (hguard : r.loop.postGuard.Among names) (hpost : r.post.Among names)
    (h : r.improvement? x = some e) : e.Among names := by
  cases x with
  | bottom =>
    cases h
    exact hguard
  | bound b =>
    cases h
    refine Expr.among_conj ?_
    simpa using ⟨hguard, Expr.among_exceeds hpost⟩
  | top => cases h

theorem HeapDomain.among_escape {r : PointerRow} {x : PointsTo} {e : Expr}
    (hguard : r.loop.postGuard.Among names) (hpost : r.post.Among names)
    (h : escape? r x = some e) : e.Among names := by
  cases x with
  | targets ts =>
    cases h
    have htargets : (pointsTo r.post ts).Among names := by
      refine Expr.among_disj fun c hc => ?_
      obtain ⟨t, -, rfl⟩ := List.mem_map.mp hc
      exact Expr.among_eq_int hpost
    refine Expr.among_conj ?_
    simpa using ⟨hguard, htargets.negate⟩
  | top => cases h

theorem CandidateDomain.among_conditions {α : Type} {d : CandidateDomain α} (hd : d.Reads names)
    {v : List Bool} {focus : Option Nat} : ∀ p ∈ d.conditions v focus, p.2.Among names := by
  rintro ⟨i, e⟩ hp
  obtain ⟨c, b, hc, -, -, he⟩ := mem_conditions.mp hp
  cases he
  obtain ⟨hguard, hpost⟩ := hd c (List.mem_of_getElem? hc)
  refine Expr.among_conj ?_
  simpa using ⟨hguard, hpost.negate⟩

theorem Domain.among_pathExpr {conds : List Expr} (h : ∀ c ∈ conds, c.Among names)
    (path : List Bool) : (pathExpr conds path).Among names := by
  refine Expr.among_conj fun e he => ?_
  obtain ⟨⟨c, taken⟩, hmem, rfl⟩ := List.mem_map.mp he
  have hc := h c (List.of_mem_zip hmem).1
  cases taken with
  | true => exact hc
  | false => exact hc.negate

theorem Domain.among_conditions {d : Domain} (hd : d.Reads names) (hu : d.Unranked) (v : d.Value)
    (focus : Option Nat) : ∀ p ∈ d.conditions v focus, p.2.Among names := by
  induction d with
  | template d =>
    rintro ⟨i, e⟩ hp
    obtain ⟨r, x, hr, -, -, he⟩ := TemplateDomain.mem_conditions.mp hp
    obtain ⟨hguard, hpost⟩ := hd r (List.mem_of_getElem? hr)
    exact TemplateRow.among_improvement hguard hpost he
  | heap d =>
    rintro ⟨i, e⟩ hp
    obtain ⟨r, x, hr, -, -, he⟩ := HeapDomain.mem_conditions.mp hp
    obtain ⟨hguard, hpost⟩ := hd r (List.mem_of_getElem? hr)
    exact HeapDomain.among_escape hguard hpost he
  | equalities d | predicates d => exact CandidateDomain.among_conditions hd
  | ranking d => exact hu.elim
  | product a b iha ihb =>
    obtain ⟨v, w⟩ := v
    rintro ⟨i, c⟩ hp
    obtain ⟨j, -, hmem⟩ | ⟨j, -, hmem⟩ := mem_conditions_product.mp hp
    · exact iha hd.1 hu.1 v (j, c) hmem
    · exact ihb hd.2 hu.2 w (j, c) hmem
  | paths d conds ih =>
    have hboth : ∀ e c : Expr, e.Among names → c.Among names → (Expr.conj [e, c]).Among names := by
      intro e c he hc
      refine Expr.among_conj ?_
      simpa using ⟨he, hc⟩
    rintro ⟨i, c⟩ hp
    obtain ⟨k, path, w, j, e, -, hmem, -, rfl⟩ | ⟨-, j, e, hmem, -, rfl⟩ :=
      mem_conditions_paths.mp hp
    · exact hboth _ _ (among_pathExpr hd.2 path) (ih hd.1 hu w (j, e) hmem)
    · refine hboth _ _ (Expr.Among.negate (Expr.among_disj fun x hx => ?_)) (ih hd.1 hu _ (j, e) hmem)
      obtain ⟨⟨path, w⟩, -, rfl⟩ := List.mem_map.mp hx
      exact among_pathExpr hd.2 path

/-- The conditions of ranking functions say that the loop makes a turn, which is false if it is not
entered over its back edge. -/
theorem RankingDomain.conditions_ne_true {d : RankingDomain}
    (hd : ∀ l ∈ d.loops, ∃ ρ, l.loop.preGuard.holds ρ = false) (v : List RankingRow)
    (focus : Option Nat) : ∀ p ∈ d.conditions v focus, p.2 ≠ .bool true := by
  rintro ⟨i, e⟩ hp rfl
  obtain ⟨⟨⟨l, r⟩, j⟩, hmem, hcond⟩ := List.mem_filterMap.mp hp
  obtain ⟨ρ, hρ⟩ := hd l (List.of_mem_zip (List.fst_mem_of_mem_zipIdx hmem)).1
  have hturn : l.turn.holds ρ = false := by
    rw [RankedLoop.turn, Expr.holds_conj, List.all_cons, hρ, Bool.false_and]
  dsimp only at hcond
  split at hcond
  · obtain ⟨e, he, heq⟩ := Option.map_eq_some_iff.mp hcond
    obtain rfl : e = .bool true := (Prod.mk.inj heq).2
    have hfalse : (Expr.bool true).holds ρ = false := by
      unfold RankedLoop.failure? at he
      split at he
      · rw [← Option.some.inj he]
        exact hturn
      · rw [← Option.some.inj he, Expr.holds_conj, List.all_cons, hturn, Bool.false_and]
      · cases he
    rw [Expr.holds_bool] at hfalse
    cases hfalse
  · cases hcond

end conditions

section edit

variable {σ : Type} [Oracle σ] {o o' : σ} {m m' : Model}

theorem RankingDomain.search_congr (hspawn : Oracle.spawn o' = Oracle.spawn o) (vars : Nat)
    (turns : List (List Int)) (attempts components : Nat) :
    search o' vars turns attempts components = search o vars turns attempts components := by
  induction attempts generalizing components with
  | zero => rfl
  | succ attempts ih => simp only [search, hspawn, ih]

theorem mapM_congr {α β : Type} {f g : α → Except Error β} {as : List α}
    (h : ∀ a ∈ as, f a = g a) : as.mapM f = as.mapM g := by
  induction as with
  | nil => rfl
  | cons a as ih =>
    rw [List.mapM_cons, List.mapM_cons, h a List.mem_cons_self,
      ih fun b hb => h b (List.mem_cons_of_mem _ hb)]

variable (hm : Model.Agrees names m m')
include hm

theorem TemplateDomain.edit_congr {d : TemplateDomain} (hd : d.Reads names) (v : List RowValue)
    (i : Nat) : d.edit v i m' = d.edit v i m := by
  rw [edit, edit, row]
  cases hr : d.rows[i]? with
  | none => rfl
  | some r =>
    have hread : r.postValue m' = r.postValue m := hm.requireInt (hd r (List.mem_of_getElem? hr)).2
    exact congrArg (fun x => x >>= d.raise v i) hread

theorem HeapDomain.edit_congr {d : HeapDomain} (hd : d.Reads names) (v : List PointsTo) (i : Nat) :
    d.edit v i m' = d.edit v i m := by
  rw [edit, edit]
  split
  · rename_i r old hr hv
    rw [hm.requireInt (hd r (List.mem_of_getElem? hr)).2]
  · rfl

theorem RankedLoop.turnOf_congr {l : RankedLoop}
    (hl : ∀ p ∈ l.vars, p.1.Among names ∧ p.2.Among names) : l.turnOf m' = l.turnOf m := by
  refine mapM_congr fun p hp => ?_
  obtain ⟨hpre, hpost⟩ := hl p hp
  dsimp only
  rw [hm.requireInt hpre, hm.requireInt hpost]

theorem RankingDomain.edit_congr {d : RankingDomain} (hd : d.Reads names)
    (hspawn : Oracle.spawn o' = Oracle.spawn o) (i : Nat) : d.edit o' i m' = d.edit o i m := by
  funext ⟨v, stats⟩
  simp only [edit, search_congr hspawn]
  split
  · rename_i l r hl hr
    rw [RankedLoop.turnOf_congr hm (hd l (List.mem_of_getElem? hl))]
  · rfl

theorem Domain.pathOf_congr {conds : List Expr} (h : ∀ c ∈ conds, c.Among names) :
    pathOf conds m' = pathOf conds m :=
  mapM_congr fun c hc => by rw [hm.evalBool (h c hc)]

/-- Models that agree on what a domain reads improve its values alike. -/
theorem Domain.edit_congr {d : Domain} (hd : d.Reads names)
    (hspawn : Oracle.spawn o' = Oracle.spawn o) (i : Nat) : d.edit o' m' i = d.edit o m i := by
  induction d generalizing i with
  | template d =>
    rw [edit, edit]
    exact congrArg Edit.pure (funext fun v => TemplateDomain.edit_congr hm hd v i)
  | heap d =>
    rw [edit, edit]
    exact congrArg Edit.pure (funext fun v => HeapDomain.edit_congr hm hd v i)
  | equalities d | predicates d => rfl
  | ranking d => exact RankingDomain.edit_congr hm hd hspawn i
  | product a b iha ihb =>
    funext x
    obtain ⟨⟨v, w⟩, stats⟩ := x
    rw [edit, edit, iha hd.1, ihb hd.2]
  | paths d conds ih =>
    have hfresh : ∀ inner : Edit d.Value,
        Edit.onModelPath conds m' d.start inner = Edit.onModelPath conds m d.start inner := by
      intro inner
      funext x
      obtain ⟨ps, stats⟩ := x
      rw [Edit.onModelPath, Edit.onModelPath, pathOf_congr hm hd.2]
    rw [edit, edit, ih hd.1, hfresh]

end edit

section config

variable {ps : List Procedure}

def LoopSystem.Declares (s : LoopSystem) (n : String) : Prop := (s.declared n).isSome = true

theorem LoopTemplate.Declared.among_post {l : LoopTemplate} {s : LoopSystem}
    (hl : l.Declared s.declared) {e : Expr} (hover : e.Over l) :
    (e.substitute l.postMap).Among s.Declares := by
  refine Expr.among_bind fun p hp => ?_
  obtain ⟨x, hx, -, hpost⟩ := get?_postMap (hover p hp).2
  rw [hpost]
  exact hl.posts x hx

theorem LoopSystem.among_pathConds {l : LoopTemplate} (h : l ∈ (ofProcedures ps).loops) :
    ∀ c ∈ l.pathConds, c.Among (ofProcedures ps).Declares := by
  obtain ⟨p, hp, i, id, b, -, hl⟩ := exists_template h
  simp only [template?, Option.bind_eq_bind, Option.bind_eq_some_iff, Option.pure_def] at hl
  obtain ⟨headIndex, -, head, -, hl⟩ := hl
  cases hl
  intro c hc q hq
  obtain ⟨b', hb', hcond⟩ := List.mem_filterMap.mp hc
  obtain ⟨t, ht, -⟩ := Expr.mem_symbols hq
  refine declared_isSome hp (List.mem_of_mem_take (List.mem_of_mem_drop hb'))
    (List.mem_append_right _ (List.mem_flatMap.mpr ⟨c, ?_, ht⟩))
  simp [hcond]

theorem LoopSystem.among_branchConditions :
    ∀ c ∈ Domain.branchConditions (ofProcedures ps), c.Among (ofProcedures ps).Declares := by
  have hfold : ∀ (cs seen : List Expr), (∀ c ∈ cs, c.Among (ofProcedures ps).Declares) →
      (∀ c ∈ seen, c.Among (ofProcedures ps).Declares) →
      ∀ c ∈ cs.foldl (fun cs c => if c ∈ cs then cs else cs ++ [c]) seen,
        c.Among (ofProcedures ps).Declares := by
    intro cs
    induction cs with
    | nil => exact fun _ _ h => h
    | cons c cs ih =>
      intro seen hcs hseen
      obtain ⟨hc, hcs⟩ := List.forall_mem_cons.mp hcs
      rw [List.foldl_cons]
      refine ih _ hcs ?_
      split
      · exact hseen
      · intro d hd
        rcases List.mem_append.mp hd with hd | hd
        · exact hseen d hd
        · rw [List.mem_singleton.mp hd]
          exact hc
  refine hfold _ [] (fun c hc => ?_) (by simp)
  obtain ⟨l, hl, hc⟩ := List.mem_flatMap.mp hc
  exact among_pathConds hl c hc

theorem LoopSystem.exists_not_entered {l : LoopTemplate} (h : l ∈ (ofProcedures ps).loops) :
    ∃ ρ, l.preGuard.holds ρ = false := by
  obtain ⟨p, -, i, id, b, -, hl⟩ := exists_template h
  simp only [template?, Option.bind_eq_bind, Option.bind_eq_some_iff, Option.pure_def] at hl
  obtain ⟨headIndex, -, head, -, hl⟩ := hl
  cases hl
  refine ⟨fun _ _ => .bool false, ?_⟩
  rw [Expr.holds_conj, List.all_cons, Procedure.loopSelect, Expr.boolVar]
  simp [Expr.holds, Expr.value]

theorem TemplateDomain.reads_declared {d : TemplateDomain} {shape : TemplateShape}
    {withheld : NameSet} {bounds : Int × Int}
    (h : ofLoops (.ofProcedures ps) shape withheld bounds = .ok d) :
    d.Reads (LoopSystem.ofProcedures ps).Declares := by
  intro r hr
  obtain ⟨hl, hover⟩ := over_loops h r hr
  obtain ⟨rows, hrows, h⟩ := Except.exists_of_bind_ok h
  cases h
  obtain ⟨-, -, hrow⟩ := LoopSystem.mem_rows hrows r hr
  obtain ⟨-, -, hpost, -⟩ := LoopSystem.row?_ok hrow
  have hdeclared := LoopSystem.loop_declared hl
  refine ⟨hdeclared.guard, ?_⟩
  rw [hpost]
  exact hdeclared.among_post hover

theorem HeapDomain.reads_declared (maxTargets : Nat) :
    (ofLoops (.ofProcedures ps) maxTargets).Reads (LoopSystem.ofProcedures ps).Declares := by
  intro r hr
  obtain ⟨l, hl, hr⟩ := List.mem_flatMap.mp hr
  obtain ⟨y, hy, rfl⟩ := List.mem_map.mp hr
  have hdeclared := LoopSystem.loop_declared hl
  exact ⟨hdeclared.guard, hdeclared.posts y (List.mem_filter.mp hy).1⟩

theorem EqualityDomain.reads_declared {d : EqualityDomain} (h : ofLoops (.ofProcedures ps) = .ok d) :
    d.Reads (LoopSystem.ofProcedures ps).Declares := by
  intro c hc
  rw [(CandidateDomain.checked_ok h).1] at hc
  obtain ⟨l, hl, hc⟩ := List.mem_flatMap.mp hc
  obtain ⟨⟨x, y⟩, hxy, rfl⟩ := List.mem_map.mp hc
  have hdeclared := LoopSystem.loop_declared hl
  have hx := hdeclared.posts x (LoopTemplate.mem_of_mem_intVars (mem_pairs hxy).1)
  have hy := hdeclared.posts y (LoopTemplate.mem_of_mem_intVars (mem_pairs hxy).2)
  exact ⟨hdeclared.guard, Expr.among_operands hx hy rfl⟩

theorem PredicateDomain.reads_declared {d : PredicateDomain}
    (h : ofLoops (.ofProcedures ps) = .ok d) : d.Reads (LoopSystem.ofProcedures ps).Declares := by
  intro c hc
  obtain ⟨hl, hover⟩ := over_loops h c hc
  rw [(CandidateDomain.checked_ok h).1] at hc
  obtain ⟨l, -, hc⟩ := List.mem_flatMap.mp hc
  obtain ⟨e, -, rfl⟩ := List.mem_map.mp hc
  have hdeclared := LoopSystem.loop_declared hl
  exact ⟨hdeclared.guard, hdeclared.among_post hover⟩

theorem RankingDomain.reads_declared {d : RankingDomain} {maxComponents maxRefinements : Nat}
    (h : ofLoops (.ofProcedures ps) maxComponents maxRefinements = .ok d) :
    d.Reads (LoopSystem.ofProcedures ps).Declares ∧
      ∀ l ∈ d.loops, ∃ ρ, l.loop.preGuard.holds ρ = false := by
  rw [Reads, loops_of_ofLoops h, List.forall_mem_map, List.forall_mem_map]
  refine ⟨fun l hl p hp => ?_, fun l hl => LoopSystem.exists_not_entered hl⟩
  obtain ⟨x, hx, rfl⟩ := List.mem_map.mp hp
  have hdeclared := LoopSystem.loop_declared hl
  have hmem := LoopTemplate.mem_of_mem_intVars hx
  refine ⟨fun q hq => ?_, hdeclared.posts x hmem⟩
  obtain ⟨-, y, hy, hyq⟩ := Expr.over_intVar hmem q hq
  rw [← hyq]
  exact hdeclared.vars y hy

/-- What is read of a model is over variables with names of some kind, and so are the conditions,
unless none of them is true by its form. -/
structure Domain.Legible (d : Domain) (names : String → Prop) : Prop where
  reads : d.Reads names
  conditions : ∀ v focus, (∀ p ∈ d.conditions v focus, p.2.Among names) ∨
    ∀ p ∈ d.conditions v focus, p.2 ≠ .bool true

theorem Domain.Reads.legible {d : Domain} (h : d.Reads names) (hu : d.Unranked) : d.Legible names :=
  ⟨h, fun v focus => .inl (d.among_conditions h hu v focus)⟩

theorem Method.legible_of_config {config : Config} {bounds : Int × Int} {m : Method}
    (h : ofConfig config (.ofProcedures ps) bounds = .ok m) :
    m.domain.Legible (LoopSystem.ofProcedures ps).Declares := by
  rw [ofConfig] at h
  split at h
  · obtain ⟨d, hd, h⟩ := Except.exists_of_bind_ok h
    cases h
    obtain ⟨hreads, hentered⟩ := RankingDomain.reads_declared hd
    exact ⟨hreads, fun v focus => .inr (RankingDomain.conditions_ne_true hentered v focus)⟩
  · obtain ⟨d, hd, h⟩ := Except.exists_of_bind_ok h
    cases h
    exact Domain.Reads.legible (d := .equalities d) (EqualityDomain.reads_declared hd) trivial
  · obtain ⟨d, hd, h⟩ := Except.exists_of_bind_ok h
    cases h
    exact Domain.Reads.legible (d := .predicates d) (PredicateDomain.reads_declared hd) trivial
  · cases h
    exact Domain.Reads.legible (d := .heap _) (HeapDomain.reads_declared _) trivial
  · rename_i shape paths hconfig
    obtain ⟨d, hd, h⟩ := Except.exists_of_bind_ok h
    have hboth : (HeapDomain.ofLoops (.ofProcedures ps) config.maxTargets).Reads
        (LoopSystem.ofProcedures ps).Declares ∧ d.Reads (LoopSystem.ofProcedures ps).Declares :=
      ⟨HeapDomain.reads_declared _, TemplateDomain.reads_declared hd⟩
    cases paths with
    | true =>
      cases h
      exact Domain.Reads.legible (d := .paths (.product _ _) _)
        ⟨hboth, LoopSystem.among_branchConditions⟩ ⟨trivial, trivial⟩
    | false =>
      cases h
      exact Domain.Reads.legible (d := .product _ _) hboth ⟨trivial, trivial⟩
  · obtain ⟨d, hd, h⟩ := Except.exists_of_bind_ok h
    cases h
    exact Domain.Reads.legible (d := .template d) (TemplateDomain.reads_declared hd) trivial
  · obtain ⟨d, hd, h⟩ := Except.exists_of_bind_ok h
    cases h
    exact Domain.Reads.legible (d := .template d) (TemplateDomain.reads_declared hd) trivial

end config

end InvariantSynthesis
