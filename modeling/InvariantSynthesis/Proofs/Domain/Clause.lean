import InvariantSynthesis.Proofs.Except
import InvariantSynthesis.Proofs.Template.Flow
import InvariantSynthesis.Search.Method

/-!
A value of a domain as a list of clauses. A clause belongs to a loop and says a fact about the
variables that flowed back; the same fact about the values that flow back next is what the value's
conditions watch over. Where none of the conditions holds, the clauses are kept from one turn of the
loop to the next.
-/

namespace InvariantSynthesis

structure Clause where
  loop : LoopTemplate
  /-- The fact about the variables that flowed back. -/
  pre : Expr
  /-- The fact about the values that flow back. -/
  post : Expr

namespace Clause

def Assumed (c : Clause) (ρ : Valuation) : Prop :=
  c.loop.preGuard.holds ρ = true → c.pre.holds ρ = true

def Kept (c : Clause) (ρ : Valuation) : Prop :=
  c.loop.postGuard.holds ρ = true → c.post.holds ρ = true

/-- The clause is about one of the loops, and its fact flows back with the values. -/
structure Carried (c : Clause) (s : LoopSystem) (range : Int × Int) : Prop where
  mem : c.loop ∈ s.loops
  flow : ∀ {ρ ρ' : Valuation}, ρ'.Typed s.declared range → c.loop.Flows ρ ρ' →
    c.post.holds ρ = true → c.pre.holds ρ' = true

end Clause

def TemplateRow.clause? (r : TemplateRow) : RowValue → Option Clause
  | .bottom => some ⟨r.loop, .bool false, .bool false⟩
  | .bound b => some ⟨r.loop, .le r.expr (.int b), .le r.post (.int b)⟩
  | .top => none

def HeapDomain.clause? (r : PointerRow) : PointsTo → Option Clause
  | .targets ts => some ⟨r.loop, pointsTo (.intVar r.lb) ts, pointsTo r.post ts⟩
  | .top => none

def Candidate.clause {α : Type} (c : Candidate α) : Clause := ⟨c.loop, c.pre, c.post⟩

namespace Domain

/-- The domain is made of rows and candidates. -/
def Relational : Domain → Prop
  | .template _ | .equalities _ | .predicates _ | .heap _ => True
  | .product a b => a.Relational ∧ b.Relational
  | .ranking _ | .paths _ _ => False

/-- The clauses of a value of rows and candidates. -/
def clauses : (d : Domain) → d.Value → List Clause
  | .template d, (v : List RowValue) => (d.rows.zip v).filterMap fun (r, x) => r.clause? x
  | .equalities d, v => (CandidateDomain.alive d v).map Candidate.clause
  | .predicates d, v => (CandidateDomain.alive d v).map Candidate.clause
  | .heap d, (v : List PointsTo) => (d.rows.zip v).filterMap fun (r, x) => HeapDomain.clause? r x
  | .product a b, (v, w) => a.clauses v ++ b.clauses w
  | .ranking _, _ | .paths _ _, _ => []

end Domain

section places

variable {α β γ : Type} {as : List α} {bs : List β} {g : α → β → Bool} {f : α → β → Option γ}

theorem mem_places {i : Nat} {e : γ} :
    (i, e) ∈ (as.zip bs).zipIdx.filterMap (fun ((a, b), i) =>
      if g a b then (f a b).map (i, ·) else none) ↔
    ∃ a b, as[i]? = some a ∧ bs[i]? = some b ∧ g a b = true ∧ f a b = some e := by
  rw [List.mem_filterMap]
  constructor
  · rintro ⟨⟨⟨a, b⟩, j⟩, hmem, hsome⟩
    obtain ⟨hg, hf⟩ := Option.ite_none_right_eq_some.mp hsome
    obtain ⟨e', hf, heq⟩ := Option.map_eq_some_iff.mp hf
    cases heq
    obtain ⟨ha, hb⟩ := List.getElem?_zip_eq_some.mp (List.mem_zipIdx_iff_getElem?.mp hmem)
    exact ⟨a, b, ha, hb, hg, hf⟩
  · rintro ⟨a, b, ha, hb, hg, hf⟩
    refine ⟨((a, b), i), ?_, by simp [hg, hf]⟩
    exact List.mem_zipIdx_iff_getElem?.mpr (List.getElem?_zip_eq_some.mpr ⟨ha, hb⟩)

end places

theorem TemplateDomain.mem_conditions {d : TemplateDomain} {v : List RowValue} {focus : Option Nat}
    {i : Nat} {e : Expr} : (i, e) ∈ d.conditions v focus ↔
      ∃ r x, d.rows[i]? = some r ∧ v[i]? = some x ∧ r.loop.inFocus focus = true ∧
        r.improvement? x = some e :=
  mem_places (g := fun r _ => r.loop.inFocus focus) (f := TemplateRow.improvement?)

theorem HeapDomain.mem_conditions {d : HeapDomain} {v : List PointsTo} {focus : Option Nat}
    {i : Nat} {e : Expr} : (i, e) ∈ d.conditions v focus ↔
      ∃ r x, d.rows[i]? = some r ∧ v[i]? = some x ∧ r.loop.inFocus focus = true ∧
        escape? r x = some e :=
  mem_places (g := fun r _ => r.loop.inFocus focus) (f := escape?)

theorem CandidateDomain.mem_conditions {α : Type} {d : CandidateDomain α} {v : List Bool}
    {focus : Option Nat} {i : Nat} {e : Expr} : (i, e) ∈ d.conditions v focus ↔
      ∃ c b, d.candidates[i]? = some c ∧ v[i]? = some b ∧ (b && c.loop.inFocus focus) = true ∧
        some (refutation c) = some e :=
  mem_places (g := fun c b => b && c.loop.inFocus focus) (f := fun c _ => some (refutation c))

theorem CandidateDomain.mem_alive {α : Type} {d : CandidateDomain α} {v : List Bool}
    {c : Candidate α} : c ∈ d.alive v ↔ (c, true) ∈ d.candidates.zip v := by
  simp [alive, List.mem_filterMap]

theorem TemplateRow.holds_constraint (r : TemplateRow) (x : RowValue) (ρ : Valuation) :
    (r.constraint x).holds ρ = true ↔ ∀ c ∈ r.clause? x, c.Assumed ρ := by
  cases x with
  | bottom | bound b =>
    simp only [constraint, clause?, Option.mem_some_iff, forall_eq', Clause.Assumed, Expr.holds_imply]
    cases r.loop.preGuard.holds ρ <;> simp
  | top => simp [constraint, clause?]

theorem TemplateRow.kept_of_improvement {r : TemplateRow} {x : RowValue} {ρ : Valuation}
    (h : ∀ e, r.improvement? x = some e → e.holds ρ = false) : ∀ c ∈ r.clause? x, c.Kept ρ := by
  rintro c hc hp
  cases x with
  | bottom =>
    cases hc
    have hfalse := h _ rfl
    exact absurd (hp.symm.trans hfalse) (by simp)
  | bound b =>
    cases hc
    simpa [Expr.exceeds, hp] using h _ rfl
  | top => cases hc

theorem HeapDomain.holds_constraint (r : PointerRow) (x : PointsTo) (ρ : Valuation) :
    (constraint r x).holds ρ = true ↔ ∀ c ∈ clause? r x, c.Assumed ρ := by
  cases x with
  | targets ts =>
    simp only [constraint, clause?, Option.mem_some_iff, forall_eq', Clause.Assumed, Expr.holds_imply]
    cases r.loop.preGuard.holds ρ <;> simp
  | top => simp [constraint, clause?]

theorem HeapDomain.kept_of_escape {r : PointerRow} {x : PointsTo} {ρ : Valuation}
    (h : ∀ e, escape? r x = some e → e.holds ρ = false) : ∀ c ∈ clause? r x, c.Kept ρ := by
  rintro c hc hp
  cases x with
  | targets ts =>
    cases hc
    simpa [hp] using h _ rfl
  | top => cases hc

theorem CandidateDomain.holds_pre {α : Type} (d : CandidateDomain α) (v : List Bool)
    (ρ : Valuation) : (d.pre v).holds ρ = true ↔
      ∀ c ∈ (d.alive v).map Candidate.clause, c.Assumed ρ := by
  have himply : ∀ c : Candidate α, (Expr.imply c.loop.preGuard c.pre).holds ρ = true ↔
      c.clause.Assumed ρ := by
    intro c
    rw [Expr.holds_imply, Clause.Assumed, Candidate.clause]
    cases c.loop.preGuard.holds ρ <;> simp
  simp only [pre, Expr.holds_conj, List.all_map, List.all_eq_true, Function.comp_apply, himply,
    List.forall_mem_map]

theorem CandidateDomain.kept_of_conditions {α : Type} {d : CandidateDomain α} {v : List Bool}
    {focus : Option Nat} {ρ : Valuation} (h : ∀ p ∈ d.conditions v focus, p.2.holds ρ = false) :
    ∀ c ∈ (d.alive v).map Candidate.clause, c.loop.inFocus focus = true → c.Kept ρ := by
  intro c hc hfocus hp
  obtain ⟨k, hk, rfl⟩ := List.mem_map.mp hc
  obtain ⟨i, hi⟩ := List.getElem?_of_mem (mem_alive.mp hk)
  obtain ⟨hk, hb⟩ := List.getElem?_zip_eq_some.mp hi
  have hfalse := h (i, refutation k) (mem_conditions.mpr ⟨k, true, hk, hb, hfocus, rfl⟩)
  have hp' : k.loop.postGuard.holds ρ = true := hp
  simpa [refutation, hp', Candidate.clause] using hfalse

namespace Domain

theorem mem_conditions_product {a b : Domain} {v : a.Value} {w : b.Value} {focus : Option Nat}
    {i : Nat} {c : Expr} : (i, c) ∈ (Domain.product a b).conditions (v, w) focus ↔
      (∃ j, i = 2 * j ∧ (j, c) ∈ a.conditions v focus) ∨
        ∃ j, i = 2 * j + 1 ∧ (j, c) ∈ b.conditions w focus := by
  simp only [conditions, List.mem_append, List.mem_map, Prod.exists, Prod.mk.injEq]
  constructor
  · rintro (⟨j, c, hc, rfl, rfl⟩ | ⟨j, c, hc, rfl, rfl⟩)
    · exact .inl ⟨j, rfl, hc⟩
    · exact .inr ⟨j, rfl, hc⟩
  · rintro (⟨j, rfl, hc⟩ | ⟨j, rfl, hc⟩)
    · exact .inl ⟨j, c, hc, rfl, rfl⟩
    · exact .inr ⟨j, c, hc, rfl, rfl⟩

/-- None of the paths is taken. -/
def unseen {d : Domain} (conds : List Expr) (ps : List (List Bool × d.Value)) : Expr :=
  .negate (.disj (ps.map fun p => pathExpr conds p.1))

theorem holds_unseen {d : Domain} {conds : List Expr} {ps : List (List Bool × d.Value)}
    {ρ : Valuation} : (unseen conds ps).holds ρ = true ↔
      ∀ p ∈ ps, (pathExpr conds p.1).holds ρ = false := by
  simp [unseen]

/-- The rows of a value that is split by paths are those of its paths, and while there is room those
of a path that was not seen before. -/
theorem mem_conditions_paths {d : Domain} {conds : List Expr} {ps : List (List Bool × d.Value)}
    {focus : Option Nat} {i : Nat} {c : Expr} : (i, c) ∈ (Domain.paths d conds).conditions ps focus ↔
      (∃ k path v j e, ps[k]? = some (path, v) ∧ (j, e) ∈ d.conditions v focus ∧
        i = j * stride + k ∧ c = .conj [pathExpr conds path, e]) ∨
      ps.length < newPath ∧ ∃ j e, (j, e) ∈ d.conditions d.start focus ∧
        i = j * stride + newPath ∧ c = .conj [unseen conds ps, e] := by
  rw [conditions, List.mem_append, List.mem_flatMap]
  refine or_congr ⟨?_, ?_⟩ ?_
  · rintro ⟨⟨⟨path, v⟩, k⟩, hk, hc⟩
    obtain ⟨⟨j, e⟩, he, heq⟩ := List.mem_map.mp hc
    cases heq
    exact ⟨k, path, v, j, e, List.mem_zipIdx_iff_getElem?.mp hk, he, rfl, rfl⟩
  · rintro ⟨k, path, v, j, e, hk, he, rfl, rfl⟩
    exact ⟨((path, v), k), List.mem_zipIdx_iff_getElem?.mpr hk, List.mem_map.mpr ⟨(j, e), he, rfl⟩⟩
  · by_cases hroom : ps.length < newPath
    · simp only [hroom, if_true, true_and, List.mem_map, Prod.exists, Prod.mk.injEq]
      constructor
      · rintro ⟨j, e, he, rfl, rfl⟩
        exact ⟨j, e, he, rfl, rfl⟩
      · rintro ⟨j, e, he, rfl, rfl⟩
        exact ⟨j, e, he, rfl, rfl⟩
    · simp [hroom]

theorem holds_pre {d : Domain} (hd : d.Relational) (v : d.Value) (ρ : Valuation) :
    (d.pre v).holds ρ = true ↔ ∀ c ∈ d.clauses v, c.Assumed ρ := by
  induction d with
  | template d =>
    simp only [pre, TemplateDomain.pre, clauses, Expr.holds_conj, List.all_map, List.all_eq_true,
      Function.comp_apply, TemplateRow.holds_constraint, List.mem_filterMap]
    exact ⟨fun h c ⟨p, hp, hc⟩ => h p hp c hc, fun h p hp c hc => h c ⟨p, hp, hc⟩⟩
  | heap d =>
    simp only [pre, HeapDomain.pre, clauses, Expr.holds_conj, List.all_map, List.all_eq_true,
      Function.comp_apply, HeapDomain.holds_constraint, List.mem_filterMap]
    exact ⟨fun h c ⟨p, hp, hc⟩ => h p hp c hc, fun h p hp c hc => h c ⟨p, hp, hc⟩⟩
  | equalities d | predicates d => exact CandidateDomain.holds_pre d v ρ
  | product a b iha ihb =>
    obtain ⟨v, w⟩ := v
    simp [pre, clauses, iha hd.1, ihb hd.2, or_imp, forall_and]
  | ranking | paths => exact hd.elim

/-- Where no condition holds, the clauses in focus are kept. -/
theorem kept_of_conditions {d : Domain} (hd : d.Relational) {v : d.Value} {focus : Option Nat}
    {ρ : Valuation} (h : ∀ p ∈ d.conditions v focus, p.2.holds ρ = false) :
    ∀ c ∈ d.clauses v, c.loop.inFocus focus = true → c.Kept ρ := by
  induction d with
  | template d =>
    intro c hc hfocus
    obtain ⟨⟨r, x⟩, hmem, hc⟩ := List.mem_filterMap.mp hc
    obtain ⟨i, hi⟩ := List.getElem?_of_mem hmem
    obtain ⟨hr, hx⟩ := List.getElem?_zip_eq_some.mp hi
    have hloop : c.loop = r.loop := by cases x <;> cases hc <;> rfl
    rw [hloop] at hfocus
    exact TemplateRow.kept_of_improvement
      (fun e he => h (i, e) (TemplateDomain.mem_conditions.mpr ⟨r, x, hr, hx, hfocus, he⟩)) c hc
  | heap d =>
    intro c hc hfocus
    obtain ⟨⟨r, x⟩, hmem, hc⟩ := List.mem_filterMap.mp hc
    obtain ⟨i, hi⟩ := List.getElem?_of_mem hmem
    obtain ⟨hr, hx⟩ := List.getElem?_zip_eq_some.mp hi
    have hloop : c.loop = r.loop := by cases x <;> cases hc; rfl
    rw [hloop] at hfocus
    exact HeapDomain.kept_of_escape
      (fun e he => h (i, e) (HeapDomain.mem_conditions.mpr ⟨r, x, hr, hx, hfocus, he⟩)) c hc
  | equalities d | predicates d => exact CandidateDomain.kept_of_conditions h
  | product a b iha ihb =>
    obtain ⟨v, w⟩ := v
    intro c hc hfocus
    have hleft : ∀ p ∈ a.conditions v focus, p.2.holds ρ = false := fun p hp =>
      h (2 * p.1, p.2) (mem_conditions_product.mpr (.inl ⟨p.1, rfl, hp⟩))
    have hright : ∀ p ∈ b.conditions w focus, p.2.holds ρ = false := fun p hp =>
      h (2 * p.1 + 1, p.2) (mem_conditions_product.mpr (.inr ⟨p.1, rfl, hp⟩))
    rcases List.mem_append.mp hc with hc | hc
    · exact iha hd.1 hleft c hc hfocus
    · exact ihb hd.2 hright c hc hfocus
  | ranking | paths => exact hd.elim

end Domain

/-- An expression over integer variables of a loop. -/
def Expr.Over (l : LoopTemplate) (e : Expr) : Prop :=
  ∀ p ∈ e.occurrences, p.2 = .int ∧ ∃ x ∈ l.vars, x.lb = p.1

theorem mem_pairs {α : Type} {xs : List α} {p : α × α} (h : p ∈ pairs xs) :
    p.1 ∈ xs ∧ p.2 ∈ xs := by
  induction xs with
  | nil => cases h
  | cons x xs ih =>
    rcases List.mem_append.mp h with h | h
    · obtain ⟨y, hy, rfl⟩ := List.mem_map.mp h
      exact ⟨List.mem_cons_self, List.mem_cons_of_mem _ hy⟩
    · exact ⟨List.mem_cons_of_mem _ (ih h).1, List.mem_cons_of_mem _ (ih h).2⟩

section exprs

variable {l : LoopTemplate} {x y : LoopVar}

theorem Expr.over_intVar (hx : x ∈ l.vars) : (Expr.intVar x.lb).Over l := by
  intro p hp
  obtain rfl : p = (x.lb, .int) := by simpa [Expr.intVar, Expr.occurrences] using hp
  exact ⟨rfl, x, hx, rfl⟩

theorem Expr.Over.append {e a b : Expr} (ha : a.Over l) (hb : b.Over l)
    (h : e.occurrences = a.occurrences ++ b.occurrences) : e.Over l := by
  intro p hp
  rw [h] at hp
  rcases List.mem_append.mp hp with hp | hp
  · exact ha p hp
  · exact hb p hp

theorem TemplateShape.mem_exprs {shape : TemplateShape} {withheld : NameSet} {vars : List LoopVar}
    {e : Expr} (h : e ∈ shape.exprs withheld vars) :
    (∃ x ∈ vars, e = .intVar x.lb ∨ e = .opposite (.intVar x.lb)) ∨
      ∃ x ∈ vars, ∃ y ∈ vars, e ∈ relations .octagons x y := by
  rcases List.mem_append.mp h with h | h
  · obtain ⟨x, hx, he⟩ := List.mem_flatMap.mp h
    rw [boundsOf] at he
    split at he
    · cases he
    · exact .inl ⟨x, hx, by simpa using he⟩
  · obtain ⟨⟨x, y⟩, hxy, he⟩ := List.mem_flatMap.mp h
    refine .inr ⟨x, (mem_pairs hxy).1, y, (mem_pairs hxy).2, ?_⟩
    cases shape with
    | intervals => cases he
    | zones => exact List.mem_append_left _ he
    | octagons => exact he

theorem TemplateShape.over_exprs {shape : TemplateShape} {withheld : NameSet} {vars : List LoopVar}
    (hvars : ∀ x ∈ vars, x ∈ l.vars) {e : Expr} (h : e ∈ shape.exprs withheld vars) : e.Over l := by
  rcases mem_exprs h with ⟨x, hx, rfl | rfl⟩ | ⟨x, hx, y, hy, he⟩
  · exact Expr.over_intVar (hvars x hx)
  · exact Expr.over_intVar (hvars x hx)
  · have hx := Expr.over_intVar (hvars x hx)
    have hy := Expr.over_intVar (hvars y hy)
    simp only [relations, List.mem_cons, List.not_mem_nil, or_false] at he
    rcases he with rfl | rfl | rfl | rfl
    · exact hx.append hy rfl
    · exact hy.append hx rfl
    · exact hx.append hy rfl
    · exact hx.append hy rfl

theorem PredicateDomain.over_inequalities (hvars : ∀ x ∈ l.intVars, x ∈ l.vars) {e : Expr}
    (h : e ∈ inequalities (l.intVars.map fun x => .intVar x.lb)) : e.Over l := by
  have hover : ∀ a ∈ l.intVars.map (fun x => Expr.intVar x.lb), a.Over l := by
    intro a ha
    obtain ⟨x, hx, rfl⟩ := List.mem_map.mp ha
    exact Expr.over_intVar (hvars x hx)
  rcases List.mem_append.mp h with h | h
  · obtain ⟨a, ha, rfl⟩ := List.mem_map.mp h
    exact hover a ha
  · obtain ⟨⟨a, b⟩, hab, he⟩ := List.mem_flatMap.mp h
    have ha := hover a (mem_pairs hab).1
    have hb := hover b (mem_pairs hab).2
    obtain rfl | rfl : e = .le a b ∨ e = .le b a := by simpa using he
    · exact ha.append hb rfl
    · exact hb.append ha rfl

end exprs

namespace LoopTemplate

variable {l : LoopTemplate} {s : LoopSystem} {ρ ρ' : Valuation}

theorem mem_of_mem_intVars {x : LoopVar} (h : x ∈ l.intVars) : x ∈ l.vars :=
  (List.mem_filter.mp h).1

theorem Declared.sortOf_of_checkSort (hl : l.Declared s.declared) {e : Expr} {sort : ValueSort}
    (hover : e.Over l) (hcheck : s.checkSort e sort = .ok ()) :
    ∀ p ∈ e.occurrences, ∀ x ∈ l.vars, x.lb = p.1 → l.sortOf x = p.2 := by
  intro p hp x hx hn
  obtain ⟨t, ht, hocc⟩ := Expr.mem_symbols hp
  have hdeclared := (LoopSystem.checkSort_iff.mp hcheck).2 _ ht
  rw [show (p.1, t).1 = x.lb from hn.symm, hl.sortOf_eq hx, Option.getD_some,
    (hover _ hocc).1] at hdeclared
  rw [hdeclared, (hover p hp).1]

theorem Flows.value_post (h : l.Flows ρ ρ') (hl : l.Declared s.declared) {e : Expr}
    {sort : ValueSort} (hover : e.Over l) (hcheck : s.checkSort e sort = .ok ()) :
    (e.substitute l.postMap).value ρ = e.value ρ' :=
  h.value_substitute (fun p hp => (hover p hp).2) (hl.sortOf_of_checkSort hover hcheck)

end LoopTemplate

section build

variable {ps : List Procedure} {range : Int × Int}

/-- The row belongs to one of the loops, its value flows back, and it is read off the declared
variables. -/
structure TemplateRow.Carried (r : TemplateRow) (s : LoopSystem) : Prop where
  mem : r.loop ∈ s.loops
  flow : ∀ {ρ ρ' : Valuation}, r.loop.Flows ρ ρ' → r.post.value ρ = r.expr.value ρ'
  reads : ∀ {ρ ρ' : Valuation}, (∀ n, (s.declared n).isSome = true → ρ n = ρ' n) →
    r.loop.postGuard.value ρ = r.loop.postGuard.value ρ' ∧ r.post.value ρ = r.post.value ρ'

theorem LoopSystem.mem_rows {s : LoopSystem} {shape : TemplateShape} {withheld : NameSet}
    {rows : List TemplateRow} (h : s.rows shape withheld = .ok rows) :
    ∀ r ∈ rows, r.loop ∈ s.loops ∧ r.expr ∈ shape.exprs withheld r.loop.intVars ∧
      s.row? r.loop r.expr = .ok (some r) := by
  obtain ⟨lists, hlists, h⟩ := Except.exists_of_bind_ok h
  cases h
  intro r hr
  obtain ⟨r', hr', heq⟩ := List.mem_filterMap.mp hr
  cases heq
  obtain ⟨rs, hrs, hmem⟩ := List.mem_flatten.mp hr'
  obtain ⟨l, hl, hrow⟩ := mem_of_mapM_ok hlists rs hrs
  obtain ⟨e, he, hrow⟩ := mem_of_mapM_ok hrow _ hmem
  have hparts : r.loop = l ∧ r.expr = e := by
    obtain ⟨-, -, h⟩ := Except.exists_of_bind_ok hrow
    obtain ⟨-, -, h⟩ := Except.exists_of_bind_ok h
    obtain ⟨form, -, rfl⟩ := Option.map_eq_some_iff.mp (Except.ok.inj h)
    exact ⟨rfl, rfl⟩
  rw [hparts.1, hparts.2]
  exact ⟨hl, he, hrow⟩

theorem LoopSystem.row?_ok {s : LoopSystem} {l : LoopTemplate} {e : Expr} {r : TemplateRow}
    (h : s.row? l e = .ok (some r)) :
    s.checkSort e .int = .ok () ∧ s.checkSort r.post .int = .ok () ∧
      r.post = e.substitute l.postMap ∧ e.linearForm? = some r.form := by
  obtain ⟨⟨⟩, hpre, h⟩ := Except.exists_of_bind_ok h
  obtain ⟨⟨⟩, hpost, h⟩ := Except.exists_of_bind_ok h
  obtain ⟨form, hform, rfl⟩ := Option.map_eq_some_iff.mp (Except.ok.inj h)
  exact ⟨hpre, hpost, rfl, hform⟩

theorem LoopSystem.row_carried {shape : TemplateShape} {withheld : NameSet}
    {rows : List TemplateRow} (h : (ofProcedures ps).rows shape withheld = .ok rows) :
    ∀ r ∈ rows, r.Carried (ofProcedures ps) := by
  intro r hr
  obtain ⟨hmem, hexpr, hrow⟩ := mem_rows h r hr
  obtain ⟨hcheck, -, hpost, -⟩ := row?_ok hrow
  have hdeclared := loop_declared hmem
  have hover := TemplateShape.over_exprs (fun _ => LoopTemplate.mem_of_mem_intVars) hexpr
  refine ⟨hmem, fun hflow => ?_, fun hsame => ⟨?_, ?_⟩⟩
  · rw [hpost]
    exact hflow.value_post hdeclared hover hcheck
  · exact hdeclared.value_guard hsame
  · rw [hpost]
    exact LoopTemplate.value_substitute_congr (fun p hp => (hover p hp).2)
      fun x hx => hdeclared.value_post hsame hx

/-- All clauses of all values are carried around the loops. -/
def Domain.Carries (d : Domain) (s : LoopSystem) (range : Int × Int) : Prop :=
  ∀ v : d.Value, ∀ c ∈ d.clauses v, c.Carried s range

theorem TemplateDomain.carries {d : TemplateDomain} {shape : TemplateShape} {withheld : NameSet}
    {bounds : Int × Int} (h : ofLoops (.ofProcedures ps) shape withheld bounds = .ok d) :
    (Domain.template d).Carries (.ofProcedures ps) range := by
  obtain ⟨rows, hrows, h⟩ := Except.exists_of_bind_ok h
  cases h
  intro v c hc
  obtain ⟨⟨r, x⟩, hmem, hc⟩ := List.mem_filterMap.mp hc
  obtain ⟨hloop, hflow, -⟩ := LoopSystem.row_carried hrows r (List.of_mem_zip hmem).1
  cases x with
  | bottom =>
    cases hc
    exact ⟨hloop, fun _ _ hpost => absurd hpost (by simp)⟩
  | bound b =>
    cases hc
    refine ⟨hloop, fun {ρ ρ'} _ hf hpost => ?_⟩
    have hnumber : r.post.number ρ = r.expr.number ρ' := congrArg Value.number (hflow hf)
    simp only [Expr.holds_le, Expr.number_int] at hpost ⊢
    rwa [← hnumber]
  | top => cases hc

theorem HeapDomain.carries (maxTargets : Nat) :
    (Domain.heap (ofLoops (.ofProcedures ps) maxTargets)).Carries (.ofProcedures ps) range := by
  intro v c hc
  obtain ⟨⟨r, x⟩, hmem, hc⟩ := List.mem_filterMap.mp hc
  obtain ⟨l, hl, hr⟩ := List.mem_flatMap.mp (List.of_mem_zip hmem).1
  obtain ⟨y, hy, rfl⟩ := List.mem_map.mp hr
  have hyl : y ∈ l.vars := (List.mem_filter.mp hy).1
  have hdeclared := (LoopSystem.loop_declared hl).sortOf_eq hyl
  cases x with
  | targets ts =>
    cases hc
    refine ⟨hl, fun {ρ ρ'} hρ hf hpost => ?_⟩
    have hvalue := hf.vars y hyl
    have hwithin := hρ y.lb (l.sortOf y)
    rw [hdeclared, Option.getD_some] at hwithin
    simp only [pointsTo, Expr.holds_disj, List.any_map, List.any_eq_true, Function.comp_apply,
      Expr.holds_eq, decide_eq_true_eq] at hpost ⊢
    obtain ⟨t, ht, heq⟩ := hpost
    have hint : ρ' y.lb (l.sortOf y) = .int t := by
      rw [← hvalue, heq, Expr.value]
    rw [hint] at hwithin
    refine ⟨t, ht, ?_⟩
    rw [Expr.intVar, Expr.value, Expr.value, ← hint, hwithin.1]
  | top => cases hc

theorem CandidateDomain.checked_ok {α : Type} {s : LoopSystem} {cs : List (Candidate α)}
    {d : CandidateDomain α} (h : checked s cs = .ok d) :
    d.candidates = cs ∧
      ∀ c ∈ cs, s.checkSort c.pre .bool = .ok () ∧ s.checkSort c.post .bool = .ok () := by
  obtain ⟨⟨⟩, hall, h⟩ := Except.exists_of_bind_ok h
  cases h
  refine ⟨rfl, fun c hc => ?_⟩
  obtain ⟨⟨⟩, hpre, hpost⟩ := Except.exists_of_bind_ok (ok_of_forM_ok hall c hc)
  exact ⟨hpre, hpost⟩

section loops

variable {s : LoopSystem}

theorem TemplateDomain.over_loops {d : TemplateDomain} {shape : TemplateShape} {withheld : NameSet}
    {bounds : Int × Int} (h : ofLoops s shape withheld bounds = .ok d) :
    ∀ r ∈ d.rows, r.loop ∈ s.loops ∧ r.expr.Over r.loop := by
  obtain ⟨rows, hrows, h⟩ := Except.exists_of_bind_ok h
  cases h
  intro r hr
  obtain ⟨hl, hexpr, -⟩ := LoopSystem.mem_rows hrows r hr
  exact ⟨hl, TemplateShape.over_exprs (fun _ => LoopTemplate.mem_of_mem_intVars) hexpr⟩

theorem HeapDomain.over_loops {maxTargets : Nat} :
    ∀ r ∈ (ofLoops s maxTargets).rows, r.loop ∈ s.loops ∧ (Expr.intVar r.lb).Over r.loop := by
  intro r hr
  obtain ⟨l, hl, hr⟩ := List.mem_flatMap.mp hr
  obtain ⟨x, hx, rfl⟩ := List.mem_map.mp hr
  exact ⟨hl, Expr.over_intVar (List.mem_filter.mp hx).1⟩

theorem EqualityDomain.over_loops {d : EqualityDomain} (h : ofLoops s = .ok d) :
    ∀ c ∈ d.candidates, c.loop ∈ s.loops ∧ c.pre.Over c.loop := by
  intro c hc
  rw [(CandidateDomain.checked_ok h).1] at hc
  obtain ⟨l, hl, hc⟩ := List.mem_flatMap.mp hc
  obtain ⟨p, hp, rfl⟩ := List.mem_map.mp hc
  have hx := Expr.over_intVar (LoopTemplate.mem_of_mem_intVars (mem_pairs hp).1)
  have hy := Expr.over_intVar (LoopTemplate.mem_of_mem_intVars (mem_pairs hp).2)
  exact ⟨hl, hx.append hy rfl⟩

theorem PredicateDomain.over_loops {d : PredicateDomain} (h : ofLoops s = .ok d) :
    ∀ c ∈ d.candidates, c.loop ∈ s.loops ∧ c.pre.Over c.loop := by
  intro c hc
  rw [(CandidateDomain.checked_ok h).1] at hc
  obtain ⟨l, hl, hc⟩ := List.mem_flatMap.mp hc
  obtain ⟨e, he, rfl⟩ := List.mem_map.mp hc
  exact ⟨hl, over_inequalities (fun _ => LoopTemplate.mem_of_mem_intVars) he⟩

end loops

theorem EqualityDomain.carries {d : EqualityDomain} (h : ofLoops (.ofProcedures ps) = .ok d) :
    (Domain.equalities d).Carries (.ofProcedures ps) range := by
  obtain ⟨hcs, hcheck⟩ := CandidateDomain.checked_ok h
  intro v c hc
  obtain ⟨k, hk, rfl⟩ := List.mem_map.mp hc
  have hmem := (List.of_mem_zip (CandidateDomain.mem_alive.mp hk)).1
  rw [hcs] at hmem
  have hcheck := (hcheck k hmem).1
  obtain ⟨l, hl, hk⟩ := List.mem_flatMap.mp hmem
  obtain ⟨⟨x, y⟩, hxy, rfl⟩ := List.mem_map.mp hk
  have hx := LoopTemplate.mem_of_mem_intVars (mem_pairs hxy).1
  have hy := LoopTemplate.mem_of_mem_intVars (mem_pairs hxy).2
  have hsort := (LoopSystem.loop_declared hl).sortOf_of_checkSort
    ((Expr.over_intVar hx).append (Expr.over_intVar hy) rfl) hcheck
  refine ⟨hl, fun {ρ ρ'} _ hf hpost => ?_⟩
  have hx' : x.post.value ρ = (Expr.intVar x.lb).value ρ' := by
    rw [hf.vars x hx, Expr.intVar, Expr.value]
    exact congrArg (ρ' x.lb) (hsort (x.lb, .int) (by simp [Expr.occurrences, Expr.intVar]) x hx rfl)
  have hy' : y.post.value ρ = (Expr.intVar y.lb).value ρ' := by
    rw [hf.vars y hy, Expr.intVar, Expr.value]
    exact congrArg (ρ' y.lb) (hsort (y.lb, .int) (by simp [Expr.occurrences, Expr.intVar]) y hy rfl)
  simp only [Candidate.clause, Expr.holds_eq] at hpost ⊢
  rwa [← hx', ← hy']

theorem PredicateDomain.carries {d : PredicateDomain} (h : ofLoops (.ofProcedures ps) = .ok d) :
    (Domain.predicates d).Carries (.ofProcedures ps) range := by
  obtain ⟨hcs, hcheck⟩ := CandidateDomain.checked_ok h
  intro v c hc
  obtain ⟨k, hk, rfl⟩ := List.mem_map.mp hc
  have hmem := (List.of_mem_zip (CandidateDomain.mem_alive.mp hk)).1
  obtain ⟨hl, hover⟩ := over_loops h k hmem
  rw [hcs] at hmem
  have hcheck := (hcheck k hmem).1
  obtain ⟨l, -, hk⟩ := List.mem_flatMap.mp hmem
  obtain ⟨e, -, rfl⟩ := List.mem_map.mp hk
  refine ⟨hl, fun {ρ ρ'} _ hf hpost => ?_⟩
  have hvalue := hf.value_post (LoopSystem.loop_declared hl) hover hcheck
  show (e.value ρ').truth = true
  rw [← hvalue]
  exact hpost

theorem Domain.Carries.product {s : LoopSystem} {a b : Domain} (ha : a.Carries s range)
    (hb : b.Carries s range) : (Domain.product a b).Carries s range := by
  rintro ⟨v, w⟩ c hc
  rcases List.mem_append.mp hc with hc | hc
  · exact ha v c hc
  · exact hb w c hc

theorem Method.relational_of_config {config : Config} {s : LoopSystem} {bounds : Int × Int}
    {m : Method} (hs : s = .ofProcedures ps) (h : ofConfig config s bounds = .ok m)
    (hrank : ∀ b, config.domain ≠ .ranking b) (hpaths : ∀ s, config.domain ≠ .heapTemplate s true) :
    m.domain.Relational ∧ m.domain.Carries s range := by
  subst hs
  rw [ofConfig] at h
  split at h
  · rename_i b hb
    exact absurd hb (hrank b)
  · obtain ⟨d, hd, h⟩ := Except.exists_of_bind_ok h
    cases h
    exact ⟨trivial, EqualityDomain.carries hd⟩
  · obtain ⟨d, hd, h⟩ := Except.exists_of_bind_ok h
    cases h
    exact ⟨trivial, PredicateDomain.carries hd⟩
  · cases h
    exact ⟨trivial, HeapDomain.carries _⟩
  · rename_i shape paths hconfig
    obtain ⟨d, hd, h⟩ := Except.exists_of_bind_ok h
    cases paths with
    | true => exact absurd hconfig (hpaths shape)
    | false =>
      cases h
      exact ⟨⟨trivial, trivial⟩, (HeapDomain.carries _).product (TemplateDomain.carries hd)⟩
  · obtain ⟨d, hd, h⟩ := Except.exists_of_bind_ok h
    cases h
    exact ⟨trivial, TemplateDomain.carries hd⟩
  · obtain ⟨d, hd, h⟩ := Except.exists_of_bind_ok h
    cases h
    exact ⟨trivial, TemplateDomain.carries hd⟩

end build

end InvariantSynthesis
