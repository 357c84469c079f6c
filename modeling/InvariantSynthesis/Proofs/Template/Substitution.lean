import InvariantSynthesis.Proofs.Domain.Clause
import InvariantSynthesis.Proofs.Expr.Eval
import InvariantSynthesis.Proofs.Expr.Occurrence

namespace InvariantSynthesis

namespace Model

variable {m m' : Model} {e : Expr}

def rebind (m : Model) (n : String) : Option Value → Model
  | some v => m.insert n v
  | none => m.restrict (· != n)

theorem get?_rebind (m : Model) (n x : String) (v : Option Value) :
    (m.rebind n v).get? x = if x = n then v else m.get? x := by
  cases v with
  | some v => exact Table.get?_insert m n x v
  | none =>
    rw [rebind, get?_restrict]
    by_cases hx : x = n
    · simp [hx]
    · simp [hx]

/-- The model in which each name of a substitution has the value of the expression put in for it. -/
def assign (m : Model) (t : Table Expr) : Model :=
  t.entries.foldl (fun m' p => m'.rebind p.1 (m.eval p.2)) m

theorem get?_foldl_rebind {entries : List (String × Expr)}
    (hsorted : entries.Pairwise fun p q => p.1 < q.1) (m' : Model) (x : String) :
    (entries.foldl (fun m' p => m'.rebind p.1 (m.eval p.2)) m').get? x =
      (Table.find x entries).elim (m'.get? x) m.eval := by
  induction entries generalizing m' with
  | nil => rfl
  | cons p rest ih =>
    obtain ⟨hp, hrest⟩ := List.pairwise_cons.mp hsorted
    rw [List.foldl_cons, ih hrest, get?_rebind, Table.find]
    by_cases hx : x = p.1
    · -- The names increase, so the rest does not bind this name again.
      rw [Table.find_eq_none fun q hq => hx ▸ hp q hq, if_pos hx, if_pos hx]
      rfl
    · rw [if_neg hx, if_neg hx]

theorem get?_assign (m : Model) (t : Table Expr) (x : String) :
    (m.assign t).get? x = (t.get? x).elim (m.get? x) m.eval :=
  get?_foldl_rebind t.sorted m x

theorem eval_substitute (m : Model) (t : Table Expr) (e : Expr) :
    m.eval (e.substitute t) = (m.assign t).eval e := by
  refine eval_bind fun p _ => ?_
  rw [get?_assign]
  cases t.get? p.1 with
  | some a => rfl
  | none => rw [Option.elim_none, Option.getD_none, eval]

end Model

namespace LoopTemplate

variable {l : LoopTemplate} {m m' : Model}

/-- The values of the first model flow back to the second. Of variables with one name the last one
decides. -/
def FeedsBack (l : LoopTemplate) (m m' : Model) : Prop :=
  ∀ before x after, l.vars = before ++ x :: after → (∀ y ∈ after, y.lb ≠ x.lb) →
    m'.get? x.lb = m.eval x.post

theorem get?_postMap_iff {n : String} {post : Expr} : l.postMap.get? n = some post ↔
    ∃ before x after, l.vars = before ++ x :: after ∧ (∀ y ∈ after, y.lb ≠ x.lb) ∧
      x.lb = n ∧ x.post = post := by
  rw [postMap, Table.get?_ofList_eq, List.lookup_eq_some_iff]
  constructor
  · rintro ⟨later, earlier, hvars, hlater⟩
    rw [List.reverse_eq_iff, List.reverse_append, List.reverse_cons, List.append_assoc,
      List.map_eq_append_iff] at hvars
    obtain ⟨before, rest, hvars, -, hrest⟩ := hvars
    obtain ⟨x, after, rfl, hx, hafter⟩ := List.map_eq_cons_iff.mp hrest
    obtain ⟨hlb, hpost⟩ := Prod.mk.inj hx
    refine ⟨before, x, after, hvars, fun y hy heq => ?_, hlb, hpost⟩
    have hmem : (y.lb, y.post) ∈ later.reverse := by
      have hy' := List.mem_map_of_mem (f := fun v : LoopVar => (v.lb, v.post)) hy
      rwa [hafter] at hy'
    exact absurd (hlb.symm.trans heq.symm) (by simpa using hlater _ (List.mem_reverse.mp hmem))
  · rintro ⟨before, x, after, hvars, hafter, rfl, rfl⟩
    refine ⟨(after.map fun v => (v.lb, v.post)).reverse, (before.map fun v => (v.lb, v.post)).reverse,
      by simp [hvars], fun p hp => ?_⟩
    obtain ⟨y, hy, rfl⟩ := List.mem_map.mp (List.mem_reverse.mp hp)
    simpa using (hafter y hy).symm

theorem feedsBack_assign (l : LoopTemplate) (m : Model) : l.FeedsBack m (m.assign l.postMap) := by
  intro before x after hvars hafter
  rw [Model.get?_assign, get?_postMap_iff.mpr ⟨before, x, after, hvars, hafter, rfl, rfl⟩,
    Option.elim_some]

theorem FeedsBack.eval_substitute (h : l.FeedsBack m m') {e : Expr} (hover : e.Over l) :
    m.eval (e.substitute l.postMap) = m'.eval e := by
  refine Model.eval_bind fun p hp => ?_
  obtain ⟨x, -, -, hpost⟩ := get?_postMap (hover p hp).2
  obtain ⟨before, y, after, hvars, hafter, hn, heq⟩ := get?_postMap_iff.mp hpost
  rw [hpost, Option.getD_some, ← hn, h before y after hvars hafter, heq]

end LoopTemplate

/-- To substitute and evaluate is to evaluate with the values of what is substituted, and the
substituted side of every row evaluates to what the row evaluates to after the values have flowed
back. -/
theorem Model.substitution_commutes_with_evaluation (m : Model) :
    (∀ t e, (∀ x, (m.assign t).get? x = (t.get? x).elim (m.get? x) m.eval) ∧
      m.eval (e.substitute t) = (m.assign t).eval e) ∧
    ∀ (s : LoopSystem) shape withheld rows, s.rows shape withheld = .ok rows → ∀ r ∈ rows,
      (∃ m', r.loop.FeedsBack m m') ∧
      ∀ m', r.loop.FeedsBack m m' → m.eval r.post = m'.eval r.expr := by
  refine ⟨fun t e => ⟨get?_assign m t, eval_substitute m t e⟩, ?_⟩
  intro s shape withheld rows hrows r hr
  obtain ⟨-, hexpr, hrow⟩ := LoopSystem.mem_rows hrows r hr
  obtain ⟨-, -, hpost, -⟩ := LoopSystem.row?_ok hrow
  refine ⟨⟨_, r.loop.feedsBack_assign m⟩, fun m' hm' => ?_⟩
  rw [hpost]
  exact hm'.eval_substitute
    (TemplateShape.over_exprs (fun _ => LoopTemplate.mem_of_mem_intVars) hexpr)

/-- A loop that exchanges its variables in every turn. -/
def LoopTemplate.exchange : LoopTemplate where
  id := 0
  back := 2
  head := 1
  preGuard := .bool true
  postGuard := .bool true
  vars := [⟨"x#lb2", .intVar "y#lb2", false⟩, ⟨"y#lb2", .intVar "x#lb2", false⟩]
  pathConds := []
  sorts := .ofList [("x#lb2", .int), ("y#lb2", .int)]

def Model.ofPair (x y : Int) : Model := .ofList [("x#lb2", .int x), ("y#lb2", .int y)]

/-- Each variable is put in for the other at once, so the difference changes its sign. -/
theorem Model.substitution_commutes_with_evaluation_exchange : ∃ rows r,
    LoopSystem.rows ⟨[.exchange], LoopTemplate.exchange.sorts⟩ .zones .empty = .ok rows ∧ r ∈ rows ∧
      r.expr = .sub (.intVar "x#lb2") (.intVar "y#lb2") ∧ r.loop.FeedsBack (ofPair 3 5) (ofPair 5 3) ∧
      (ofPair 3 5).eval r.expr = some (.int (-2)) ∧ (ofPair 5 3).eval r.expr = some (.int 2) ∧
      (ofPair 3 5).eval r.post = (ofPair 5 3).eval r.expr := by
  obtain ⟨rows, hrows⟩ : ∃ rows,
      LoopSystem.rows ⟨[.exchange], LoopTemplate.exchange.sorts⟩ .zones .empty = .ok rows := ⟨_, rfl⟩
  obtain ⟨r, hr, hexpr, hloop⟩ : ∃ r ∈ rows,
      r.expr = .sub (.intVar "x#lb2") (.intVar "y#lb2") ∧ r.loop = .exchange := by
    cases hrows
    exact ⟨_, List.mem_of_getElem? (i := 4) rfl, rfl, rfl⟩
  have hfeeds : r.loop.FeedsBack (ofPair 3 5) (ofPair 5 3) := by
    rw [hloop]
    have hvalues : ∀ x ∈ LoopTemplate.exchange.vars,
        (ofPair 5 3).get? x.lb = (ofPair 3 5).eval x.post := by decide +kernel
    exact fun before x after hvars _ => hvalues x (hvars ▸ by simp)
  have hcommutes := (substitution_commutes_with_evaluation (ofPair 3 5)).2 _ _ _ rows hrows r hr
  refine ⟨rows, r, hrows, hr, hexpr, hfeeds, ?_, ?_, hcommutes.2 _ hfeeds⟩
  · rw [hexpr]
    decide +kernel
  · rw [hexpr]
    decide +kernel

end InvariantSynthesis
