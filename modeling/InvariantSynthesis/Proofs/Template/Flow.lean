import InvariantSynthesis.Proofs.Oracle.Contract
import InvariantSynthesis.Proofs.Table
import InvariantSynthesis.Template.Row

namespace InvariantSynthesis

theorem Expr.mem_symbols {e : Expr} {p : TypedName} (h : p ∈ e.occurrences) :
    ∃ s, (p.1, s) ∈ e.symbols.entries ∧ (p.1, s) ∈ e.occurrences := by
  obtain ⟨s, hs, hmem⟩ := Table.get?_ofList h
  exact ⟨s, Table.mem_of_find hs, hmem⟩

theorem lookup_isSome {l : List TypedName} {n : String} {s : ValueSort} (h : (n, s) ∈ l) :
    (l.lookup n).isSome = true := by
  rw [List.lookup_isSome_iff]
  exact ⟨(n, s), h, by simp⟩

namespace Procedure

theorem foldl_addNew_eq (l known : List TypedName) :
    ∃ others, l.foldl addNew known = known ++ others ∧ (others.map (·.1)).Nodup ∧
      ∀ n, n ∈ others.map (·.1) ↔ n ∉ known.map (·.1) ∧ n ∈ l.map (·.1) := by
  induction l generalizing known with
  | nil => exact ⟨[], by simp⟩
  | cons v l ih =>
    have hany : known.any (·.1 = v.1) = true ↔ v.1 ∈ known.map (·.1) := by simp
    by_cases hv : v.1 ∈ known.map (·.1)
    · obtain ⟨others, hfold, hnodup, hmem⟩ := ih known
      refine ⟨others, ?_, hnodup, fun n => (hmem n).trans (and_congr_right fun hn => ?_)⟩
      · rw [List.foldl_cons, addNew, if_pos (hany.mpr hv), hfold]
      · have hne : n ≠ v.1 := fun h => hn (h ▸ hv)
        rw [List.map_cons, List.mem_cons, or_iff_right hne]
    · obtain ⟨others, hfold, hnodup, hmem⟩ := ih (known ++ [v])
      refine ⟨v :: others, ?_, ?_, fun n => ?_⟩
      · rw [List.foldl_cons, addNew, if_neg (fun h => hv (hany.mp h)), hfold, List.append_assoc]
        rfl
      · apply List.nodup_cons.mpr
        refine ⟨fun h => ?_, hnodup⟩
        exact ((hmem v.1).mp h).1 (by simp)
      · by_cases hn : n = v.1
        · subst hn
          simpa using hv
        · rw [List.map_cons, List.mem_cons, or_iff_right hn, hmem]
          simp [hn]

/-- The inputs are listed as they are given, and behind them every other name of a block once. -/
theorem symbols_eq (p : Procedure) :
    ∃ others, p.symbols = p.inputs ++ others ∧ (others.map (·.1)).Nodup ∧
      ∀ n, n ∈ others.map (·.1) ↔
        n ∉ p.inputs.map (·.1) ∧ ∃ b ∈ p.blocks, n ∈ b.mentions.map (·.1) := by
  obtain ⟨others, hsymbols, hnodup, hmem⟩ :=
    foldl_addNew_eq (p.blocks.flatMap Block.mentions) p.inputs
  refine ⟨others, hsymbols, hnodup, fun n => ?_⟩
  rw [hmem, List.map_flatMap, List.mem_flatMap]

theorem mem_symbols {p : Procedure} {b : Block} {n : String} {s : ValueSort} (hb : b ∈ p.blocks)
    (h : (n, s) ∈ b.mentions) : ∃ t, (n, t) ∈ p.symbols := by
  obtain ⟨others, hsymbols, -, hmem⟩ := p.symbols_eq
  have hname : n ∈ p.symbols.map (·.1) := by
    rw [hsymbols, List.map_append, List.mem_append]
    by_cases hn : n ∈ p.inputs.map (·.1)
    · exact .inl hn
    · exact .inr ((hmem n).mpr ⟨hn, b, hb, List.mem_map.mpr ⟨(n, s), h, rfl⟩⟩)
  obtain ⟨⟨_, t⟩, ht, rfl⟩ := List.mem_map.mp hname
  exact ⟨t, ht⟩

end Procedure

namespace LoopSystem

/-- The sorts that are declared. -/
def declared (s : LoopSystem) : Sorts := s.sorts.get?

theorem get?_sortsOf (ps : List Procedure) (n : String) :
    (sortsOf ps).get? n = (ps.flatMap Procedure.symbols).lookup n := by
  rw [sortsOf, Table.get?_foldl_insertNew]
  rfl

theorem declared_eq (ps : List Procedure) (n : String) :
    (ofProcedures ps).declared n = (ps.flatMap Procedure.symbols).lookup n :=
  get?_sortsOf ps n

theorem declared_isSome {ps : List Procedure} {p : Procedure} {b : Block} {n : String}
    {s : ValueSort} (hp : p ∈ ps) (hb : b ∈ p.blocks) (h : (n, s) ∈ b.mentions) :
    ((ofProcedures ps).declared n).isSome = true := by
  obtain ⟨t, ht⟩ := Procedure.mem_symbols hb h
  rw [declared_eq]
  exact lookup_isSome (List.mem_flatMap.mpr ⟨p, hp, ht⟩)

theorem exists_template {ps : List Procedure} {l : LoopTemplate} (h : l ∈ (ofProcedures ps).loops) :
    ∃ p ∈ ps, ∃ i id, ∃ b ∈ p.blocks, template? (sortsOf ps) p (i, b) id = some l := by
  obtain ⟨⟨⟨p, i, b⟩, id⟩, hmem, hl⟩ := List.mem_filterMap.mp h
  obtain ⟨q, hq, hback⟩ := List.mem_flatMap.mp (List.fst_mem_of_mem_zipIdx hmem)
  obtain ⟨back, hback, heq⟩ := List.mem_map.mp hback
  cases heq
  obtain ⟨⟨b', j⟩, hbj, hsome⟩ := List.mem_filterMap.mp hback
  obtain ⟨-, heq⟩ := Option.ite_none_right_eq_some.mp hsome
  cases heq
  exact ⟨p, hq, i, id, b, List.fst_mem_of_mem_zipIdx hbj, hl⟩

theorem mem_loops {ps : List Procedure} {l : LoopTemplate} (h : l ∈ (ofProcedures ps).loops) :
    ∃ p ∈ ps, ∃ b ∈ p.blocks, l.postGuard = b.guard ∧ l.vars = b.loopVars ∧
      l.sorts = Table.ofList
        (b.loopVars.filterMap fun v => ((sortsOf ps).get? v.lb).map (v.lb, ·)) := by
  obtain ⟨p, hp, i, id, b, hb, hl⟩ := exists_template h
  refine ⟨p, hp, b, hb, ?_⟩
  simp only [template?, Option.bind_eq_bind, Option.bind_eq_some_iff, Option.pure_def] at hl
  obtain ⟨headIndex, -, head, -, hl⟩ := hl
  cases hl
  exact ⟨rfl, rfl, rfl⟩

theorem checkSort_iff {s : LoopSystem} {e : Expr} {sort : ValueSort} :
    s.checkSort e sort = .ok () ↔
      e.sort? = some sort ∧ ∀ p ∈ e.symbols.entries, (s.declared p.1).getD p.2 = p.2 := by
  rw [checkSort]
  by_cases hsort : e.sort? = some sort
  · rw [if_pos hsort]
    cases hfind : e.symbols.entries.find? fun v => ((s.sorts.get? v.1).getD v.2) ≠ v.2 with
    | none => simpa [hsort, declared] using List.find?_eq_none.mp hfind
    | some v =>
      have hmem := List.mem_of_find?_eq_some hfind
      have hne : (s.declared v.1).getD v.2 ≠ v.2 := by
        simpa [declared] using List.find?_some hfind
      simp only [reduceCtorEq, false_iff]
      exact fun h => hne (h.2 v hmem)
  · simp [hsort]

end LoopSystem

namespace LoopTemplate

/-- The sort at which a variable takes up what flows back. -/
def sortOf (l : LoopTemplate) (x : LoopVar) : ValueSort := (l.sorts.get? x.lb).getD x.post.sort

/-- The first state flows back to the second. -/
structure Flows (l : LoopTemplate) (ρ ρ' : Valuation) : Prop where
  guard : l.postGuard.holds ρ = true
  vars : ∀ x ∈ l.vars, x.post.value ρ = ρ' x.lb (l.sortOf x)

/-- The loop takes its sorts from declarations, and its variables and values are declared. -/
structure Declared (l : LoopTemplate) (Γ : Sorts) : Prop where
  sorts : ∀ x ∈ l.vars, l.sorts.get? x.lb = Γ x.lb
  vars : ∀ x ∈ l.vars, (Γ x.lb).isSome = true
  guard : ∀ p ∈ l.postGuard.occurrences, (Γ p.1).isSome = true
  posts : ∀ x ∈ l.vars, ∀ p ∈ x.post.occurrences, (Γ p.1).isSome = true

variable {l : LoopTemplate} {ρ ρ' : Valuation}

theorem Declared.sortOf_eq {Γ : Sorts} (h : l.Declared Γ) {x : LoopVar} (hx : x ∈ l.vars) :
    Γ x.lb = some (l.sortOf x) := by
  obtain ⟨s, hs⟩ := Option.isSome_iff_exists.mp (h.vars x hx)
  rw [sortOf, h.sorts x hx, hs, Option.getD_some]

section reads

variable {Γ : Sorts} (h : l.Declared Γ) (hsame : ∀ n, (Γ n).isSome = true → ρ n = ρ' n)
include h hsame

theorem Declared.value_guard : l.postGuard.value ρ = l.postGuard.value ρ' :=
  Expr.value_congr fun p hp => congrFun (hsame p.1 (h.guard p hp)) p.2

theorem Declared.value_post {x : LoopVar} (hx : x ∈ l.vars) : x.post.value ρ = x.post.value ρ' :=
  Expr.value_congr fun p hp => congrFun (hsame p.1 (h.posts x hx p hp)) p.2

end reads

theorem get?_postMap {n : String} (h : ∃ x ∈ l.vars, x.lb = n) :
    ∃ x ∈ l.vars, x.lb = n ∧ l.postMap.get? n = some x.post := by
  obtain ⟨x, hx, rfl⟩ := h
  have hmem : (x.lb, x.post) ∈ l.vars.map fun v => (v.lb, v.post) := List.mem_map.mpr ⟨x, hx, rfl⟩
  obtain ⟨post, hpost, hfrom⟩ := Table.get?_ofList hmem
  obtain ⟨y, hy, heq⟩ := List.mem_map.mp hfrom
  obtain ⟨hlb, rfl⟩ := Prod.mk.inj heq
  exact ⟨y, hy, hlb, hpost⟩

/-- An expression over the variables of the loop takes up the value that flows back. -/
theorem Flows.value_substitute (h : l.Flows ρ ρ') {e : Expr}
    (hvars : ∀ p ∈ e.occurrences, ∃ x ∈ l.vars, x.lb = p.1)
    (hsort : ∀ p ∈ e.occurrences, ∀ x ∈ l.vars, x.lb = p.1 → l.sortOf x = p.2) :
    (e.substitute l.postMap).value ρ = e.value ρ' := by
  refine Expr.value_bind fun p hp => ?_
  obtain ⟨x, hx, hn, hpost⟩ := get?_postMap (hvars p hp)
  rw [hpost, Option.getD_some, h.vars x hx, hn, hsort p hp x hx hn]

theorem value_substitute_congr {e : Expr}
    (hvars : ∀ p ∈ e.occurrences, ∃ x ∈ l.vars, x.lb = p.1)
    (h : ∀ x ∈ l.vars, x.post.value ρ = x.post.value ρ') :
    (e.substitute l.postMap).value ρ = (e.substitute l.postMap).value ρ' := by
  have hbind : (e.substitute l.postMap).value ρ' =
      e.value fun n s => ((l.postMap.get? n).getD (.var n s)).value ρ' :=
    Expr.value_bind fun _ _ => rfl
  rw [hbind]
  refine Expr.value_bind fun p hp => ?_
  obtain ⟨x, hx, -, hpost⟩ := get?_postMap (hvars p hp)
  rw [hpost]
  exact h x hx

end LoopTemplate

theorem LoopSystem.loop_declared {ps : List Procedure} {l : LoopTemplate}
    (h : l ∈ (ofProcedures ps).loops) : l.Declared (ofProcedures ps).declared := by
  obtain ⟨p, hp, b, hb, hguard, hvars, hsorts⟩ := mem_loops h
  have hlb : ∀ x ∈ l.vars, ((ofProcedures ps).declared x.lb).isSome = true := by
    intro x hx
    rw [hvars] at hx
    refine declared_isSome (s := x.post.sort) hp hb ?_
    exact List.mem_append_left _ (List.mem_append_right _ (List.mem_map.mpr ⟨x, hx, rfl⟩))
  have hexpr : ∀ e ∈ [b.guard] ++ b.equalities.map (·.rhs) ++ b.constraints ++ b.cond.toList ++
      b.loopVars.map (·.post), ∀ q ∈ e.occurrences,
      ((ofProcedures ps).declared q.1).isSome = true := by
    intro e he q hq
    obtain ⟨t, ht, -⟩ := Expr.mem_symbols hq
    exact declared_isSome hp hb
      (List.mem_append_right _ (List.mem_flatMap.mpr ⟨e, he, ht⟩))
  refine ⟨fun x hx => ?_, hlb, ?_, fun x hx => ?_⟩
  · obtain ⟨s, hs⟩ := Option.isSome_iff_exists.mp (hlb x hx)
    have hs' : (sortsOf ps).get? x.lb = some s := hs
    have hmem : (x.lb, s) ∈
        b.loopVars.filterMap fun v => ((sortsOf ps).get? v.lb).map (v.lb, ·) :=
      List.mem_filterMap.mpr ⟨x, hvars ▸ hx, by rw [hs']; rfl⟩
    obtain ⟨t, ht, hfrom⟩ := Table.get?_ofList hmem
    obtain ⟨y, -, hy⟩ := List.mem_filterMap.mp hfrom
    obtain ⟨t', ht', heq⟩ := Option.map_eq_some_iff.mp hy
    obtain ⟨hlb', rfl⟩ := Prod.mk.inj heq
    rw [hsorts, ht, ← ht', hlb']
    rfl
  · rw [hguard]
    exact hexpr _ (by simp)
  · rw [hvars] at hx
    exact hexpr _ (List.mem_append_right _ (List.mem_map.mpr ⟨x, hx, rfl⟩))

end InvariantSynthesis
