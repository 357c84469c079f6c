import InvariantSynthesis.Proofs.Domain.Ranking
import InvariantSynthesis.Proofs.Expr.Occurrence
import InvariantSynthesis.Proofs.Template.SortCheck

namespace InvariantSynthesis

section checks

variable {ps : List Procedure} {l : LoopTemplate} {e : Expr} {sort : ValueSort} {x : LoopVar}

/-- A checked expression over a loop uses its variables as integers, which the procedures allow. -/
theorem LoopSystem.allow_of_checkSort (hl : l ∈ (ofProcedures ps).loops) (hover : e.Over l)
    (hcheck : (ofProcedures ps).checkSort e sort = .ok ()) (hx : x ∈ l.vars)
    (hmention : e.Mentions x.lb) : Procedure.Allow ps (x.lb, .int) := by
  obtain ⟨used, hmem⟩ := hmention
  have hdeclared := loop_declared hl
  have hsort : l.sortOf x = .int :=
    (hdeclared.sortOf_of_checkSort hover hcheck _ hmem x hx rfl).trans (hover _ hmem).1
  rw [← getD_declared, hdeclared.sortOf_eq hx, hsort]
  rfl

theorem LoopTemplate.sort_post (hpost : l.postMap.get? x.lb = some x.post) (hmention : e.Mentions x.lb)
    (h : ∀ p ∈ e.occurrences, ((l.postMap.get? p.1).getD (.var p.1 p.2)).sort? = some .int) :
    x.post.sort? = some .int := by
  obtain ⟨used, hmem⟩ := hmention
  have hsort := h _ hmem
  rwa [hpost, Option.getD_some] at hsort

end checks

section rows

attribute [local simp] Expr.intVar Expr.bind Expr.occurrences Expr.sort?

variable {f : String → ValueSort → Expr} {e : Expr}

theorem TemplateShape.sort_bind {shape : TemplateShape} {withheld : NameSet} {vars : List LoopVar}
    (he : e ∈ shape.exprs withheld vars) (h : (e.bind f).sort? = some .int) :
    ∀ p ∈ e.occurrences, (f p.1 p.2).sort? = some .int := by
  rcases mem_exprs he with ⟨x, -, rfl | rfl⟩ | ⟨x, -, y, -, he⟩
  · simpa using h
  · simpa [Expr.opposite] using h
  · simp only [relations, List.mem_cons, List.not_mem_nil, or_false] at he
    rcases he with rfl | rfl | rfl | rfl
    · simpa [Expr.minus] using h
    · simpa [Expr.minus] using h
    · simpa [Expr.plus, Expr.sum, Expr.summands, Expr.bindAll, Expr.occurrencesAll,
        Expr.allOfSort] using h
    · simpa [Expr.opposite, Expr.minus] using h

theorem PredicateDomain.sort_bind {vars : List LoopVar}
    (he : e ∈ inequalities (vars.map fun x => .intVar x.lb)) (h : (e.bind f).sort? = some .bool) :
    ∀ p ∈ e.occurrences, (f p.1 p.2).sort? = some .int := by
  rcases List.mem_append.mp he with he | he
  · obtain ⟨a, ha, rfl⟩ := List.mem_map.mp he
    obtain ⟨x, -, rfl⟩ := List.mem_map.mp ha
    simpa [Expr.atLeast] using h
  · obtain ⟨⟨a, b⟩, hab, he⟩ := List.mem_flatMap.mp he
    obtain ⟨x, -, rfl⟩ := List.mem_map.mp (mem_pairs hab).1
    obtain ⟨y, -, rfl⟩ := List.mem_map.mp (mem_pairs hab).2
    obtain rfl | rfl : e = .le (.intVar x.lb) (.intVar y.lb) ∨
        e = .le (.intVar y.lb) (.intVar x.lb) := by
      simpa using he
    · simpa using h
    · simpa using h

end rows

section pairs

theorem mem_pairs_or {α : Type} {xs : List α} {x y : α} (hx : x ∈ xs) (hy : y ∈ xs) (hne : x ≠ y) :
    (x, y) ∈ pairs xs ∨ (y, x) ∈ pairs xs := by
  induction xs with
  | nil => cases hx
  | cons z xs ih =>
    rw [pairs]
    obtain rfl | hxs := List.mem_cons.mp hx
    · have hys := (List.mem_cons.mp hy).resolve_left (Ne.symm hne)
      left
      exact List.mem_append_left _ (List.mem_map.mpr ⟨y, hys, rfl⟩)
    obtain rfl | hys := List.mem_cons.mp hy
    · right
      exact List.mem_append_left _ (List.mem_map.mpr ⟨x, hxs, rfl⟩)
    · apply (ih hxs hys).imp
      · exact List.mem_append_right _
      · exact List.mem_append_right _

theorem Expr.sort_sides {a b : Expr} (h : (Expr.eq a b).sort? = some .bool) :
    ∃ sort, a.sort? = some sort ∧ b.sort? = some sort := by
  rw [Expr.sort?] at h
  cases ha : a.sort? with
  | none => simp [ha] at h
  | some s =>
    cases hb : b.sort? with
    | none => simp [ha, hb] at h
    | some t =>
      have hst : s = t := by simpa [ha, hb] using h
      exact ⟨s, rfl, by rw [hst]⟩

theorem sort_of_pairs {xs : List LoopVar} {p : LoopVar × LoopVar} (hp : p ∈ pairs xs)
    (h : ∀ q ∈ pairs xs, (Expr.eq q.1.post q.2.post).sort? = some .bool) :
    ∃ sort, ∀ x ∈ xs, x.post.sort? = some sort := by
  obtain ⟨sort, hfirst, -⟩ := Expr.sort_sides (h p hp)
  refine ⟨sort, fun x hx => ?_⟩
  by_cases hne : x = p.1
  · rw [hne, hfirst]
  · rcases mem_pairs_or hx (mem_pairs hp).1 hne with hq | hq
    · obtain ⟨t, hx, hy⟩ := Expr.sort_sides (h _ hq)
      rw [hx, ← hy, hfirst]
    · obtain ⟨t, hy, hx⟩ := Expr.sort_sides (h _ hq)
      rw [hx, ← hy, hfirst]

end pairs

section difference

variable {a b : Expr}

theorem Expr.sort_minus (h : (Expr.minus a b).sort? = some .int) : b.sort? = some .int := by
  unfold Expr.minus at h
  split at h
  · rfl
  · rw [Expr.sort?] at h
    split at h
    · rename_i hsorts
      exact hsorts.2
    · cases h

theorem Expr.UsedLast.of_minus {n : String} {sort : ValueSort}
    (h : (Expr.minus (.intVar n) b).UsedLast (n, sort)) : sort = .int ∨ b.UsedLast (n, sort) := by
  rw [← Expr.get?_symbols, Expr.symbols, Table.get?_ofList_eq, Expr.occurrences_minus,
    List.reverse_append, List.lookup_append, Option.or_eq_some_iff] at h
  rcases h with h | ⟨-, h⟩
  · right
    rwa [← Expr.get?_symbols, Expr.symbols, Table.get?_ofList_eq]
  · left
    simpa [Expr.intVar, Expr.occurrences, eq_comm] using h

end difference

section domains

variable {ps : List Procedure}

theorem TemplateDomain.typed {shape : TemplateShape} {withheld : NameSet} {range : Int × Int}
    {d : TemplateDomain} (h : ofLoops (.ofProcedures ps) shape withheld range = .ok d) :
    ∀ r ∈ d.rows, ∀ x ∈ r.loop.vars, r.expr.Mentions x.lb → Procedure.Allow ps (x.lb, .int) ∧
      (r.loop.postMap.get? x.lb = some x.post → x.post.sort? = some .int) := by
  intro r hr x hx hmention
  obtain ⟨hl, hover⟩ := over_loops h r hr
  obtain ⟨rows, hrows, h⟩ := Except.exists_of_bind_ok h
  cases h
  obtain ⟨-, hexpr, hrow⟩ := LoopSystem.mem_rows hrows r hr
  obtain ⟨hpre, hcheck, hpost, -⟩ := LoopSystem.row?_ok hrow
  refine ⟨LoopSystem.allow_of_checkSort hl hover hpre hx hmention, fun hflow => ?_⟩
  rw [hpost] at hcheck
  apply LoopTemplate.sort_post hflow hmention
  exact TemplateShape.sort_bind hexpr (LoopSystem.checkSort_iff.mp hcheck).1

theorem PredicateDomain.typed {d : PredicateDomain} (h : ofLoops (.ofProcedures ps) = .ok d) :
    ∀ c ∈ d.candidates, ∀ x ∈ c.loop.vars, c.pre.Mentions x.lb → Procedure.Allow ps (x.lb, .int) ∧
      (c.loop.postMap.get? x.lb = some x.post → x.post.sort? = some .int) := by
  intro c hc x hx hmention
  obtain ⟨hl, hover⟩ := over_loops h c hc
  obtain ⟨hcs, hcheck⟩ := CandidateDomain.checked_ok h
  rw [hcs] at hc
  obtain ⟨hpre, hpost⟩ := hcheck c hc
  refine ⟨LoopSystem.allow_of_checkSort hl hover hpre hx hmention, fun hflow => ?_⟩
  obtain ⟨l, -, hc⟩ := List.mem_flatMap.mp hc
  obtain ⟨e, he, rfl⟩ := List.mem_map.mp hc
  apply LoopTemplate.sort_post hflow hmention
  exact sort_bind he (LoopSystem.checkSort_iff.mp hpost).1

theorem EqualityDomain.typed {d : EqualityDomain} (h : ofLoops (.ofProcedures ps) = .ok d) :
    ∀ c ∈ d.candidates, ∀ x ∈ c.loop.intVars, c.pre.Mentions x.lb → Procedure.Allow ps (x.lb, .int) ∧
      (x.post.sort? = some .int ∨ ∀ y ∈ c.loop.intVars, y.post.sort? = some .bool) := by
  intro c hc x hx hmention
  obtain ⟨hl, hover⟩ := over_loops h c hc
  obtain ⟨hcs, hcheck⟩ := CandidateDomain.checked_ok h
  rw [hcs] at hc
  have hvar := LoopTemplate.mem_of_mem_intVars hx
  refine ⟨LoopSystem.allow_of_checkSort hl hover (hcheck c hc).1 hvar hmention, ?_⟩
  obtain ⟨l, hl, hc⟩ := List.mem_flatMap.mp hc
  obtain ⟨p, hp, rfl⟩ := List.mem_map.mp hc
  -- Every pair of the loop's variables is a candidate, so one sort is common to all of them.
  have hpairs : ∀ q ∈ pairs l.intVars, (Expr.eq q.1.post q.2.post).sort? = some .bool := by
    intro q hq
    have hpost := (hcheck _ (List.mem_flatMap.mpr ⟨l, hl, List.mem_map.mpr ⟨q, hq, rfl⟩⟩)).2
    exact (LoopSystem.checkSort_iff.mp hpost).1
  obtain ⟨sort, hsort⟩ := sort_of_pairs hp hpairs
  cases sort with
  | bool => exact .inr hsort
  | int => exact .inl (hsort x hx)

theorem RankingDomain.checkSort_of_ofLoops {s : LoopSystem} {maxComponents maxRefinements : Nat}
    {d : RankingDomain} (h : ofLoops s maxComponents maxRefinements = .ok d) :
    ∀ l ∈ s.loops, ∀ x ∈ l.intVars, s.checkSort (.minus (.intVar x.lb) x.post) .int = .ok () := by
  obtain ⟨loops, hloops, -⟩ := Except.exists_of_bind_ok h
  intro l hl x hx
  obtain ⟨ranked, hranked⟩ := exists_of_mapM_ok hloops l hl
  obtain ⟨vars, hvars, -⟩ := Except.exists_of_bind_ok hranked
  obtain ⟨pair, hpair⟩ := exists_of_mapM_ok hvars x hx
  obtain ⟨⟨⟩, hcheck, -⟩ := Except.exists_of_bind_ok hpair
  exact hcheck

theorem RankingDomain.typed {maxComponents maxRefinements : Nat} {d : RankingDomain}
    (h : ofLoops (.ofProcedures ps) maxComponents maxRefinements = .ok d) :
    ∀ l ∈ d.loops, ∀ x ∈ l.loop.intVars, x.post.sort? = some .int ∧
      (Procedure.Allow ps (x.lb, .int) ∨ x.post.UsedLast (x.lb, .bool)) := by
  intro ranked hranked x hx
  rw [loops_of_ofLoops h] at hranked
  obtain ⟨l, hl, rfl⟩ := List.mem_map.mp hranked
  have hcheck := checkSort_of_ofLoops h l hl x hx
  obtain ⟨hsort, hallow⟩ := LoopSystem.checkSort_iff_usedLast.mp hcheck
  refine ⟨Expr.sort_minus hsort, ?_⟩
  have hmem : (x.lb, .int) ∈ (Expr.minus (.intVar x.lb) x.post).occurrences := by
    simp [Expr.occurrences_minus, Expr.intVar, Expr.occurrences]
  obtain ⟨used, hused, -⟩ := Expr.mem_symbols hmem
  have hlast : (Expr.minus (.intVar x.lb) x.post).UsedLast (x.lb, used) :=
    Expr.get?_symbols.mp (Table.find_of_mem (Expr.symbols _).sorted hused)
  cases used with
  | int => exact .inl (hallow _ hlast)
  | bool => exact .inr (hlast.of_minus.resolve_left (by simp))

/-- Sorts across back edges. Let a numeric domain be made for some procedures. A loop variable in a
template row or an inequality may be used as an integer, and what flows back under its name is an
integer. A loop variable in an equality may be used as an integer, and what flows back is an integer
unless all integer variables of the loop take up booleans. For every ranked variable what flows back is
an integer, and the variable may be used as one, unless the value that flows back has a boolean of this
name after which the name does not occur again. -/
theorem variables_typed (ps : List Procedure) :
    (∀ {shape : TemplateShape} {withheld : NameSet} {range : Int × Int} {d : TemplateDomain},
      TemplateDomain.ofLoops (.ofProcedures ps) shape withheld range = .ok d →
        ∀ r ∈ d.rows, ∀ x ∈ r.loop.vars, r.expr.Mentions x.lb → Procedure.Allow ps (x.lb, .int) ∧
          (r.loop.postMap.get? x.lb = some x.post → x.post.sort? = some .int)) ∧
    (∀ {d : PredicateDomain}, PredicateDomain.ofLoops (.ofProcedures ps) = .ok d →
      ∀ c ∈ d.candidates, ∀ x ∈ c.loop.vars, c.pre.Mentions x.lb → Procedure.Allow ps (x.lb, .int) ∧
        (c.loop.postMap.get? x.lb = some x.post → x.post.sort? = some .int)) ∧
    (∀ {d : EqualityDomain}, EqualityDomain.ofLoops (.ofProcedures ps) = .ok d →
      ∀ c ∈ d.candidates, ∀ x ∈ c.loop.intVars, c.pre.Mentions x.lb →
        Procedure.Allow ps (x.lb, .int) ∧
          (x.post.sort? = some .int ∨ ∀ y ∈ c.loop.intVars, y.post.sort? = some .bool)) ∧
    (∀ {maxComponents maxRefinements : Nat} {d : RankingDomain},
      RankingDomain.ofLoops (.ofProcedures ps) maxComponents maxRefinements = .ok d →
        ∀ l ∈ d.loops, ∀ x ∈ l.loop.intVars, x.post.sort? = some .int ∧
          (Procedure.Allow ps (x.lb, .int) ∨ x.post.UsedLast (x.lb, .bool))) :=
  ⟨TemplateDomain.typed, PredicateDomain.typed, EqualityDomain.typed, RankingDomain.typed⟩

end domains

/-- A loop with two numbers. What flows back is one expression for each of them. -/
def twoNumbers (x y : Expr) : Procedure where
  name := "numbers"
  blocks := [
    { location := 1, source := ⟨"numbers", 1⟩
      equalities := [⟨"x1", .ite (.boolVar "$guard#ls2") (.intVar "x#lb2") (.int 0)⟩,
        ⟨"y1", .ite (.boolVar "$guard#ls2") (.intVar "y#lb2") (.int 0)⟩] },
    { location := 2, source := ⟨"numbers", 2⟩, head := some 0
      loopVars := [⟨"x#lb2", x, false⟩, ⟨"y#lb2", y, false⟩] }]

def swapping : Procedure := twoNumbers (.intVar "y1") (.intVar "x1")

def comparing : Procedure := twoNumbers (.lt (.intVar "x1") (.int 5)) (.lt (.intVar "y1") (.int 5))

/-- A flag takes up a number that depends on the flag. -/
def counted : Procedure where
  name := "counted"
  inputs := [("x#lb2", .bool)]
  blocks := [
    { location := 1, source := ⟨"counted", 1⟩ },
    { location := 2, source := ⟨"counted", 2⟩, head := some 0
      loopVars := [⟨"x#lb2", .ite (.boolVar "x#lb2") (.int 1) (.int 0), false⟩] }]

/-- All four domains can be made for this loop, and its variables occur in each of them. -/
theorem variables_typed_swapping :
    (∃ d, TemplateDomain.ofLoops (.ofProcedures [swapping]) .octagons .empty (-2, 1) = .ok d ∧
      ∃ r ∈ d.rows, ∃ x ∈ r.loop.vars, r.expr.Mentions x.lb ∧
        Procedure.Allow [swapping] (x.lb, .int) ∧ x.post.sort? = some .int) ∧
    (∃ d, PredicateDomain.ofLoops (.ofProcedures [swapping]) = .ok d ∧
      ∃ c ∈ d.candidates, ∃ x ∈ c.loop.vars, c.pre.Mentions x.lb ∧
        Procedure.Allow [swapping] (x.lb, .int) ∧ x.post.sort? = some .int) ∧
    (∃ d, EqualityDomain.ofLoops (.ofProcedures [swapping]) = .ok d ∧
      ∃ c ∈ d.candidates, ∃ x ∈ c.loop.intVars, c.pre.Mentions x.lb ∧
        Procedure.Allow [swapping] (x.lb, .int) ∧
          (x.post.sort? = some .int ∨ ∀ y ∈ c.loop.intVars, y.post.sort? = some .bool)) ∧
    ∃ d, RankingDomain.ofLoops (.ofProcedures [swapping]) 1 20 = .ok d ∧
      ∃ l ∈ d.loops, ∃ x ∈ l.loop.intVars, x.post.sort? = some .int ∧
        (Procedure.Allow [swapping] (x.lb, .int) ∨ x.post.UsedLast (x.lb, .bool)) := by
  obtain ⟨hrows, hinequalities, hequalities, hranked⟩ := variables_typed [swapping]
  refine ⟨?_, ?_, ?_, ?_⟩
  · obtain ⟨d, hd, r, hr, x, hx, hmention, hflow⟩ :
        ∃ d, TemplateDomain.ofLoops (.ofProcedures [swapping]) .octagons .empty (-2, 1) = .ok d ∧
          ∃ r ∈ d.rows, ∃ x ∈ r.loop.vars, r.expr.Mentions x.lb ∧
            r.loop.postMap.get? x.lb = some x.post :=
      ⟨_, rfl, _, List.mem_cons_self, _, List.mem_cons_self, ⟨.int, List.mem_cons_self⟩, rfl⟩
    obtain ⟨hallow, hsort⟩ := hrows hd r hr x hx hmention
    exact ⟨d, hd, r, hr, x, hx, hmention, hallow, hsort hflow⟩
  · obtain ⟨d, hd, c, hc, x, hx, hmention, hflow⟩ :
        ∃ d, PredicateDomain.ofLoops (.ofProcedures [swapping]) = .ok d ∧
          ∃ c ∈ d.candidates, ∃ x ∈ c.loop.vars, c.pre.Mentions x.lb ∧
            c.loop.postMap.get? x.lb = some x.post :=
      ⟨_, rfl, _, List.mem_cons_self, _, List.mem_cons_self, ⟨.int, List.mem_cons_self⟩, rfl⟩
    obtain ⟨hallow, hsort⟩ := hinequalities hd c hc x hx hmention
    exact ⟨d, hd, c, hc, x, hx, hmention, hallow, hsort hflow⟩
  · obtain ⟨d, hd, c, hc, x, hx, hmention⟩ :
        ∃ d, EqualityDomain.ofLoops (.ofProcedures [swapping]) = .ok d ∧
          ∃ c ∈ d.candidates, ∃ x ∈ c.loop.intVars, c.pre.Mentions x.lb :=
      ⟨_, rfl, _, List.mem_cons_self, _, List.mem_cons_self, ⟨.int, List.mem_cons_self⟩⟩
    exact ⟨d, hd, c, hc, x, hx, hmention, hequalities hd c hc x hx hmention⟩
  · obtain ⟨d, hd, l, hl, x, hx⟩ :
        ∃ d, RankingDomain.ofLoops (.ofProcedures [swapping]) 1 20 = .ok d ∧
          ∃ l ∈ d.loops, ∃ x, x ∈ l.loop.intVars :=
      ⟨_, rfl, _, List.mem_cons_self, _, List.mem_cons_self⟩
    exact ⟨d, hd, l, hl, x, hx, hranked hd l hl x hx⟩

/-- Two variables have one name, and only the second one takes up a number. -/
def repeated : Procedure where
  name := "repeated"
  inputs := [("x#lb2", .int), ("f", .bool)]
  blocks := [
    { location := 1, source := ⟨"repeated", 1⟩ },
    { location := 2, source := ⟨"repeated", 2⟩, head := some 0
      loopVars := [⟨"x#lb2", .boolVar "f", false⟩, ⟨"x#lb2", .int 1, false⟩] }]

/-- The equality of two numbers is made although both take up booleans. The flag is ranked as a number:
its use as a flag, which is the last one, is the only one that is checked. In rows and inequalities the
second of the values that flow back under one name hides the first, which is a boolean. -/
theorem flags_accepted :
    (∃ d, EqualityDomain.ofLoops (.ofProcedures [comparing]) = .ok d ∧
      ∃ c ∈ d.candidates, ∃ x ∈ c.loop.intVars, c.pre.Mentions x.lb ∧ x.post.sort? = some .bool) ∧
    (∃ d, RankingDomain.ofLoops (.ofProcedures [counted]) 1 20 = .ok d ∧
      ∃ l ∈ d.loops, ∃ x ∈ l.loop.intVars, ¬ Procedure.Allow [counted] (x.lb, .int)) ∧
    (∃ d, TemplateDomain.ofLoops (.ofProcedures [repeated]) .intervals .empty (-2, 1) = .ok d ∧
      ∃ r ∈ d.rows, ∃ x ∈ r.loop.vars, r.expr.Mentions x.lb ∧ x.post.sort? = some .bool) ∧
    ∃ d, PredicateDomain.ofLoops (.ofProcedures [repeated]) = .ok d ∧
      ∃ c ∈ d.candidates, ∃ x ∈ c.loop.vars, c.pre.Mentions x.lb ∧ x.post.sort? = some .bool :=
  ⟨⟨_, rfl, _, List.mem_cons_self, _, List.mem_cons_self, ⟨.int, List.mem_cons_self⟩, rfl⟩,
    ⟨_, rfl, _, List.mem_cons_self, _, List.mem_cons_self, by decide⟩,
    ⟨_, rfl, _, List.mem_cons_self, _, List.mem_cons_self, ⟨.int, List.mem_cons_self⟩, rfl⟩,
    ⟨_, rfl, _, List.mem_cons_self, _, List.mem_cons_self, ⟨.int, List.mem_cons_self⟩, rfl⟩⟩

end InvariantSynthesis
