import InvariantSynthesis.Expr.Build

namespace InvariantSynthesis.Expr

/-- A property of expressions that the logical operators keep. -/
structure Logical (P : Expr → Prop) : Prop where
  bool : ∀ b, P (.bool b)
  not_iff : ∀ {a}, P (.not a) ↔ P a
  and_iff : ∀ {args}, P (.and args) ↔ ∀ a ∈ args, P a
  or_iff : ∀ {args}, P (.or args) ↔ ∀ a ∈ args, P a
  implies : ∀ {a b}, P a → P b → P (.implies a b)

/-- A property of expressions that the arithmetical operators keep. -/
structure Arithmetical (P : Expr → Prop) : Prop where
  int : ∀ k, P (.int k)
  neg_iff : ∀ {a}, P (.neg a) ↔ P a
  add_iff : ∀ {args}, P (.add args) ↔ ∀ a ∈ args, P a
  sub : ∀ {a b}, P a → P b → P (.sub a b)
  mul : ∀ {a} k, P a → P (.mul k a)

variable {P : Expr → Prop} {a b e : Expr} {args items : List Expr}

namespace Logical

variable (hP : Logical P)

include hP

theorem negate (h : P e) : P (negate e) := by
  unfold Expr.negate
  split
  · exact hP.bool _
  · exact hP.not_iff.mp h
  · exact hP.not_iff.mpr h

theorem conjuncts (h : ∀ e ∈ items, P e) (hargs : conjuncts items = some args) :
    ∀ a ∈ args, P a := by
  fun_induction Expr.conjuncts items generalizing args with
  | case1 =>
    cases hargs
    exact h
  | case2 rest ih => exact ih (List.forall_mem_cons.mp h).2 hargs
  | case3 => cases hargs
  | case4 inner rest ih =>
    obtain ⟨tail, htail, rfl⟩ := Option.map_eq_some_iff.mp hargs
    obtain ⟨hinner, hrest⟩ := List.forall_mem_cons.mp h
    exact List.forall_mem_append.mpr ⟨hP.and_iff.mp hinner, ih hrest htail⟩
  | case5 e rest _ _ _ ih =>
    obtain ⟨tail, htail, rfl⟩ := Option.map_eq_some_iff.mp hargs
    obtain ⟨he, hrest⟩ := List.forall_mem_cons.mp h
    exact List.forall_mem_cons.mpr ⟨he, ih hrest htail⟩

theorem conj (h : ∀ e ∈ items, P e) : P (conj items) := by
  unfold Expr.conj
  split
  · exact hP.bool false
  · exact hP.bool true
  · rename_i e hargs
    exact hP.conjuncts h hargs e List.mem_cons_self
  · rename_i hargs
    exact hP.and_iff.mpr (hP.conjuncts h hargs)

theorem disjuncts (h : ∀ e ∈ items, P e) (hargs : disjuncts items = some args) :
    ∀ a ∈ args, P a := by
  fun_induction Expr.disjuncts items generalizing args with
  | case1 =>
    cases hargs
    exact h
  | case2 rest ih => exact ih (List.forall_mem_cons.mp h).2 hargs
  | case3 => cases hargs
  | case4 inner rest ih =>
    obtain ⟨tail, htail, rfl⟩ := Option.map_eq_some_iff.mp hargs
    obtain ⟨hinner, hrest⟩ := List.forall_mem_cons.mp h
    exact List.forall_mem_append.mpr ⟨hP.or_iff.mp hinner, ih hrest htail⟩
  | case5 e rest _ _ _ ih =>
    obtain ⟨tail, htail, rfl⟩ := Option.map_eq_some_iff.mp hargs
    obtain ⟨he, hrest⟩ := List.forall_mem_cons.mp h
    exact List.forall_mem_cons.mpr ⟨he, ih hrest htail⟩

theorem disj (h : ∀ e ∈ items, P e) : P (disj items) := by
  unfold Expr.disj
  split
  · exact hP.bool true
  · exact hP.bool false
  · rename_i e hargs
    exact hP.disjuncts h hargs e List.mem_cons_self
  · rename_i hargs
    exact hP.or_iff.mpr (hP.disjuncts h hargs)

theorem imply (ha : P a) (hb : P b) : P (imply a b) := by
  unfold Expr.imply
  split
  · exact hb
  · exact hP.bool true
  · exact hP.bool true
  · exact hP.negate ha
  · exact hP.implies ha hb

end Logical

namespace Arithmetical

variable (hP : Arithmetical P)

include hP

theorem opposite (h : P e) : P (opposite e) := by
  unfold Expr.opposite
  split
  · split
    · exact hP.int _
    · exact hP.neg_iff.mpr h
  · exact hP.neg_iff.mp h
  · exact hP.neg_iff.mpr h

theorem summands (h : P e) : ∀ a ∈ summands e, P a := by
  unfold Expr.summands
  split
  · split
    · exact fun a ha => absurd ha List.not_mem_nil
    · exact List.forall_mem_singleton.mpr h
  · exact hP.add_iff.mp h
  · exact List.forall_mem_singleton.mpr h

theorem sum (h : ∀ e ∈ items, P e) : P (sum items) := by
  have hall : ∀ a ∈ items.flatMap Expr.summands, P a := by
    intro a ha
    obtain ⟨e, he, ha⟩ := List.mem_flatMap.mp ha
    exact hP.summands (h e he) a ha
  unfold Expr.sum
  split
  · exact hP.int 0
  · rename_i e hargs
    rw [hargs] at hall
    exact hall e List.mem_cons_self
  · exact hP.add_iff.mpr hall

theorem minus (ha : P a) (hb : P b) : P (minus a b) := by
  unfold Expr.minus
  split
  · split
    · exact ha
    · exact hP.sub ha hb
  · exact hP.sub ha hb

theorem scale (k : Int) (h : P e) : P (scale k e) := by
  unfold Expr.scale
  split
  · exact hP.int 0
  split
  · exact h
  split
  · exact hP.opposite h
  split
  · split
    · exact hP.int _
    · exact hP.mul k h
  · exact hP.mul k h

end Arithmetical

end InvariantSynthesis.Expr
